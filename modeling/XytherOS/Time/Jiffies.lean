import XytherOS.Ds.EmbeddedSorted
import XytherOS.Sync.Wait

/-!
# Jiffies — sleeping threads and their clocks (`dev/chr/timer/jiffies.c`)

A thread that sleeps puts a clock with its id into `jiffies_clocks` and itself into
`jiffies_waiters`.  The worker takes the clocks that have expired out of the one queue and wakes
the threads with their ids in the other.

* A thread is named by its id: `alloc_tid` counts them up from one.
* The two queues have locks of their own.  What a thread does under one of them is one step, and so
  is one turn of the loop of the worker; each step says what `jiffies_get` returns in it.
* `jiffies_clocks` is the list of its clocks; that `embedded_enqueue_sorted` behaves as
  `listInsertSorted` is proved with it.
-/

namespace XytherOS
namespace Time
namespace Jiffies

open Sync Ds

structure Clock (T : Type) where
  tid : T
  jiffies : BitVec 64
  deriving DecidableEq, Repr

def timeAfter (unknown known : BitVec 64) : Bool := known.toInt - unknown.toInt < 0

def timeBefore (unknown known : BitVec 64) : Bool := unknown.toInt - known.toInt < 0

/-- Where a thread is in `jiffies_sleep`: outside; before the test of its loop; past
`jiffies_create_clock`; in the wait.  Inside it has its `expr`. -/
inductive Pc
  | idle
  | looping (expr : BitVec 64)
  | created (expr : BitVec 64)
  | waiting (expr : BitVec 64)
  deriving DecidableEq, Repr

def Pc.isCreated : Pc → Bool
  | .created _ => true
  | _ => false

def Pc.isWaiting : Pc → Bool
  | .waiting _ => true
  | _ => false

structure State (T : Type) where
  clocks : List (Clock T)
  waits : Waits T Unit
  pc : T → Pc

def State.init {T : Type} (wakeup : T → Wakeup) (canceled : T → Bool) : State T :=
  { clocks := []
    waits := .init wakeup canceled
    pc := fun _ => .idle }

variable {T : Type} [DecidableEq T]

namespace State

def withWaits (s : State T) (w : Waits T Unit) : State T := { s with waits := w }

def setPc (s : State T) (t : T) (pc : Pc) : State T :=
  { s with pc := Function.update s.pc t pc }

def waiters (s : State T) : List T := s.waits.queue ()

end State

def compareClocks (a b : Clock T) : Ordering := compare a.jiffies.toNat b.jiffies.toNat

def jiffiesCreateClock (s : State T) (t : T) (jiffy : BitVec 64) (memory : Bool) : Ret × State T :=
  if memory then
    let clock : Clock T := { tid := t, jiffies := jiffy }
    match listInsertSorted (compareClocks clock) .unique clock s.clocks with
    | some clocks => (.ok, { s with clocks := clocks })
    | none => (.err .EEXIST, s)
  else
    (.err .ENOMEM, s)

def sleepFirst (w : Waits T Unit) (t : T) : Waits T Unit :=
  (w.setQueue () (t :: w.queue ())).setThread t
    { w.thread t with state := .sleep, waitQueue := some () }

/-- `sched_wait_whence(jiffies_waiters, T_SLEEP, QUEUE_HEAD, ..)` up to the context switch. -/
def schedWaitHead (w : Waits T Unit) (t : T) : Ret × Waits T Unit :=
  match currentCheckInterrupted w t with
  | (.err e, w) => (.err e, w)
  | (.ok, w) => if t ∈ w.queue () then (.err .EEXIST, w) else (.ok, sleepFirst w t)

/-- `sched_wakeup_specific(jiffies_waiters, WAKEUP_NORMAL, tid)`. -/
def schedWakeupSpecific (w : Waits T Unit) (tid : T) : Ret × Waits T Unit :=
  if tid ∈ w.queue () then schedDetachAndWakeup w () tid .normal else (.err .ESRCH, w)

/-- The loop of `jiffies_sleep` from its test to its call of `sched_wait_whence`. -/
def sleepTest (s : State T) (t : T) (expr now : BitVec 64) (memory : Bool) : State T :=
  if timeBefore now expr then
    match jiffiesCreateClock s t expr memory with
    | (.ok, s) => s.setPc t (.created expr)
    | (.err _, s) => s
  else
    s.setPc t .idle

/-- The call of `sched_wait_whence` up to the context switch. -/
def sleepJoin (s : State T) (t : T) (expr : BitVec 64) : State T :=
  match schedWaitHead s.waits t with
  | (.ok, w) => (s.withWaits w).setPc t (.waiting expr)
  | (.err _, w) => (s.withWaits w).setPc t .idle

/-- The loop of `jiffies_sleep` from the return of the thread to its next test. -/
def sleepResume (s : State T) (t : T) (expr : BitVec 64) : State T :=
  match schedWaitLeave s.waits t with
  | (.ok, w) => (s.withWaits w).setPc t (.looping expr)
  | (.err _, w) => (s.withWaits w).setPc t .idle

def workerTurn (s : State T) (clock : Clock T) (now : BitVec 64) : State T :=
  if timeAfter now clock.jiffies then
    { s with
      clocks := s.clocks.erase clock
      waits := (schedWakeupSpecific s.waits clock.tid).2 }
  else
    s

/-- The steps.  `interrupt` is a `thread_wakeup` from outside, such as that of a signal. -/
inductive Act (T : Type)
  | sleep (t : T) (jiffies now : BitVec 64)
  | test (t : T) (now : BitVec 64) (memory : Bool)
  | join (t : T)
  | resume (t : T)
  | interrupt (t : T) (reason : Wakeup)
  | cancel (t : T)
  | worker (clock : Clock T) (now : BitVec 64)

/-- One step; a thread that is not where the step starts does not move.  The worker meets the clocks
in the order of the queue, here it may meet any of them. -/
def step (s : State T) : Act T → Except Fault (State T)
  | .sleep t jiffies now =>
    return if s.pc t = .idle ∧ s.waits.ready t then s.setPc t (.looping (jiffies + now)) else s
  | .test t now memory =>
    return match s.pc t with
      | .looping expr => sleepTest s t expr now memory
      | _ => s
  | .join t =>
    return match s.pc t with
      | .created expr => sleepJoin s t expr
      | _ => s
  | .resume t =>
    return match s.pc t with
      | .waiting expr => if s.waits.ready t then sleepResume s t expr else s
      | _ => s
  | .interrupt t reason => return s.withWaits (threadWakeup s.waits t reason).2
  | .cancel t => return s.withWaits (s.waits.cancel t)
  | .worker clock now => return if clock ∈ s.clocks then workerTurn s clock now else s

/-! ## Clocks of the sleepers -/

def HasClock (s : State T) (t : T) : Prop := ∃ clock ∈ s.clocks, clock.tid = t

instance (s : State T) (t : T) : Decidable (HasClock s t) :=
  inferInstanceAs (Decidable (∃ clock ∈ s.clocks, clock.tid = t))

/-- The step does not take the last clock of a thread that is not in the queue yet. -/
def keepsClock (s : State T) : Act T → Bool
  | .worker clock now => !timeAfter now clock.jiffies || !(s.pc clock.tid).isCreated ||
      (s.clocks.erase clock).any fun other => decide (other.tid = clock.tid)
  | _ => true

variable {s : State T} {t u : T} {expr now : BitVec 64}

structure Eases (w w' : Waits T Unit) : Prop where
  queue : ∀ u, u ∈ w'.queue () → u ∈ w.queue ()
  ready : ∀ u, w.ready u = true → w'.ready u = true

theorem Eases.refl (w : Waits T Unit) : Eases w w := ⟨fun _ hu => hu, fun _ hu => hu⟩

theorem eases_woken (w : Waits T Unit) (t : T) (reason : Wakeup) :
    Eases w (w.woken () t reason) := by
  refine ⟨fun u hu => ?_, fun u hu => ?_⟩
  · rw [Waits.woken_queue, if_pos rfl] at hu
    exact List.mem_of_mem_erase hu
  · rw [Waits.woken_ready, hu, Bool.or_true]

theorem eases_schedule (w : Waits T Unit) (t : T) (reason : Wakeup) :
    Eases w (w.schedule t reason) := by
  refine ⟨fun u hu => hu, fun u hu => ?_⟩
  by_cases hut : u = t
  · subst hut
    simp [Waits.ready, Waits.schedule]
  · simpa [Waits.ready, Waits.schedule, Waits.setThread_of_ne, hut] using hu

theorem eases_setWakeup (w : Waits T Unit) (t : T) (reason : Wakeup) :
    Eases w (w.setWakeup t reason) := by
  refine ⟨fun u hu => hu, fun u hu => ?_⟩
  rw [Waits.setWakeup_ready]
  exact hu

theorem eases_cancel (w : Waits T Unit) (t : T) : Eases w (w.cancel t) := by
  refine ⟨fun u hu => hu, fun u hu => ?_⟩
  rw [Waits.cancel_ready]
  exact hu

variable {w : Waits T Unit}

theorem eases_threadWakeup (h : Orderly w) (t : T) (reason : Wakeup) :
    Eases w (threadWakeup w t reason).2 := by
  by_cases hreason : reason = .normal ∨ reason = .signal ∨ reason = .timeout
  swap
  · have hinvalid : reason ≠ .normal ∧ reason ≠ .signal ∧ reason ≠ .timeout := by tauto
    rw [threadWakeup, if_pos hinvalid]
    exact Eases.refl w
  by_cases hmem : t ∈ w.queue ()
  · rw [h.threadWakeup_mem hmem hreason]
    exact eases_woken w t reason
  · have hvalid : ¬ (reason ≠ .normal ∧ reason ≠ .signal ∧ reason ≠ .timeout) := by tauto
    rw [threadWakeup, if_neg hvalid]
    split_ifs with hblocked
    · cases (w.thread t).waitQueue with
      | some q =>
        simp only
        rw [schedDetachAndWakeup, if_neg hmem]
        exact Eases.refl w
      | none => exact eases_schedule w t reason
    · exact Eases.refl w

theorem sleepFirst_orderly (h : Orderly w) (ht : w.ready t = true) :
    Orderly (sleepFirst w t) := by
  refine Orderly.of_perm (h.sleepOn ht) rfl fun q => ?_
  change ((w.setQueue () (t :: w.queue ())).queue q).Perm ((w.sleepOn t ()).queue q)
  rw [Waits.setQueue_queue, Waits.sleepOn_queue, if_pos rfl, if_pos rfl]
  exact (List.perm_append_singleton t (w.queue ())).symm

theorem mem_sleepFirst :
    u ∈ (sleepFirst w t).queue () ↔ u = t ∨ u ∈ w.queue () := by
  change u ∈ (w.setQueue () (t :: w.queue ())).queue () ↔ _
  rw [Waits.setQueue_queue, if_pos rfl, List.mem_cons]

theorem sleepFirst_ready (hut : u ≠ t) :
    (sleepFirst w t).ready u = w.ready u := by
  simp [Waits.ready, sleepFirst, Waits.setThread_of_ne, hut]

theorem schedWaitHead_cases (h : Orderly w) (ht : w.ready t = true) :
    (∃ e, schedWaitHead w t = (.err e, w.setWakeup t .none)) ∨
      schedWaitHead w t = (.ok, sleepFirst (w.setWakeup t .none) t) := by
  rw [schedWaitHead, currentCheckInterrupted]
  by_cases hint : w.interrupted t = true
  · rw [if_pos hint]
    exact .inl ⟨_, rfl⟩
  · have hmem : t ∉ (w.setWakeup t .none).queue () := h.not_mem_of_ready ht ()
    rw [if_neg hint]
    refine .inr ?_
    simp only
    rw [if_neg hmem]

theorem createClock_cases (s : State T) (t : T) (jiffy : BitVec 64) (memory : Bool) :
    (∃ clocks, jiffiesCreateClock s t jiffy memory = (.ok, { s with clocks := clocks }) ∧
      ∀ clock, clock ∈ clocks ↔ clock = { tid := t, jiffies := jiffy } ∨ clock ∈ s.clocks) ∨
    ∃ e, jiffiesCreateClock s t jiffy memory = (.err e, s) := by
  rw [jiffiesCreateClock]
  split_ifs with hmem
  · simp only
    split
    · next clocks heq => exact .inl ⟨clocks, rfl, fun clock => mem_listInsertSorted heq⟩
    · exact .inr ⟨_, rfl⟩
  · exact .inr ⟨_, rfl⟩

theorem wakeupSpecific_spec (h : Orderly w) (tid : T) :
    Orderly (schedWakeupSpecific w tid).2 ∧ Eases w (schedWakeupSpecific w tid).2 ∧
      tid ∉ (schedWakeupSpecific w tid).2.queue () := by
  rw [schedWakeupSpecific]
  split_ifs with hmem
  · rw [h.detach_eq hmem (.inl rfl)]
    refine ⟨h.woken hmem, eases_woken w tid .normal, ?_⟩
    rw [Waits.woken_queue, if_pos rfl]
    exact (h.nodup ()).not_mem_erase
  · exact ⟨h, Eases.refl w, hmem⟩

structure Inv (s : State T) : Prop where
  waits : Orderly s.waits
  ready : ∀ t, (s.pc t).isWaiting = false → s.waits.ready t = true
  created : ∀ t, (s.pc t).isCreated = true → HasClock s t
  queued : ∀ t, t ∈ s.waiters → HasClock s t

theorem setPc_pc (s : State T) (t u : T) (pc : Pc) :
    (s.setPc t pc).pc u = if u = t then pc else s.pc u := by
  simp [State.setPc, Function.update_apply]

theorem Inv.eases (h : Inv s) (hw : Orderly w) (he : Eases s.waits w) :
    Inv (s.withWaits w) :=
  ⟨hw, fun t ht => he.ready t (h.ready t ht), h.created, fun t ht => h.queued t (he.queue t ht)⟩

theorem Inv.setPc (h : Inv s) {pc : Pc} (ht : s.waits.ready t = true)
    (hclock : pc.isCreated = true → HasClock s t) : Inv (s.setPc t pc) := by
  refine ⟨h.waits, fun u hu => ?_, fun u hu => ?_, h.queued⟩
  · by_cases hut : u = t
    · rw [hut]
      exact ht
    · rw [setPc_pc, if_neg hut] at hu
      exact h.ready u hu
  · rw [setPc_pc] at hu
    by_cases hut : u = t
    · rw [if_pos hut] at hu
      rw [hut]
      exact hclock hu
    · rw [if_neg hut] at hu
      exact h.created u hu

theorem Inv.addClock (h : Inv s) {clocks : List (Clock T)}
    (hsub : ∀ clock, clock ∈ s.clocks → clock ∈ clocks) : Inv { s with clocks := clocks } := by
  have hclock : ∀ t, HasClock s t → HasClock { s with clocks := clocks } t := by
    rintro t ⟨clock, hmem, htid⟩
    exact ⟨clock, hsub clock hmem, htid⟩
  exact ⟨h.waits, h.ready, fun t ht => hclock t (h.created t ht),
    fun t ht => hclock t (h.queued t ht)⟩

theorem Inv.test (h : Inv s) (hpc : s.pc t = .looping expr) (now : BitVec 64) (memory : Bool) :
    Inv (sleepTest s t expr now memory) := by
  have hready : s.waits.ready t = true := h.ready t (by rw [hpc]; rfl)
  rw [sleepTest]
  split_ifs
  swap
  · exact h.setPc hready fun hcreated => absurd hcreated (by simp [Pc.isCreated])
  rcases createClock_cases s t expr memory with ⟨clocks, heq, hmem⟩ | ⟨e, heq⟩
  · rw [heq]
    have hadd : Inv { s with clocks := clocks } := h.addClock fun c hc => (hmem c).2 (.inr hc)
    exact hadd.setPc hready fun _ => ⟨_, (hmem _).2 (.inl rfl), rfl⟩
  · rw [heq]
    exact h

theorem Inv.join (h : Inv s) (hpc : s.pc t = .created expr) : Inv (sleepJoin s t expr) := by
  have hready : s.waits.ready t = true := h.ready t (by rw [hpc]; rfl)
  have hclock : HasClock s t := h.created t (by rw [hpc]; rfl)
  have hset : Inv (s.withWaits (s.waits.setWakeup t .none)) :=
    h.eases h.waits.setWakeup (eases_setWakeup s.waits t .none)
  have hready' : (s.waits.setWakeup t .none).ready t = true := by
    rw [Waits.setWakeup_ready]
    exact hready
  rw [sleepJoin]
  rcases schedWaitHead_cases h.waits hready with ⟨e, heq⟩ | heq
  · rw [heq]
    exact hset.setPc hready' fun hcreated => absurd hcreated (by simp [Pc.isCreated])
  · rw [heq]
    refine ⟨sleepFirst_orderly hset.waits hready', fun u hu => ?_, fun u hu => ?_, fun u hu => ?_⟩
    · rw [setPc_pc] at hu
      by_cases hut : u = t
      · rw [if_pos hut] at hu
        exact absurd hu (by simp [Pc.isWaiting])
      · rw [if_neg hut] at hu
        change (sleepFirst (s.waits.setWakeup t .none) t).ready u = true
        rw [sleepFirst_ready hut]
        exact hset.ready u hu
    · rw [setPc_pc] at hu
      by_cases hut : u = t
      · rw [if_pos hut] at hu
        exact absurd hu (by simp [Pc.isCreated])
      · rw [if_neg hut] at hu
        exact h.created u hu
    · rcases mem_sleepFirst.1 hu with rfl | hu
      · exact hclock
      · exact h.queued u hu

theorem Inv.resume (h : Inv s) (hready : s.waits.ready t = true) :
    Inv (sleepResume s t expr) := by
  have hset : Inv (s.withWaits (s.waits.setWakeup t .none)) :=
    h.eases h.waits.setWakeup (eases_setWakeup s.waits t .none)
  have hready' : (s.waits.setWakeup t .none).ready t = true := by
    rw [Waits.setWakeup_ready]
    exact hready
  have hleave := Orderly.leave_eq s.waits t
  rw [sleepResume]
  rcases heq : schedWaitLeave s.waits t with ⟨ret, w⟩
  rw [heq] at hleave
  dsimp only at hleave
  rw [hleave]
  cases ret with
  | ok => exact hset.setPc hready' fun hcreated => absurd hcreated (by simp [Pc.isCreated])
  | err e => exact hset.setPc hready' fun hcreated => absurd hcreated (by simp [Pc.isCreated])

theorem Inv.worker (h : Inv s) {clock : Clock T}
    (hkeeps : keepsClock s (.worker clock now) = true) : Inv (workerTurn s clock now) := by
  rw [workerTurn]
  split_ifs with hafter
  swap
  · exact h
  obtain ⟨horder, heases, hout⟩ := wakeupSpecific_spec h.waits clock.tid
  -- a clock with another id stays
  have hother : ∀ u, u ≠ clock.tid → HasClock s u → ∃ c ∈ s.clocks.erase clock, c.tid = u := by
    rintro u hne ⟨c, hmem, rfl⟩
    have hc : c ≠ clock := fun heq => hne (congrArg Clock.tid heq)
    exact ⟨c, (List.mem_erase_of_ne hc).2 hmem, rfl⟩
  refine ⟨horder, fun u hu => heases.ready u (h.ready u hu), fun u hu => ?_, fun u hu => ?_⟩
  · by_cases hut : u = clock.tid
    · subst hut
      simp only [keepsClock, hafter, Bool.not_true, Bool.false_or, Bool.or_eq_true,
        Bool.not_eq_true', List.any_eq_true, decide_eq_true_eq] at hkeeps
      rcases hkeeps with hgone | hrest
      · exact absurd hu (by simp [hgone])
      · exact hrest
    · exact hother u hut (h.created u hu)
  · by_cases hut : u = clock.tid
    · subst hut
      exact absurd hu hout
    · exact hother u hut (h.queued u (heases.queue u hu))

theorem Inv.init (wakeup : T → Wakeup) (canceled : T → Bool) :
    Inv (State.init wakeup canceled) := by
  refine ⟨orderly_init wakeup canceled, fun t _ => ?_, fun t ht => ?_, fun t ht => ?_⟩
  · simp [State.init, Waits.ready, Waits.init]
  · exact absurd ht (by simp [State.init, Pc.isCreated])
  · exact absurd ht (by simp [State.init, State.waiters, Waits.init])

theorem Inv.step {a : Act T} (h : Inv s) (ha : keepsClock s a = true) :
    Safe (fun _ => False) (step s a) Inv := by
  cases a with
  | sleep t jiffies now =>
    rw [Jiffies.step]
    refine Safe.ok ?_
    split_ifs with hidle
    · exact h.setPc hidle.2 fun hcreated => absurd hcreated (by simp [Pc.isCreated])
    · exact h
  | test t now memory =>
    rw [Jiffies.step]
    refine Safe.ok ?_
    cases hpc : s.pc t with
    | looping expr => exact h.test hpc now memory
    | idle => exact h
    | created expr => exact h
    | waiting expr => exact h
  | join t =>
    rw [Jiffies.step]
    refine Safe.ok ?_
    cases hpc : s.pc t with
    | created expr => exact h.join hpc
    | idle => exact h
    | looping expr => exact h
    | waiting expr => exact h
  | resume t =>
    rw [Jiffies.step]
    refine Safe.ok ?_
    cases hpc : s.pc t with
    | waiting expr =>
      simp only
      split_ifs with hready
      · exact h.resume hready
      · exact h
    | idle => exact h
    | looping expr => exact h
    | created expr => exact h
  | interrupt t reason =>
    exact h.eases (h.waits.threadWakeup t reason) (eases_threadWakeup h.waits t reason)
  | cancel t => exact h.eases h.waits.cancel (eases_cancel s.waits t)
  | worker clock now =>
    rw [Jiffies.step]
    refine Safe.ok ?_
    split_ifs
    · exact h.worker ha
    · exact h

/-- In every run in which the worker does not take the last clock of a thread on its way to the
queue, every thread in the queue has a clock. -/
theorem sleepers_have_clocks (wakeup : T → Wakeup) (canceled : T → Bool) (acts : List (Act T))
    (hrun : guarded step keepsClock (State.init wakeup canceled) acts = true) :
    Safe (fun _ => False) (runs step (State.init wakeup canceled) acts) fun s =>
      ∀ t, t ∈ s.waiters → HasClock s t := by
  have hsafe : Safe (fun _ => False) (runs step (State.init wakeup canceled) acts) Inv :=
    Safe.runs (fun s a hs ha => hs.step ha) (Inv.init wakeup canceled) hrun
  exact hsafe.mono fun s hs => hs.queued

/-- Two threads with one expiry.  The second has to try again, the first is interrupted and leaves
its clock behind. -/
-- not unfolded when the theorem is applied to it, so that the run is not evaluated there
@[irreducible] def sleepRun : List (Act Nat) :=
  [.sleep 1 5 0, .test 1 0 true, .sleep 2 5 0, .test 2 0 true, .join 1, .interrupt 1 .signal,
    .resume 1, .worker { tid := 1, jiffies := 5 } 6, .test 2 6 true, .sleep 2 3 6, .test 2 6 true,
    .join 2]

theorem sleepers_have_clocks_interrupted :
    guarded step keepsClock (State.init (fun _ => .none) fun _ => false) sleepRun = true ∧
    Safe (fun _ => False) (runs step (State.init (fun _ => .none) fun _ => false) sleepRun) fun s =>
      ∀ t, t ∈ s.waiters → HasClock s t := by
  have hrun : guarded step keepsClock (State.init (fun _ => .none) fun _ => false) sleepRun =
      true := by
    decide +kernel
  exact ⟨hrun, sleepers_have_clocks _ _ sleepRun hrun⟩

/-- The worker takes the clock before its thread is in the queue: the thread waits for nothing. -/
theorem clock_taken_before_join :
    ∃ s, runs step (State.init (fun _ => .none) fun _ => false : State Nat)
        [.sleep 1 1 0, .test 1 0 true, .worker { tid := 1, jiffies := 1 } 2, .join 1] = .ok s ∧
      1 ∈ s.waiters ∧ ¬ HasClock s 1 :=
  ⟨outcome (runs step (State.init (fun _ => .none) fun _ => false : State Nat)
      [.sleep 1 1 0, .test 1 0 true, .worker { tid := 1, jiffies := 1 } 2, .join 1])
      (State.init (fun _ => .none) fun _ => false),
    eq_ok_outcome (by decide +kernel), by decide +kernel⟩

end Jiffies
end Time
end XytherOS
