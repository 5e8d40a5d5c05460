import Mathlib.Data.Fintype.Basic
import Mathlib.Data.List.Nodup
import XytherOS.Sync.Wait

/-!
# Event — the events of `sync/event.c`

An event counts the signals that nobody has taken yet.  Every stretch that a thread executes under
`ev_lock` is one step, and so is the part of `sched_wait` that puts a thread into `ev_waitqueue`:
`await_event` drops `ev_lock` before it.

* The deadline of `await_event_timed` is left open: every test of the clock may have any outcome.
* The caller's own lock, which `sched_wait` drops and takes again, plays no part here.
* `ev_count` is a `long`; it is an integer here.
-/

namespace XytherOS
namespace Sync
namespace Event

/-- Where a thread is: outside; past its test of the flag and not in the queue yet; in the wait.  A
thread inside carries along whether it has a deadline. -/
inductive Pc
  | idle
  | gap (timed : Bool)
  | waiting (timed : Bool)
  deriving DecidableEq, Repr

def Pc.isGap : Pc → Bool
  | .gap _ => true
  | _ => false

def Pc.isWaiting : Pc → Bool
  | .waiting _ => true
  | _ => false

structure State (T : Type) where
  count : Int
  triggered : Bool
  broadcast : Bool
  waits : Waits T Unit
  pc : T → Pc

def awaitEventInit {T : Type} (wakeup : T → Wakeup) (canceled : T → Bool) : State T :=
  { count := 0
    triggered := false
    broadcast := false
    waits := .init wakeup canceled
    pc := fun _ => .idle }

variable {T : Type} [DecidableEq T]

namespace State

def withWaits (s : State T) (w : Waits T Unit) : State T := { s with waits := w }

def setPc (s : State T) (t : T) (pc : Pc) : State T :=
  { s with pc := Function.update s.pc t pc }

def waiters (s : State T) : List T := s.waits.queue ()

def take (s : State T) : State T :=
  { s with
    count := s.count - 1
    triggered := if s.count - 1 = 0 then false else s.triggered }

def takeAvailable (s : State T) : State T := if 0 < s.count then s.take else s

/-- The end of `await_event_timed`, once its loop has seen the flag. -/
def takeWoken (s : State T) : State T :=
  if s.broadcast then
    -- a broadcast counts as one signal until all waiters are processed
    if s.waiters = [] then { s.take with broadcast := false } else s
  else
    s.take

def outside (s : State T) (t : T) : Bool := s.pc t = .idle && s.waits.ready t

def woken (s : State T) (t : T) : Bool := (s.pc t).isWaiting && s.waits.ready t

end State

/-- `await_event_timed`, up to the release of the lock before its first wait.  The answer is `none`
when the thread goes on to wait. -/
def awaitEventTimed (s : State T) (t : T) (timed expired : Bool) : Option Ret × State T :=
  if s.triggered then
    (some .ok, s.takeAvailable)
  else if timed && expired then
    (some (.err .ETIMEDOUT), s)
  else
    (none, s.setPc t (.gap timed))

def awaitEvent (s : State T) (t : T) : Option Ret × State T := awaitEventTimed s t false false

/-- The loop of `await_event_timed` from its call of `sched_wait` to the context switch. -/
def enqueue (s : State T) (t : T) (timed : Bool) : Option Ret × State T :=
  match schedWaitEnter s.waits t () with
  | (.ok, w) => (none, (s.withWaits w).setPc t (.waiting timed))
  | (.err e, w) => (some (.err e), (s.withWaits w).setPc t .idle)

/-- The loop of `await_event_timed` from the return of the thread to its next test. -/
def resume (s : State T) (t : T) (timed expired : Bool) : Option Ret × State T :=
  match schedWaitLeave s.waits t with
  | (.err e, w) => (some (.err e), (s.withWaits w).setPc t .idle)
  | (.ok, w) =>
    if s.triggered then
      (some .ok, (s.withWaits w).takeWoken.setPc t .idle)
    else if timed && expired then
      (some (.err .ETIMEDOUT), (s.withWaits w).setPc t .idle)
    else
      (none, (s.withWaits w).setPc t (.gap timed))

def tryAwaitEvent (s : State T) : Nat × State T :=
  if s.triggered then (1, s.takeAvailable) else (0, s)

def awaitEventSignal (s : State T) : State T :=
  { s with
    count := s.count + 1
    triggered := true
    broadcast := false
    waits := (schedWakeupHead s.waits () .normal).2 }

/-- The steps of the threads; `await` without a deadline is `await_event`. -/
inductive Act (T : Type)
  | await (t : T) (timed expired : Bool)
  | enqueue (t : T)
  | resume (t : T) (expired : Bool)
  | tryAwait
  | signal

def step (s : State T) : Act T → Except Fault (State T)
  | .await t timed expired =>
    return if s.outside t then (awaitEventTimed s t timed expired).2 else s
  | .enqueue t =>
    return match s.pc t with
      | .gap timed => (enqueue s t timed).2
      | _ => s
  | .resume t expired =>
    return match s.pc t with
      | .waiting timed => if s.waits.ready t then (resume s t timed expired).2 else s
      | _ => s
  | .tryAwait => return (tryAwaitEvent s).2
  | .signal => return awaitEventSignal s

/-! ## Waiters beside a signal -/

/-- No call is in progress but those of the threads that sleep in the queue. -/
def Quiet (s : State T) : Prop := ∀ t, s.pc t = .idle ∨ t ∈ s.waiters

/-- The flag says whether the count is zero, and once all is quiet no thread sleeps beside a
recorded signal. -/
structure NoneLost (s : State T) : Prop where
  flag : s.triggered = false ↔ s.count = 0
  asleep : Quiet s → s.waiters ≠ [] → s.triggered = false ∧ s.count = 0

def gapped [Fintype T] (s : State T) : Bool := decide (∃ t, (s.pc t).isGap = true)

/-- The step is no signal that finds the queue empty while a thread is on its way there. -/
def fits [Fintype T] (s : State T) : Act T → Bool
  | .signal => !s.waiters.isEmpty || !gapped s
  | _ => true

variable {s : State T} {t u : T} {timed expired : Bool}

/-! ### Places of the threads -/

structure Placed (s : State T) : Prop where
  waits : Orderly s.waits
  queued : ∀ t, t ∈ s.waiters → (s.pc t).isWaiting = true
  ready : ∀ t, (s.pc t).isWaiting = false → s.waits.ready t = true
  calm : ∀ t, (s.pc t).isWaiting = true → s.waits.interrupted t = false

theorem setPc_pc (s : State T) (t u : T) (pc : Pc) :
    (s.setPc t pc).pc u = if u = t then pc else s.pc u := by
  simp [State.setPc, Function.update_apply]

theorem Placed.setPc (h : Placed s) {pc : Pc} (hpc : pc.isWaiting = false)
    (ht : s.waits.ready t = true) : Placed (s.setPc t pc) := by
  refine ⟨h.waits, fun u hu => ?_, fun u hu => ?_, fun u hu => ?_⟩
  · have hne : u ≠ t := by
      rintro rfl
      exact h.waits.not_mem_of_ready ht () hu
    rw [setPc_pc, if_neg hne]
    exact h.queued u hu
  · by_cases hut : u = t
    · rw [hut]
      exact ht
    · rw [setPc_pc, if_neg hut] at hu
      exact h.ready u hu
  · by_cases hut : u = t
    · rw [setPc_pc, if_pos hut, hpc] at hu
      exact absurd hu (by simp)
    · rw [setPc_pc, if_neg hut] at hu
      exact h.calm u hu

theorem Placed.setWakeup (h : Placed s) (t : T) :
    Placed (s.withWaits (s.waits.setWakeup t .none)) := by
  refine ⟨h.waits.setWakeup, h.queued, fun u hu => ?_, fun u hu => ?_⟩
  · change (s.waits.setWakeup t .none).ready u = true
    rw [Waits.setWakeup_ready]
    exact h.ready u hu
  · have hcalm := h.calm u hu
    change (s.waits.setWakeup t .none).interrupted u = false
    rw [Waits.interrupted, Waits.setWakeup_thread]
    rw [Waits.interrupted] at hcalm
    by_cases hut : u = t
    · subst hut
      simp_all
    · rw [if_neg hut]
      exact hcalm

theorem Placed.sleepOn (h : Placed s) (ht : s.waits.ready t = true)
    (hcalm : s.waits.interrupted t = false) (timed : Bool) :
    Placed ((s.withWaits (s.waits.sleepOn t ())).setPc t (.waiting timed)) := by
  refine ⟨h.waits.sleepOn ht, fun u hu => ?_, fun u hu => ?_, fun u hu => ?_⟩
  · change u ∈ (s.waits.sleepOn t ()).queue () at hu
    rw [Waits.sleepOn_queue, if_pos rfl, List.mem_append, List.mem_singleton] at hu
    rw [setPc_pc]
    by_cases hut : u = t
    · rw [if_pos hut]
      rfl
    · rw [if_neg hut]
      exact h.queued u (hu.resolve_right hut)
  · rw [setPc_pc] at hu
    change (s.waits.sleepOn t ()).ready u = true
    rw [Waits.sleepOn_ready]
    by_cases hut : u = t
    · rw [if_pos hut] at hu
      exact absurd hu (by simp [Pc.isWaiting])
    · rw [if_neg hut] at hu
      have hready : s.waits.ready u = true := h.ready u hu
      simp [hut, hready]
  · rw [setPc_pc] at hu
    change (s.waits.sleepOn t ()).interrupted u = false
    rw [Waits.interrupted, Waits.sleepOn_thread]
    by_cases hut : u = t
    · subst hut
      rw [if_pos rfl]
      exact hcalm
    · rw [if_neg hut] at hu
      rw [if_neg hut]
      exact h.calm u hu

theorem Placed.woken (h : Placed s) (ht : t ∈ s.waiters) :
    Placed (s.withWaits (s.waits.woken () t .normal)) := by
  refine ⟨h.waits.woken ht, fun u hu => ?_, fun u hu => ?_, fun u hu => ?_⟩
  · change u ∈ (s.waits.woken () t .normal).queue () at hu
    rw [Waits.woken_queue, if_pos rfl] at hu
    exact h.queued u (List.mem_of_mem_erase hu)
  · change (s.waits.woken () t .normal).ready u = true
    have hready : s.waits.ready u = true := h.ready u hu
    rw [Waits.woken_ready, hready, Bool.or_true]
  · change (s.waits.woken () t .normal).interrupted u = false
    have hcalm := h.calm u hu
    rw [Waits.interrupted] at hcalm
    rw [Waits.interrupted, Waits.woken_thread]
    by_cases hut : u = t
    · subst hut
      simp_all
    · rw [if_neg hut]
      exact hcalm

/-! ### Signals and the waiters woken for them -/

/-- As many waiters as there are signals have been woken and will take them. -/
def Backed (s : State T) : Prop :=
  ∃ l : List T, l.Nodup ∧ (∀ t, t ∈ l → s.woken t = true) ∧ s.count ≤ l.length

theorem backed_of_zero (h : s.count = 0) : Backed s := by
  refine ⟨[], List.nodup_nil, by simp, ?_⟩
  rw [h]
  rfl

theorem Backed.mono {s' : State T} (h : Backed s) (hcount : s'.count ≤ s.count)
    (hwoken : ∀ t, s.woken t = true → s'.woken t = true) : Backed s' := by
  rcases h with ⟨l, hnd, hl, hle⟩
  exact ⟨l, hnd, fun t ht => hwoken t (hl t ht), by omega⟩

/-- The invariant of the runs: as long as somebody is going to sleep, or sleeps, the signals are
backed. -/
structure Inv (s : State T) : Prop extends Placed s where
  broadcast : s.broadcast = false
  flag : s.triggered = true ↔ 0 < s.count
  nonneg : 0 ≤ s.count
  backed : (∃ t, (s.pc t).isGap = true) ∨ s.waiters ≠ [] → Backed s

theorem Inv.count_of_clear (h : Inv s) (hflag : s.triggered = false) : s.count = 0 := by
  have hpos : ¬ 0 < s.count := fun hpos => by simp [h.flag.2 hpos] at hflag
  have hnonneg := h.nonneg
  omega

theorem Inv.take (h : Inv s) (hpos : 0 < s.count) : Inv s.take := by
  refine ⟨⟨h.waits, h.queued, h.ready, h.calm⟩, h.broadcast, ?_, ?_, ?_⟩
  · simp only [State.take]
    split_ifs with hzero
    · simp [hzero]
    · rw [h.flag]
      omega
  · simp only [State.take]
    omega
  · intro hsome
    refine (h.backed hsome).mono ?_ fun _ ht => ht
    simp only [State.take]
    omega

theorem Inv.takeAvailable (h : Inv s) : Inv s.takeAvailable := by
  rw [State.takeAvailable]
  split_ifs with hpos
  · exact h.take hpos
  · exact h

theorem Inv.setPc (h : Inv s) {pc : Pc} (hpc : pc.isWaiting = false)
    (ht : s.waits.ready t = true) (hwoken : s.woken t = false ∨ s.count = 0)
    (hgap : pc.isGap = true → s.count = 0) : Inv (s.setPc t pc) := by
  refine ⟨h.toPlaced.setPc hpc ht, h.broadcast, h.flag, h.nonneg, fun hsome => ?_⟩
  rcases hwoken with hwoken | hzero
  swap
  · exact backed_of_zero hzero
  by_cases hg : pc.isGap = true
  · exact backed_of_zero (hgap hg)
  -- who is on the way to the queue now was so before
  have hsome' : (∃ u, (s.pc u).isGap = true) ∨ s.waiters ≠ [] := by
    rcases hsome with ⟨u, hu⟩ | hne
    · by_cases hut : u = t
      · rw [setPc_pc, if_pos hut] at hu
        exact absurd hu hg
      · rw [setPc_pc, if_neg hut] at hu
        exact .inl ⟨u, hu⟩
    · exact .inr hne
  refine (h.backed hsome').mono (le_refl s.count) fun u hu => ?_
  have hut : u ≠ t := by
    rintro rfl
    rw [hwoken] at hu
    exact absurd hu (by simp)
  rw [State.woken, setPc_pc, if_neg hut]
  exact hu

theorem not_woken_of_outside (hout : s.outside t = true) : s.woken t = false := by
  simp only [State.outside, Bool.and_eq_true, decide_eq_true_eq] at hout
  rw [State.woken, hout.1]
  rfl

theorem Inv.await (h : Inv s) (hout : s.outside t = true) :
    Inv (awaitEventTimed s t timed expired).2 := by
  have hready : s.waits.ready t = true := by
    simp only [State.outside, Bool.and_eq_true] at hout
    exact hout.2
  rw [awaitEventTimed]
  split_ifs with hflag hexpired
  · exact h.takeAvailable
  · exact h
  · have hzero := h.count_of_clear (by simpa using hflag)
    exact h.setPc rfl hready (.inl (not_woken_of_outside hout)) fun _ => hzero

theorem Inv.tryAwait (h : Inv s) : Inv (tryAwaitEvent s).2 := by
  rw [tryAwaitEvent]
  split_ifs
  · exact h.takeAvailable
  · exact h

theorem Inv.setWakeup (h : Inv s) (t : T) :
    Inv (s.withWaits (s.waits.setWakeup t .none)) := by
  refine ⟨h.toPlaced.setWakeup t, h.broadcast, h.flag, h.nonneg, fun hsome => ?_⟩
  refine (h.backed hsome).mono (le_refl s.count) fun u hu => ?_
  change ((s.pc u).isWaiting && (s.waits.setWakeup t .none).ready u) = true
  rw [Waits.setWakeup_ready]
  exact hu

theorem Inv.sleepOn (h : Inv s) (hgap : (s.pc t).isGap = true)
    (hcalm : s.waits.interrupted t = false) :
    Inv ((s.withWaits (s.waits.sleepOn t ())).setPc t (.waiting timed)) := by
  have hnot : (s.pc t).isWaiting = false := by
    cases hpc : s.pc t with
    | waiting b => simp [hpc, Pc.isGap] at hgap
    | idle => rfl
    | gap b => rfl
  have hready : s.waits.ready t = true := h.ready t hnot
  refine ⟨h.toPlaced.sleepOn hready hcalm timed, h.broadcast, h.flag, h.nonneg, fun _ => ?_⟩
  refine (h.backed (.inl ⟨t, hgap⟩)).mono (le_refl s.count) fun u hu => ?_
  rw [State.woken, Bool.and_eq_true] at hu
  have hut : u ≠ t := by
    rintro rfl
    rw [hnot] at hu
    exact absurd hu.1 (by simp)
  rw [State.woken, setPc_pc, if_neg hut, Bool.and_eq_true]
  refine ⟨hu.1, ?_⟩
  change (s.waits.sleepOn t ()).ready u = true
  simp [Waits.sleepOn_ready, hut, hu.2]

theorem Inv.enqueue (h : Inv s) (hpc : s.pc t = .gap timed) : Inv (enqueue s t timed).2 := by
  have hnot : (s.pc t).isWaiting = false := by rw [hpc]; rfl
  have hready : s.waits.ready t = true := h.ready t hnot
  rw [Event.enqueue]
  cases hint : s.waits.interrupted t with
  | true =>
    rcases Orderly.enter_interrupted hint () with ⟨e, he⟩
    rw [he]
    have h' := h.setWakeup t
    have hready' : (s.waits.setWakeup t .none).ready t = true := by simpa using hready
    have hwoken' : (s.withWaits (s.waits.setWakeup t .none)).woken t = false := by
      simp [State.woken, State.withWaits, hnot]
    exact h'.setPc rfl hready' (.inl hwoken') (by simp [Pc.isGap])
  | false =>
    rw [h.waits.enter_sleeps hready hint ()]
    refine (h.setWakeup t).sleepOn (by simp [State.withWaits, hpc, Pc.isGap]) ?_
    simp only [State.withWaits, Waits.interrupted, Waits.setWakeup_thread, if_pos]
    simp only [Waits.interrupted, Bool.or_eq_false_iff] at hint
    simp [hint.1.1]

theorem Inv.take_leave (h : Inv s) (ht : s.waits.ready t = true) (hpos : 0 < s.count) :
    Inv (s.take.setPc t .idle) := by
  have htake := h.take hpos
  refine ⟨htake.toPlaced.setPc rfl ht, htake.broadcast, htake.flag, htake.nonneg, fun hsome => ?_⟩
  have hsome' : (∃ u, (s.pc u).isGap = true) ∨ s.waiters ≠ [] := by
    rcases hsome with ⟨u, hu⟩ | hne
    · rw [setPc_pc] at hu
      split_ifs at hu
      · exact absurd hu (by simp [Pc.isGap])
      · exact .inl ⟨u, hu⟩
    · exact .inr hne
  rcases h.backed hsome' with ⟨l, hnd, hl, hle⟩
  refine ⟨l.erase t, hnd.erase t, fun u hu => ?_, ?_⟩
  · rw [hnd.mem_erase_iff] at hu
    rw [State.woken, setPc_pc, if_neg hu.1]
    exact hl u hu.2
  · change s.count - 1 ≤ ((l.erase t).length : Int)
    have hlen : l.length ≤ (l.erase t).length + 1 := by
      rw [List.length_erase]
      split <;> omega
    omega

theorem Inv.resume (h : Inv s) (hpc : s.pc t = .waiting timed) (hready : s.waits.ready t = true) :
    Inv (resume s t timed expired).2 := by
  have hcalm : s.waits.interrupted t = false := h.calm t (by rw [hpc]; rfl)
  have hleave : schedWaitLeave s.waits t = (.ok, s.waits.setWakeup t .none) := by
    rw [schedWaitLeave, currentCheckInterrupted, if_neg (by simp [hcalm])]
  have h' := h.setWakeup t
  have hready' : (s.waits.setWakeup t .none).ready t = true := by simpa using hready
  rw [Event.resume, hleave]
  simp only
  split_ifs with hflag hexpired
  · have hpos : 0 < s.count := h.flag.1 hflag
    have htake : (s.withWaits (s.waits.setWakeup t .none)).takeWoken =
        (s.withWaits (s.waits.setWakeup t .none)).take := by
      rw [State.takeWoken, if_neg (by simp [h'.broadcast])]
    rw [htake]
    exact h'.take_leave hready' hpos
  · have hzero := h.count_of_clear (by simpa using hflag)
    exact h'.setPc rfl hready' (.inr hzero) fun _ => hzero
  · have hzero := h.count_of_clear (by simpa using hflag)
    exact h'.setPc rfl hready' (.inr hzero) fun _ => hzero

theorem Inv.signal (h : Inv s) (hok : s.waiters ≠ [] ∨ ∀ t, (s.pc t).isGap = false) :
    Inv (awaitEventSignal s) := by
  have hnonneg := h.nonneg
  have hflag : (awaitEventSignal s).triggered = true ↔ 0 < (awaitEventSignal s).count := by
    simp only [awaitEventSignal, true_iff]
    omega
  have hcount : 0 ≤ (awaitEventSignal s).count := by
    simp only [awaitEventSignal]
    omega
  cases hq : s.waits.queue () with
  | nil =>
    have hwaits : (awaitEventSignal s).waits = s.waits := by
      simp only [awaitEventSignal]
      rw [Orderly.wakeupHead_nil hq]
    have hgap := hok.resolve_left fun hne => hne hq
    refine ⟨⟨?_, ?_, ?_, ?_⟩, rfl, hflag, hcount, ?_⟩
    · rw [hwaits]
      exact h.waits
    · rw [State.waiters, hwaits]
      exact h.queued
    · rw [hwaits]
      exact h.ready
    · rw [hwaits]
      exact h.calm
    · rw [State.waiters, hwaits]
      rintro (⟨u, hu⟩ | hne)
      · exact absurd hu (by simpa [awaitEventSignal] using hgap u)
      · exact absurd hq hne
  | cons t q =>
    have hmem : t ∈ s.waiters := by
      rw [State.waiters, hq]
      exact List.mem_cons_self
    have hwaits : (awaitEventSignal s).waits = s.waits.woken () t .normal := by
      simp only [awaitEventSignal]
      rw [h.waits.wakeupHead_cons hq]
    have hplaced := h.toPlaced.woken hmem
    refine ⟨⟨?_, ?_, ?_, ?_⟩, rfl, hflag, hcount, fun _ => ?_⟩
    · rw [hwaits]
      exact hplaced.waits
    · rw [State.waiters, hwaits]
      exact hplaced.queued
    · rw [hwaits]
      exact hplaced.ready
    · rw [hwaits]
      exact hplaced.calm
    · rcases h.backed (.inr (List.ne_nil_of_mem hmem)) with ⟨l, hnd, hl, hle⟩
      have hasleep : s.waits.ready t = false := by
        have hsleep := ((h.waits.mem t ()).1 hmem).1
        simp [Waits.ready, hsleep]
      have hnot : t ∉ l := by
        intro ht
        have hwoken := hl t ht
        rw [State.woken, hasleep, Bool.and_false] at hwoken
        exact absurd hwoken (by simp)
      have hpc : ∀ u, (awaitEventSignal s).woken u =
          ((s.pc u).isWaiting && (decide (u = t) || s.waits.ready u)) := by
        intro u
        rw [State.woken, hwaits, Waits.woken_ready]
        rfl
      refine ⟨t :: l, List.nodup_cons.2 ⟨hnot, hnd⟩, fun u hu => ?_, ?_⟩
      · rw [hpc, Bool.and_eq_true, Bool.or_eq_true, decide_eq_true_eq]
        rcases List.mem_cons.1 hu with rfl | hu
        · exact ⟨h.queued u hmem, .inl rfl⟩
        · have hwoken := hl u hu
          rw [State.woken, Bool.and_eq_true] at hwoken
          exact ⟨hwoken.1, .inr hwoken.2⟩
      · simp only [awaitEventSignal, List.length_cons]
        omega

theorem inv_awaitEventInit (wakeup : T → Wakeup) (canceled : T → Bool) :
    Inv (awaitEventInit wakeup canceled) := by
  refine ⟨⟨orderly_init wakeup canceled, ?_, fun _ _ => rfl, ?_⟩, rfl, ?_, le_refl _, ?_⟩
  · intro t ht
    exact absurd ht (by simp [State.waiters, awaitEventInit, Waits.init])
  · intro t ht
    exact absurd ht (by simp [awaitEventInit, Pc.isWaiting])
  · simp [awaitEventInit]
  · intro _
    exact backed_of_zero rfl

/-- The step lemma. -/
theorem Inv.step_safe [Fintype T] (h : Inv s) (a : Act T) (hok : fits s a = true) :
    Safe (fun _ => False) (step s a) Inv := by
  cases a with
  | await t timed expired =>
    rw [step]
    split_ifs with hout
    · exact h.await hout
    · exact h
  | enqueue t =>
    rw [step]
    cases hpc : s.pc t with
    | gap timed => exact h.enqueue hpc
    | idle => exact h
    | waiting timed => exact h
  | resume t expired =>
    rw [step]
    cases hpc : s.pc t with
    | waiting timed =>
      simp only
      split_ifs with hready
      · exact h.resume hpc hready
      · exact h
    | idle => exact h
    | gap timed => exact h
  | tryAwait => exact h.tryAwait
  | signal =>
    refine h.signal ?_
    simp only [fits, gapped, Bool.or_eq_true, Bool.not_eq_true', List.isEmpty_eq_false_iff,
      decide_eq_false_iff_not, not_exists, Bool.not_eq_true] at hok
    exact hok

theorem Inv.noneLost (h : Inv s) : NoneLost s := by
  have hflag : s.triggered = false ↔ s.count = 0 := by
    have hnonneg := h.nonneg
    rw [← Bool.not_eq_true, h.flag]
    omega
  refine ⟨hflag, fun hquiet hne => ?_⟩
  rcases h.backed (.inr hne) with ⟨l, -, hl, hle⟩
  have hnil : l = [] := by
    refine List.eq_nil_iff_forall_not_mem.2 fun t ht => ?_
    have hwoken := hl t ht
    rw [State.woken, Bool.and_eq_true] at hwoken
    rcases hquiet t with hidle | hmem
    · simp [hidle, Pc.isWaiting] at hwoken
    · exact h.waits.not_mem_of_ready hwoken.2 () hmem
  have hzero : s.count = 0 := by
    have hnonneg := h.nonneg
    simp only [hnil, List.length_nil] at hle
    omega
  exact ⟨hflag.2 hzero, hzero⟩

/-- In every interleaving in which no signal finds the queue empty while a waiter is between its
test of the flag and the queue, the flag and the count agree, and no thread is left asleep beside a
signal that nobody has taken. -/
theorem event_waiters_not_lost {T : Type} [DecidableEq T] [Fintype T] (wakeup : T → Wakeup)
    (canceled : T → Bool) (acts : List (Act T))
    (hrun : guarded step fits (awaitEventInit wakeup canceled) acts = true) :
    Safe (fun _ => False) (runs step (awaitEventInit wakeup canceled) acts) NoneLost := by
  have hstep : ∀ (s : State T) (a : Act T), Inv s → fits s a = true →
      Safe (fun _ => False) (step s a) Inv := fun s a h hok => h.step_safe a hok
  refine (Safe.runs hstep (inv_awaitEventInit wakeup canceled) hrun).mono ?_
  exact fun s h => h.noneLost

def fresh : State (Fin 3) := awaitEventInit (fun _ => .none) fun _ => false

/-- Three threads; a signal overtakes one on its way to the queue but wakes another. -/
def orderly : List (Act (Fin 3)) :=
  [.signal, .await 0 false false, .await 0 false false, .enqueue 0, .await 1 false false, .signal,
    .enqueue 1, .resume 0 false]

theorem event_waiters_not_lost_one_asleep :
    guarded step fits fresh orderly = true ∧
      Safe (fun _ => False) (runs step fresh orderly) NoneLost := by
  have hrun : guarded step fits fresh orderly = true := by decide +kernel
  exact ⟨hrun, event_waiters_not_lost _ _ orderly hrun⟩

/-- The state after a signal between the test of a waiter and its entry into the queue. -/
def lostSignal : State (Fin 3) :=
  outcome (runs step fresh [.await 0 false false, .signal, .enqueue 0]) fresh

/-- All is quiet, the thread is asleep, and the signal it waits for is recorded. -/
theorem signal_overtakes_waiter :
    runs step fresh [.await 0 false false, .signal, .enqueue 0] = .ok lostSignal ∧
    Quiet lostSignal ∧ lostSignal.waiters = [0] ∧ lostSignal.triggered = true ∧
    lostSignal.count = 1 ∧ ¬ NoneLost lostSignal := by
  have hquiet : Quiet lostSignal := by
    unfold Quiet
    decide +kernel
  have hqueue : lostSignal.waiters = [0] := by decide +kernel
  have hflag : lostSignal.triggered = true := by decide +kernel
  refine ⟨eq_ok_outcome (by decide +kernel), hquiet, hqueue, hflag, by decide +kernel, fun h => ?_⟩
  have hnone := (h.asleep hquiet (by simp [hqueue])).1
  rw [hflag] at hnone
  exact absurd hnone (by simp)

end Event
end Sync
end XytherOS
