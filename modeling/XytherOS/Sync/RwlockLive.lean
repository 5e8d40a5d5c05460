import XytherOS.Sync.Rwlock

/-!
# RwlockLive — the wake-ups of `sync/rwlock.c`

A thread that sleeps in an acquire relies on a release to wake it.  This file says when the
wake-ups suffice: as long as no woken writer goes back to sleep on a free lock, every sleeper has a
holder, or a writer that has been woken and has not run yet, ahead of it.

A woken writer does go back to sleep on a free lock when another writer is queued, since
`rw_writelock_acquire` counts the writers that wait; nobody is left to wake them then.
-/

namespace XytherOS
namespace Sync
namespace Rwlock

variable {T : Type} [DecidableEq T]

/-- The lock is free and nobody takes it: some thread is inside an acquire, and every such thread
is asleep with no wake-up pending. -/
structure Stuck (s : State T) : Prop where
  readers : s.readers = 0
  writer : s.writer = 0
  waiter : ∃ t, s.pc t ≠ .idle
  asleep : ∀ t, s.pc t ≠ .idle → s.waits.ready t = false ∧ (s.waits.thread t).wakeup = .none ∧
    (t ∈ s.waits.queue .readersq ∨ t ∈ s.waits.queue .writersq)

/-- The steps of the threads themselves, without signals, timeouts and cancellations. -/
def Act.own : Act T → Bool
  | .wakeup _ _ | .cancel _ | .pending _ _ => false
  | _ => true

def givesUp (s : State T) : Act T → Bool
  | .resume t => s.pc t = .writing && s.waits.ready t && s.readers = 0 && s.writer = 0 &&
      s.waitingWriters ≠ 0
  | _ => false

/-- No signal comes in, and no woken writer goes back to sleep on a free lock. -/
def taken (s : State T) (a : Act T) : Bool := a.own && !givesUp s a

/-! ## Invariant -/

def WriterAwake (s : State T) : Prop := ∃ t, s.pc t = .writing ∧ s.waits.ready t = true

def Quiet (s : State T) : Prop := ∀ t, s.waits.interrupted t = false

structure Live (s : State T) : Prop where
  waits : Orderly s.waits
  quiet : Quiet s
  writers : ∀ t, t ∈ s.waits.queue .writersq → s.pc t = .writing
  writersAhead : s.waits.queue .writersq ≠ [] →
    s.readers ≠ 0 ∨ s.writer ≠ 0 ∨ WriterAwake s
  readersAhead : s.waits.queue .readersq ≠ [] →
    s.writer ≠ 0 ∨ s.waits.queue .writersq ≠ [] ∨ WriterAwake s

variable {s : State T} {t : T}

theorem Live.not_stuck (h : Live s) : ¬ Stuck s := by
  intro hstuck
  have hnot : ¬ WriterAwake s := by
    rintro ⟨t, hpc, hready⟩
    have hsleep := (hstuck.asleep t (by simp [hpc])).1
    simp [hready] at hsleep
  have hwriters : s.waits.queue .writersq = [] := by
    by_contra hne
    rcases h.writersAhead hne with hr | hw | hawake
    · exact hr hstuck.readers
    · exact hw hstuck.writer
    · exact hnot hawake
  have hreaders : s.waits.queue .readersq = [] := by
    by_contra hne
    rcases h.readersAhead hne with hw | hq | hawake
    · exact hw hstuck.writer
    · exact hq hwriters
    · exact hnot hawake
  rcases hstuck.waiter with ⟨t, ht⟩
  rcases (hstuck.asleep t ht).2.2 with hmem | hmem
  · simp [hreaders] at hmem
  · simp [hwriters] at hmem

theorem live_rwlockInit : Live (rwlockInit (fun _ : T => .none) fun _ => false) := by
  refine ⟨orderly_init _ _, fun t => rfl, ?_, ?_, ?_⟩
  · intro t ht
    exact absurd ht List.not_mem_nil
  · exact fun hne => absurd rfl hne
  · exact fun hne => absurd rfl hne

/-! ## Sleeping -/

def State.sleepOn (s : State T) (t : T) (q : Queue) (pc : Pc) : State T :=
  (s.withWaits ((s.waits.setWakeup t .none).sleepOn t q)).setPc t pc

section SleepOn

variable {q q' : Queue} {pc : Pc} {u : T}

theorem State.sleepOn_queue : (s.sleepOn t q pc).waits.queue q' =
    if q' = q then s.waits.queue q ++ [t] else s.waits.queue q' := by
  rw [State.sleepOn]
  exact Waits.sleepOn_queue

theorem State.sleepOn_pc : (s.sleepOn t q pc).pc u = if u = t then pc else s.pc u := by
  simp [State.sleepOn, State.setPc, State.withWaits, Function.update_apply]

theorem State.sleepOn_ready :
    (s.sleepOn t q pc).waits.ready u = (!decide (u = t) && s.waits.ready u) := by
  change ((s.waits.setWakeup t .none).sleepOn t q).ready u = _
  rw [Waits.sleepOn_ready, Waits.setWakeup_ready]

end SleepOn

theorem Quiet.sleepOn (h : Quiet s) (q : Queue) (pc : Pc) : Quiet (s.sleepOn t q pc) := by
  intro u
  change ((s.waits.setWakeup t .none).sleepOn t q).interrupted u = false
  have hu := h u
  rw [Waits.interrupted, Waits.sleepOn_thread, Waits.setWakeup_thread]
  rw [Waits.interrupted] at hu
  by_cases heq : u = t
  · subst heq
    simp at hu ⊢
    exact hu.1.1
  · simpa [heq, Waits.setWakeup_thread] using hu

theorem readLoop_eq (h : Orderly s.waits) (hquiet : Quiet s)
    (hready : s.waits.ready t = true) (n : Nat) : readLoop (n + 1) s t =
      .ok (if s.readBlocked then s.sleepOn t .readersq .reading else addReader s t) := by
  rw [readLoop, h.enter_sleeps hready (hquiet t)]
  split_ifs <;> rfl

theorem writeLoop_eq (h : Orderly s.waits) (hquiet : Quiet s)
    (hready : s.waits.ready t = true) (n : Nat) : writeLoop (n + 1) s t =
      .ok (if s.writeBlocked then s.sleepOn t .writersq .writing else addWriter s t) := by
  rw [writeLoop, h.enter_sleeps hready (hquiet t)]
  split_ifs <;> rfl

theorem WriterAwake.sleepOn (hawake : WriterAwake s) (hpc : s.pc t ≠ .writing) (q : Queue)
    (pc : Pc) : WriterAwake (s.sleepOn t q pc) := by
  rcases hawake with ⟨u, hu, hready⟩
  have hne : u ≠ t := by
    rintro rfl
    exact hpc hu
  refine ⟨u, ?_, ?_⟩
  · rw [State.sleepOn_pc, if_neg hne, hu]
  · rw [State.sleepOn_ready]
    simp [hne, hready]

theorem orderly_sleepOn (h : Orderly s.waits) (hready : s.waits.ready t = true)
    (q : Queue) (pc : Pc) : Orderly (s.sleepOn t q pc).waits := by
  have hready' : (s.waits.setWakeup t .none).ready t = true := by simpa using hready
  exact h.setWakeup.sleepOn hready'

theorem Live.sleepReader (h : Live s) (hready : s.waits.ready t = true)
    (hpc : s.pc t ≠ .writing) (hblocked : s.readBlocked = true) :
    Live (s.sleepOn t .readersq .reading) := by
  have hwriters : (s.sleepOn t .readersq .reading).waits.queue .writersq =
      s.waits.queue .writersq := by
    rw [State.sleepOn_queue, if_neg (by decide)]
  refine ⟨orderly_sleepOn h.waits hready _ _, h.quiet.sleepOn _ _, ?_, ?_, ?_⟩
  · intro u hu
    rw [hwriters] at hu
    have hne : u ≠ t := by
      rintro rfl
      exact h.waits.not_mem_of_ready hready _ hu
    rw [State.sleepOn_pc, if_neg hne]
    exact h.writers u hu
  · intro hne
    rw [hwriters] at hne
    rcases h.writersAhead hne with hr | hw | hawake
    · exact .inl hr
    · exact .inr (.inl hw)
    · exact .inr (.inr (hawake.sleepOn hpc _ _))
  · -- the reader sleeps because of a writer that holds or waits for the lock
    intro _
    rw [hwriters]
    simp only [State.readBlocked, State.waitingWriters, Bool.or_eq_true, decide_eq_true_eq,
      ne_eq, List.length_eq_zero_iff] at hblocked
    rcases hblocked with hw | hq
    · exact .inl hw
    · exact .inr (.inl hq)

theorem Live.sleepWriter (h : Live s) (hready : s.waits.ready t = true)
    (hahead : s.readers ≠ 0 ∨ s.writer ≠ 0 ∨ s.pc t ≠ .writing ∧ WriterAwake s) :
    Live (s.sleepOn t .writersq .writing) := by
  have hwriters : (s.sleepOn t .writersq .writing).waits.queue .writersq =
      s.waits.queue .writersq ++ [t] := by
    rw [State.sleepOn_queue, if_pos rfl]
  refine ⟨orderly_sleepOn h.waits hready _ _, h.quiet.sleepOn _ _, ?_, ?_, ?_⟩
  · intro u hu
    rw [State.sleepOn_pc]
    split_ifs with heq
    · rfl
    · rw [hwriters, List.mem_append, List.mem_singleton] at hu
      rcases hu with hu | hu
      · exact h.writers u hu
      · exact absurd hu heq
  · intro _
    rcases hahead with hr | hw | ⟨hpc, hawake⟩
    · exact .inl hr
    · exact .inr (.inl hw)
    · exact .inr (.inr (hawake.sleepOn hpc _ _))
  · intro _
    rw [hwriters]
    exact .inr (.inl (by simp))

/-! ## Taking the lock -/

theorem Live.addReader (h : Live s) (hready : s.waits.ready t = true) (hpc : s.pc t ≠ .writing) :
    Live (addReader s t) := by
  have hpc' : ∀ u, s.pc u = .writing → (Rwlock.addReader s t).pc u = .writing := by
    intro u hu
    have hne : u ≠ t := by
      rintro rfl
      exact hpc hu
    simp [Rwlock.addReader, State.setPc, hne, hu]
  refine ⟨h.waits, h.quiet, fun u hu => hpc' u (h.writers u hu), fun _ => .inl ?_, fun hne => ?_⟩
  · simp [Rwlock.addReader, State.setPc]
  · rcases h.readersAhead hne with hw | hq | ⟨u, hu, hawake⟩
    · exact .inl hw
    · exact .inr (.inl hq)
    · exact .inr (.inr ⟨u, hpc' u hu, hawake⟩)

theorem Live.addWriter (h : Live s) (hready : s.waits.ready t = true) : Live (addWriter s t) := by
  have hwriter : (Rwlock.addWriter s t).writer ≠ 0 := by
    simp [Rwlock.addWriter, State.setPc]
  refine ⟨h.waits, h.quiet, ?_, fun _ => .inr (.inl hwriter), fun _ => .inl hwriter⟩
  intro u hu
  have hne : u ≠ t := by
    rintro rfl
    exact h.waits.not_mem_of_ready hready _ hu
  have hpc : s.pc u = .writing := h.writers u hu
  simp [Rwlock.addWriter, State.setPc, hne, hpc]

theorem Live.readLoop_safe (h : Live s) (hready : s.waits.ready t = true)
    (hpc : s.pc t ≠ .writing) (n : Nat) :
    Safe (fun _ => False) (readLoop (n + 1) s t) Live := by
  rw [readLoop_eq h.waits h.quiet hready]
  split_ifs with hblocked
  · exact h.sleepReader hready hpc hblocked
  · exact h.addReader hready hpc

theorem Live.writeLoop_safe (h : Live s) (hready : s.waits.ready t = true)
    (hpc : s.readers ≠ 0 ∨ s.writer ≠ 0 ∨ s.waitingWriters = 0 ∨ s.pc t ≠ .writing) (n : Nat) :
    Safe (fun _ => False) (writeLoop (n + 1) s t) Live := by
  rw [writeLoop_eq h.waits h.quiet hready]
  split_ifs with hblocked
  · refine h.sleepWriter hready ?_
    -- on a free lock another writer is queued, and behind it one that is awake
    simp only [State.writeBlocked, State.waitingWriters, Bool.or_eq_true, decide_eq_true_eq, ne_eq,
      List.length_eq_zero_iff] at hblocked
    rcases hblocked with (hr | hw) | hq
    · exact .inl hr
    · exact .inr (.inl hw)
    · rcases hpc with hr | hw | hnil | hpc
      · exact .inl hr
      · exact .inr (.inl hw)
      · exact absurd (List.length_eq_zero_iff.1 hnil) hq
      · rcases h.writersAhead hq with hr | hw | hawake
        · exact .inl hr
        · exact .inr (.inl hw)
        · exact .inr (.inr ⟨hpc, hawake⟩)
  · exact h.addWriter hready

/-! ## Waking -/

theorem Quiet.woken (h : Quiet s) (q : Queue) :
    Quiet (s.withWaits (s.waits.woken q t .normal)) := by
  intro u
  have hu := h u
  change (s.waits.woken q t .normal).interrupted u = false
  rw [Waits.interrupted, Waits.woken_thread]
  rw [Waits.interrupted] at hu
  by_cases heq : u = t
  · subst heq
    simp at hu ⊢
    exact hu.1.1
  · simpa [heq] using hu

theorem wakeWriter (h : Orderly s.waits) (hquiet : Quiet s)
    (hwriters : ∀ t, t ∈ s.waits.queue .writersq → s.pc t = .writing)
    (hne : s.waits.queue .writersq ≠ []) :
    Live (s.withWaits (schedWakeupHead s.waits .writersq .normal).2) := by
  cases hq : s.waits.queue .writersq with
  | nil => exact absurd hq hne
  | cons t l =>
    have hmem : t ∈ s.waits.queue .writersq := by simp [hq]
    rw [h.wakeupHead_cons hq]
    have hawake : WriterAwake (s.withWaits (s.waits.woken .writersq t .normal)) := by
      refine ⟨t, hwriters t hmem, ?_⟩
      change (s.waits.woken .writersq t .normal).ready t = true
      simp [Waits.woken_ready]
    refine ⟨h.woken hmem, hquiet.woken _, ?_, fun _ => .inr (.inr hawake),
      fun _ => .inr (.inr hawake)⟩
    intro u hu
    refine hwriters u ?_
    change u ∈ (s.waits.woken .writersq t .normal).queue .writersq at hu
    rw [Waits.woken_queue, if_pos rfl] at hu
    exact List.mem_of_mem_erase hu

theorem wakeReaders (h : Orderly s.waits) (hquiet : Quiet s)
    (hnil : s.waits.queue .writersq = []) :
    Live (s.withWaits (schedWakeupAll s.waits .readersq .normal).2) := by
  rcases h.wakeupLoop_spec rfl 0 with
    ⟨w', heq, horder, hempty, hother, hwoken, hsame⟩
  rw [schedWakeupAll, heq]
  have hwriters : w'.queue .writersq = [] := (hother .writersq (by decide)).trans hnil
  refine ⟨horder, ?_, ?_, fun hne => absurd hwriters hne, fun hne => absurd hempty hne⟩
  · intro u
    have hu := hquiet u
    change w'.interrupted u = false
    rw [Waits.interrupted] at hu ⊢
    by_cases hmem : u ∈ s.waits.queue .readersq
    · rw [hwoken u hmem]
      simp at hu ⊢
      exact hu.1.1
    · rw [hsame u hmem]
      exact hu
  · intro u hu
    change u ∈ w'.queue .writersq at hu
    rw [hwriters] at hu
    exact absurd hu List.not_mem_nil

theorem Live.readRelease (h : Live s) : Live (rwReadlockRelease s t) := by
  rw [rwReadlockRelease]
  split_ifs with hwake
  · have hne : s.waits.queue .writersq ≠ [] := List.ne_nil_of_length_pos hwake.2
    exact wakeWriter h.waits h.quiet h.writers hne
  · refine ⟨h.waits, h.quiet, h.writers, fun hne => .inl ?_, h.readersAhead⟩
    have hpos : 1 ≤ s.waitingWriters := List.length_pos_of_ne_nil hne
    exact fun hzero => hwake ⟨hzero, hpos⟩

theorem Live.writeRelease (h : Live s) : Live (rwWritelockRelease s t) := by
  rw [rwWritelockRelease]
  split_ifs with hwake
  · have hne : s.waits.queue .writersq ≠ [] := fun hnil => hwake (congrArg List.length hnil)
    exact wakeWriter h.waits h.quiet h.writers hne
  · have hnil : s.waits.queue .writersq = [] := List.length_eq_zero_iff.1 (not_not.1 hwake)
    exact wakeReaders h.waits h.quiet hnil

theorem Quiet.setWakeup (h : Quiet s) : Quiet (s.withWaits (s.waits.setWakeup t .none)) := by
  intro u
  have hu := h u
  change (s.waits.setWakeup t .none).interrupted u = false
  rw [Waits.interrupted] at hu ⊢
  rw [Waits.setWakeup_thread]
  by_cases heq : u = t
  · subst heq
    simp at hu ⊢
    exact hu.1.1
  · simpa [heq] using hu

theorem Live.leave (h : Live s) : Live (s.withWaits (schedWaitLeave s.waits t).2) := by
  rw [Orderly.leave_eq]
  refine ⟨h.waits.setWakeup, h.quiet.setWakeup, h.writers, ?_, ?_⟩
  · intro hne
    rcases h.writersAhead hne with hr | hw | ⟨u, hu, hawake⟩
    · exact .inl hr
    · exact .inr (.inl hw)
    · exact .inr (.inr ⟨u, hu, Waits.setWakeup_ready.trans hawake⟩)
  · intro hne
    rcases h.readersAhead hne with hw | hq | ⟨u, hu, hawake⟩
    · exact .inl hw
    · exact .inr (.inl hq)
    · exact .inr (.inr ⟨u, hu, Waits.setWakeup_ready.trans hawake⟩)

theorem Live.resume_safe (h : Live s) (hready : s.waits.ready t = true)
    (hok : givesUp s (.resume t) = false) :
    Safe (fun _ => False) (resume s t) Live := by
  have hready' : (s.withWaits (schedWaitLeave s.waits t).2).waits.ready t = true := by
    rw [Orderly.leave_eq]
    exact Waits.setWakeup_ready.trans hready
  have hqueue : (s.withWaits (schedWaitLeave s.waits t).2).waitingWriters = s.waitingWriters := by
    rw [Orderly.leave_eq]
    rfl
  rw [resume]
  cases hpc : s.pc t with
  | idle => exact h
  | reading => exact h.leave.readLoop_safe hready' (by simp [State.withWaits, hpc]) 1
  | writing =>
    refine h.leave.writeLoop_safe hready' ?_ 1
    rw [hqueue]
    change s.readers ≠ 0 ∨ s.writer ≠ 0 ∨ s.waitingWriters = 0 ∨ _
    simp only [givesUp, hpc, hready, decide_true, Bool.true_and, Bool.and_eq_false_iff,
      decide_eq_false_iff_not, ne_eq, not_not] at hok
    tauto

theorem State.outside_iff : s.outside t = true ↔ s.pc t = .idle ∧ s.waits.ready t = true := by
  simp [State.outside]

/-- The step lemma. -/
theorem Live.step_safe (h : Live s) (a : Act T) (hok : taken s a = true) :
    Safe (fun _ => False) (step s a) Live := by
  simp only [taken, Bool.and_eq_true, Bool.not_eq_true'] at hok
  cases a with
  | readAcquire t =>
    rw [step]
    split_ifs with hout
    · rcases State.outside_iff.1 hout with ⟨hpc, hready⟩
      exact h.readLoop_safe hready (by simp [hpc]) 1
    · exact h
  | readTryAcquire t =>
    rw [step, rwReadlockTryAcquire]
    split_ifs with hout hfree
    · rcases State.outside_iff.1 hout with ⟨hpc, hready⟩
      exact h.addReader hready (by simp [hpc])
    · exact h
    · exact h
  | readRelease t =>
    rw [step]
    split_ifs
    · exact h.readRelease
    · exact h
  | writeAcquire t =>
    rw [step]
    split_ifs with hout
    · rcases State.outside_iff.1 hout with ⟨hpc, hready⟩
      exact h.writeLoop_safe hready (.inr (.inr (.inr (by simp [hpc])))) 1
    · exact h
  | writeTryAcquire t =>
    rw [step, rwWritelockTryAcquire]
    split_ifs with hout hfree
    · exact h.addWriter (State.outside_iff.1 hout).2
    · exact h
    · exact h
  | writeRelease t =>
    rw [step]
    split_ifs
    · exact h.writeRelease
    · exact h
  | resume t =>
    rw [step]
    split_ifs with hready
    · exact h.resume_safe hready hok.2
    · exact h
  | wakeup t reason => exact absurd hok.1 (by simp [Act.own])
  | cancel t => exact absurd hok.1 (by simp [Act.own])
  | pending t reason => exact absurd hok.1 (by simp [Act.own])

def fresh (T : Type) : State T := rwlockInit (fun _ => .none) fun _ => false

/-- Without signals, in every interleaving in which no woken writer goes back to sleep on a free
lock, the lock is never stuck; no execution of the loops spins. -/
theorem rwlock_never_stuck {T : Type} [DecidableEq T] (acts : List (Act T))
    (hrun : guarded step taken (fresh T) acts = true) :
    Safe (fun _ => False) (runs step (fresh T) acts) fun s => ¬ Stuck s := by
  have hstep : ∀ (s : State T) (a : Act T), Live s → taken s a = true →
      Safe (fun _ => False) (step s a) Live := fun s a h hok => h.step_safe a hok
  refine (Safe.runs hstep live_rwlockInit hrun).mono ?_
  exact fun s h => h.not_stuck

theorem rwlock_never_stuck_handover :
    let acts := [Act.writeAcquire 0, .writeAcquire 1, .writeRelease 0, .resume 1, .readAcquire 2,
      .readAcquire 3, .writeRelease 1, .resume 3, .resume 2]
    guarded step taken (fresh Nat) acts = true ∧
      Safe (fun _ => False) (runs step (fresh Nat) acts) fun s => ¬ Stuck s := by
  intro acts
  have hrun : guarded step taken (fresh Nat) acts = true := by decide +kernel
  exact ⟨hrun, rwlock_never_stuck acts hrun⟩

/-- The state after thread 0 has released the lock to thread 1 while thread 2 waits too. -/
def secondWriter : State Nat :=
  match runs step (fresh Nat)
    [.writeAcquire 0, .writeAcquire 1, .writeAcquire 2, .writeRelease 0, .resume 1] with
  | .ok s => s
  | .error _ => fresh Nat

/-- The woken writer goes back to sleep behind the other writer, and the free lock is stuck. -/
theorem woken_writer_sleeps_again :
    runs step (fresh Nat) [.writeAcquire 0, .writeAcquire 1, .writeAcquire 2, .writeRelease 0,
      .resume 1] = .ok secondWriter ∧ Stuck secondWriter := by
  refine ⟨rfl, by decide +kernel, by decide +kernel, ⟨1, by decide +kernel⟩, ?_⟩
  intro t ht
  match t with
  | 0 => exact absurd rfl ht
  | 1 => exact ⟨by decide +kernel, by decide +kernel, .inr (by decide +kernel)⟩
  | 2 => exact ⟨by decide +kernel, by decide +kernel, .inr (by decide +kernel)⟩
  | n + 3 => exact absurd rfl ht

/-! ## A lock that is lost -/

/-- The lock is free and a writer is queued; nobody holds the lock, so nobody will release it. -/
structure Lost (s : State T) : Prop where
  waits : Orderly s.waits
  quiet : Quiet s
  readHolders : s.readHolders = []
  writeHolders : s.writeHolders = []
  queued : s.waits.queue .writersq ≠ []

theorem Lost.readBlocked (h : Lost s) : s.readBlocked = true := by
  simp [State.readBlocked, State.waitingWriters, h.queued]

theorem Lost.writeBlocked (h : Lost s) : s.writeBlocked = true := by
  simp [State.writeBlocked, State.waitingWriters, h.queued]

theorem Lost.sleepOn (h : Lost s) (hready : s.waits.ready t = true) (q : Queue) (pc : Pc) :
    Lost (s.sleepOn t q pc) := by
  refine ⟨orderly_sleepOn h.waits hready q pc, h.quiet.sleepOn q pc, h.readHolders,
    h.writeHolders, ?_⟩
  rw [State.sleepOn_queue]
  split_ifs
  · simp
  · exact h.queued

theorem Lost.readLoop_safe (h : Lost s) (hready : s.waits.ready t = true) (n : Nat) :
    Safe (fun _ => False) (readLoop (n + 1) s t) Lost := by
  rw [readLoop_eq h.waits h.quiet hready, if_pos h.readBlocked]
  exact h.sleepOn hready _ _

theorem Lost.writeLoop_safe (h : Lost s) (hready : s.waits.ready t = true) (n : Nat) :
    Safe (fun _ => False) (writeLoop (n + 1) s t) Lost := by
  rw [writeLoop_eq h.waits h.quiet hready, if_pos h.writeBlocked]
  exact h.sleepOn hready _ _

theorem Lost.resume_safe (h : Lost s) (hready : s.waits.ready t = true) :
    Safe (fun _ => False) (resume s t) Lost := by
  have hleave : Lost (s.withWaits (schedWaitLeave s.waits t).2) := by
    rw [Orderly.leave_eq]
    exact ⟨h.waits.setWakeup, h.quiet.setWakeup, h.readHolders, h.writeHolders, h.queued⟩
  have hready' : (s.withWaits (schedWaitLeave s.waits t).2).waits.ready t = true := by
    rw [Orderly.leave_eq]
    exact Waits.setWakeup_ready.trans hready
  rw [resume]
  cases s.pc t with
  | idle => exact h
  | reading => exact hleave.readLoop_safe hready' 1
  | writing => exact hleave.writeLoop_safe hready' 1

theorem Lost.step_safe (h : Lost s) (a : Act T) (hown : a.own = true) :
    Safe (fun _ => False) (step s a) Lost := by
  have hqueued : s.waitingWriters ≠ 0 := by simp [State.waitingWriters, h.queued]
  cases a with
  | readAcquire t =>
    rw [step]
    split_ifs with hout
    · exact h.readLoop_safe (State.outside_iff.1 hout).2 1
    · exact h
  | readTryAcquire t =>
    rw [step, rwReadlockTryAcquire]
    split_ifs with hout hfree
    · exact absurd hfree.2 hqueued
    · exact h
    · exact h
  | readRelease t =>
    rw [step, if_neg (by simp [h.readHolders])]
    exact h
  | writeAcquire t =>
    rw [step]
    split_ifs with hout
    · exact h.writeLoop_safe (State.outside_iff.1 hout).2 1
    · exact h
  | writeTryAcquire t =>
    rw [step, rwWritelockTryAcquire]
    split_ifs with hout hfree
    · exact absurd hfree.2.2 hqueued
    · exact h
    · exact h
  | writeRelease t =>
    rw [step, if_neg (by simp [h.writeHolders])]
    exact h
  | resume t =>
    rw [step]
    split_ifs with hready
    · exact h.resume_safe hready
    · exact h
  | wakeup t reason => exact absurd hown (by simp [Act.own])
  | cancel t => exact absurd hown (by simp [Act.own])
  | pending t reason => exact absurd hown (by simp [Act.own])

end Rwlock
end Sync
end XytherOS
