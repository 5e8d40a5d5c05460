import XytherOS.Sync.Wait

/-!
# Rwlock — the read-write locks of `sync/rwlock.c`

Every stretch that a thread executes under `guard` is one step: an acquire up to its first sleep or
its end, an acquire from the return of a sleep up to the next sleep or its end, a try-acquire and a
release.  An acquire tests its condition again whenever it comes back from a wait, for whatever
reason it comes back, so that readers and writers exclude each other in every interleaving.

The counters `readers` and `writer` are 64-bit words that count the acquires in progress; they are
natural numbers here.
-/

namespace XytherOS
namespace Sync
namespace Rwlock

inductive Queue
  | readersq
  | writersq
  deriving DecidableEq, Repr

/-- Where a thread is: outside, or in a wait of `rw_readlock_acquire` or
`rw_writelock_acquire`. -/
inductive Pc
  | idle
  | reading
  | writing
  deriving DecidableEq, Repr

/-- A `rwlock_t` with its threads.  `readHolders` and `writeHolders` list a thread once for every
acquire that has completed and not been released. -/
structure State (T : Type) where
  writer : Nat
  readers : Nat
  waits : Waits T Queue
  pc : T → Pc
  readHolders : List T
  writeHolders : List T

def rwlockInit {T : Type} (wakeup : T → Wakeup) (canceled : T → Bool) : State T :=
  { writer := 0
    readers := 0
    waits := .init wakeup canceled
    pc := fun _ => .idle
    readHolders := []
    writeHolders := [] }

variable {T : Type} [DecidableEq T]

namespace State

def withWaits (s : State T) (w : Waits T Queue) : State T := { s with waits := w }

def setPc (s : State T) (t : T) (pc : Pc) : State T :=
  { s with pc := Function.update s.pc t pc }

def outside (s : State T) (t : T) : Bool := s.pc t = .idle && s.waits.ready t

def waitingWriters (s : State T) : Nat := (s.waits.queue .writersq).length

def readBlocked (s : State T) : Bool := s.writer ≠ 0 || s.waitingWriters ≠ 0

def writeBlocked (s : State T) : Bool :=
  s.readers ≠ 0 || s.writer ≠ 0 || s.waitingWriters ≠ 0

end State

def addReader (s : State T) (t : T) : State T :=
  { s with readers := s.readers + 1, readHolders := t :: s.readHolders }.setPc t .idle

def addWriter (s : State T) (t : T) : State T :=
  { s with writer := s.writer + 1, writeHolders := t :: s.writeHolders }.setPc t .idle

/-- The loop of `rw_readlock_acquire`, up to a sleep or to the end.  An interrupted wait returns at
once and takes the wake-up with it, so that the second turn sleeps; a canceled thread is
interrupted every time and keeps turning. -/
def readLoop : Nat → State T → T → Except Fault (State T)
  | 0, _, _ => throw .hang
  | n + 1, s, t =>
    if s.readBlocked then
      match schedWaitEnter s.waits t .readersq with
      | (.ok, w) => return (s.withWaits w).setPc t .reading
      | (.err _, w) => readLoop n (s.withWaits w) t
    else
      return addReader s t

/-- The loop of `rw_writelock_acquire`, up to a sleep or to the end. -/
def writeLoop : Nat → State T → T → Except Fault (State T)
  | 0, _, _ => throw .hang
  | n + 1, s, t =>
    if s.writeBlocked then
      match schedWaitEnter s.waits t .writersq with
      | (.ok, w) => return (s.withWaits w).setPc t .writing
      | (.err _, w) => writeLoop n (s.withWaits w) t
    else
      return addWriter s t

def rwReadlockAcquire (s : State T) (t : T) : Except Fault (State T) := readLoop 2 s t

def rwReadlockTryAcquire (s : State T) (t : T) : State T :=
  if s.writer = 0 ∧ s.waitingWriters = 0 then addReader s t else s

def rwReadlockRelease (s : State T) (t : T) : State T :=
  let s := { s with readers := s.readers - 1, readHolders := s.readHolders.erase t }
  if s.readers = 0 ∧ 1 ≤ s.waitingWriters then
    s.withWaits (schedWakeupHead s.waits .writersq .normal).2
  else
    s

def rwWritelockAcquire (s : State T) (t : T) : Except Fault (State T) := writeLoop 2 s t

def rwWritelockTryAcquire (s : State T) (t : T) : State T :=
  if s.readers = 0 ∧ s.writer = 0 ∧ s.waitingWriters = 0 then addWriter s t else s

def rwWritelockRelease (s : State T) (t : T) : State T :=
  let s := { s with writer := s.writer - 1, writeHolders := s.writeHolders.erase t }
  if s.waitingWriters ≠ 0 then
    s.withWaits (schedWakeupHead s.waits .writersq .normal).2
  else
    s.withWaits (schedWakeupAll s.waits .readersq .normal).2

def resume (s : State T) (t : T) : Except Fault (State T) :=
  let s' := s.withWaits (schedWaitLeave s.waits t).2
  match s.pc t with
  | .idle => return s
  | .reading => readLoop 2 s' t
  | .writing => writeLoop 2 s' t

/-- The steps of the threads and of their surroundings: `wakeup` is `thread_wakeup`, `cancel` sets
the flag of a thread, and `pending` is a wake-up that a thread brings along from elsewhere. -/
inductive Act (T : Type)
  | readAcquire (t : T)
  | readTryAcquire (t : T)
  | readRelease (t : T)
  | writeAcquire (t : T)
  | writeTryAcquire (t : T)
  | writeRelease (t : T)
  | resume (t : T)
  | wakeup (t : T) (reason : Wakeup)
  | cancel (t : T)
  | pending (t : T) (reason : Wakeup)

/-- One step; a thread that is not where the step starts does not move, and only holders
release. -/
def step (s : State T) : Act T → Except Fault (State T)
  | .readAcquire t => if s.outside t then rwReadlockAcquire s t else return s
  | .readTryAcquire t => return if s.outside t then rwReadlockTryAcquire s t else s
  | .readRelease t =>
    return if s.outside t = true ∧ t ∈ s.readHolders then rwReadlockRelease s t else s
  | .writeAcquire t => if s.outside t then rwWritelockAcquire s t else return s
  | .writeTryAcquire t => return if s.outside t then rwWritelockTryAcquire s t else s
  | .writeRelease t =>
    return if s.outside t = true ∧ t ∈ s.writeHolders then rwWritelockRelease s t else s
  | .resume t => if s.waits.ready t then resume s t else return s
  | .wakeup t reason => return s.withWaits (threadWakeup s.waits t reason).2
  | .cancel t => return s.withWaits (s.waits.cancel t)
  | .pending t reason => return if s.outside t then s.withWaits (s.waits.setWakeup t reason) else s

/-! ## Exclusion -/

/-- The counters are the numbers of holders; there is at most one writer, and no reader beside
it. -/
structure Exclusive (s : State T) : Prop where
  readers : s.readers = s.readHolders.length
  writer : s.writer = s.writeHolders.length
  oneWriter : s.writeHolders.length ≤ 1
  noReaders : s.writeHolders ≠ [] → s.readHolders = []

variable {s : State T} {t : T}

theorem Exclusive.withWaits (h : Exclusive s) (w : Waits T Queue) : Exclusive (s.withWaits w) :=
  ⟨h.readers, h.writer, h.oneWriter, h.noReaders⟩

theorem Exclusive.setPc (h : Exclusive s) (t : T) (pc : Pc) : Exclusive (s.setPc t pc) :=
  ⟨h.readers, h.writer, h.oneWriter, h.noReaders⟩

theorem Exclusive.addReader (h : Exclusive s) (hfree : s.writer = 0) :
    Exclusive (addReader s t) := by
  have hnil : s.writeHolders = [] := List.length_eq_zero_iff.1 (h.writer.symm.trans hfree)
  refine ⟨?_, h.writer, h.oneWriter, fun hne => absurd hnil hne⟩
  change s.readers + 1 = (t :: s.readHolders).length
  rw [h.readers, List.length_cons]

theorem Exclusive.addWriter (h : Exclusive s) (hreaders : s.readers = 0) (hfree : s.writer = 0) :
    Exclusive (addWriter s t) := by
  have hnil : s.writeHolders = [] := List.length_eq_zero_iff.1 (h.writer.symm.trans hfree)
  have hnil' : s.readHolders = [] := List.length_eq_zero_iff.1 (h.readers.symm.trans hreaders)
  refine ⟨h.readers, ?_, ?_, fun _ => hnil'⟩
  · change s.writer + 1 = (t :: s.writeHolders).length
    rw [h.writer, List.length_cons]
  · change (t :: s.writeHolders).length ≤ 1
    rw [hnil]
    exact Nat.le_refl 1

def Spins (e : Fault) : Prop := e = .hang

theorem Exclusive.readLoop (h : Exclusive s) (n : Nat) :
    Safe Spins (readLoop n s t) Exclusive := by
  -- induction on the turns; each either sleeps, turns again or is the last
  induction n generalizing s with
  | zero => rfl
  | succ n ih =>
    rw [Rwlock.readLoop]
    split_ifs with hblocked
    · cases schedWaitEnter s.waits t .readersq with
      | mk ret w =>
        cases ret with
        | ok => exact (h.withWaits w).setPc t .reading
        | err e => exact ih (h.withWaits w)
    · refine h.addReader ?_
      simp only [State.readBlocked, Bool.or_eq_true, decide_eq_true_eq, not_or, not_not,
        ne_eq] at hblocked
      exact hblocked.1

theorem Exclusive.writeLoop (h : Exclusive s) (n : Nat) :
    Safe Spins (writeLoop n s t) Exclusive := by
  induction n generalizing s with
  | zero => rfl
  | succ n ih =>
    rw [Rwlock.writeLoop]
    split_ifs with hblocked
    · cases schedWaitEnter s.waits t .writersq with
      | mk ret w =>
        cases ret with
        | ok => exact (h.withWaits w).setPc t .writing
        | err e => exact ih (h.withWaits w)
    · simp only [State.writeBlocked, Bool.or_eq_true, decide_eq_true_eq, not_or, not_not,
        ne_eq] at hblocked
      exact h.addWriter hblocked.1.1 hblocked.1.2

theorem Exclusive.readRelease (h : Exclusive s) (ht : t ∈ s.readHolders) :
    Exclusive (rwReadlockRelease s t) := by
  have hlen := List.length_erase_of_mem ht
  have hrel : Exclusive
      { s with readers := s.readers - 1, readHolders := s.readHolders.erase t } := by
    refine ⟨?_, h.writer, h.oneWriter, fun hne => ?_⟩
    · change s.readers - 1 = (s.readHolders.erase t).length
      rw [hlen, h.readers]
    · have hnil : s.readHolders = [] := h.noReaders hne
      exact absurd ht (by simp [hnil])
  rw [rwReadlockRelease]
  split
  · exact hrel.withWaits _
  · exact hrel

theorem Exclusive.writeRelease (h : Exclusive s) (ht : t ∈ s.writeHolders) :
    Exclusive (rwWritelockRelease s t) := by
  have hlen := List.length_erase_of_mem ht
  have hone := h.oneWriter
  have hrel : Exclusive
      { s with writer := s.writer - 1, writeHolders := s.writeHolders.erase t } := by
    refine ⟨h.readers, ?_, ?_, fun hne => ?_⟩
    · change s.writer - 1 = (s.writeHolders.erase t).length
      rw [hlen, h.writer]
    · change (s.writeHolders.erase t).length ≤ 1
      omega
    · exact h.noReaders (List.ne_nil_of_mem ht)
  rw [rwWritelockRelease]
  split
  · exact hrel.withWaits _
  · exact hrel.withWaits _

/-- The step lemma: whatever a thread or its surroundings do, exclusion is kept. -/
theorem Exclusive.step_safe (h : Exclusive s) (a : Act T) :
    Safe Spins (step s a) Exclusive := by
  cases a with
  | readAcquire t =>
    rw [step]
    split_ifs
    · exact h.readLoop 2
    · exact h
  | readTryAcquire t =>
    rw [step, rwReadlockTryAcquire]
    split_ifs with hout hfree
    · exact h.addReader hfree.1
    · exact h
    · exact h
  | readRelease t =>
    rw [step]
    split_ifs with hout
    · exact h.readRelease hout.2
    · exact h
  | writeAcquire t =>
    rw [step]
    split_ifs
    · exact h.writeLoop 2
    · exact h
  | writeTryAcquire t =>
    rw [step, rwWritelockTryAcquire]
    split_ifs with hout hfree
    · exact h.addWriter hfree.1 hfree.2.1
    · exact h
    · exact h
  | writeRelease t =>
    rw [step]
    split_ifs with hout
    · exact h.writeRelease hout.2
    · exact h
  | resume t =>
    rw [step]
    split_ifs
    · rw [resume]
      cases s.pc t with
      | idle => exact h
      | reading => exact (h.withWaits _).readLoop 2
      | writing => exact (h.withWaits _).writeLoop 2
    · exact h
  | wakeup t reason => exact h.withWaits _
  | cancel t => exact h.withWaits _
  | pending t reason =>
    rw [step]
    split_ifs
    · exact h.withWaits _
    · exact h

theorem exclusive_rwlockInit (wakeup : T → Wakeup) (canceled : T → Bool) :
    Exclusive (rwlockInit wakeup canceled) :=
  ⟨rfl, rfl, Nat.zero_le 1, fun hne => absurd rfl hne⟩

/-- In every interleaving of acquires, try-acquires and releases, with waits that end for any
reason, there is at most one writer, no reader beside a writer, and the counters are the numbers
of holders. -/
theorem rwlock_exclusive {T : Type} [DecidableEq T] (wakeup : T → Wakeup) (canceled : T → Bool)
    (acts : List (Act T)) :
    Safe Spins (runs step (rwlockInit wakeup canceled) acts) Exclusive := by
  have hall : ∀ (s : State T), guarded step (fun _ _ => true) s acts = true := by
    intro s
    exact guarded_true step s acts
  have hstep : ∀ (s : State T) (a : Act T), Exclusive s → true = true →
      Safe Spins (step s a) Exclusive := fun s a h _ => h.step_safe a
  exact Safe.runs hstep (exclusive_rwlockInit wakeup canceled) (hall _)

end Rwlock
end Sync
end XytherOS
