import XytherOS.Sync.Wait

/-!
# Mutex — the sleeping mutexes of `sync/mutex.c`

Every stretch that a thread executes under `m_guard` is one step: `mtx_lock` up to its wait, from
the return of the wait on, and each of the other functions as a whole.  A thread that finds the
mutex taken waits once and takes the mutex when it comes back, without looking again; so that the
mutex has one holder as long as whoever comes back finds it free.
-/

namespace XytherOS
namespace Sync
namespace Mutex

/-- Where a thread is: outside, or in the wait of `mtx_lock` or `mtx_recursive_lock`. -/
inductive Pc
  | idle
  | lockWait
  | recursiveWait
  deriving DecidableEq, Repr

/-- A `mtx_t` with its threads.  `held` counts, for each thread, the acquires that have completed
and not been released. -/
structure State (T : Type) where
  locked : Bool
  recurs : Nat
  owner : Option T
  waits : Waits T Unit
  pc : T → Pc
  held : T → Nat

def mtxInit {T : Type} (wakeup : T → Wakeup) (canceled : T → Bool) : State T :=
  { locked := false
    recurs := 0
    owner := none
    waits := .init wakeup canceled
    pc := fun _ => .idle
    held := fun _ => 0 }

variable {T : Type} [DecidableEq T]

namespace State

def withWaits (s : State T) (w : Waits T Unit) : State T := { s with waits := w }

def setPc (s : State T) (t : T) (pc : Pc) : State T :=
  { s with pc := Function.update s.pc t pc }

def setHeld (s : State T) (t : T) (n : Nat) : State T :=
  { s with held := Function.update s.held t n }

def outside (s : State T) (t : T) : Bool := s.pc t = .idle && s.waits.ready t

def back (s : State T) (t : T) : Bool := s.pc t ≠ .idle && s.waits.ready t

end State

/-- The stores with which an acquire ends: `m_locked`, `m_recurs` and `m_owner`. -/
def take (s : State T) (t : T) (recurs : Nat) : State T :=
  ({ s with locked := true, recurs := recurs, owner := some t }.setPc t .idle).setHeld t
    (s.held t + 1)

def mtxLock (s : State T) (t : T) : Except Fault (State T) := do
  assert (¬ (s.locked = true ∧ s.owner = some t)) "Already held mtx.\n"
  if s.locked then
    match schedWaitEnter s.waits t () with
    | (.ok, w) => return (s.withWaits w).setPc t .lockWait
    | (.err _, w) => return take (s.withWaits w) t 1
  else
    return take s t 1

def mtxRecursiveLock (s : State T) (t : T) : Except Fault (State T) :=
  if s.locked = true ∧ s.owner ≠ some t then
    match schedWaitEnter s.waits t () with
    | (.ok, w) => return (s.withWaits w).setPc t .recursiveWait
    | (.err _, w) => return take (s.withWaits w) t (s.recurs + 1)
  else
    return take s t (s.recurs + 1)

/-- `mtx_lock` or `mtx_recursive_lock` from the return of its wait on. -/
def resume (s : State T) (t : T) : State T :=
  let s' := s.withWaits (schedWaitLeave s.waits t).2
  match s.pc t with
  | .idle => s
  | .lockWait => take s' t 1
  | .recursiveWait => take s' t (s.recurs + 1)

def mtxTrylock (s : State T) (t : T) : Except Fault (State T) := do
  assert (¬ (s.locked = true ∧ s.owner = some t)) "Already held mtx.\n"
  if s.locked then return s else return take s t 1

def drop (s : State T) (t : T) : State T :=
  { s with recurs := s.recurs - 1 }.setHeld t (s.held t - 1)

def free (s : State T) : State T :=
  { s with locked := false, owner := none, waits := (schedWakeupHead s.waits () .normal).2 }

def mtxUnlock (s : State T) (t : T) : Except Fault (State T) := do
  assert (s.locked = true ∧ s.owner = some t) "Not holding mtx.\n"
  assert (0 < s.recurs) "Mtx invalid recursion.\n"
  if s.recurs - 1 = 0 then return free (drop s t) else return drop s t

/-- The steps of the threads and of their surroundings: `wakeup` is `thread_wakeup`, `cancel` sets
the flag of a thread, and `pending` is a wake-up that a thread brings along from elsewhere. -/
inductive Act (T : Type)
  | lock (t : T)
  | recursiveLock (t : T)
  | trylock (t : T)
  | unlock (t : T)
  | resume (t : T)
  | wakeup (t : T) (reason : Wakeup)
  | cancel (t : T)
  | pending (t : T) (reason : Wakeup)

def step (s : State T) : Act T → Except Fault (State T)
  | .lock t => if s.outside t then mtxLock s t else return s
  | .recursiveLock t => if s.outside t then mtxRecursiveLock s t else return s
  | .trylock t => if s.outside t then mtxTrylock s t else return s
  | .unlock t => if s.outside t then mtxUnlock s t else return s
  | .resume t => return if s.back t then resume s t else s
  | .wakeup t reason => return s.withWaits (threadWakeup s.waits t reason).2
  | .cancel t => return s.withWaits (s.waits.cancel t)
  | .pending t reason => return if s.outside t then s.withWaits (s.waits.setWakeup t reason) else s

/-! ## Exclusion -/

/-- At most one thread is between an acquire and its release, and the fields describe it. -/
structure Exclusive (s : State T) : Prop where
  unique : ∀ t u, 0 < s.held t → 0 < s.held u → t = u
  described : ∀ t, 0 < s.held t → s.locked = true ∧ s.owner = some t ∧ s.recurs = s.held t
  free : (∀ t, s.held t = 0) → s.locked = false ∧ s.owner = none ∧ s.recurs = 0

/-- The step does not come back from a wait, or is not turned away from one, while the mutex is
taken. -/
def findsFree (s : State T) : Act T → Bool
  | .lock t => !(s.outside t && s.locked && s.waits.interrupted t)
  | .recursiveLock t =>
    !(s.outside t && s.locked && s.owner ≠ some t && s.waits.interrupted t)
  | .resume t => !(s.back t && s.locked)
  | _ => true

structure Inv (s : State T) : Prop where
  waits : Orderly s.waits
  free : s.locked = false → s.owner = none ∧ s.recurs = 0 ∧ ∀ t, s.held t = 0
  taken : s.locked = true → ∃ t, s.owner = some t ∧ s.recurs = s.held t ∧ 0 < s.held t ∧
    ∀ u, u ≠ t → s.held u = 0

variable {s : State T} {t : T}

theorem Inv.exclusive (h : Inv s) : Exclusive s := by
  cases hlocked : s.locked with
  | false =>
    rcases h.free hlocked with ⟨howner, hrecurs, hheld⟩
    refine ⟨fun t u ht => ?_, fun t ht => ?_, fun _ => ⟨hlocked, howner, hrecurs⟩⟩
    · exact absurd ht (by simp [hheld])
    · exact absurd ht (by simp [hheld])
  | true =>
    rcases h.taken hlocked with ⟨o, howner, hrecurs, hpos, hother⟩
    have hself : ∀ t, 0 < s.held t → t = o := by
      intro t ht
      by_contra hne
      exact absurd ht (by simp [hother t hne])
    refine ⟨fun t u ht hu => (hself t ht).trans (hself u hu).symm, fun t ht => ?_, fun hall => ?_⟩
    · have heq := hself t ht
      subst heq
      exact ⟨hlocked, howner, hrecurs⟩
    · exact absurd hpos (by simp [hall])

theorem Inv.withWaits (h : Inv s) {w : Waits T Unit} (hw : Orderly w) : Inv (s.withWaits w) :=
  ⟨hw, h.free, h.taken⟩

theorem Inv.take_free (h : Inv s) (hlocked : s.locked = false) : Inv (take s t 1) := by
  rcases h.free hlocked with ⟨-, -, hheld⟩
  refine ⟨h.waits, fun hfalse => absurd hfalse (by simp [take, State.setHeld, State.setPc]),
    fun _ => ⟨t, rfl, ?_, ?_, ?_⟩⟩
  · simp [take, State.setHeld, State.setPc, hheld]
  · simp [take, State.setHeld, State.setPc]
  · intro u hu
    simp [take, State.setHeld, State.setPc, hu, hheld]

theorem Inv.take_recursive (h : Inv s) (hlocked : s.locked = false) :
    Inv (take s t (s.recurs + 1)) := by
  rw [(h.free hlocked).2.1]
  exact h.take_free hlocked

theorem Inv.take_again (h : Inv s) (hlocked : s.locked = true) (howner : s.owner = some t) :
    Inv (take s t (s.recurs + 1)) := by
  rcases h.taken hlocked with ⟨o, ho, hrecurs, hpos, hother⟩
  cases ho.symm.trans howner
  refine ⟨h.waits, fun hfalse => absurd hfalse (by simp [take, State.setHeld, State.setPc]),
    fun _ => ⟨t, rfl, ?_, ?_, ?_⟩⟩
  · simp [take, State.setHeld, State.setPc, hrecurs]
  · simp [take, State.setHeld, State.setPc]
  · intro u hu
    simp [take, State.setHeld, State.setPc, hu, hother u hu]

/-! ## One step -/

theorem State.outside_ready (h : s.outside t = true) : s.waits.ready t = true := by
  simp only [State.outside, Bool.and_eq_true] at h
  exact h.2

theorem Inv.wait (h : Inv s) (hout : s.outside t = true)
    (hnot : s.waits.interrupted t = false) (pc : Pc) :
    ∃ w, schedWaitEnter s.waits t () = (.ok, w) ∧ Inv ((s.withWaits w).setPc t pc) := by
  have hready := State.outside_ready hout
  refine ⟨_, h.waits.enter_sleeps hready hnot (), ?_⟩
  have hsleep : Orderly ((s.waits.setWakeup t .none).sleepOn t ()) :=
    h.waits.setWakeup.sleepOn (by simpa using hready)
  exact ⟨hsleep, h.free, h.taken⟩

theorem Inv.mtxLock_safe (h : Inv s) (hout : s.outside t = true)
    (hok : findsFree s (.lock t) = true) : Safe Asserted (mtxLock s t) Inv := by
  refine assert_safe.bind fun _ hassert => ?_
  cases hlocked : s.locked with
  | false => exact h.take_free hlocked
  | true =>
    have hnot : s.waits.interrupted t = false := by
      simpa [findsFree, hout, hlocked] using hok
    rcases h.wait hout hnot .lockWait with ⟨w, heq, hw⟩
    simp only [if_true, heq]
    exact hw

theorem Inv.mtxRecursiveLock_safe (h : Inv s) (hout : s.outside t = true)
    (hok : findsFree s (.recursiveLock t) = true) :
    Safe Asserted (mtxRecursiveLock s t) Inv := by
  rw [mtxRecursiveLock]
  by_cases hcond : s.locked = true ∧ s.owner ≠ some t
  · have hnot : s.waits.interrupted t = false := by
      simpa [findsFree, hout, hcond.1, hcond.2] using hok
    rcases h.wait hout hnot .recursiveWait with ⟨w, heq, hw⟩
    rw [if_pos hcond, heq]
    exact hw
  · rw [if_neg hcond]
    cases hlocked : s.locked with
    | false => exact h.take_recursive hlocked
    | true =>
      have howner : s.owner = some t := by
        by_contra hne
        exact hcond ⟨hlocked, hne⟩
      exact h.take_again hlocked howner

theorem orderly_wakeupHead {w : Waits T Unit} (h : Orderly w) :
    Orderly (schedWakeupHead w () .normal).2 := by
  cases hq : w.queue () with
  | nil =>
    rw [Orderly.wakeupHead_nil hq]
    exact h
  | cons u l =>
    rw [h.wakeupHead_cons hq]
    exact h.woken (by simp [hq])

theorem Inv.mtxUnlock_safe (h : Inv s) : Safe Asserted (mtxUnlock s t) Inv := by
  refine assert_safe.bind fun _ hown => ?_
  refine assert_safe.bind fun _ hpos => ?_
  rcases h.taken hown.1 with ⟨o, ho, hrecurs, hheld, hother⟩
  cases ho.symm.trans hown.2
  have hself : (drop s t).held t = s.held t - 1 := by simp [drop, State.setHeld]
  have hrest : ∀ u, u ≠ t → (drop s t).held u = 0 := by
    intro u hu
    simp [drop, State.setHeld, hu, hother u hu]
  have hcount : (drop s t).recurs = s.recurs - 1 := rfl
  by_cases hlast : s.recurs - 1 = 0
  · rw [if_pos hlast]
    refine ⟨orderly_wakeupHead h.waits, fun _ => ⟨rfl, hlast, fun u => ?_⟩,
      fun htrue => absurd htrue (by simp [Mutex.free])⟩
    by_cases hu : u = t
    · change (drop s t).held u = 0
      rw [hu, hself]
      omega
    · exact hrest u hu
  · rw [if_neg hlast]
    refine ⟨h.waits, fun hfalse => absurd (hown.1.symm.trans hfalse) (by simp),
      fun _ => ⟨t, hown.2, ?_, ?_, hrest⟩⟩
    · rw [hself, hcount, hrecurs]
    · rw [hself]
      omega

theorem Inv.resume (h : Inv s) (hfree : s.locked = false) : Inv (resume s t) := by
  have hw : Inv (s.withWaits (schedWaitLeave s.waits t).2) := by
    rw [Orderly.leave_eq]
    exact h.withWaits h.waits.setWakeup
  rw [Mutex.resume]
  cases hpc : s.pc t with
  | idle => exact h
  | lockWait => exact hw.take_free hfree
  | recursiveWait => exact hw.take_recursive hfree

/-- The step lemma: a step that finds the mutex free, if it has to, keeps the invariant. -/
theorem Inv.step_safe (h : Inv s) (a : Act T) (hok : findsFree s a = true) :
    Safe Asserted (step s a) Inv := by
  cases a with
  | lock t =>
    rw [step]
    split_ifs with hout
    · exact h.mtxLock_safe hout hok
    · exact h
  | recursiveLock t =>
    rw [step]
    split_ifs with hout
    · exact h.mtxRecursiveLock_safe hout hok
    · exact h
  | trylock t =>
    rw [step]
    split_ifs with hout
    · refine assert_safe.bind fun _ hassert => ?_
      cases hlocked : s.locked with
      | true => exact h
      | false => exact h.take_free hlocked
    · exact h
  | unlock t =>
    rw [step]
    split_ifs with hout
    · exact h.mtxUnlock_safe
    · exact h
  | resume t =>
    rw [step]
    split_ifs with hback
    · have hfree : s.locked = false := by simpa [findsFree, hback] using hok
      exact h.resume hfree
    · exact h
  | wakeup t reason => exact h.withWaits (h.waits.threadWakeup t reason)
  | cancel t => exact h.withWaits h.waits.cancel
  | pending t reason =>
    rw [step]
    split_ifs with hout
    · exact h.withWaits h.waits.setWakeup
    · exact h

theorem inv_mtxInit (wakeup : T → Wakeup) (canceled : T → Bool) :
    Inv (mtxInit wakeup canceled) :=
  ⟨orderly_init wakeup canceled, fun _ => ⟨rfl, rfl, fun _ => rfl⟩,
    fun htrue => absurd htrue (by simp [mtxInit])⟩

/-- In every interleaving in which no thread comes back from its wait, or is turned away from it,
while the mutex is taken, the mutex has at most one holder, and its fields describe it.  Misuse ends
in a failed assertion. -/
theorem mutex_exclusive {T : Type} [DecidableEq T] (wakeup : T → Wakeup) (canceled : T → Bool)
    (acts : List (Act T)) (hrun : guarded step findsFree (mtxInit wakeup canceled) acts = true) :
    Safe Asserted (runs step (mtxInit wakeup canceled) acts) Exclusive := by
  have hstep : ∀ (s : State T) (a : Act T), Inv s → findsFree s a = true →
      Safe Asserted (step s a) Inv := fun s a h hok => h.step_safe a hok
  refine (Safe.runs hstep (inv_mtxInit wakeup canceled) hrun).mono ?_
  exact fun s h => h.exclusive

def quiet : State Nat := mtxInit (fun _ => .none) fun _ => false

theorem mutex_exclusive_handover :
    let acts := [Act.lock 0, .recursiveLock 1, .trylock 2, .unlock 0, .resume 1,
      .recursiveLock 1, .unlock 1]
    guarded step findsFree quiet acts = true ∧ (runs step quiet acts).isOk = true ∧
      Safe Asserted (runs step quiet acts) Exclusive := by
  intro acts
  have hrun : guarded step findsFree quiet acts = true := by decide +kernel
  exact ⟨hrun, by decide +kernel, mutex_exclusive _ _ acts hrun⟩

/-- The state after thread 0 has released the mutex, thread 2 has taken it and thread 1 has come
back from its wait. -/
def twoHolders : State Nat :=
  match runs step quiet [.lock 0, .lock 1, .unlock 0, .lock 2, .resume 1] with
  | .ok s => s
  | .error _ => quiet

/-- The woken waiter takes a mutex that another thread has taken in the meantime. -/
theorem woken_waiter_takes_held_mutex :
    runs step quiet [.lock 0, .lock 1, .unlock 0, .lock 2, .resume 1] = .ok twoHolders ∧
    0 < twoHolders.held 1 ∧ 0 < twoHolders.held 2 ∧ ¬ Exclusive twoHolders := by
  have hone : 0 < twoHolders.held 1 := by decide +kernel
  have htwo : 0 < twoHolders.held 2 := by decide +kernel
  refine ⟨rfl, hone, htwo, fun h => ?_⟩
  exact absurd (h.unique 1 2 hone htwo) (by decide)

end Mutex
end Sync
end XytherOS
