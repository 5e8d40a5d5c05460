import XytherOS.Proc.Fork

/-!
# ForkAtomic — a `fork` that fails (`sys/syscall/fork.c`)

`fork` has one label for its errors.  It unlocks the caller and gives up one reference to the new
process, but takes it neither out of `procQ` nor out of the children of the caller, whose reference
count stays raised.  After `proc_unlock(curproc)`, a failure of `thread_schedule` goes to the same
label, which unlocks the caller once more.
-/

namespace XytherOS
namespace Process

open Ds

variable {P : Type} [DecidableEq P] [Fintype P]

/-! ## The locks of the caller -/

/-- The processes, with the lock of the process that forks and that of the thread which does it. -/
structure Caller (P : Type) extends State P where
  procLock : Bool
  threadLock : Bool

namespace Caller

def withState (s : Caller P) (t : State P) : Caller P := { s with toState := t }

def lockProc (s : Caller P) : Except Fault (Caller P) := do
  assert (s.procLock = false) "Spinlock already held"
  return { s with procLock := true }

def unlockProc (s : Caller P) : Except Fault (Caller P) := do
  assert (s.procLock = true) "Spinlock must be held."
  return { s with procLock := false }

def lockThread (s : Caller P) : Except Fault (Caller P) := do
  assert (s.threadLock = false) "Spinlock already held"
  return { s with threadLock := true }

def unlockThread (s : Caller P) : Except Fault (Caller P) := do
  assert (s.threadLock = true) "Spinlock must be held."
  return { s with threadLock := false }

end Caller

def forkError (s : Caller P) (curproc child : P) (err : Errno) :
    Except Fault (Res Int × Caller P) := do
  let s ← s.unlockProc
  return (.err err, s.withState (← procFree s.toState (some curproc) child))

/-- `fork` with the locks of the caller.  Those of the new process and of its thread are seen by
nobody else. -/
def forkCall (s : Caller P) (curproc : P) (place : Option P) (fail : Option (Stage × Errno)) :
    Except Fault (Res Int × Caller P) := do
  let s ← s.lockProc
  match ← procAlloc s.toState place (failAt fail .alloc) with
  | (.err e, t) => return (.err e, ← (s.withState t).unlockProc)
  | (.val child, t) =>
    let s := s.withState t
    match ← copyProc s.toState child curproc (failAt fail .copy) with
    | (.err e, t) => forkError (s.withState t) curproc child e
    | (.ok, t) =>
      let s ← (s.withState t).lockThread
      let s ← s.unlockThread
      match failAt fail .thread with
      | some e => forkError s curproc child e
      | none =>
        let s ← s.unlockProc
        match failAt fail .schedule with
        | some e => forkError s curproc child e
        | none =>
          let proc := s.proc child
          return (.val proc.pid,
            s.withState (s.setProc child { proc with started := true }))

variable {s : State P} {l : List P} {kids : P → List P} {p x : P} {place : Option P}
  {fail : Option (Stage × Errno)}

def State.caller (s : State P) : Caller P := { s with procLock := false, threadLock := false }

def State.inside (s : State P) : Caller P := { s with procLock := true, threadLock := false }

theorem lockProc_caller (s : State P) : s.caller.lockProc = .ok s.inside := rfl

theorem unlockProc_inside (s : State P) : s.inside.unlockProc = .ok s.caller := rfl

theorem thread_locks (s : State P) :
    s.inside.lockThread >>= Caller.unlockThread = .ok s.inside := rfl

theorem withState_inside (s t : State P) : s.inside.withState t = t.inside := rfl

theorem forkError_inside (s : State P) (p child : P) (e : Errno) :
    forkError s.inside p child e =
      (procFree s (some p) child).map fun t => (.err e, t.caller) := by
  rw [forkError, unlockProc_inside, ok_bind]
  cases hfree : procFree s (some p) child with
  | error f =>
    have hfree' : procFree s.caller.toState (some p) child = .error f := hfree
    rw [hfree']
    rfl
  | ok t =>
    have hfree' : procFree s.caller.toState (some p) child = .ok t := hfree
    rw [hfree']
    rfl

theorem forkCall_eq (s : State P) (p : P) (place : Option P) (fail : Option (Stage × Errno)) :
    forkCall s.caller p place fail =
      (fork s p place fail).map fun x => (x.1, x.2.caller) := by
  rw [forkCall, fork, lockProc_caller, ok_bind]
  cases halloc : procAlloc s place (failAt fail .alloc) with
  | error f =>
    have halloc' : procAlloc s.inside.toState place (failAt fail .alloc) = .error f := halloc
    rw [halloc']
    rfl
  | ok x =>
    have halloc' : procAlloc s.inside.toState place (failAt fail .alloc) = .ok x := halloc
    rw [halloc', ok_bind, ok_bind]
    rcases x with ⟨child | e, t⟩
    swap
    · rfl
    dsimp only
    rw [withState_inside]
    cases hcopy : copyProc t child p (failAt fail .copy) with
    | error f =>
      have hcopy' : copyProc t.inside.toState child p (failAt fail .copy) = .error f := hcopy
      rw [hcopy']
      rfl
    | ok x =>
      have hcopy' : copyProc t.inside.toState child p (failAt fail .copy) = .ok x := hcopy
      rw [hcopy', ok_bind, ok_bind]
      rcases x with ⟨_ | e, t'⟩
      · -- the copies are made
        dsimp only
        rw [withState_inside, ← bind_assoc, thread_locks, ok_bind, forkStart]
        cases hthread : failAt fail .thread with
        | some e =>
          dsimp only
          rw [forkError_inside]
          cases procFree t' (some p) child <;> rfl
        | none =>
          dsimp only
          rw [unlockProc_inside, ok_bind]
          cases hsched : failAt fail .schedule with
          | some e => rfl
          | none => rfl
      · dsimp only
        rw [withState_inside, forkError_inside]
        cases procFree t' (some p) child <;> rfl

/-! ## What a failed `fork` leaves -/

/-- The queue of all processes, the children of the caller, its references and its locks are as they
were. -/
structure Undone (s s' : Caller P) (p : P) : Prop where
  procQ : nodeSequence s'.procQ () = nodeSequence s.procQ ()
  children : nodeSequence s'.children p = nodeSequence s.children p
  refcnt : (s'.proc p).refcnt = (s.proc p).refcnt
  procLock : s'.procLock = s.procLock
  threadLock : s'.threadLock = s.threadLock
  locked : s'.locked = s.locked

/-- A `fork` that returns an error leaves everything as it was, exactly when what fails is in
`proc_alloc`. -/
theorem fork_atomic_iff (h : Sane s l kids) (hp : s.live p = true)
    (hfree : place.any s.live = false) :
    Safe (fun _ => False) (forkCall s.caller p place fail)
        (fun x => ∀ e, x.1 = .err e → Undone s.caller x.2 p) ↔
      (fail ≠ none → forkChild s place fail = none) := by
  rw [forkCall_eq]
  cases hchild : forkChild s place fail with
  | none =>
    obtain ⟨e, pids, hfork⟩ := fork_none h hchild (p := p)
    rw [hfork]
    exact iff_of_true (fun _ _ => ⟨rfl, rfl, rfl, rfl, rfl, rfl⟩) fun _ => rfl
  | some x =>
    have hsome := fork_some h hp hfree hchild
    simp only [reduceCtorEq, imp_false, not_not]
    split_ifs at hsome with hsched
    · -- the kernel panics
      rw [hsome]
      refine iff_of_false id ?_
      rintro rfl
      exact absurd hsched (by simp [failAt])
    · obtain ⟨ret, s', hfork, hadded, hret⟩ := hsome
      rw [hfork]
      constructor
      · intro hundone
        by_contra hfail
        obtain ⟨⟨stage, e⟩, hat⟩ := Option.ne_none_iff_exists'.1 hfail
        -- the new process is still in `procQ`
        have hsame := (hundone e ((hret e).2 ⟨stage, hat⟩)).procQ
        have hbefore : nodeSequence s.procQ () = l := (h.procQ.holds ()).nodeSequence_eq
        have hafter : nodeSequence s'.procQ () = l ++ [x] :=
          (hadded.sane.procQ.holds ()).nodeSequence_eq
        have hlists : l ++ [x] = l := hafter.symm.trans (hsame.trans hbefore)
        simp at hlists
      · rintro rfl e he
        obtain ⟨stage, hat⟩ := (hret e).1 he
        exact absurd hat (by simp)

def single : State (Fin 2) :=
  { State.empty (fun _ => newProc 1) with
    live := fun p => decide (p = 0)
    pids := 1 }

theorem single_sane : Sane single [] fun _ => [] where
  unlocked _ := rfl
  bucket := rfl
  procQ := inv_init
  links := inv_init
  live := by simp
  queued := by simp
  owner := by simp

theorem fork_nomem_atomic :
    Safe (fun _ => False) (forkCall single.caller 0 (some 1) (some (.alloc, .ENOMEM)))
      (fun x => ∀ e, x.1 = .err e → Undone single.caller x.2 0) :=
  (fork_atomic_iff single_sane (by decide) (by decide)).2 fun _ => rfl

/-- The address space cannot be copied: the new process stays in `procQ`. -/
theorem fork_copy_not_atomic :
    ¬∀ (s : State (Fin 2)) (l : List (Fin 2)) (kids : Fin 2 → List (Fin 2)), Sane s l kids →
      s.live 0 = true →
      Safe (fun _ => False) (forkCall s.caller 0 (some 1) (some (.copy, .ENOMEM)))
        (fun x => ∀ e, x.1 = .err e → Undone s.caller x.2 0) := by
  intro h
  have hatomic := h single [] _ single_sane (by decide)
  have hrun : (forkCall single.caller 0 (some 1) (some (.copy, .ENOMEM))).toOption.map
      (fun x => (x.1, nodeSequence x.2.procQ ())) = some (.err .ENOMEM, [1]) := by
    decide +kernel
  cases hcall : forkCall single.caller 0 (some 1) (some (.copy, .ENOMEM)) with
  | error f => simp [hcall, Except.toOption] at hrun
  | ok x =>
    rw [hcall] at hatomic hrun
    simp only [Except.toOption, Option.map_some, Option.some.injEq, Prod.mk.injEq] at hrun
    have hsame := (hatomic .ENOMEM hrun.1).procQ
    rw [hrun.2] at hsame
    exact absurd hsame (by decide)

end Process
end XytherOS
