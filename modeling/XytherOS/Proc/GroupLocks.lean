import XytherOS.Lib.Ends
import XytherOS.Proc.Process

/-!
# GroupLocks — the locks of the process-identity calls (`sys/syscall/sysproc.c`)

Both searches of `procQ` end in `queue_lock` where `queue_unlock` is meant.  The thread holds the
lock already, so that no search returns, and no call that needs one.  A lock that is taken by its
holder or released by another thread, and a reference count that is touched without the lock, are
faults.
-/

namespace XytherOS
namespace Process
namespace Locks

open Function

variable {P : Type} [DecidableEq P]

inductive Spin (P : Type)
  | procQ
  | proc (p : P)
  deriving DecidableEq

/-- The processes, the content of `procQ`, and the locks that the calling thread holds. -/
structure Held (P : Type) where
  proc : P → Proc P
  procQ : List P
  holds : Spin P → Bool

abbrev LockM (P : Type) := StateT (Held P) (Except Fault)

def lock (l : Spin P) : LockM P Unit := do
  if (← get).holds l then throw (.assertion "Spinlock already held")
  else modify fun s => { s with holds := update s.holds l true }

def unlock (l : Spin P) : LockM P Unit := do
  if (← get).holds l then modify fun s => { s with holds := update s.holds l false }
  else throw (.assertion "Spinlock must be held.")

/-- `++proc->refcnt` and `--proc->refcnt`, under the lock of `p`. -/
def count (p : P) (n : Int) : LockM P Unit := do
  if (← get).holds (.proc p) then
    modify fun s => { s with
      proc := update s.proc p { s.proc p with refcnt := (s.proc p).refcnt + n } }
  else throw (.assertion "Spinlock must be held.")

def procGetref (p : P) : LockM P Unit := count p 1

def procRelease (p : P) : LockM P Unit := do
  count p (-1)
  unlock (.proc p)

def procHasexeced (p : P) : LockM P Bool := do
  if (← get).holds (.proc p) then return ((← get).proc p).execed
  else
    lock (.proc p)
    let execed := ((← get).proc p).execed
    unlock (.proc p)
    return execed

def search (test : Proc P → Bool) (ref : Bool) : List P → LockM P (Option P)
  | [] => return none
  | p :: ps => do
    lock (.proc p)
    if test ((← get).proc p) then
      if ref then procGetref p else unlock (.proc p)
      return some p
    else
      unlock (.proc p)
      search test ref ps

def procQSearch (test : Proc P → Bool) (ref : Bool) : LockM P (Option P) := do
  lock .procQ
  let found ← search test ref (← get).procQ
  lock .procQ
  return found

def procQSearchBypid (pid : Int) (ref : Bool) : LockM P (Option P) :=
  procQSearch (fun proc => proc.pid == pid) ref

def procQSearchBypgid (pgid : Int) (ref : Bool) : LockM P (Option P) :=
  procQSearch (fun proc => proc.pgid == pgid) ref

variable (curproc : P)

def getsid (pid : Int) : LockM P (Res Int) := do
  lock (.proc curproc)
  let mysess := ((← get).proc curproc).sid
  unlock (.proc curproc)
  if pid = 0 then return .val mysess
  let some proc ← procQSearchBypid ((← get).proc curproc).pid true | return .err .ESRCH
  let sid := ((← get).proc proc).sid
  procRelease proc
  return if mysess ≠ sid then .err .EPERM else .val sid

def setsid : LockM P (Res Int) := do
  if (← procQSearchBypgid ((← get).proc curproc).pid false).isSome then
    unlock (.proc curproc)
    return .err .EPERM
  lock (.proc curproc)
  let proc := (← get).proc curproc
  if proc.pid = proc.pgid then
    unlock (.proc curproc)
    return .err .EPERM
  modify fun s => { s with
    proc := update s.proc curproc { proc with sid := proc.pid, pgid := proc.pid } }
  unlock (.proc curproc)
  return .val proc.pid

def getpgrp : LockM P (Res Int) := do
  lock (.proc curproc)
  let pgid := ((← get).proc curproc).pgid
  unlock (.proc curproc)
  return .val pgid

def getpgid (pid : Int) : LockM P (Res Int) := do
  if pid < 0 then return .err .EINVAL
  if pid = 0 then getpgrp curproc
  else
    let some proc ← procQSearchBypid pid true | return .err .ESRCH
    if proc ≠ curproc then
      lock (.proc curproc)
      let s ← get
      unlock (.proc curproc)
      if (s.proc proc).sid ≠ (s.proc curproc).sid then
        procRelease proc
        return .err .EPERM
    let pgid := ((← get).proc proc).pgid
    procRelease proc
    return .val pgid

/-- The loop of `setpgid` over the data of the nodes of `procQ`. -/
def findLeader (proc : P) (pgid : Int) : List (Option P) → LockM P (Option P)
  | [] => return none
  | node :: nodes =>
    if node = some proc then findLeader proc pgid nodes
    else
      match node with
      | none => throw (.assertion "Invalid proc.")
      | some leader => do
        lock (.proc leader)
        if ((← get).proc leader).pgid = pgid then
          procGetref leader
          return some leader
        else
          unlock (.proc leader)
          findLeader proc pgid nodes

def setpgid (data : P → Option P) (pid pgid : Int) : LockM P Ret := do
  if pgid < 0 then return .err .EINVAL
  let getpid := ((← get).proc curproc).pid
  let some proc ← procQSearchBypid (if pid = 0 then getpid else pid) true | return .err .ESRCH
  if ((← get).proc proc).parent = some curproc then
    if ← procHasexeced proc then
      procRelease proc
      return .err .EACCES
    lock (.proc curproc)
    let s ← get
    unlock (.proc curproc)
    if (s.proc proc).sid ≠ (s.proc curproc).sid then
      procRelease proc
      return .err .EPERM
  if ((← get).proc proc).pid = ((← get).proc proc).sid then
    procRelease proc
    return .err .EPERM
  lock .procQ
  let leader ← findLeader proc pgid ((← get).procQ.map data)
  unlock .procQ
  if ((← get).proc proc).pid ≠ pgid ∧ leader = none then
    procRelease proc
    return .err .EPERM
  if let some leader := leader then
    if leader ≠ curproc then
      lock (.proc curproc)
      let s ← get
      if (s.proc leader).sid ≠ (s.proc curproc).sid then
        procRelease leader
        unlock (.proc curproc)
        return .err .EPERM
      unlock (.proc curproc)
  modify fun s => { s with proc := update s.proc proc { s.proc proc with pgid := pgid } }
  if let some leader := leader then procRelease leader
  procRelease proc
  return .ok

/-! ## Balance -/

inductive IdCall
  | searchBypid (pid : Int) (ref : Bool)
  | searchBypgid (pgid : Int) (ref : Bool)
  | getsid (pid : Int)
  | getpgid (pid : Int)
  | setsid
  | setpgid (pid pgid : Int)

/-- The locks and the references that were held before, and those of the process that was found. -/
def Kept (s : Held P) (found : Option P) (s' : Held P) : Prop :=
  (∀ l, s'.holds l = true ↔ s.holds l = true ∨ ∃ p ∈ found, l = .proc p) ∧
    ∀ p, (s'.proc p).refcnt = (s.proc p).refcnt + if p ∈ found then 1 else 0

def Balanced (data : P → Option P) (s : Held P) : IdCall → Prop
  | .searchBypid pid ref => Ends (procQSearchBypid pid ref) s fun found s' =>
      Kept s (if ref then found else none) s'
  | .searchBypgid pgid ref => Ends (procQSearchBypgid pgid ref) s fun found s' =>
      Kept s (if ref then found else none) s'
  | .getsid pid => Ends (getsid curproc pid) s fun _ s' => Kept s none s'
  | .getpgid pid => Ends (getpgid curproc pid) s fun _ s' => Kept s none s'
  | .setsid => Ends (setsid curproc) s fun _ s' => Kept s none s'
  | .setpgid pid pgid => Ends (setpgid curproc data pid pgid) s fun _ s' => Kept s none s'

/-- The calls that come to no search, and find the lock of `curproc` free if they take it. -/
def Fine (s : Held P) : IdCall → Prop
  | .getsid pid => pid = 0 ∧ s.holds (.proc curproc) = false
  | .getpgid pid => pid < 0 ∨ pid = 0 ∧ s.holds (.proc curproc) = false
  | .setpgid _ pgid => pgid < 0
  | .searchBypid .. | .searchBypgid .. | .setsid => False

variable {s : Held P} {curproc} {l : Spin P}

@[simp] theorem ends_lock {Q : Unit → Held P → Prop} : Ends (lock l) s Q ↔
    s.holds l = false ∧ Q () { s with holds := update s.holds l true } := by
  cases h : s.holds l <;> simp [lock, h]

@[simp] theorem ends_unlock {Q : Unit → Held P → Prop} : Ends (unlock l) s Q ↔
    s.holds l = true ∧ Q () { s with holds := update s.holds l false } := by
  cases h : s.holds l <;> simp [unlock, h]

@[simp] theorem ends_procGetref {p : P} {Q : Unit → Held P → Prop} :
    Ends (procGetref p) s Q ↔ s.holds (.proc p) = true ∧ Q () { s with
      proc := update s.proc p { s.proc p with refcnt := (s.proc p).refcnt + 1 } } := by
  cases h : s.holds (.proc p) <;> simp [procGetref, count, h]

theorem search_holds {test : Proc P → Bool} {ref : Bool} {ps : List P}
    {Q : Option P → Held P → Prop} (hs : s.holds .procQ = true)
    (hends : Ends (search test ref ps) s Q) : ∃ found s', s'.holds .procQ = true ∧ Q found s' := by
  induction ps generalizing s with
  | nil => exact ⟨none, s, hs, hends⟩
  | cons p ps ih =>
    simp only [search, ends_bind, ends_lock, ends_get] at hends
    split at hends
    · cases ref with
      | true =>
        simp only [if_true, ends_bind, ends_procGetref, ends_pure] at hends
        exact ⟨_, _, by simpa using hs, hends.2.2⟩
      | false =>
        simp only [Bool.false_eq_true, if_false, ends_bind, ends_unlock, ends_pure] at hends
        exact ⟨_, _, by simpa using hs, hends.2.2⟩
    · simp only [ends_bind, ends_unlock] at hends
      exact ih (by simpa using hs) hends.2.2

@[simp] theorem not_ends_procQSearch (test : Proc P → Bool) (ref : Bool)
    (Q : Option P → Held P → Prop) : ¬ Ends (procQSearch test ref) s Q := by
  simp only [procQSearch, ends_bind, ends_lock, ends_get]
  rintro ⟨-, hends⟩
  rcases search_holds (by simp) hends with ⟨_, s', hs', hfree, -⟩
  exact absurd hs' (by simp [hfree])

theorem kept_self (hfree : s.holds l = false) : Kept s none
    { s with holds := update (update s.holds l true) l false } := by
  have hsame : update (update s.holds l true) l false = s.holds := by
    rw [update_idem, ← hfree, update_eq_self]
  simp [Kept, hsame]

theorem getpgrp_kept : Ends (getpgrp curproc) s (fun _ s' => Kept s none s') ↔
    s.holds (.proc curproc) = false := by
  simp only [getpgrp, ends_bind, ends_lock, ends_get, ends_unlock, ends_pure]
  refine ⟨fun h => h.1, fun hfree => ⟨hfree, by simp, kept_self hfree⟩⟩

/-- The calls that search never return. -/
theorem id_call_balanced_iff (curproc : P) (data : P → Option P) (s : Held P) (call : IdCall) :
    Balanced curproc data s call ↔ Fine curproc s call := by
  cases call with
  | searchBypid pid ref => simp [Balanced, Fine, procQSearchBypid]
  | searchBypgid pgid ref => simp [Balanced, Fine, procQSearchBypgid]
  | setsid => simp [Balanced, Fine, setsid, procQSearchBypgid]
  | getsid pid =>
    simp only [Balanced, Fine, getsid, ends_bind, ends_lock, ends_get, ends_unlock]
    by_cases hpid : pid = 0
    · simp only [if_pos hpid, ends_pure]
      exact ⟨fun h => ⟨hpid, h.1⟩, fun h => ⟨h.2, by simp, kept_self h.2⟩⟩
    · simp [hpid, procQSearchBypid]
  | getpgid pid =>
    simp only [Balanced, Fine, getpgid]
    split_ifs with hneg hzero
    · simp [hneg, Kept]
    · simp [hzero, getpgrp_kept]
    · simp [hneg, hzero, procQSearchBypid]
  | setpgid pid pgid =>
    simp only [Balanced, Fine, setpgid]
    by_cases hneg : pgid < 0
    · simp [hneg, Kept]
    · simp [hneg, procQSearchBypid]

/-- `procQ` is empty. -/
theorem search_locks_twice :
    ¬ ∀ (s : Held Unit) (call : IdCall), Balanced () (fun _ => none) s call := fun hall =>
  (id_call_balanced_iff () _ ⟨fun _ => ⟨1, 1, 1, none, .running, false, 0, 1, true⟩, [],
    fun _ => false⟩ (.searchBypid 1 false)).1 (hall _ _)

end Locks
end Process
end XytherOS
