import Mathlib.Data.Fintype.Card
import XytherOS.Ds.EmbeddedRefine

/-!
# Process — the processes and their queues (`sys/thread/process.c`)

A process is in `procQ` and in the children queue of its parent.  It counts the references to it
and is freed when the last one is given up.

* `P` names the places for processes.  The one that `kzalloc` finds is a parameter of
  `procAlloc`, and so is the failure of what is allocated besides.
* The locks of the queues are held or not; a lock that is taken twice or released once too often
  ends in the assertion of `spin_lock` or `spin_unlock`.  The locks of the processes make the
  steps of a run, and are left out.
* Of a process there is what the functions here and the system calls read.
-/

namespace XytherOS
namespace Process

open Ds Function

inductive ProcState
  | embryo
  | ready
  | running
  | sleep
  | stopped
  | zombie
  | terminated
  deriving DecidableEq, Repr

/-- `proc_t`; `started` says that its main thread has been scheduled. -/
structure Proc (P : Type) where
  pid : Int
  sid : Int
  pgid : Int
  parent : Option P
  state : ProcState
  execed : Bool
  status : Int
  refcnt : Int
  started : Bool
  deriving DecidableEq, Repr

inductive Lock (P : Type)
  | procQ
  | procIDs
  | children (p : P)
  deriving DecidableEq, Repr

structure State (P : Type) where
  proc : P → Proc P
  live : P → Bool
  procQ : Queues Unit P
  children : Queues P P
  procIDs : List Int
  pids : BitVec 64
  initproc : Option P
  locked : Lock P → Bool

inductive Res (α : Type)
  | val (a : α)
  | err (e : Errno)
  deriving DecidableEq, Repr

def NPROC : Int := 32786

variable {P : Type} [DecidableEq P] [Fintype P]

namespace State

def empty (memory : P → Proc P) : State P where
  proc := memory
  live _ := false
  procQ := .init
  children := .init
  procIDs := []
  pids := 0
  initproc := none
  locked _ := false

def setProc (s : State P) (p : P) (proc : Proc P) : State P :=
  { s with proc := update s.proc p proc }

def lock (s : State P) (l : Lock P) : Except Fault (State P) := do
  assert (s.locked l = false) "Spinlock already held"
  return { s with locked := update s.locked l true }

def unlock (s : State P) (l : Lock P) : Except Fault (State P) := do
  assert (s.locked l = true) "Spinlock must be held."
  return { s with locked := update s.locked l false }

def getref (s : State P) (p : P) : State P :=
  s.setProc p { s.proc p with refcnt := (s.proc p).refcnt + 1 }

def putref (s : State P) (p : P) : State P :=
  s.setProc p { s.proc p with refcnt := (s.proc p).refcnt - 1 }

def access (s : State P) (p : P) : Except Fault Unit :=
  if s.live p = true then .ok () else .error .wildAccess

def alive (s : State P) : Finset P := Finset.univ.filter fun p => s.live p = true

end State

def procDied (proc : Proc P) : Bool := proc.state = .terminated || proc.state = .zombie

def procStopped (proc : Proc P) : Bool := proc.state = .stopped

/-! ## Process ids -/

def toPid (pids : BitVec 64) : Int := (pids.setWidth 32).toInt

def procAllocPid (s : State P) : Except Fault (Res Int × State P) := do
  let s ← s.lock .procIDs
  let bucket := s.procIDs
  let s ← { s with procIDs := bucket.tail }.unlock .procIDs
  match bucket with
  | pid :: _ => return (.val pid, s)
  | [] =>
    let s := { s with pids := s.pids + 1 }
    if NPROC ≤ toPid s.pids then return (.err .EAGAIN, s) else return (.val (toPid s.pids), s)

def procFreePid (s : State P) (_pid : Int) : State P := s

/-! ## Allocation -/

/-- A process as `kzalloc` leaves it, with the fields that `proc_alloc` sets.  One reference is
that of the caller and one is that of the main thread. -/
def newProc (pid : Int) : Proc P :=
  { pid := pid
    sid := pid
    pgid := pid
    parent := none
    state := .embryo
    execed := false
    status := 0
    refcnt := 2
    started := false }

def clearNode (kq : Queues Unit P) (p : P) : Queues Unit P :=
  { kq with node := update kq.node p { prev := none, next := none } }

def clearQueue (kq : Queues P P) (p : P) : Queues P P :=
  { node := update kq.node p { prev := none, next := none }
    queue := update kq.queue p { head := none, tail := none, qCount := 0 } }

def State.place (s : State P) (p : P) (pid : Int) : State P :=
  { s with
    proc := update s.proc p (newProc pid)
    live := update s.live p true
    procQ := clearNode s.procQ p
    children := clearQueue s.children p
    locked := update s.locked (.children p) false }

/-- `proc_alloc`.  `place` is what `kzalloc` returns, and `fail` the error of `mmap_alloc`,
`thread_alloc`, `thread_create_group` or `strdup`; a failure frees the place again. -/
def procAlloc (s : State P) (place : Option P) (fail : Option Errno) :
    Except Fault (Res P × State P) :=
  match place, fail with
  | none, _ => return (.err .ENOMEM, s)
  | some _, some e => return (.err e, s)
  | some p, none => do
      match ← procAllocPid s with
      | (.err e, s) => return (.err e, s)
      | (.val pid, s) => return (.val p, s.place p pid)

/-- `queue_flush(&proc->children)` gives every node to `kfree`; a node lies within a process. -/
def flushChildren (s : State P) (p : P) : Except Fault (State P) :=
  match (s.children.queue p).head with
  | some _ => .error .wildAccess
  | none => return { s with
      children := { s.children with
        queue := update s.children.queue p
          { s.children.queue p with head := none, tail := none } } }

def procFree (s : State P) (curproc : Option P) (p : P) : Except Fault (State P) := do
  assert (curproc ≠ some p) "ERROR: process cannot destroy self"
  s.access p
  let s := s.putref p
  if (s.proc p).refcnt ≤ 0 then do
    let s ← s.lock (.children p)
    let s ← flushChildren s p
    let s ← s.unlock (.children p)
    let s := procFreePid s (s.proc p).pid
    return { s with live := update s.live p false }
  else
    return s

/-! ## The queue of all processes -/

def procQInsert (s : State P) (p : P) : Except Fault (Ret × State P) := do
  let s ← s.lock .procQ
  let (ret, procQ) ← embeddedEnqueue s.procQ () p .unique
  let s := { s with procQ := procQ }
  let s := if ret = .ok then s.getref p else s
  let s ← s.unlock .procQ
  return (ret, s)

def procQRemove (s : State P) (p : P) : Except Fault (Ret × State P) := do
  let s ← s.lock .procQ
  let (ret, procQ) ← embeddedQueueRemove s.procQ () p
  let s := { s with procQ := procQ }
  let s := if ret = .ok then s.putref p else s
  let s ← s.unlock .procQ
  return (ret, s)

/-- The first of the processes with a property.  Each of them is locked to look at it. -/
def findProc (s : State P) (test : Proc P → Bool) : List P → Except Fault (Option P)
  | [] => return none
  | p :: ps => do
      s.access p
      if test (s.proc p) then return some p else findProc s test ps

/-- The body that `procQ_search_bypid` and `procQ_search_bypgid` share; `ref` says that the caller
wants a reference. -/
def procQSearch (s : State P) (test : Proc P → Bool) (ref : Bool) :
    Except Fault (Option P × State P) := do
  let s ← s.lock .procQ
  let found ← findProc s test (nodeSequence s.procQ ())
  let s := match found with
    | some p => if ref then s.getref p else s
    | none => s
  -- both ways out of the search lock the queue once more
  let s ← s.lock .procQ
  return (found, s)

def procQSearchBypid (s : State P) (pid : Int) (ref : Bool) : Except Fault (Option P × State P) :=
  procQSearch s (fun proc => proc.pid = pid) ref

def procQSearchBypgid (s : State P) (pgid : Int) (ref : Bool) :
    Except Fault (Option P × State P) :=
  procQSearch s (fun proc => proc.pgid = pgid) ref

def procInit (s : State P) (place : Option P) (fail : Option Errno) (image : Option Errno) :
    Except Fault (Ret × State P) := do
  match ← procAlloc s place fail with
  | (.err e, s) => return (.err e, s)
  | (.val p, s) =>
    match image with
    | some e => return (.err e, ← procFree s none p)
    | none =>
      let s := s.setProc p { s.proc p with started := true }
      match ← procQInsert s p with
      | (.err e, s) => return (.err e, ← procFree s none p)
      | (.ok, s) => return (.ok, { s with initproc := some p })

variable {s : State P} {p : P} {l : Lock P}

def Unlocked (s : State P) : Prop := ∀ l, s.locked l = false

theorem lock_eq (h : s.locked l = false) :
    s.lock l = .ok { s with locked := update s.locked l true } := by
  simp [State.lock, assert, h]

theorem lock_held (h : s.locked l = true) :
    s.lock l = .error (.assertion "Spinlock already held") := by
  simp [State.lock, assert, h, bind, Except.bind]

theorem unlock_eq (h : s.locked l = true) :
    s.unlock l = .ok { s with locked := update s.locked l false } := by
  simp [State.unlock, assert, h]

theorem update_locked {f : Lock P → Bool} (h : f l = false) :
    update (update f l true) l false = f := by
  rw [update_idem, ← h, update_eq_self]

theorem access_eq (h : s.live p = true) : s.access p = .ok () := by
  rw [State.access, if_pos h]

theorem access_bind_ok_iff {β : Type} {f : Unit → Except Fault β} {b : β} :
    (s.access p >>= f) = .ok b ↔ s.live p = true ∧ f () = .ok b := by
  by_cases h : s.live p = true <;> simp [State.access, h]

theorem procAllocPid_eq (hlock : Unlocked s) (hbucket : s.procIDs = []) :
    procAllocPid s = .ok
      (if NPROC ≤ toPid (s.pids + 1) then .err .EAGAIN else .val (toPid (s.pids + 1)),
        { s with pids := s.pids + 1 }) := by
  rw [procAllocPid, lock_eq (hlock _), ok_bind]
  dsimp only
  rw [unlock_eq (by simp), ok_bind]
  simp only [hbucket, List.tail_nil]
  rw [update_locked (hlock _), ← hbucket]
  split_ifs <;> rfl

theorem procFree_drop {curproc : Option P} (hcur : curproc ≠ some p) (hlive : s.live p = true)
    (href : 2 ≤ (s.proc p).refcnt) : procFree s curproc p = .ok (s.putref p) := by
  have hnot : ¬ ((s.putref p).proc p).refcnt ≤ 0 := by
    simp only [State.putref, State.setProc, update_self]
    omega
  rw [procFree, assert, if_pos hcur, ok_bind, access_eq hlive, ok_bind]
  dsimp only
  rw [if_neg hnot]
  rfl

theorem procFree_last {curproc : Option P} (hcur : curproc ≠ some p) (hlive : s.live p = true)
    (href : (s.proc p).refcnt ≤ 1) (hlock : Unlocked s)
    (hhead : (s.children.queue p).head = none) :
    ∃ children, procFree s curproc p = .ok
      { s.putref p with children := children, live := update s.live p false } := by
  have hle : ((s.putref p).proc p).refcnt ≤ 0 := by
    simp only [State.putref, State.setProc, update_self]
    omega
  have hhead' : ((s.putref p).children.queue p).head = none := hhead
  refine ⟨{ s.children with
    queue := update s.children.queue p
      { s.children.queue p with head := none, tail := none } }, ?_⟩
  have hlock' : (s.putref p).locked (.children p) = false := hlock _
  rw [procFree, assert, if_pos hcur, ok_bind, access_eq hlive, ok_bind]
  dsimp only
  rw [if_pos hle, lock_eq hlock', ok_bind, flushChildren]
  simp only [hhead', pure_eq_ok, ok_bind]
  rw [unlock_eq (by simp), ok_bind]
  dsimp only [procFreePid]
  rw [update_locked hlock']
  rfl

end Process
end XytherOS
