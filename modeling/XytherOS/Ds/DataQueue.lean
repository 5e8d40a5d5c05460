import Mathlib.Data.Fintype.Card
import XytherOS.Core.Status
import XytherOS.Ds.Embedded

/-!
# DataQueue — the queues of `ds/queue/queue.c`

A data queue allocates a node for every datum and frees it when the datum leaves.  `live` says which
nodes are allocated: to read or write another one is a fault.  Loops over the nodes take at most as
many steps as there are addresses.
-/

namespace XytherOS
namespace Ds
namespace DataQueue

open Function Links

structure DataNode (N D : Type) where
  prev : Option N
  data : D
  next : Option N

instance {N D : Type} : LinkNode (DataNode N D) N where
  next := DataNode.next
  prev := DataNode.prev
  setNext n v := { n with next := v }
  setPrev n v := { n with prev := v }
  next_setNext _ _ := rfl
  prev_setNext _ _ := rfl
  next_setPrev _ _ := rfl
  prev_setPrev _ _ := rfl

structure DQueue (N D : Type) where
  node : N → DataNode N D
  live : N → Bool
  head : Option N
  tail : Option N
  qCount : Nat

variable {N D : Type} [DecidableEq N] [DecidableEq D] [Fintype N]

def queueInit (memory : N → DataNode N D) : DQueue N D :=
  { node := memory, live := fun _ => false, head := none, tail := none, qCount := 0 }

namespace DQueue

def reach (s : DQueue N D) : Option N → Except Fault Unit
  | none => .ok ()
  | some p => if s.live p then .ok () else throw .wildAccess

/-- `forlinked(node, queue->head, next)`, up to the first node that passes the test. -/
def search (s : DQueue N D) (test : N → Bool) : Except Fault (Option N) :=
  match scan (nexts s.node) (fun p => !s.live p || test p) (Fintype.card N) none s.head with
  | none => throw .hang
  | some (_, none) => .ok none
  | some (_, some p) => if s.live p then .ok (some p) else throw .wildAccess

def kmalloc (s : DQueue N D) (place : Option N) : Option N := place.filter fun p => !s.live p

def unlink (s : DQueue N D) (node : N) : Except Fault (DQueue N D) := do
  s.reach (some node)
  let next := (s.node node).next
  let prev := (s.node node).prev
  s.reach prev
  s.reach next
  return { s with
    node := storePrev (storeNext s.node prev next) next prev
    head := if s.head = some node then next else s.head
    tail := if s.tail = some node then prev else s.tail }

def link (s : DQueue N D) (node : N) : Whence → Except Fault (DQueue N D)
  | .tail =>
    match s.head with
    | none => .ok { s with head := some node, tail := some node }
    | some _ =>
      match s.tail with
      | none => throw .nullDeref
      | some t => do
          s.reach (some t)
          return { s with
            node := storePrev (storeNext s.node (some t) (some node)) (some node) (some t)
            tail := some node }
  | .head =>
    match s.head with
    | none => .ok { s with head := some node, tail := some node }
    | some h => do
        s.reach (some h)
        return { s with
          node := storeNext (storePrev s.node (some h) (some node)) (some node) (some h)
          head := some node }

def release (s : DQueue N D) (node : N) : Except Fault (DQueue N D) := do
  let s ← s.unlink node
  return { s with qCount := s.qCount - 1, live := update s.live node false }

end DQueue

/-! ## Functions of `queue.c` -/

def queueContains (s : DQueue N D) (data : D) : Except Fault (Option N) :=
  s.search fun p => decide ((s.node p).data = data)

/-- What a call gives back: its return code, the datum stored through `pdp`, and the node stored
through `pnp`. -/
structure Reply (N D : Type) where
  ret : Ret
  data : Option D
  node : Option N
  deriving DecidableEq

def Reply.code (ret : Ret) : Reply N D := ⟨ret, none, none⟩

def enqueueWhence (s : DQueue N D) (data : D) (uniqueness : Uniqueness) (whence : Whence)
    (place : Option N) : Except Fault (Reply N D × DQueue N D) := do
  if uniqueness = .unique then
    if (← queueContains s data).isSome then
      return (.code (.err .EEXIST), s)
  match s.kmalloc place with
  | none => return (.code (.err .ENOMEM), s)
  | some node =>
    let s := { s with
      node := update s.node node ⟨none, data, none⟩
      live := update s.live node true }
    let s ← s.link node whence
    return (⟨.ok, none, some node⟩, { s with qCount := s.qCount + 1 })

def enqueue (s : DQueue N D) (data : D) (uniqueness : Uniqueness) (place : Option N) :
    Except Fault (Reply N D × DQueue N D) :=
  enqueueWhence s data uniqueness .tail place

def enqueueHead (s : DQueue N D) (data : D) (uniqueness : Uniqueness) (place : Option N) :
    Except Fault (Reply N D × DQueue N D) :=
  enqueueWhence s data uniqueness .head place

def dequeueWhence (s : DQueue N D) (whence : Whence) : Except Fault (Reply N D × DQueue N D) :=
  match (match whence with | .head => s.head | .tail => s.tail) with
  | none => .ok (.code (.err .ENOENT), s)
  | some node => do
      let s' ← s.release node
      return (⟨.ok, some (s.node node).data, none⟩, s')

def dequeue (s : DQueue N D) : Except Fault (Reply N D × DQueue N D) := dequeueWhence s .head

def dequeueTail (s : DQueue N D) : Except Fault (Reply N D × DQueue N D) := dequeueWhence s .tail

/-- The loop of `queue_remove` and `queue_remove_node`: the first node that passes the test is
removed. -/
def removeFirst (s : DQueue N D) (test : N → Bool) : Except Fault (Reply N D × DQueue N D) := do
  match ← s.search test with
  | none => return (.code (.err .ENOENT), s)
  | some node => return (.code .ok, ← s.release node)

def queueRemove (s : DQueue N D) (data : D) : Except Fault (Reply N D × DQueue N D) :=
  removeFirst s fun p => decide ((s.node p).data = data)

def queueRemoveNode (s : DQueue N D) (node : N) : Except Fault (Reply N D × DQueue N D) :=
  removeFirst s fun p => decide (p = node)

def queueRellocateNode (s : DQueue N D) (node : N) (whence : Whence) :
    Except Fault (Reply N D × DQueue N D) := do
  let s ← s.unlink node
  let s := { s with node := storePrev (storeNext s.node (some node) none) (some node) none }
  return (.code .ok, ← s.link node whence)

def queueRellocate (s : DQueue N D) (data : D) (whence : Whence) :
    Except Fault (Reply N D × DQueue N D) := do
  match ← queueContains s data with
  | none => return (.code (.err .ENOENT), s)
  | some node => queueRellocateNode s node whence

def queueReplace (s : DQueue N D) (data0 data1 : D) : Except Fault (Reply N D × DQueue N D) := do
  if data0 = data1 then return (.code (.err .EINVAL), s)
  match ← s.search fun p => decide ((s.node p).data = data0) with
  | none => return (.code (.err .ENOENT), s)
  | some node =>
    return (.code .ok,
      { s with node := update s.node node { s.node node with data := data1 } })

def flushLoop : Nat → DQueue N D → Option N → Except Fault (DQueue N D)
  | _, s, none => .ok s
  | 0, _, some _ => throw .hang
  | n + 1, s, some node => do
      s.reach (some node)
      let s' ← s.release node
      flushLoop n s' (s.node node).next

def queueFlush (s : DQueue N D) : Except Fault (Reply N D × DQueue N D) := do
  let s ← flushLoop (Fintype.card N) s s.head
  return (.code .ok, { s with head := none, tail := none })

inductive DCall (N D : Type)
  | enqueue (data : D) (uniqueness : Uniqueness) (place : Option N)
  | enqueueHead (data : D) (uniqueness : Uniqueness) (place : Option N)
  | dequeue
  | dequeueTail
  | remove (data : D)
  | removeNode (node : N)
  | rellocate (data : D) (whence : Whence)
  | rellocateNode (node : N) (whence : Whence)
  | replace (data0 data1 : D)
  | flush

def call (s : DQueue N D) : DCall N D → Except Fault (Reply N D × DQueue N D)
  | .enqueue data u place => enqueue s data u place
  | .enqueueHead data u place => enqueueHead s data u place
  | .dequeue => dequeue s
  | .dequeueTail => dequeueTail s
  | .remove data => queueRemove s data
  | .removeNode node => queueRemoveNode s node
  | .rellocate data whence => queueRellocate s data whence
  | .rellocateNode node whence => queueRellocateNode s node whence
  | .replace data0 data1 => queueReplace s data0 data1
  | .flush => queueFlush s

def run (s : DQueue N D) : List (DCall N D) → Except Fault (List (Reply N D) × DQueue N D)
  | [] => .ok ([], s)
  | c :: cs => do
      let (reply, s) ← call s c
      let (replies, s) ← run s cs
      return (reply :: replies, s)

end DataQueue
end Ds
end XytherOS
