import Mathlib.Data.Fintype.Card
import XytherOS.Core.Status
import XytherOS.Lib.Links

/-!
# Embedded — the intrusive queues of `ds/queue/embedded.c`

Queue nodes live inside other kernel objects, so a queue never allocates: it only rewrites the
links of nodes it is given.  The state holds every node and every queue at once, because nodes move
between queues.

* `Q` names the queues and `N` the nodes.  Both are references to existing objects, so the null
  checks on arguments do not appear; `Uniqueness` and `Whence` have no invalid values, so the
  argument validation of `embedded_queue_relloc` does not appear either.
* The queue lock is held by the caller throughout.
* A loop over a queue visits at most `Fintype.card N` nodes unless it runs in a circle; running out
  of this budget is the fault `hang`.
-/

namespace XytherOS
namespace Ds

open Function Links

inductive Uniqueness
  | duplicates
  | unique
  deriving DecidableEq, Repr

inductive Whence
  | tail
  | head
  deriving DecidableEq, Repr

/-- `queue_node_t`, without the `data` field: no embedded-queue function reads it. -/
structure QueueNode (N : Type) where
  prev : Option N
  next : Option N
  deriving DecidableEq

instance {N : Type} : LinkNode (QueueNode N) N where
  next := QueueNode.next
  prev := QueueNode.prev
  setNext n v := { n with next := v }
  setPrev n v := { n with prev := v }
  next_setNext _ _ := rfl
  prev_setNext _ _ := rfl
  next_setPrev _ _ := rfl
  prev_setPrev _ _ := rfl

structure Queue (N : Type) where
  head : Option N
  tail : Option N
  qCount : Nat
  deriving DecidableEq

structure Queues (Q N : Type) where
  node : N → QueueNode N
  queue : Q → Queue N

variable {Q N : Type} [DecidableEq Q] [DecidableEq N] [Fintype N]

def Queues.init : Queues Q N where
  node _ := { prev := none, next := none }
  queue _ := { head := none, tail := none, qCount := 0 }

/-! ## Functions of `embedded.c` -/

def embeddedQueueContains (s : Queues Q N) (q : Q) (qnode : N) : Except Fault Ret :=
  match scan (nexts s.node) (fun p => decide (p = qnode)) (Fintype.card N) none
      (s.queue q).head with
  | none => .error .hang
  | some (_, some _) => .ok .ok
  | some (_, none) => .ok (.err .ENOENT)

def embeddedQueueInsert (s : Queues Q N) (q : Q) (qnode : N) : Except Fault (Queues Q N) :=
  let node := storePrev (storeNext s.node (some qnode) none) (some qnode) none
  let queue := s.queue q
  match queue.head with
  | none =>
    .ok
      { node := node
        queue := update s.queue q
          { head := some qnode, tail := some qnode, qCount := queue.qCount + 1 } }
  | some _ =>
    match queue.tail with
    | none => .error .nullDeref
    | some t =>
      .ok
        { node := storePrev (storeNext node (some t) (some qnode)) (some qnode) (some t)
          queue := update s.queue q
            { queue with tail := some qnode, qCount := queue.qCount + 1 } }

def embeddedEnqueue (s : Queues Q N) (q : Q) (qnode : N) (uniqueness : Uniqueness) :
    Except Fault (Ret × Queues Q N) := do
  if uniqueness = .unique then
    if (← embeddedQueueContains s q qnode) = .ok then
      return (.err .EEXIST, s)
  return (.ok, ← embeddedQueueInsert s q qnode)

/-- The body of `embedded_enqueue_head` after its checks: link `qnode` in at the head. -/
def embeddedQueueInsertHead (s : Queues Q N) (q : Q) (qnode : N) : Queues Q N :=
  let node := storePrev (storeNext s.node (some qnode) none) (some qnode) none
  let queue := s.queue q
  match queue.head with
  | none =>
    { node := node
      queue := update s.queue q
        { head := some qnode, tail := some qnode, qCount := queue.qCount + 1 } }
  | some h =>
    { node := storeNext (storePrev node (some h) (some qnode)) (some qnode) (some h)
      queue := update s.queue q
        { queue with head := some qnode, qCount := queue.qCount + 1 } }

def embeddedEnqueueHead (s : Queues Q N) (q : Q) (qnode : N) (uniqueness : Uniqueness) :
    Except Fault (Ret × Queues Q N) := do
  if uniqueness = .unique then
    if (← embeddedQueueContains s q qnode) = .ok then
      return (.err .EEXIST, s)
  return (.ok, embeddedQueueInsertHead s q qnode)

def embeddedEnqueueWhence (s : Queues Q N) (q : Q) (qnode : N) (uniqueness : Uniqueness) :
    Whence → Except Fault (Ret × Queues Q N)
  | .head => embeddedEnqueueHead s q qnode uniqueness
  | .tail => embeddedEnqueue s q qnode uniqueness

/-- The unlinking code that `embedded_queue_flush`, `embedded_dequeue`, `embedded_dequeue_tail`
and `embedded_queue_detach` share: take `qnode` out between its neighbours and clear its links. -/
def unlinkNode (s : Queues Q N) (q : Q) (qnode : N) : Queues Q N :=
  let next := (s.node qnode).next
  let prev := (s.node qnode).prev
  let node := storePrev (storeNext s.node prev next) next prev
  let queue := s.queue q
  { node := storePrev (storeNext node (some qnode) none) (some qnode) none
    queue := update s.queue q
      { head := if queue.head = some qnode then next else queue.head
        tail := if queue.tail = some qnode then prev else queue.tail
        qCount := queue.qCount - 1 } }

def embeddedDequeue (s : Queues Q N) (q : Q) : Ret × Option N × Queues Q N :=
  match (s.queue q).head with
  | some node => (.ok, some node, unlinkNode s q node)
  | none => (.err .ENOENT, none, s)

def embeddedDequeueTail (s : Queues Q N) (q : Q) : Ret × Option N × Queues Q N :=
  match (s.queue q).tail with
  | some node => (.ok, some node, unlinkNode s q node)
  | none => (.err .ENOENT, none, s)

def embeddedQueueDetach (s : Queues Q N) (q : Q) (qnode : N) : Ret × Queues Q N :=
  (.ok, unlinkNode s q qnode)

def embeddedQueueRemove (s : Queues Q N) (q : Q) (qnode : N) :
    Except Fault (Ret × Queues Q N) := do
  let err ← embeddedQueueContains s q qnode
  if err = .ok then
    return embeddedQueueDetach s q qnode
  else
    return (err, s)

/-- `embedded_queue_replace`: the loop finds `qnode0`, then `qnode1` takes over its links. -/
def embeddedQueueReplace (s : Queues Q N) (q : Q) (qnode0 qnode1 : N) :
    Except Fault (Ret × Queues Q N) :=
  if qnode0 = qnode1 then
    .ok (.ok, s)
  else
    match scan (nexts s.node) (fun p => decide (p = qnode0)) (Fintype.card N) none
        (s.queue q).head with
    | none => .error .hang
    | some (_, none) => .ok (.err .ENOENT, s)
    | some (_, some found) =>
      let next := (s.node found).next
      let prev := (s.node found).prev
      let node := storePrev (storeNext s.node (some qnode1) next) (some qnode1) prev
      let node := storeNext (storePrev node next (some qnode1)) prev (some qnode1)
      let queue := s.queue q
      .ok (.ok,
        { node := storePrev (storeNext node (some found) none) (some found) none
          queue := update s.queue q
            { head := if queue.head = some found then some qnode1 else queue.head
              tail := if queue.tail = some found then some qnode1 else queue.tail
              qCount := queue.qCount } })

def flushLoop (q : Q) : Nat → Queues Q N → Option N → Except Fault (Queues Q N)
  | _, s, none => .ok s
  | 0, _, some _ => .error .hang
  | n + 1, s, some node => flushLoop q n (unlinkNode s q node) (s.node node).next

def embeddedQueueFlush (s : Queues Q N) (q : Q) : Except Fault (Queues Q N) := do
  let s ← flushLoop q (Fintype.card N) s (s.queue q).head
  return { s with queue := update s.queue q { s.queue q with head := none, tail := none } }

def embeddedQueueRelloc (s : Queues Q N) (dst src : Q) (node : N) (uniqueness : Uniqueness)
    (whence : Whence) : Except Fault (Ret × Queues Q N) := do
  let (err, s) ← embeddedQueueRemove s src node
  if err = .ok then
    let (err, s) ← embeddedEnqueueWhence s dst node uniqueness whence
    if err = .ok then
      return (.ok, s)
    else
      return (err, ← embeddedQueueInsert s src node)
  else
    return (err, s)

inductive Call (Q N : Type)
  | enqueue (q : Q) (qnode : N) (uniqueness : Uniqueness)
  | enqueueHead (q : Q) (qnode : N) (uniqueness : Uniqueness)
  | dequeue (q : Q)
  | dequeueTail (q : Q)
  | detach (q : Q) (qnode : N)
  | remove (q : Q) (qnode : N)
  | replace (q : Q) (qnode0 qnode1 : N)
  | flush (q : Q)
  | relloc (dst src : Q) (node : N) (uniqueness : Uniqueness) (whence : Whence)

/-- What a call gives back: its return code and the node stored through `pnp`, if any. -/
abbrev Reply (N : Type) := Ret × Option N

def call (s : Queues Q N) : Call Q N → Except Fault (Reply N × Queues Q N)
  | .enqueue q x u => do
      let (err, s) ← embeddedEnqueue s q x u
      return ((err, none), s)
  | .enqueueHead q x u => do
      let (err, s) ← embeddedEnqueueHead s q x u
      return ((err, none), s)
  | .dequeue q =>
    let (err, out, s) := embeddedDequeue s q
    .ok ((err, out), s)
  | .dequeueTail q =>
    let (err, out, s) := embeddedDequeueTail s q
    .ok ((err, out), s)
  | .detach q x =>
    let (err, s) := embeddedQueueDetach s q x
    .ok ((err, none), s)
  | .remove q x => do
      let (err, s) ← embeddedQueueRemove s q x
      return ((err, none), s)
  | .replace q x y => do
      let (err, s) ← embeddedQueueReplace s q x y
      return ((err, none), s)
  | .flush q => do
      let s ← embeddedQueueFlush s q
      return ((.ok, none), s)
  | .relloc dst src x u w => do
      let (err, s) ← embeddedQueueRelloc s dst src x u w
      return ((err, none), s)

def run (s : Queues Q N) : List (Call Q N) → Except Fault (List (Reply N) × Queues Q N)
  | [] => .ok ([], s)
  | c :: cs => do
      let (reply, s) ← call s c
      let (replies, s) ← run s cs
      return (reply :: replies, s)

end Ds
end XytherOS
