import Mathlib.Data.Fintype.Card
import Mathlib.Order.Defs.LinearOrder
import XytherOS.Core.Status

/-!
# Btree — the binary search trees of `ds/btree/btree.c`

The memory holds the nodes of all trees.  `live` says which nodes are allocated: to read or write
another one is a fault, so what `btree_free_node` leaves behind in a node does not matter.  The
locks are held throughout.  A loop visits at most as many nodes as there are; to run out of this
budget is the fault `hang`.
-/

namespace XytherOS
namespace Ds
namespace Btree

open Function

structure BtreeNode (P T K D : Type) where
  key : K
  data : D
  left : Option P
  parent : Option P
  right : Option P
  btree : Option T
  deriving DecidableEq

/-- The trees in memory, with the `root` and `nr_nodes` of each, and the memory of the nodes. -/
structure Btrees (P T K D : Type) where
  node : P → BtreeNode P T K D
  live : P → Bool
  root : T → Option P
  nrNodes : T → Nat

variable {P T K D : Type}

def btreeInit (memory : P → BtreeNode P T K D) : Btrees P T K D :=
  { node := memory, live := fun _ => false, root := fun _ => none, nrNodes := fun _ => 0 }

namespace Btrees

def read (s : Btrees P T K D) (p : P) : Except Fault (BtreeNode P T K D) :=
  if s.live p then .ok (s.node p) else throw .wildAccess

def write [DecidableEq P] (s : Btrees P T K D) (p : P) (n : BtreeNode P T K D) : Btrees P T K D :=
  { s with node := update s.node p n }

def modify [DecidableEq P] (s : Btrees P T K D) (p : P) (f : BtreeNode P T K D → BtreeNode P T K D) :
    Except Fault (Btrees P T K D) := do
  let n ← s.read p
  return s.write p (f n)

def setRoot [DecidableEq T] (s : Btrees P T K D) (t : T) (root : Option P) : Btrees P T K D :=
  { s with root := update s.root t root }

def setNrNodes [DecidableEq T] (s : Btrees P T K D) (t : T) (n : Nat) : Btrees P T K D :=
  { s with nrNodes := update s.nrNodes t n }

def btreeFreeNode [DecidableEq P] (s : Btrees P T K D) (p : P) : Btrees P T K D :=
  { s with live := update s.live p false }

/-- `btree_alloc_node`, given a node that is not in use; the caller fills in key and data. -/
def btreeAllocNode [DecidableEq P] (s : Btrees P T K D) (place : Option P) (key : K)
    (data : D) : Option (P × Btrees P T K D) :=
  match place with
  | none => none
  | some p =>
    if s.live p then none
    else
      some (p,
        { s.write p ⟨key, data, none, none, none, none⟩ with
          live := update s.live p true })

section Node

variable (s : Btrees P T K D) (p : P) (n : BtreeNode P T K D)

theorem read_live {s : Btrees P T K D} {p : P} (h : s.live p = true) :
    s.read p = .ok (s.node p) := by
  simp [read, h]

variable [DecidableEq P]

@[simp] theorem write_node : (s.write p n).node = update s.node p n := rfl
@[simp] theorem write_live : (s.write p n).live = s.live := rfl
@[simp] theorem write_root : (s.write p n).root = s.root := rfl
@[simp] theorem write_nrNodes : (s.write p n).nrNodes = s.nrNodes := rfl
@[simp] theorem btreeFreeNode_node : (s.btreeFreeNode p).node = s.node := rfl
@[simp] theorem btreeFreeNode_live :
    (s.btreeFreeNode p).live = update s.live p false := rfl
@[simp] theorem btreeFreeNode_root : (s.btreeFreeNode p).root = s.root := rfl
@[simp] theorem btreeFreeNode_nrNodes : (s.btreeFreeNode p).nrNodes = s.nrNodes := rfl

theorem modify_live {s : Btrees P T K D} {p : P} (h : s.live p = true)
    (f : BtreeNode P T K D → BtreeNode P T K D) :
    s.modify p f = .ok (s.write p (f (s.node p))) := by
  simp [modify, read_live h]

end Node

section Tree

variable [DecidableEq T] (s : Btrees P T K D) (t : T) (root : Option P) (nr : Nat)

@[simp] theorem setRoot_node : (s.setRoot t root).node = s.node := rfl
@[simp] theorem setRoot_live : (s.setRoot t root).live = s.live := rfl
@[simp] theorem setRoot_root : (s.setRoot t root).root = update s.root t root := rfl
@[simp] theorem setRoot_nrNodes : (s.setRoot t root).nrNodes = s.nrNodes := rfl
@[simp] theorem setNrNodes_node : (s.setNrNodes t nr).node = s.node := rfl
@[simp] theorem setNrNodes_live : (s.setNrNodes t nr).live = s.live := rfl
@[simp] theorem setNrNodes_root : (s.setNrNodes t nr).root = s.root := rfl
@[simp] theorem setNrNodes_nrNodes :
    (s.setNrNodes t nr).nrNodes = update s.nrNodes t nr := rfl

end Tree

end Btrees

variable [LinearOrder K]

/-! ## Searching -/

/-- The search loop from a node on: the last node that was passed, and the node with the key. -/
def descend (s : Btrees P T K D) (key : K) : Nat → Option P → Option P →
    Except Fault (Option P × Option P)
  | _, last, none => .ok (last, none)
  | 0, _, some _ => throw .hang
  | n + 1, last, some p => do
      let node ← s.read p
      if node.key = key then return (last, some p)
      else if key < node.key then descend s key n (some p) node.left
      else descend s key n (some p) node.right

section Lookup

variable [Fintype P]

def btreeLookup (s : Btrees P T K D) (t : T) (key : K) : Except Fault (Option P) := do
  let (_, found) ← descend s key (Fintype.card P) none (s.root t)
  return found

def btreeSearch (s : Btrees P T K D) (t : T) (key : K) : Except Fault (Ret × Option D) := do
  match ← btreeLookup s t key with
  | none => return (.err .ENOENT, none)
  | some p =>
    let node ← s.read p
    return (.ok, some node.data)

/-- The loop of `btree_least_node` and `btree_largest_node`: the last node along one link. -/
def endLoop (s : Btrees P T K D) (link : BtreeNode P T K D → Option P) :
    Nat → Option P → Option P → Except Fault (Option P)
  | _, last, none => .ok last
  | 0, _, some _ => throw .hang
  | n + 1, _, some p => do
      let node ← s.read p
      endLoop s link n (some p) (link node)

def btreeLeastNode (s : Btrees P T K D) (t : T) : Except Fault (Option P) :=
  endLoop s BtreeNode.left (Fintype.card P) none (s.root t)

def btreeLargestNode (s : Btrees P T K D) (t : T) : Except Fault (Option P) :=
  endLoop s BtreeNode.right (Fintype.card P) none (s.root t)

def dataOf (s : Btrees P T K D) : Option P → Except Fault (Option D)
  | none => .ok none
  | some p => do return some (← s.read p).data

def btreeLeast (s : Btrees P T K D) (t : T) : Except Fault (Option D) := do
  dataOf s (← btreeLeastNode s t)

def btreeLargest (s : Btrees P T K D) (t : T) : Except Fault (Option D) := do
  dataOf s (← btreeLargestNode s t)

end Lookup

/-! ## Inserting and deleting -/

variable [DecidableEq P] [DecidableEq T] [Fintype P]

def insertDone (s : Btrees P T K D) (t : T) (node : P) :
    Except Fault (Ret × Btrees P T K D) := do
  let s := s.setNrNodes t (s.nrNodes t + 1)
  let s ← s.modify node fun n => { n with btree := some t }
  return (.ok, s)

def btreeInsertNode (s : Btrees P T K D) (t : T) (node : P) :
    Except Fault (Ret × Btrees P T K D) := do
  let s ← s.modify node fun n => { n with parent := none }
  if s.root t = none then
    insertDone (s.setRoot t (some node)) t node
  else
    let key := (← s.read node).key
    match ← descend s key (Fintype.card P) none (s.root t) with
    | (_, some _) => return (.err .EEXIST, s)
    | (none, none) => throw .hang
    | (some parent, none) =>
      let s ← s.modify node fun n => { n with parent := some parent }
      let s ← s.modify parent fun n =>
        if key < n.key then { n with left := some node }
        else if n.key < key then { n with right := some node }
        else n
      insertDone s t node

def btreeInsert (s : Btrees P T K D) (t : T) (key : K) (data : D) (place : Option P) :
    Except Fault (Ret × Btrees P T K D) := do
  match s.btreeAllocNode place key data with
  | none => return (.err .ENOMEM, s)
  | some (node, s) =>
    let (ret, s) ← btreeInsertNode s t node
    if ret = .ok then return (.ok, s)
    else return (ret, s.btreeFreeNode node)

/-- What `btree_delete_node` does first: the link to the node becomes NULL. -/
def unhook (s : Btrees P T K D) (t : T) (node : P) (parent : Option P) :
    Except Fault (Btrees P T K D) :=
  if s.root t = some node then .ok (s.setRoot t none)
  else
    match parent with
    | none => .ok s
    | some parent => do
        let n ← s.read parent
        if n.right = some node then s.modify parent fun n => { n with right := none }
        else if n.left = some node then s.modify parent fun n => { n with left := none }
        else return s

def reinsert (s : Btrees P T K D) (t : T) (sub : Option P) : Except Fault (Btrees P T K D) :=
  match sub with
  | none => .ok s
  | some p => do
      let (_, s) ← btreeInsertNode (s.setNrNodes t (s.nrNodes t - 1)) t p
      return s

def btreeDeleteNode (s : Btrees P T K D) (t : T) (node : Option P) :
    Except Fault (Btrees P T K D) :=
  match node with
  | none => .ok s
  | some p => do
      let n ← s.read p
      let s ← unhook s t p n.parent
      let s := s.btreeFreeNode p
      let s := s.setNrNodes t (s.nrNodes t - 1)
      let s ← reinsert s t n.right
      reinsert s t n.left

def btreeDelete (s : Btrees P T K D) (t : T) (key : K) : Except Fault (Btrees P T K D) := do
  btreeDeleteNode s t (← btreeLookup s t key)

def btreeFlushNode : Nat → Btrees P T K D → Option P → Except Fault (Btrees P T K D)
  | _, s, none => .ok s
  | 0, _, some _ => throw .hang
  | fuel + 1, s, some p => do
      match (← s.read p).btree with
      | none => throw (.assertion "No Btree")
      | some _ =>
        let s ← btreeFlushNode fuel s (← s.read p).left
        let n ← s.read p
        let s ←
          match n.btree with
          | none => pure s
          | some t => btreeDeleteNode s t (some p)
        btreeFlushNode fuel s n.right

def btreeFlush (s : Btrees P T K D) (t : T) : Except Fault (Btrees P T K D) :=
  btreeFlushNode (Fintype.card P) s (s.root t)

inductive BCall (P K D : Type)
  | insert (key : K) (data : D) (place : Option P)
  | delete (key : K)
  | deleteNode (node : P)
  | flush
  | search (key : K)
  | least
  | largest

structure Reply (D : Type) where
  ret : Ret
  data : Option D
  deriving DecidableEq

def call (s : Btrees P T K D) (t : T) : BCall P K D → Except Fault (Reply D × Btrees P T K D)
  | .insert key data place => do
      let (ret, s) ← btreeInsert s t key data place
      return (⟨ret, none⟩, s)
  | .delete key => do return (⟨.ok, none⟩, ← btreeDelete s t key)
  | .deleteNode node => do return (⟨.ok, none⟩, ← btreeDeleteNode s t (some node))
  | .flush => do return (⟨.ok, none⟩, ← btreeFlush s t)
  | .search key => do
      let (ret, data) ← btreeSearch s t key
      return (⟨ret, data⟩, s)
  | .least => do return (⟨.ok, ← btreeLeast s t⟩, s)
  | .largest => do return (⟨.ok, ← btreeLargest s t⟩, s)

def run (s : Btrees P T K D) (t : T) :
    List (BCall P K D) → Except Fault (List (Reply D) × Btrees P T K D)
  | [] => .ok ([], s)
  | c :: cs => do
      let (reply, s) ← call s t c
      let (replies, s) ← run s t cs
      return (reply :: replies, s)

end Btree
end Ds
end XytherOS
