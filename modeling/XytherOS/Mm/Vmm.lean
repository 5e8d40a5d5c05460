import Mathlib
import XytherOS.Core.Status
import XytherOS.Lib.Links

/-!
# Vmm — the kernel virtual-range allocator of `mm/vmm/vmm.c`

The allocator hands out ranges of the kernel heap.  It keeps three lists of `node_t` records: the
free ranges, the used ranges, and a pool of spare records.  All records are elements of one array
`nodes[NNODES]`; a node pointer is modelled by its index in that array, and an index from
`NNODES` on stands for a pointer that is not a record of the pool.

The spin lock and the lazy initialisation test are left out: `vmmInit` is the initialisation, and
`alloc` and `free` run under the lock on an initialised allocator.
-/

namespace XytherOS
namespace Mm
namespace Vmm

open Function Links

structure Node where
  prev : Option Nat
  base : BitVec 64
  size : BitVec 64
  next : Option Nat
  deriving DecidableEq

instance : LinkNode Node Nat where
  next := Node.next
  prev := Node.prev
  setNext n v := { n with next := v }
  setPrev n v := { n with prev := v }
  next_setNext _ _ := rfl
  prev_setNext _ _ := rfl
  next_setPrev _ _ := rfl
  prev_setPrev _ _ := rfl

def Node.zero : Node := { prev := none, base := 0, size := 0, next := none }

def PGSZ : BitVec 64 := 0x1000

def KHEAPBASE : BitVec 64 := 0xFFFF800000000000 + 0x100000000

/-- The static variables of `vmm.c`; `mem i` is the content of `nodes[i]`. -/
structure State where
  kheapSize : BitVec 64
  usedMemsz : BitVec 64
  freeNodeList : Option Nat
  usedvmrList : Option Nat
  freevmrList : Option Nat
  mem : Nat → Node

def State.nnodes (s : State) : Nat := (s.kheapSize / PGSZ).toNat

def State.modify (s : State) (i : Nat) (f : Node → Node) : State :=
  { s with mem := update s.mem i (f (s.mem i)) }

/-! ## The pool of spare records -/

def freeNodeGet (s : State) : Option Nat × State :=
  match s.freeNodeList with
  | none => (none, s)
  | some node =>
    let list := (s.mem node).next
    let mem := storePrev s.mem list none
    (some node, { s with freeNodeList := list, mem := update mem node Node.zero })

def freeNodePut (s : State) (node : Nat) : State :=
  let mem := update s.mem node Node.zero
  let mem := storeNext mem (some node) s.freeNodeList
  let mem := storePrev mem s.freeNodeList (some node)
  { s with freeNodeList := some node, mem := mem }

/-! ## The used list -/

def clearLinks (s : State) (node : Nat) : State :=
  { s with mem := storePrev (storeNext s.mem (some node) none) (some node) none }

def usedvmrPut (s : State) (node : Nat) : Except Fault State :=
  let mem := (clearLinks s node).mem
  match scan (nexts mem) (fun p => (mem node).base < (mem p).base) s.nnodes none
      s.usedvmrList with
  | none => .error .hang
  | some (_, some next) =>
    let mem := storeNext mem (some node) (some next)
    let prev := (mem next).prev
    let list := if prev = none then some node else s.usedvmrList
    let mem := storeNext mem prev (some node)
    let mem := storePrev mem (some node) (mem next).prev
    let mem := storePrev mem (some next) (some node)
    .ok { s with usedvmrList := list, mem := mem }
  | some (tail, none) =>
    let list := if tail = none then some node else s.usedvmrList
    let mem := storeNext mem tail (some node)
    let mem := if tail = none then mem else storePrev mem (some node) tail
    .ok { s with usedvmrList := list, mem := mem }

def usedvmrFind (s : State) (base : BitVec 64) : Except Fault (Ret × Option Nat) :=
  if base = 0 then
    .ok (.err .EINVAL, none)
  else
    match scan (nexts s.mem) (fun p => base = (s.mem p).base) s.nnodes none s.usedvmrList with
    | none => .error .hang
    | some (_, some node) => .ok (.ok, some node)
    | some (_, none) => .ok (.err .ENOENT, none)

/-! ## The free list -/

def canMergePrev (s : State) (node : Nat) : Option Nat → Bool
  | none => false
  | some prev => (s.mem prev).base + (s.mem prev).size = (s.mem node).base

def canMergeNext (s : State) (node : Nat) : Option Nat → Bool
  | none => false
  | some next => (s.mem node).base + (s.mem node).size = (s.mem next).base

def absorbNext (s : State) (prev next : Nat) : State :=
  let s := s.modify prev fun n => { n with size := n.size + (s.mem next).size }
  let after := (s.mem next).next
  let mem := storeNext s.mem (some prev) after
  let mem := storePrev mem after (some prev)
  freeNodePut { s with mem := mem } next

/-- The first merge of `freevmr_put`: `node` is absorbed by the range before it, which then may
absorb the range after it. -/
def mergePrev (s : State) (node prev : Nat) (next : Option Nat) : State :=
  let s := s.modify prev fun n => { n with size := n.size + (s.mem node).size }
  let s :=
    match next with
    | none => s
    | some nx => if canMergeNext s prev next then absorbNext s prev nx else s
  freeNodePut s node

/-- The second merge of `freevmr_put`: `node` is absorbed by the range after it. -/
def mergeNext (s : State) (node : Nat) (prev : Option Nat) (next : Nat) : State :=
  let s := s.modify next fun n => { n with size := n.size + (s.mem node).size }
  let s := s.modify next fun n => { n with base := n.base - (s.mem node).size }
  let list := if prev = none then some next else s.freevmrList
  let mem := storeNext s.mem prev (some next)
  let mem := storePrev mem (some next) prev
  freeNodePut { s with freevmrList := list, mem := mem } node

/-- The plain insertion of `freevmr_put`, between `prev` and `next`. -/
def linkFree (s : State) (node : Nat) (prev next : Option Nat) : State :=
  let mem := storeNext s.mem (some node) next
  let mem := storePrev mem (some node) prev
  let mem := storePrev mem next (some node)
  let mem := storeNext mem prev (some node)
  let list := if prev = none then some node else s.freevmrList
  { s with freevmrList := list, mem := mem }

def coalesceNext (s : State) (node : Nat) (prev next : Option Nat) : State :=
  match next with
  | some nx => if canMergeNext s node next then mergeNext s node prev nx else linkFree s node prev next
  | none => linkFree s node prev next

/-- `freevmr_put` after its loop: `node` belongs between `prev` and `next`. -/
def coalesce (s : State) (node : Nat) (prev next : Option Nat) : State :=
  match prev with
  | some pv =>
    if canMergePrev s node prev then mergePrev s node pv next else coalesceNext s node prev next
  | none => coalesceNext s node prev next

def freevmrPut (s : State) (node : Nat) : Except Fault State :=
  let s := clearLinks s node
  match scan (nexts s.mem) (fun p => !decide ((s.mem p).base < (s.mem node).base)) s.nnodes none
      s.freevmrList with
  | none => .error .hang
  | some (prev, next) => .ok (coalesce s node prev next)

def freevmrGet (s : State) (size : BitVec 64) : Except Fault (Ret × Option Nat) :=
  if size = 0 then
    .ok (.err .EINVAL, none)
  else
    match scan (nexts s.mem) (fun p => size ≤ (s.mem p).size) s.nnodes none s.freevmrList with
    | none => .error .hang
    | some (_, some node) => .ok (.ok, some node)
    | some (_, none) => .ok (.err .ENOMEM, none)

/-! ## Allocation and release -/

/-- The first branch of `alloc`: the spare record `node` takes the front of the range `split`. -/
def splitFront (s : State) (node split : Nat) (size : BitVec 64) : State :=
  let s := s.modify node fun n => { n with base := (s.mem split).base }
  let s := s.modify split fun n => { n with base := n.base + size }
  let s := s.modify split fun n => { n with size := n.size - size }
  s.modify node fun n => { n with size := size }

/-- The second branch of `alloc`: the range `split` is taken off the free list. -/
def unlinkFree (s : State) (split : Nat) : State :=
  let next := (s.mem split).next
  let prev := (s.mem split).prev
  let mem := storePrev s.mem next prev
  let mem := storeNext mem prev next
  let list := if prev = none then next else s.freevmrList
  { s with freevmrList := list, mem := mem }

/-- The end of `alloc` in both branches: `node` goes to the used list. -/
def allocPut (s : State) (node : Nat) (size : BitVec 64) :
    Except Fault (Ret × Option (BitVec 64) × State) := do
  let addr := (s.mem node).base
  let s ← usedvmrPut s node
  return (.ok, some addr, { s with usedMemsz := s.usedMemsz + size })

def alloc (s : State) (size : BitVec 64) : Except Fault (Ret × Option (BitVec 64) × State) := do
  match ← freevmrGet s size with
  | (err, none) => return (err, none, s)
  | (_, some split) =>
    if size < (s.mem split).size then
      match freeNodeGet s with
      | (none, _) => throw (.assertion "No vm node.")
      | (some node, s) => allocPut (splitFront s node split size) node size
    else if (s.mem split).size = size then
      allocPut (unlinkFree s split) split size
    else
      throw (.assertion "Failed to get correct sized vmr_node")

def unlinkUsed (s : State) (node : Nat) : State :=
  let next := (s.mem node).next
  let prev := (s.mem node).prev
  let mem := storeNext s.mem prev next
  let list := if prev = none then next else s.usedvmrList
  let mem := storePrev mem next (mem node).prev
  { s with usedvmrList := list, mem := mem }

def free (s : State) (addr : BitVec 64) : Except Fault State := do
  if addr = 0 then
    throw (.assertion "cannot free nullptr")
  match ← usedvmrFind s addr with
  | (_, none) => return s
  | (_, some node) =>
    let s := unlinkUsed s node
    let s := { s with usedMemsz := s.usedMemsz - (s.mem node).size }
    freevmrPut s node

/-! ## Initialisation -/

/-- `NNODES` records need this many pages (`get_page_order` rounds up to a power of two). -/
def poolPages (kheapSize : BitVec 64) : Nat :=
  ((kheapSize / PGSZ).toNat * 32 + 4095) / 4096

/-- The linking loop of `vmm_init` over `nodes[0 .. NNODES-1]`. -/
def linkPool (n : Nat) (mem : Nat → Node) : Nat → Node := fun i =>
  if i < n then
    { mem i with
      prev := if 0 < i then some (i - 1) else (mem i).prev
      next := if i + 1 < n then some (i + 1) else (mem i).next }
  else
    mem i

/-- `vmm_init` up to `free_node_list = nodes`, on the content of the pages it was given:
`memset(nodes, 0, sizeof nodes)` clears the size of one pointer, the `prev` word of `nodes[0]`. -/
def initPool (total : BitVec 64) (pages : Nat → Node) : State :=
  let kheapSize := 1024 * total * 2
  let mem := update pages 0 { pages 0 with prev := none }
  { kheapSize := kheapSize
    usedMemsz := 0
    freeNodeList := some 0
    usedvmrList := none
    freevmrList := none
    mem := linkPool (kheapSize / PGSZ).toNat mem }

/-- The largest number of pages that `ZONEi_NORM` can have: its window is 2032 MiB. -/
def normZonePages : Nat := 520192

/-- `vmm_init` after the physical memory manager is up.  `pages` is the content of the pages that
`pmman.get_pages(GFP_NORMAL, order)` returned, `none` when it failed; it always fails when
`2^order` pages do not fit in the zone. -/
def vmmInit (total : BitVec 64) (pages : Option (Nat → Node)) : Except Fault State :=
  let order := Nat.clog 2 (poolPages (1024 * total * 2))
  match pages with
  | none => .error (.assertion "Error[%d]: initializing physical memory manager.\n")
  | some pages =>
    if normZonePages < 2 ^ order then
      .error (.assertion "Error[%d]: initializing physical memory manager.\n")
    else
      match freeNodeGet (initPool total pages) with
      | (none, _) => .error .nullDeref
      | (some node, s) =>
        let s := s.modify node fun n => { n with base := KHEAPBASE, size := s.kheapSize }
        freevmrPut s node

inductive Call
  | alloc (size : BitVec 64)
  | free (addr : BitVec 64)

def call (s : State) : Call → Except Fault State
  | .alloc size => do
      let (_, _, s) ← alloc s size
      return s
  | .free addr => free s addr

def run (s : State) : List Call → Except Fault State
  | [] => .ok s
  | c :: cs => do
      let s ← call s c
      run s cs

end Vmm
end Mm
end XytherOS
