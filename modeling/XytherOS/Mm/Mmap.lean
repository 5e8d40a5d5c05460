import XytherOS.Core.Status
import XytherOS.Lib.Links

/-!
# Mmap — the address spaces of `mm/mmap.c`

An address space is a doubly linked list of memory regions (`vmr_t`) in ascending order, with
pointers to its first and last region and a few counters.

* A region pointer is the number of the `vmr_alloc` call that made the object; numbers are never
  used again, so that a freed object is simply one nobody points to.
* `limit`, `guard` and `flags` of an `mmap_t` are set by `mmap_clean` and never change afterwards;
  they are the constants `mmapLimit`, `guard` and `MMAP_USER`.
* The page tables of the address space are a parameter `π`; `mmap.c` reaches them through
  `arch_unmap_n` and `arch_mprotect` only, which are fields of the environment `Env`, as is the
  outcome of every `kzalloc` of a region.
* `mmap_mapin` in front of the first region stores a pointer through `node + 1`, beyond the
  object `node`; that store is outside the data modelled here and is left out.

The lock, the fields `priv`, `vmops` and `paddr` of a region, and `priv` and `entry` of an address
space are read by none of these functions and are left out too.
-/

namespace XytherOS
namespace Mm
namespace Mmap

open Links

/-! ## Constants -/

def PAGESZ : BitVec 64 := 0x1000

def mmapLimit : BitVec 64 := 0x7FFFFFFFFFFF

def guard : BitVec 64 := PAGESZ

def VM_EXEC : BitVec 64 := 0x0001
def VM_WRITE : BitVec 64 := 0x0002
def VM_READ : BitVec 64 := 0x0004
def VM_ZERO : BitVec 64 := 0x0008
def VM_SHARED : BitVec 64 := 0x0010
def VM_GROWSDOWN : BitVec 64 := 0x0100
def VM_DONTEXPAND : BitVec 64 := 0x0200

def MAP_PRIVATE : BitVec 32 := 0x0001
def MAP_SHARED : BitVec 32 := 0x0002
def MAP_DONTEXPAND : BitVec 32 := 0x0004
def MAP_ZERO : BitVec 32 := 0x0010
def MAP_STACK : BitVec 32 := 0x0100
def MAP_FIXED : BitVec 32 := 0x1000

def PROT_READ : BitVec 32 := 0x01
def PROT_WRITE : BitVec 32 := 0x02
def PROT_EXEC : BitVec 32 := 0x04

def PTE_P : BitVec 64 := 0x001
def PTE_W : BitVec 64 := 0x002
def PTE_U : BitVec 64 := 0x004
def PTE_R : BitVec 64 := PTE_P
def PTE_X : BitVec 64 := PTE_P

def has {w : Nat} (word bit : BitVec w) : Bool := word &&& bit != 0

def bitIf {w : Nat} (c : Bool) (bit : BitVec w) : BitVec w := if c then bit else 0

def isAligned (p : BitVec 64) : Bool := p &&& 0xFFF == 0

def validAddr (addr : BitVec 64) : Bool := addr ≤ mmapLimit

/-! ## Regions -/

/-- The contents of a `vmr_t`; `file` is the inode, if any. -/
structure Region where
  start : BitVec 64
  endAddr : BitVec 64
  flags : BitVec 64
  vflags : BitVec 64
  file : Option Nat
  filesz : BitVec 64
  memsz : BitVec 64
  filePos : BitVec 64
  deriving DecidableEq

namespace Region

def size (r : Region) : BitVec 64 := r.endAddr - r.start + 1

def upperBound (r : Region) : BitVec 64 := r.endAddr + 1

def lowerBound (r : Region) : BitVec 64 := r.start - 1

def contains (r : Region) (addr : BitVec 64) : Bool := r.start ≤ addr && addr ≤ r.endAddr

def dontexpand (r : Region) : Bool := has r.flags VM_DONTEXPAND

def growsdown (r : Region) : Bool := has r.flags VM_GROWSDOWN

def withBounds (r : Region) (start endAddr : BitVec 64) : Region :=
  { r with start := start, endAddr := endAddr }

def withFlags (r : Region) (flags vflags : BitVec 64) : Region :=
  { r with flags := flags, vflags := vflags }

def zero : Region :=
  { start := 0, endAddr := 0, flags := 0, vflags := 0, file := none, filesz := 0, memsz := 0,
    filePos := 0 }

end Region

/-- A `vmr_t`: its contents, its reference count, whether its `mmap` pointer is set, its links. -/
structure Vmr extends Region where
  refs : Int
  mapped : Bool
  prev : Option Nat
  next : Option Nat
  deriving DecidableEq

namespace Vmr

def fresh (r : Region) : Vmr :=
  { toRegion := r, refs := 0, mapped := false, prev := none, next := none }

def setRegion (v : Vmr) (r : Region) : Vmr := { v with toRegion := r }

def addRefs (v : Vmr) (k : Int) : Vmr := { v with refs := v.refs + k }

def setMapped (v : Vmr) (b : Bool) : Vmr := { v with mapped := b }

end Vmr

instance : LinkNode Vmr Nat where
  next := Vmr.next
  prev := Vmr.prev
  setNext n v := { n with next := v }
  setPrev n v := { n with prev := v }
  next_setNext _ _ := rfl
  prev_setNext _ _ := rfl
  next_setPrev _ _ := rfl
  prev_setPrev _ _ := rfl

/-! ## Address spaces -/

/-- The fields of an `mmap_t` other than its list of regions, with the page tables `pt` of
`pgdir`. -/
structure Account (π : Type) where
  refs : Int
  usedSpace : BitVec 64
  brk : BitVec 64
  heap : Option Nat
  arg : Option Nat
  env : Option Nat
  pt : π

def Account.withPt {π : Type} (a : Account π) (pt : π) : Account π := { a with pt := pt }

/-- An `mmap_t` with the regions `mem`, of which the first `allocs` have been asked for. -/
structure State (π : Type) extends Account π where
  mem : Nat → Vmr
  allocs : Nat
  head : Option Nat
  tail : Option Nat

/-- What the address space code relies on: `oom n` says that the `n`-th `vmr_alloc` finds no
memory, the others are the architecture's page-table functions on the active page tables. -/
structure Env (π : Type) where
  oom : Nat → Bool
  unmapN : π → BitVec 64 → BitVec 64 → Except Fault π
  mprotect : π → BitVec 64 → BitVec 64 → BitVec 64 → Except Fault (Ret × π)

variable {π : Type}

namespace State

def modify (s : State π) (p : Nat) (f : Vmr → Vmr) : State π :=
  { s with mem := Function.update s.mem p (f (s.mem p)) }

def setRegion (s : State π) (p : Nat) (r : Region) : State π := s.modify p (·.setRegion r)

def region (s : State π) (p : Nat) : Region := (s.mem p).toRegion

def withMem (s : State π) (mem : Nat → Vmr) : State π := { s with mem := mem }

def withAccount (s : State π) (a : Account π) : State π := { s with toAccount := a }

end State

def vmrAlloc (env : Env π) (s : State π) (r : Region) : Option Nat × State π :=
  if env.oom s.allocs then
    (none, { s with allocs := s.allocs + 1 })
  else
    (some s.allocs, { s with
      mem := Function.update s.mem s.allocs (Vmr.fresh r), allocs := s.allocs + 1 })

/-- `vmr_free`: an object that is not referenced any more is given back to the heap, and nothing
reads it afterwards. -/
def vmrFree (s : State π) (p : Nat) : State π := s.modify p (·.addRefs (-1))

/-! ## Searching -/

/-- `forlinked(tmp, mmap->vmr_head, tmp->next)` up to the first region that satisfies `stop`. -/
def forlinked (s : State π) (stop : Nat → Bool) : Except Fault (Option Nat) :=
  match scan (nexts s.mem) stop s.allocs none s.head with
  | none => .error .hang
  | some (_, p) => .ok p

/-- `forlinked(tmp, mmap->vmr_tail, tmp->prev)` up to the first region that satisfies `stop`. -/
def forlinkedBack (s : State π) (stop : Nat → Bool) : Except Fault (Option Nat) :=
  match scan (prevs s.mem) stop s.allocs none s.tail with
  | none => .error .hang
  | some (_, p) => .ok p

def mmapContains (s : State π) (r : Nat) : Except Fault Bool := do
  let p ← forlinked s (fun p => p = r)
  return p.isSome

def mmapFind (s : State π) (addr : BitVec 64) : Except Fault (Option Nat) :=
  forlinked s (fun p => (s.region p).contains addr)

def mmapFindExact (s : State π) (start endAddr : BitVec 64) : Except Fault (Option Nat) := do
  match ← mmapFind s start with
  | none => return none
  | some vmr =>
    if start = (s.region vmr).start ∧ endAddr = (s.region vmr).endAddr then
      return some vmr
    else
      return none

def mmapFindVmrNext (s : State π) (addr : BitVec 64) : Except Fault (Option Nat) := do
  match ← mmapFind s addr with
  | some r => return (s.mem r).next
  | none => forlinked s (fun p => addr < (s.region p).start)

def mmapFindVmrPrev (s : State π) (addr : BitVec 64) : Except Fault (Option Nat) := do
  match ← mmapFind s addr with
  | some r => return (s.mem r).prev
  | none => forlinkedBack s (fun p => (s.region p).endAddr < addr)

def mmapFindVmrOverlap (s : State π) (start endAddr : BitVec 64) :
    Except Fault (Option Nat) := do
  match ← mmapFind s start with
  | none => return none
  | some r => if endAddr ≤ (s.region r).endAddr then return some r else return none

def mmapGetholesize (s : State π) (addr : BitVec 64) : Except Fault (Ret × BitVec 64) := do
  if mmapLimit < addr then
    return (.err .EINVAL, 0)
  else
    match ← mmapFind s addr with
    | some _ => return (.err .EINVAL, 0)
    | none =>
      match ← mmapFindVmrNext s addr with
      | none => return (.ok, mmapLimit + 1 - addr)
      | some next => return (.ok, (s.region next).start - addr)

/-! ## Holes -/

inductive Whence
  | start
  | last
  deriving DecidableEq

/-- The hole between the region `tmp` and the one after it, or the end of the address space. -/
def holeAfter (s : State π) (tmp : Nat) : Except Fault (BitVec 64) :=
  match (s.mem tmp).next with
  | some next => return (s.region next).start - (s.region tmp).upperBound
  | none => do
      let (_, holesz) ← mmapGetholesize s (s.region tmp).upperBound
      return holesz

/-- The upward loop of `mmap_find_hole` and `mmap_find_holeat`. -/
def searchUp (s : State π) (size : BitVec 64) :
    Nat → Option Nat → Except Fault (Option (BitVec 64))
  | _, none => return none
  | 0, some _ => throw .hang
  | n + 1, some tmp => do
      let holesz ← holeAfter s tmp
      if size ≤ holesz then
        return some (s.region tmp).upperBound
      else
        searchUp s size n (s.mem tmp).next

/-- The address one step of the downward loops accepts: the end of the hole in front of `tmp`.
Only `mmap_find_hole` (`first = true`) looks in front of the first region. -/
def holeBefore (s : State π) (size : BitVec 64) (first : Bool) (tmp : Nat) :
    Option (BitVec 64) :=
  let start := (s.region tmp).start
  match (s.mem tmp).prev with
  | some prev =>
    if size ≤ start - (s.region prev).upperBound then some (start - size) else none
  | none =>
    if first && 0 < (s.region tmp).lowerBound && size ≤ start then
      some (start - size)
    else
      none

/-- The downward loops of `mmap_find_hole` and `mmap_find_holeat`. -/
def searchDown (s : State π) (size : BitVec 64) (first : Bool) :
    Nat → Option Nat → Except Fault (Option (BitVec 64))
  | _, none => return none
  | 0, some _ => throw .hang
  | n + 1, some tmp =>
    match holeBefore s size first tmp with
    | some addr => return some addr
    | none => searchDown s size first n (s.mem tmp).prev

def holeRet : Option (BitVec 64) → Except Errno (BitVec 64)
  | some addr => .ok addr
  | none => .error .ENOMEM

def mmapFindHole (s : State π) (size : BitVec 64) (whence : Whence) :
    Except Fault (Except Errno (BitVec 64)) := do
  if size = 0 then
    return .error .EINVAL
  else
    match whence with
    | .start =>
      let (_, holesz) ← mmapGetholesize s 0
      if size ≤ holesz then
        return .ok 0
      else
        let addr ← searchUp s size s.allocs s.head
        return holeRet addr
    | .last =>
      let (_, holesz) ← mmapGetholesize s (mmapLimit + 1 - size)
      if size ≤ holesz then
        return .ok (mmapLimit + 1 - size)
      else
        let addr ← searchDown s size true s.allocs s.tail
        return holeRet addr

def holeatUp (s : State π) (size : BitVec 64) (near : Option Nat) :
    Except Fault (Except Errno (BitVec 64)) := do
  match ← searchUp s size s.allocs near with
  | some addr => return .ok addr
  | none => mmapFindHole s size .start

def holeatDown (s : State π) (size : BitVec 64) (near : Option Nat) :
    Except Fault (Except Errno (BitVec 64)) := do
  match ← searchDown s size false s.allocs near with
  | some addr => return .ok addr
  | none => mmapFindHole s size .last

def holeBeforeNear (s : State π) (size : BitVec 64) : Option Nat → Option (BitVec 64)
  | none => none
  | some near =>
    match (s.mem near).prev with
    | none => none
    | some prev =>
      if size ≤ (s.region near).start - (s.region prev).upperBound then
        some (s.region prev).upperBound
      else
        none

/-- The tests of `mmap_find_holeat` behind the region `near`, or at the end of the address
space. -/
def holeAfterNear (s : State π) (size : BitVec 64) :
    Option Nat → Except Fault (Option (BitVec 64))
  | none => do
      let (_, holesz) ← mmapGetholesize s (mmapLimit + 1 - size)
      return if size ≤ holesz then some (mmapLimit + 1 - size) else none
  | some near =>
    match (s.mem near).next with
    | some next =>
      return if size ≤ (s.region next).start - (s.region near).upperBound then
        some ((s.region next).start - size)
      else
        none
    | none => do
        let (_, holesz) ← mmapGetholesize s (s.region near).upperBound
        return if size ≤ holesz then
          some ((s.region near).upperBound + holesz - size)
        else
          none

/-- The region above the hint, where the upward search of `mmap_find_holeat` starts. -/
def nearNext (s : State π) (addr : BitVec 64) : Except Fault (Option Nat) :=
  if addr = 0 then return none else mmapFindVmrNext s addr

def nearPrev (s : State π) (addr : BitVec 64) : Except Fault (Option Nat) :=
  if addr = 0 then return none else mmapFindVmrPrev s addr

def mmapFindHoleat (s : State π) (addr size : BitVec 64) (whence : Whence) :
    Except Fault (Except Errno (BitVec 64)) := do
  if size = 0 then
    return .error .EINVAL
  else
    match whence with
    | .start =>
      let near ← nearNext s addr
      let (_, holesz) ← mmapGetholesize s addr
      if size ≤ holesz then
        return .ok addr
      else
        match holeBeforeNear s size (near.or s.head) with
        | some hole => return .ok hole
        | none => holeatUp s size (near.or s.head)
    | .last =>
      let near ← nearPrev s addr
      match ← holeAfterNear s size (near.or s.tail) with
      | some hole => return .ok hole
      | none => holeatDown s size (near.or s.tail)

/-! ## Mapping a region in -/

def adopt (s : State π) (r : Nat) : State π :=
  let s := s.modify r (·.setMapped true)
  s.withAccount { s.toAccount with
    refs := s.refs + 1, usedSpace := s.usedSpace + (s.region r).size }

def mapinFirst (s : State π) (r : Nat) : State π :=
  adopt { s.modify r (·.addRefs 2) with head := some r, tail := some r } r

/-- `mmap_mapin` in front of the region `node`.  Without a region in front of it `node` is
advanced before `node->prev = r`, so that the link back from the old first region is not
stored. -/
def mapinBefore (s : State π) (r node : Nat) : State π :=
  let prev := (s.mem node).prev
  let mem := storePrev (storeNext s.mem (some r) (some node)) (some r) prev
  match prev with
  | some _ =>
    let mem := storePrev (storeNext mem prev (some r)) (some node) (some r)
    adopt ((s.withMem mem).modify r (·.addRefs 2)) r
  | none =>
    adopt { (s.withMem mem).modify r (·.addRefs 2) with head := some r } r

def mapinLast (s : State π) (r : Nat) : State π :=
  let mem := storePrev (storeNext s.mem (some r) none) (some r) s.tail
  let mem := storeNext mem s.tail (some r)
  let head := if s.tail = none then some r else s.head
  adopt { (s.withMem mem).modify r (·.addRefs 2) with head := head, tail := some r } r

/-- The loop of `mmap_mapin` that looks for a region in the way. -/
def mapinLoop (s : State π) (endAddr : BitVec 64) : Nat → BitVec 64 → Except Fault Ret
  | 0, _ => throw .hang
  | n + 1, addr => do
      if endAddr < addr then
        return .ok
      else
        match ← mmapFind s addr with
        | some _ => return .err .EEXIST
        | none =>
          match ← mmapGetholesize s addr with
          | (.err e, _) => return .err e
          | (.ok, hole) => do
              assert (hole ≠ 0) "Endless loop"
              mapinLoop s endAddr n (addr + hole)

def mapinInsert (s : State π) (r : Nat) : Except Fault (State π) :=
  if s.head = none then
    return mapinFirst s r
  else do
    match ← forlinked s (fun node => (s.region r).start < (s.region node).start) with
    | some node => return mapinBefore s r node
    | none => return mapinLast s r

def mmapMapin (s : State π) (r : Nat) : Except Fault (Ret × State π) := do
  if ← mmapContains s r then
    return (.err .EEXIST, s)
  else if (s.region r).size = 0 ∨ mmapLimit < (s.region r).endAddr then
    return (.err .EINVAL, s)
  else
    match ← mapinLoop s (s.region r).endAddr (s.allocs + 2) (s.region r).start with
    | .err e => return (.err e, s)
    | .ok => do
        let s ← mapinInsert s r
        return (.ok, s)

/-! ## Removing regions -/

/-- The first half of `mmap_remove`: the neighbours of `r` forget it. -/
def unlinkNeighbours (s : State π) (r : Nat) : State π :=
  let prev := (s.mem r).prev
  let next := (s.mem r).next
  let mem := storePrev (storeNext s.mem prev next) next prev
  let refs : Int := (if prev = none then 0 else -1) + (if next = none then 0 else -1)
  (s.withMem mem).modify r (·.addRefs refs)

def unlinkHead (s : State π) (r : Nat) : State π :=
  if s.head = some r then
    match (s.mem r).next with
    | none => { s with head := none }
    | some h =>
      let s := { s with head := some h, mem := storePrev s.mem (some h) none }
      if (s.mem h).next = none then s.modify h (·.addRefs (-1)) else s
  else
    s

def unlinkTail (s : State π) (r : Nat) : State π :=
  if s.tail = some r then
    match (s.mem r).prev with
    | none => { s with tail := none }
    | some t =>
      let s := { s with tail := some t, mem := storeNext s.mem (some t) none }
      if (s.mem t).prev = none then s.modify t (·.addRefs (-1)) else s
  else
    s

/-- The counters and the special regions after `r` has left the list. -/
def forget (a : Account π) (r : Nat) : Account π :=
  let a := { a with refs := a.refs - 1 }
  if a.heap = some r then
    { a with brk := 0, heap := none }
  else if a.arg = some r then
    { a with arg := none }
  else if a.env = some r then
    { a with env := none }
  else
    a

/-- `mmap_remove` of a region of the list, up to the call of `arch_unmap_n`. -/
def unlinkVmr (s : State π) (r : Nat) : State π :=
  let s := unlinkTail (unlinkHead (unlinkNeighbours s r) r) r
  let s := s.modify r fun v => (v.addRefs (-1)).setMapped false
  s.withAccount (forget s.toAccount r)

def mmapRemove (env : Env π) (s : State π) (r : Nat) : Except Fault (Ret × State π) := do
  if ← mmapContains s r then
    let s := unlinkVmr s r
    let pt ← env.unmapN s.pt (s.region r).start (s.region r).size
    return (.ok, vmrFree (s.withAccount (s.toAccount.withPt pt)) r)
  else
    return (.err .ENOENT, s)

/-! ## Splitting a region -/

def vmrCanSplit (r : Region) (addr : BitVec 64) : Bool := r.start < addr && addr < r.endAddr

/-- The contents of the region that `vmr_split` makes at `addr`. -/
def splitRegion (r : Region) (addr : BitVec 64) : Region :=
  { start := addr
    endAddr := r.endAddr
    flags := r.flags
    vflags := r.vflags
    file := r.file
    filesz := 0
    memsz := 0
    filePos := if r.file.isSome then addr - r.start else 0 }

/-- `vmr_split(r, addr, pvmr)`; `pvmr` says whether the third argument is a valid pointer. -/
def vmrSplit (env : Env π) (s : State π) (r : Nat) (addr : BitVec 64) (pvmr : Bool) :
    Except Fault (Ret × Option Nat × State π) := do
  if vmrCanSplit (s.region r) addr then
    if pvmr then
      match vmrAlloc env s (splitRegion (s.region r) addr) with
      | (none, s) => return (.err .ENOMEM, none, s)
      | (some new, s) =>
        let s := s.setRegion r ((s.region r).withBounds (s.region r).start (addr - 1))
        if (s.mem r).mapped then
          match ← mmapMapin s new with
          | (.err e, s) => return (.err e, none, vmrFree s new)
          | (.ok, s) => return (.ok, some new, s)
        else
          return (.err .EINVAL, none, vmrFree s new)
    else
      throw .nullDeref
  else
    return (.err .EINVAL, none, s)

/-! ## Unmapping a range -/

/-- The branch of `mmap_unmap` in which a region `vmr` contains `start` but is not the range
itself; the new `start` and `len` come with the state. -/
def unmapAt (env : Env π) (s : State π) (vmr : Nat) (start len : BitVec 64) :
    Except Fault (BitVec 64 × BitVec 64 × State π) := do
  let r := s.region vmr
  if r.start = start then
    if len < r.size then
      return (start, 0, s.setRegion vmr (r.withBounds (r.start + len) r.endAddr))
    else if r.size < len then
      let (_, s) ← mmapRemove env s vmr
      return (r.upperBound, len - r.size, s)
    else
      return (start, len, s)
  else if r.endAddr = start then
    return (start, len, s.setRegion vmr (r.withBounds r.start (r.endAddr - 1)))
  else
    let (_, _, s) ← vmrSplit env s vmr start false
    return (start, len, s)

/-- One turn of the loop of `mmap_unmap`; `none` is its `break`. -/
def unmapStep (env : Env π) (s : State π) (start len : BitVec 64) :
    Except Fault (Option (BitVec 64 × BitVec 64 × State π)) := do
  let endAddr := start + len - 1
  match ← mmapFindExact s start endAddr with
  | some vmr =>
    let (_, s) ← mmapRemove env s vmr
    return some (start + (endAddr - start), len - (endAddr - start), s)
  | none =>
    match ← mmapFind s start with
    | some vmr =>
      let res ← unmapAt env s vmr start len
      return some res
    | none =>
      let (_, holesz) ← mmapGetholesize s start
      if holesz = 0 then
        return none
      else
        let holesz := if len < holesz then len else holesz
        return some (start + holesz, len - holesz, s)

def unmapLoop (env : Env π) : Nat → State π → BitVec 64 → BitVec 64 → Except Fault (State π)
  | 0, _, _, _ => throw .hang
  | n + 1, s, start, len => do
      if len = 0 then
        return s
      else
        match ← unmapStep env s start len with
        | none => return s
        | some (start, len, s) => unmapLoop env n s start len

def mmapUnmap (env : Env π) (s : State π) (start len : BitVec 64) :
    Except Fault (Ret × State π) := do
  if len = 0 then
    return (.err .EINVAL, s)
  else if !validAddr (start + len - 1) then
    return (.err .EINVAL, s)
  else
    let s ← unmapLoop env (2 * s.allocs + 4) s start len
    return (.ok, s)

def mmapForcedMapin (env : Env π) (s : State π) (r : Nat) : Except Fault (Ret × State π) := do
  match ← mmapUnmap env s (s.region r).start (s.region r).size with
  | (.err e, s) => return (.err e, s)
  | (.ok, s) => mmapMapin s r

/-! ## Mapping a new region -/

def mapFlags (prot flags : BitVec 32) : BitVec 64 :=
  bitIf (has prot PROT_EXEC) VM_EXEC ||| bitIf (has prot PROT_READ) VM_READ |||
    bitIf (has prot PROT_WRITE) VM_WRITE ||| bitIf (has flags MAP_ZERO) VM_ZERO |||
    bitIf (has flags MAP_SHARED) VM_SHARED ||| bitIf (has flags MAP_STACK) VM_GROWSDOWN |||
    bitIf (has flags MAP_DONTEXPAND) VM_DONTEXPAND

def pteFlags (flags : BitVec 64) : BitVec 64 :=
  bitIf (has flags VM_READ) PTE_R ||| bitIf (has flags VM_WRITE) PTE_W |||
    bitIf (has flags VM_EXEC) PTE_X ||| PTE_U

def newRegion (addr len : BitVec 64) (prot flags : BitVec 32) : Region :=
  { Region.zero with
    start := addr
    endAddr := addr + len - 1
    flags := mapFlags prot flags
    vflags := pteFlags (mapFlags prot flags) }

/-- The argument checks of `mmap_map_region`; `pvmr` says whether its last argument is not
null. -/
def mapArgsOk (addr len : BitVec 64) (prot flags : BitVec 32) (pvmr : Bool) : Bool :=
  (has flags MAP_FIXED || pvmr) && len != 0 &&
  (!has flags MAP_FIXED || isAligned addr) &&
  (!has flags MAP_FIXED || validAddr addr) &&
  (!has flags MAP_STACK || (isAligned addr && isAligned len)) &&
  (has flags MAP_PRIVATE != has flags MAP_SHARED) &&
  (!has flags MAP_STACK || (has prot PROT_READ && has prot PROT_WRITE))

/-- The length `mmap_map_region` maps: a stack is given a guard page. -/
def mapLen (len : BitVec 64) (flags : BitVec 32) : BitVec 64 :=
  if has flags MAP_STACK then len + guard else len

def mapWhence (flags : BitVec 32) : Whence :=
  if has flags MAP_STACK then .last else .start

/-- Where `mmap_map_region` puts a region of the size `len`. -/
def mapAddr (s : State π) (addr len : BitVec 64) (flags : BitVec 32) :
    Except Fault (Except Errno (BitVec 64)) :=
  if has flags MAP_FIXED then
    return .ok addr
  else
    mmapFindHoleat s addr len (mapWhence flags)

def mapAt (env : Env π) (s : State π) (addr len : BitVec 64) (prot flags : BitVec 32) :
    Except Fault (Ret × Option Nat × State π) := do
  match vmrAlloc env s (newRegion addr len prot flags) with
  | (none, s) => return (.err .ENOMEM, none, s)
  | (some r, s) => do
      let res ← if has flags MAP_FIXED then mmapForcedMapin env s r else mmapMapin s r
      match res with
      | (.err e, s) => return (.err e, none, vmrFree s r)
      | (.ok, s) => return (.ok, some r, s)

def mmapMapRegion (env : Env π) (s : State π) (addr len : BitVec 64) (prot flags : BitVec 32)
    (pvmr : Bool) : Except Fault (Ret × Option Nat × State π) := do
  if mapArgsOk addr len prot flags pvmr then
    match ← mapAddr s addr (mapLen len flags) flags with
    | .error e => return (.err e, none, s)
    | .ok addr => mapAt env s addr (mapLen len flags) prot flags
  else
    return (.err .EINVAL, none, s)

def mmapAllocVmr (env : Env π) (s : State π) (size : BitVec 64) (prot flags : BitVec 32) :
    Except Fault (Ret × Option Nat × State π) :=
  if has flags MAP_FIXED then
    return (.err .EINVAL, none, s)
  else
    mmapMapRegion env s 0 size prot flags true

/-! ## Growing and shrinking a region -/

/-- `mmap_vmr_expand` of a region that grows up; `incr` is not zero. -/
def expandUp (env : Env π) (s : State π) (r : Nat) (incr : BitVec 64) :
    Except Fault (Ret × State π) := do
  let v := s.region r
  let oldsz := v.size
  let newsz := oldsz + incr
  if oldsz.slt newsz then
    match ← mmapGetholesize s v.upperBound with
    | (.err e, _) => return (.err e, s)
    | (.ok, holesz) =>
      if incr ≤ holesz then
        return (.ok, s.setRegion r (v.withBounds v.start (v.start + newsz - 1)))
      else
        return (.err .ENOMEM, s)
  else if newsz.slt 0 then
    return (.err .EINVAL, s)
  else if newsz = 0 then
    mmapRemove env s r
  else
    return (.ok, s.setRegion r (v.withBounds v.start (v.endAddr - (oldsz - newsz))))

/-- `mmap_vmr_expand` of a region that grows down; `incr` is not zero. -/
def expandDown (env : Env π) (s : State π) (r : Nat) (incr : BitVec 64) :
    Except Fault (Ret × State π) := do
  let v := s.region r
  let oldsz := v.size
  let newsz := oldsz + incr
  if oldsz.slt newsz then
    match ← mmapGetholesize s (v.start - incr) with
    | (.err e, _) => return (.err e, s)
    | (.ok, holesz) =>
      if incr ≤ holesz then
        return (.ok, s.setRegion r (v.withBounds (v.start - incr) v.endAddr))
      else
        return (.err .ENOMEM, s)
  else if newsz.slt 0 then
    return (.err .EINVAL, s)
  else if newsz = 0 then
    mmapRemove env s r
  else
    return (.ok, s.setRegion r (v.withBounds (v.start + (oldsz - newsz)) v.endAddr))

def mmapVmrExpand (env : Env π) (s : State π) (r : Nat) (incr : BitVec 64) :
    Except Fault (Ret × State π) :=
  if incr = 0 then
    return (.ok, s)
  else if (s.region r).dontexpand then
    return (.err .EINVAL, s)
  else if (s.region r).growsdown then
    expandDown env s r incr
  else
    expandUp env s r incr

/-! ## Changing permissions -/

def regionProt (flags : BitVec 64) : BitVec 32 :=
  bitIf (has flags VM_READ) PROT_READ ||| bitIf (has flags VM_WRITE) PROT_WRITE |||
    bitIf (has flags VM_EXEC) PROT_EXEC

def protFlags (prot : BitVec 32) : BitVec 64 :=
  bitIf (has prot PROT_READ) VM_READ ||| bitIf (has prot PROT_WRITE) VM_WRITE |||
    bitIf (has prot PROT_EXEC) VM_EXEC

/-- The tests of `mmap_protect` that keep a page from being writable and executable. -/
def protDenied (old prot : BitVec 32) : Bool :=
  (has prot PROT_WRITE && has prot PROT_EXEC) || (has prot PROT_WRITE && has old PROT_EXEC) ||
    (has prot PROT_EXEC && has old PROT_WRITE)

/-- The end of `mmap_protect`: the region `r` and its pages get the new permissions. -/
def protectApply (env : Env π) (s : State π) (r : Nat) (prot : BitVec 32) :
    Except Fault (Ret × State π) := do
  let v := (s.region r).withFlags (protFlags prot) (pteFlags (protFlags prot))
  let s := s.setRegion r v
  let (err, pt) ← env.mprotect s.pt v.start v.size v.vflags
  return (err, s.withAccount (s.toAccount.withPt pt))

/-- `*copy = *r` with the reference count `refs` and no links. -/
def copyVmr (s : State π) (copy r : Nat) (v : Region) (refs : Int) : State π :=
  s.modify copy fun _ =>
    { toRegion := v, refs := refs, mapped := (s.mem r).mapped, prev := none, next := none }

def protectFront (env : Env π) (s : State π) (r split0 : Nat) (endAddr : BitVec 64)
    (prot : BitVec 32) : Except Fault (Ret × State π) := do
  let v := s.region r
  let s := copyVmr s split0 r (v.withBounds (endAddr + 1) v.endAddr) 0
  let s := s.setRegion r (v.withBounds v.start endAddr)
  match ← mmapMapin s split0 with
  | (.err e, s) => return (.err e, vmrFree (s.setRegion r v) split0)
  | (.ok, s) => protectApply env s r prot

def protectBack (env : Env π) (s : State π) (r split0 : Nat) (addr : BitVec 64)
    (prot : BitVec 32) : Except Fault (Ret × State π) := do
  let v := s.region r
  let s := copyVmr s split0 r (v.withBounds v.start (addr - 1)) 0
  let s := s.setRegion r (v.withBounds addr v.endAddr)
  match ← mmapMapin s split0 with
  | (.err e, s) => return (.err e, vmrFree (s.setRegion r v) split0)
  | (.ok, s) => protectApply env s r prot

def restore (s : State π) (r : Nat) (tmp : Vmr) : State π := s.modify r fun _ => tmp

/-- `mmap_protect` in the middle of the region `r`.  The reference count of `split1` is the one
copied from `r`: the source resets that of `split0` a second time instead. -/
def protectMiddle (env : Env π) (s : State π) (r split0 split1 : Nat)
    (addr endAddr : BitVec 64) (prot : BitVec 32) : Except Fault (Ret × State π) := do
  let tmp := s.mem r
  let v := s.region r
  let s := copyVmr s split0 r (v.withBounds v.start (addr - 1)) 0
  let s := copyVmr s split1 r (v.withBounds (endAddr + 1) v.endAddr) tmp.refs
  let s := s.setRegion r (v.withBounds addr endAddr)
  match ← mmapMapin s split0 with
  | (.err e, s) => return (.err e, vmrFree (vmrFree (restore s r tmp) split0) split1)
  | (.ok, s) =>
    match ← mmapMapin s split1 with
    | (.err e, s) => do
        let (_, s) ← mmapRemove env (restore s r tmp) split0
        return (.err e, vmrFree (vmrFree s split0) split1)
    | (.ok, s) => protectApply env s r prot

def protectPart (env : Env π) (s : State π) (r : Nat) (addr endAddr : BitVec 64)
    (prot : BitVec 32) : Except Fault (Ret × State π) :=
  match vmrAlloc env s Region.zero with
  | (none, s) => return (.err .ENOMEM, s)
  | (some split0, s) =>
    if (s.region r).start = addr then
      protectFront env s r split0 endAddr prot
    else if (s.region r).endAddr = endAddr then
      protectBack env s r split0 addr prot
    else
      match vmrAlloc env s Region.zero with
      | (none, s) => return (.err .ENOMEM, vmrFree s split0)
      | (some split1, s) => protectMiddle env s r split0 split1 addr endAddr prot

def mmapProtect (env : Env π) (s : State π) (addr len : BitVec 64) (prot : BitVec 32) :
    Except Fault (Ret × State π) := do
  let endAddr := addr + len - 1
  if len = 0 ∨ !isAligned addr ∨ !isAligned len then
    return (.err .EINVAL, s)
  else if !validAddr addr then
    return (.err .ENOMEM, s)
  else
    match ← mmapFindVmrOverlap s addr endAddr with
    | none => return (.err .ENOMEM, s)
    | some r =>
      if (s.region r).growsdown then
        return (.err .EACCES, s)
      else if regionProt (s.region r).flags = prot then
        return (.ok, s)
      else if protDenied (regionProt (s.region r).flags) prot then
        return (.err .EACCES, s)
      else if len < (s.region r).size then
        protectPart env s r addr endAddr prot
      else
        protectApply env s r prot

/-! ## Initialisation -/

def mmapClean (pt : π) : State π :=
  { refs := 0
    usedSpace := 0
    brk := 0
    heap := none
    arg := none
    env := none
    pt := pt
    mem := fun _ => Vmr.fresh Region.zero
    allocs := 0
    head := none
    tail := none }

/-- `mmap_init`: the first 16 MiB of the address space are a region without permissions. -/
def mmapInit (env : Env π) (pt : π) : Except Fault (Ret × State π) := do
  let (err, _, s) ← mmapMapRegion env (mmapClean pt) 0 0x1000000 0
    (MAP_FIXED ||| MAP_PRIVATE ||| MAP_DONTEXPAND) false
  return (err, s)

/-- One call of the region interface.  `vmrAlloc` is a caller that makes a region object of its
own and fills it in; pointer arguments are arbitrary. -/
inductive Call
  | vmrAlloc (r : Region)
  | mapin (r : Nat)
  | mapRegion (addr len : BitVec 64) (prot flags : BitVec 32) (pvmr : Bool)
  | unmap (start len : BitVec 64)
  | remove (r : Nat)
  | expand (r : Nat) (incr : BitVec 64)
  | protect (addr len : BitVec 64) (prot : BitVec 32)
  | split (r : Nat) (addr : BitVec 64) (pvmr : Bool)

def call (env : Env π) (s : State π) : Call → Except Fault (State π)
  | .vmrAlloc r => return (vmrAlloc env s r).2
  | .mapin r => do
      let (_, s) ← mmapMapin s r
      return s
  | .mapRegion addr len prot flags pvmr => do
      let (_, _, s) ← mmapMapRegion env s addr len prot flags pvmr
      return s
  | .unmap start len => do
      let (_, s) ← mmapUnmap env s start len
      return s
  | .remove r => do
      let (_, s) ← mmapRemove env s r
      return s
  | .expand r incr => do
      let (_, s) ← mmapVmrExpand env s r incr
      return s
  | .protect addr len prot => do
      let (_, s) ← mmapProtect env s addr len prot
      return s
  | .split r addr pvmr => do
      let (_, _, s) ← vmrSplit env s r addr pvmr
      return s

def run (env : Env π) : State π → List Call → Except Fault (State π) := runs (call env)

end Mmap
end Mm
end XytherOS
