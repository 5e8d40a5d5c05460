import XytherOS.Mm.Mmap
import XytherOS.Mm.Pmm

/-!
# Paging — the page tables of `arch/x86_64/paging.c`

The four levels of tables are reached through the recursive mapping, in which the entries of each
level form one array: the entry of a page, or of a table, is found at the number of the page divided
by `512` for every level above.  An address space is modelled by its user half; the kernel half, in
which frames are mounted, is not, so that whether a mount succeeds is asked of the environment.
The frames are those of the normal zone, from which everything here is allocated, with their
reference counts; what they contain and the TLB are left out.
-/

namespace XytherOS
namespace Arch

open Mm.Mmap (has PTE_P PTE_W PTE_U PTE_R PTE_X)
open Mm.Pmm (NPAGE PGROUND PGSZ)

/-! ## Entries -/

def PTE_WT : BitVec 64 := 0x008

def PTE_PS : BitVec 64 := 0x080

def PTE_ZERO : BitVec 64 := 0x200

def PTE_REMAP : BitVec 64 := 0x400

def PTE_ALLOC : BitVec 64 := 0x800

def PTE_KRW : BitVec 64 := PTE_P ||| PTE_W

def PGOFF (p : BitVec 64) : BitVec 64 := p &&& 0xFFF

/-- The number of the page of a virtual address, which is what the four table indices make up. -/
def vpn (va : BitVec 64) : Nat := va.toNat / 4096 % 2 ^ 36

def frameOf (raw : BitVec 64) : Nat := raw.toNat / 4096

/-- `PGROUND(pa) | PGOFF(flags)`, for an address `pa` in the frame `f`. -/
def mkPte (f : Nat) (flags : BitVec 64) : BitVec 64 := BitVec.ofNat 64 (f * 4096) ||| PGOFF flags

/-! ## Frames -/

/-- The frames of the normal zone, by number; it ends below the memory of the devices. -/
structure Frames where
  start : Nat
  npages : Nat
  refcnt : Nat → Nat
  nonzero : 0 < start
  belowMmio : start + npages ≤ 0xFE000

namespace Frames

def Contains (fr : Frames) (f : Nat) : Prop := fr.start ≤ f ∧ f < fr.start + fr.npages

instance (fr : Frames) (f : Nat) : Decidable (fr.Contains f) :=
  inferInstanceAs (Decidable (_ ∧ _))

def setRefcnt (fr : Frames) (f n : Nat) : Frames :=
  { fr with refcnt := Function.update fr.refcnt f n }

def getPage (fr : Frames) : Except Errno (Nat × Frames) :=
  match (List.range' fr.start fr.npages).find? fun f => fr.refcnt f == 0 with
  | none => .error .ENOMEM
  | some f => .ok (f, fr.setRefcnt f 1)

def pageGet (fr : Frames) (f : Nat) : Except Fault (Ret × Frames) :=
  if fr.Contains f then do
    assert (fr.refcnt f ≠ 0) "[Warning]: Increment refcnt on unallocated page(%p).\n"
    return (.ok, fr.setRefcnt f (fr.refcnt f + 1))
  else
    return (.err .ENOENT, fr)

def pagePut (fr : Frames) (f : Nat) : Except Fault (Ret × Frames) :=
  if fr.Contains f then do
    assert (fr.refcnt f ≠ 0) "[Warning]: Decrement refcnt on unallocated page(%p).\n"
    return (.ok, fr.setRefcnt f (fr.refcnt f - 1))
  else
    return (.err .ENOENT, fr)

def free (fr : Frames) (f : Nat) : Except Fault Frames := do
  let (_, fr) ← fr.pagePut f
  return fr

def pageGetcount (fr : Frames) (f : Nat) : Except Errno Nat :=
  if fr.Contains f then .ok (fr.refcnt f) else .error .ENOENT

end Frames

/-! ## Tables -/

inductive Level
  | pml4
  | pdpt
  | pdt
  | pt
  deriving DecidableEq

def Level.above : Level → Option Level
  | .pml4 => none
  | .pdpt => some .pml4
  | .pdt => some .pdpt
  | .pt => some .pdt

def Level.index : Level → Nat → Nat
  | .pml4, v => v / 512 / 512 / 512
  | .pdpt, v => v / 512 / 512
  | .pdt, v => v / 512
  | .pt, v => v

/-- The arrays of entries of an address space, as the recursive mapping shows them. -/
structure PageTables where
  entry : Level → Nat → BitVec 64

namespace PageTables

def isP (t : PageTables) (lvl : Level) (k : Nat) : Bool := has (t.entry lvl k) PTE_P

def set (t : PageTables) (lvl : Level) (k : Nat) (raw : BitVec 64) : PageTables :=
  ⟨fun l j => if l = lvl ∧ j = k then raw else t.entry l j⟩

def graft (t : PageTables) (lvl : Level) (k : Nat) (raw : BitVec 64) : PageTables :=
  ⟨fun l j => if l = lvl ∧ j = k then raw
    else if l.above = some lvl ∧ j / 512 = k then 0 else t.entry l j⟩

def reached (t : PageTables) : Level → Nat → Bool
  | .pml4, k => t.isP .pml4 k
  | .pdpt, k => t.isP .pml4 (k / 512) && t.isP .pdpt k
  | .pdt, k => t.isP .pml4 (k / 512 / 512) && t.isP .pdpt (k / 512) && t.isP .pdt k
  | .pt, k => t.isP .pml4 (k / 512 / 512 / 512) && t.isP .pdpt (k / 512 / 512) &&
      t.isP .pdt (k / 512) && t.isP .pt k

def empty : PageTables := ⟨fun _ _ => 0⟩

def getmapping (t : PageTables) (addr : BitVec 64) : Except Errno Nat :=
  if addr = 0 then .error .EINVAL
  else if t.reached .pt (vpn addr) then .ok (vpn addr)
  else .error .ENOENT

end PageTables

/-- What the paging code works on: the active page tables and the frames.  `ticks` counts the calls
whose outcome the environment decides. -/
structure Mem where
  tables : PageTables
  frames : Frames
  ticks : Nat

namespace Mem

def setEntry (mem : Mem) (lvl : Level) (k : Nat) (raw : BitVec 64) : Mem :=
  { mem with tables := mem.tables.set lvl k raw }

def pte (mem : Mem) (v : Nat) : BitVec 64 := mem.tables.entry .pt v

def withFrames (mem : Mem) (frames : Frames) : Mem := { mem with frames := frames }

def tick (mem : Mem) : Mem := { mem with ticks := mem.ticks + 1 }

def free (mem : Mem) (f : Nat) : Except Fault Mem := do
  let frames ← mem.frames.free f
  return mem.withFrames frames

end Mem

/-! ## Adding tables -/

def addTable (mem : Mem) (lvl : Level) (k : Nat) (flags : BitVec 64) :
    Except Errno (Option Nat × Mem) :=
  if mem.tables.isP lvl k then
    .ok (none, mem)
  else
    match mem.frames.getPage with
    | .error e => .error e
    | .ok (f, frames) =>
      .ok (some f, { mem with
        frames := frames
        tables := mem.tables.graft lvl k (mkPte f (flags ||| PTE_WT ||| PTE_KRW)) })

def dropTable (mem : Mem) (lvl : Level) (k : Nat) (new : Option Nat) : Except Fault Mem :=
  match new with
  | none => .ok mem
  | some f => (mem.setEntry lvl k 0).free f

/-- The tables of the levels `lvls` on the way to the page `v` are provided from the top down; when
memory runs out, those that were made are taken back. -/
def addTables (v : Nat) (flags : BitVec 64) : List Level → Mem → Except Fault (Ret × Mem)
  | [], mem => .ok (.ok, mem)
  | lvl :: lvls, mem =>
    match addTable mem lvl (lvl.index v) flags with
    | .error e => .ok (.err e, mem)
    | .ok (new, mem) => do
        match ← addTables v flags lvls mem with
        | (.ok, mem) => return (.ok, mem)
        | (.err e, mem) => do
            let mem ← dropTable mem lvl (lvl.index v) new
            return (.err e, mem)

/-- `x86_64_map_pdpt`, `x86_64_map_pdt` and `x86_64_map_pt` for the levels they provide. -/
def mapTables (mem : Mem) (lvls : List Level) (v : Nat) (flags : BitVec 64) :
    Except Fault (Ret × Mem) :=
  if has flags PTE_PS then .ok (.err .ENOTSUP, mem) else addTables v flags lvls mem

def mapPdpt (mem : Mem) (i4 : Nat) (flags : BitVec 64) : Except Fault (Ret × Mem) :=
  mapTables mem [.pml4] (i4 * 512 * 512 * 512) flags

def mapPdt (mem : Mem) (k : Nat) (flags : BitVec 64) : Except Fault (Ret × Mem) :=
  mapTables mem [.pml4, .pdpt] (k * 512 * 512) flags

def mapPt (mem : Mem) (k : Nat) (flags : BitVec 64) : Except Fault (Ret × Mem) :=
  mapTables mem [.pml4, .pdpt, .pdt] (k * 512) flags

/-! ## Mapping and unmapping pages -/

/-- The end of `x86_64_map`: a present entry is overwritten on request only. -/
def installPte (mem : Mem) (f v : Nat) (flags : BitVec 64) : Mem :=
  if !mem.tables.isP .pt v || has flags PTE_REMAP then mem.setEntry .pt v (mkPte f flags) else mem

def map (mem : Mem) (f v : Nat) (flags : BitVec 64) : Except Fault (Ret × Mem) :=
  if has flags PTE_PS then
    .ok (.err .ENOTSUP, mem)
  else do
    match ← addTables v flags [.pml4, .pdpt, .pdt] mem with
    | (.err e, mem) => return (.err e, mem)
    | (.ok, mem) => return (.ok, installPte mem f v flags)

def unmap (mem : Mem) (v : Nat) : Except Fault Mem :=
  if mem.tables.reached .pt v then
    let pa := mem.pte v
    if has pa PTE_ALLOC then (mem.setEntry .pt v 0).free (frameOf pa)
    else .ok (mem.setEntry .pt v 0)
  else
    .ok mem

def unmapPages : Nat → BitVec 64 → Mem → Except Fault Mem
  | 0, _, mem => .ok mem
  | n + 1, va, mem => do
      let mem ← unmap mem (vpn va)
      unmapPages n (va + PGSZ) mem

def unmapN (mem : Mem) (va sz : BitVec 64) : Except Fault Mem :=
  unmapPages (NPAGE sz).toNat va mem

/-- The loop of `x86_64_map_n`; the number is what is left of `nr`. -/
def mapNLoop (flags : BitVec 64) : Nat → BitVec 64 → Mem → Except Fault (Ret × Nat × Mem)
  | 0, _, mem => .ok (.ok, 0, mem)
  | n + 1, va, mem =>
    match mem.frames.getPage with
    | .error e => .ok (.err e, n + 1, mem)
    | .ok (f, frames) => do
        match ← map (mem.withFrames frames) f (vpn va) (flags ||| PTE_ALLOC) with
        | (.err e, mem) => return (.err e, n + 1, mem)
        | (.ok, mem) => mapNLoop flags n (va + PGSZ) mem

def mapILoop (flags : BitVec 64) : Nat → BitVec 64 → Nat → Mem → Except Fault (Ret × Nat × Mem)
  | 0, _, _, mem => .ok (.ok, 0, mem)
  | n + 1, va, f, mem => do
      match ← map mem f (vpn va) flags with
      | (.err e, mem) => return (.err e, n + 1, mem)
      | (.ok, mem) => mapILoop flags n (va + PGSZ) (f + 1) mem

/-- The end of both: after an error the pages that were mapped are unmapped. -/
def finishMap (va sz : BitVec 64) : Ret × Nat × Mem → Except Fault (Ret × Mem)
  | (.ok, _, mem) => .ok (.ok, mem)
  | (.err e, nr, mem) => do
      let mem ← unmapN mem va (BitVec.ofNat 64 ((NPAGE sz).toNat - nr) * PGSZ)
      return (.err e, mem)

def mapN (mem : Mem) (va sz flags : BitVec 64) : Except Fault (Ret × Mem) := do
  let res ← mapNLoop flags (NPAGE sz).toNat va mem
  finishMap va sz res

def mapI (mem : Mem) (va : BitVec 64) (f : Nat) (sz flags : BitVec 64) :
    Except Fault (Ret × Mem) := do
  let res ← mapILoop flags (NPAGE sz).toNat va f mem
  finishMap va sz res

/-! ## Changing permissions -/

def permMask : BitVec 64 := PTE_U ||| PTE_R ||| PTE_W ||| PTE_X

def protPages (flags : BitVec 64) : Nat → BitVec 64 → Mem → Ret × Mem
  | 0, _, mem => (.ok, mem)
  | n + 1, va, mem =>
    match mem.tables.getmapping va with
    | .error .ENOENT => protPages flags n (va + PGSZ) mem
    | .error e => (.err e, mem)
    | .ok v =>
      protPages flags n (va + PGSZ) (mem.setEntry .pt v ((mem.pte v &&& ~~~permMask) ||| flags))

def mprotect (mem : Mem) (va sz flags : BitVec 64) : Ret × Mem :=
  if has (PGOFF flags) PTE_P then protPages (PGOFF flags) (NPAGE sz).toNat (PGROUND va) mem
  else (.err .EINVAL, mem)

def pagesFrom : Nat → BitVec 64 → List Nat
  | 0, _ => []
  | n + 1, va => vpn va :: pagesFrom n (va + PGSZ)

/-! ## Whole address spaces -/

def userTables : Nat := 256

def NPTE : Nat := 512

/-- `x86_64_unmap_pt`, `x86_64_unmap_pdt` and `x86_64_unmap_pdpt`: the table of an entry is
freed. -/
def unmapTable (mem : Mem) (lvl : Level) (k : Nat) : Except Fault Mem :=
  if mem.tables.reached lvl k then
    (mem.setEntry lvl k 0).free (frameOf (mem.tables.entry lvl k))
  else
    .ok mem

/-- The inner loop of `x86_64_unmap_full`, over the pages of the table of the entry `k`. -/
def clearPt (k : Nat) (mem : Mem) : Except Fault Mem :=
  each (fun i1 mem => if mem.tables.isP .pt (k * 512 + i1) then unmap mem (k * 512 + i1) else .ok mem)
    (List.range NPTE) mem

def clearPdt (k : Nat) (mem : Mem) : Except Fault Mem :=
  each (fun i2 mem =>
    if mem.tables.isP .pdt (k * 512 + i2) then do
      let mem ← clearPt (k * 512 + i2) mem
      unmapTable mem .pdt (k * 512 + i2)
    else .ok mem) (List.range NPTE) mem

def clearPdpt (k : Nat) (mem : Mem) : Except Fault Mem :=
  each (fun i3 mem =>
    if mem.tables.isP .pdpt (k * 512 + i3) then do
      let mem ← clearPdt (k * 512 + i3) mem
      unmapTable mem .pdpt (k * 512 + i3)
    else .ok mem) (List.range NPTE) mem

def unmapFull (mem : Mem) : Except Fault Mem :=
  each (fun i4 mem =>
    if mem.tables.isP .pml4 i4 then do
      let mem ← clearPdpt i4 mem
      unmapTable mem .pml4 i4
    else .ok mem) (List.range userTables) mem

/-- What the paging code asks of the rest of the kernel: the error of the `n`-th call of
`x86_64_mount`, if it fails. -/
structure Env where
  mount : Nat → Option Errno

def mount (env : Env) (mem : Mem) : Ret × Mem :=
  match env.mount mem.ticks with
  | none => (.ok, mem.tick)
  | some e => (.err e, mem.tick)

def ismmio (f : Nat) : Bool := 0xFE000 ≤ f && f < 0x100000

/-- What `x86_64_lazycpy` works on: the tables it copies from, and the active ones it copies to. -/
structure Copy where
  src : PageTables
  mem : Mem

/-- The innermost body of `x86_64_lazycpy`, for the page `v`. -/
def copyPte (v : Nat) (c : Copy) : Except Fault Copy :=
  if c.src.isP .pt v then
    let raw := c.src.entry .pt v &&& ~~~PTE_W
    let mem := c.mem.setEntry .pt v raw
    let src := c.src.set .pt v raw
    if ismmio (frameOf raw) then
      .ok ⟨src, mem⟩
    else do
      let (err, frames) ← mem.frames.pageGet (frameOf raw)
      assert (err = .ok) "Failed to increament page ref."
      return ⟨src, mem.withFrames frames⟩
  else
    .ok c

/-- The start of each loop body: the table of a present entry gets its counterpart in the
destination, and it is mounted. -/
def enterTable (env : Env) (c : Copy)
    (mapTable : Mem → BitVec 64 → Except Fault (Ret × Mem)) (raw : BitVec 64) :
    Except Fault (Ret × Copy) := do
  match ← mapTable c.mem (PGOFF raw) with
  | (.err e, mem) => return (.err e, { c with mem := mem })
  | (.ok, mem) => return ((mount env mem).1, { c with mem := (mount env mem).2 })

def copyPt (env : Env) (k : Nat) (c : Copy) : Except Fault (Ret × Copy) :=
  if c.src.isP .pdt k then do
    match ← enterTable env c (mapPt · k) (c.src.entry .pdt k) with
    | (.err e, c) => return (.err e, c)
    | (.ok, c) =>
      let c ← each (fun i1 c => copyPte (k * 512 + i1) c) (List.range NPTE) c
      return (.ok, c)
  else
    .ok (.ok, c)

def copyPdt (env : Env) (k : Nat) (c : Copy) : Except Fault (Ret × Copy) :=
  if c.src.isP .pdpt k then do
    match ← enterTable env c (mapPdt · k) (c.src.entry .pdpt k) with
    | (.err e, c) => return (.err e, c)
    | (.ok, c) => tryEach (fun i2 c => copyPt env (k * 512 + i2) c) (List.range NPTE) c
  else
    .ok (.ok, c)

def copyPdpt (env : Env) (k : Nat) (c : Copy) : Except Fault (Ret × Copy) :=
  if c.src.isP .pml4 k then do
    match ← enterTable env c (mapPdpt · k) (c.src.entry .pml4 k) with
    | (.err e, c) => return (.err e, c)
    | (.ok, c) => tryEach (fun i3 c => copyPdt env (k * 512 + i3) c) (List.range NPTE) c
  else
    .ok (.ok, c)

def lazycpy (env : Env) (c : Copy) : Except Fault (Ret × Copy) :=
  match mount env c.mem with
  | (.err e, mem) => .ok (.err e, { c with mem := mem })
  | (.ok, mem) => do
      match ← tryEach (fun i4 c => copyPdpt env i4 c) (List.range userTables) { c with mem := mem } with
      | (.ok, c) => return (.ok, c)
      | (.err e, c) => do
          let mem ← unmapFull c.mem
          return (.err e, { c with mem := mem })

end Arch
end XytherOS
