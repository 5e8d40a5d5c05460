import XytherOS.Arch.TableView
import XytherOS.Mm.VmmRun

/-!
# Kmem — temporary mounts and the copies of `arch/x86_64/paging.c`

To read or write a page frame the kernel mounts it: it takes a page of kernel addresses from `vmman`
and maps the frame there.  `Kmem` is what this works on: the kernel's address ranges, the active page
tables with their kernel half, and the contents of physical memory.

The kernel half is the same in all address spaces, so that a mount does not depend on which one is
active.  The page tables themselves are kept apart from the contents of the frames; the pages of the
recursive window, in which the tables appear, are not pages of this model, and the TLB is left out.
-/

namespace XytherOS
namespace Arch

open Mm (Vmm.alloc Vmm.free)
open Mm.Mmap (has PTE_P PTE_W)
open Mm.Pmm (PGROUND PGSZ)

def PTE_CD : BitVec 64 := 0x010

def PTE_WTCD : BitVec 64 := PTE_WT ||| PTE_CD

def PML4_Recursion : Nat := 511

/-- The kernel's view of memory; `phys` is the content of the frames, by physical address. -/
structure Kmem where
  vmm : Mm.Vmm.State
  mem : Mem
  phys : BitVec 64 → BitVec 8

namespace Kmem

/-! ## Ranges of kernel addresses -/

def vmmAlloc (k : Kmem) (size : BitVec 64) : Except Fault (BitVec 64 × Kmem) := do
  let (_, addr, vmm) ← Vmm.alloc k.vmm size
  return (addr.getD 0, { k with vmm := vmm })

def vmmFree (k : Kmem) (addr : BitVec 64) : Except Fault Kmem := do
  let vmm ← Vmm.free k.vmm addr
  return { k with vmm := vmm }

def pagealloc (k : Kmem) (sz : BitVec 64) : Except Fault (Except Errno (BitVec 64) × Kmem) := do
  let (va, k) ← k.vmmAlloc sz
  if va = 0 then
    return (.error .ENOMEM, k)
  match ← mapN k.mem va sz (PTE_KRW ||| PTE_WT) with
  | (.ok, mem) => return (.ok va, { k with mem := mem })
  | (.err e, mem) => do
      let k ← vmmFree { k with mem := mem } va
      return (.error e, k)

def pagefree (k : Kmem) (vaddr sz : BitVec 64) : Except Fault Kmem := do
  let mem ← unmapN k.mem vaddr sz
  vmmFree { k with mem := mem } vaddr

/-! ## Mounts -/

def mount (k : Kmem) (pa : BitVec 64) : Except Fault (Except Errno (BitVec 64) × Kmem) := do
  if pa = 0 then
    return (.error .EINVAL, k)
  let (va, k) ← k.vmmAlloc PGSZ
  if va = 0 then
    return (.error .ENOMEM, k)
  match ← mapI k.mem va (frameOf pa) PGSZ PTE_KRW with
  | (.ok, mem) => return (.ok va, { k with mem := mem })
  | (.err e, mem) => do
      let k ← vmmFree { k with mem := mem } va
      return (.error e, k)

def unmount (k : Kmem) (va : BitVec 64) : Except Fault Kmem := do
  let mem ← unmapN k.mem va PGSZ
  return { k with mem := mem }

/-! ## Reading and writing -/

/-- An address that the processor takes: its upper bits are all the same. -/
def Canonical (va : BitVec 64) : Prop := va.toNat < 2 ^ 47 ∨ 2 ^ 64 - 2 ^ 47 ≤ va.toNat

instance (va : BitVec 64) : Decidable (Canonical va) := inferInstanceAs (Decidable (_ ∨ _))

/-- The physical address behind a virtual one.  The bit `WP` of `CR0` is never set, so that the
kernel may write to every page that is present. -/
def physAddr (k : Kmem) (va : BitVec 64) : Option (BitVec 64) :=
  if Canonical va ∧ has (k.mem.tables.pteAt (vpn va)) PTE_P then
    some (PGROUND (k.mem.tables.pteAt (vpn va)) + PGOFF va)
  else
    none

def load (k : Kmem) (va : BitVec 64) : Except Fault (BitVec 8) :=
  match k.physAddr va with
  | none => .error .wildAccess
  | some pa => .ok (k.phys pa)

def store (k : Kmem) (va : BitVec 64) (b : BitVec 8) : Except Fault Kmem :=
  match k.physAddr va with
  | none => .error .wildAccess
  | some pa => .ok { k with phys := Function.update k.phys pa b }

def storeQuad (k : Kmem) (va raw : BitVec 64) : Except Fault Kmem :=
  each (fun i k => k.store (va + BitVec.ofNat 64 i) (raw.extractLsb' (8 * i) 8)) (List.range 8) k

def memcpy (k : Kmem) (dst src : BitVec 64) (size : Nat) : Except Fault Kmem :=
  each (fun i k => do
    let b ← k.load (src + BitVec.ofNat 64 i)
    k.store (dst + BitVec.ofNat 64 i) b) (List.range size) k

/-! ## Copies -/

def MIN (a b : BitVec 64) : BitVec 64 := if a < b then a else b

def MAX (a b : BitVec 64) : BitVec 64 := if b < a then a else b

def lenpp (pdst psrc size : BitVec 64) : BitVec 64 :=
  MIN (MIN (PGSZ - MAX (PGOFF psrc) (PGOFF pdst)) PGSZ) size

/-- The loop of `x86_64_memcpypp`; each turn copies a byte at least, so that `size` turns are
enough. -/
def memcpyppLoop : Nat → BitVec 64 → BitVec 64 → BitVec 64 → Kmem → Except Fault (Ret × Kmem)
  | fuel, pdst, psrc, size, k =>
    if size = 0 then
      .ok (.ok, k)
    else
      match fuel with
      | 0 => .error .hang
      | fuel + 1 => do
          match ← k.mount (PGROUND pdst) with
          | (.error e, k) => return (.err e, k)
          | (.ok vdst, k) =>
            match ← k.mount (PGROUND psrc) with
            | (.error e, k) => do
                let k ← k.unmount vdst
                return (.err e, k)
            | (.ok vsrc, k) => do
                let len := lenpp pdst psrc size
                let k ← k.memcpy (vdst + PGOFF pdst) (vsrc + PGOFF psrc) len.toNat
                let k ← k.unmount vsrc
                let k ← k.unmount vdst
                memcpyppLoop fuel (pdst + len) (psrc + len) (size - len) k

def memcpypp (k : Kmem) (pdst psrc size : BitVec 64) : Except Fault (Ret × Kmem) :=
  memcpyppLoop size.toNat pdst psrc size k

def lenp (pa size : BitVec 64) : BitVec 64 := MIN (PGSZ - PGOFF pa) size

/-- The loop of `x86_64_memcpyvp` and `x86_64_memcpypv`; `copy mounted va` is their `memcpy` between
the mounted address and the virtual one. -/
def memcpyLoop (copy : BitVec 64 → BitVec 64 → Nat → Kmem → Except Fault Kmem) :
    Nat → BitVec 64 → BitVec 64 → BitVec 64 → Kmem → Except Fault (Ret × Kmem)
  | fuel, pa, va, size, k =>
    if size = 0 then
      .ok (.ok, k)
    else
      match fuel with
      | 0 => .error .hang
      | fuel + 1 => do
          match ← k.mount (PGROUND pa) with
          | (.error e, k) => return (.err e, k)
          | (.ok mounted, k) => do
              let len := lenp pa size
              let k ← copy (mounted + PGOFF pa) va len.toNat k
              let k ← k.unmount mounted
              memcpyLoop copy fuel (pa + len) (va + len) (size - len) k

def memcpyvp (k : Kmem) (pa va size : BitVec 64) : Except Fault (Ret × Kmem) :=
  memcpyLoop (fun mounted va n k => k.memcpy mounted va n) size.toNat pa va size k

def memcpypv (k : Kmem) (va pa size : BitVec 64) : Except Fault (Ret × Kmem) :=
  memcpyLoop (fun mounted va n k => k.memcpy va mounted n) size.toNat pa va size k

/-! ## Copies of address spaces -/

def kvmcpy (k : Kmem) (dstp : BitVec 64) : Except Fault (Ret × Kmem) := do
  if dstp = 0 ∨ PGOFF dstp ≠ 0 then
    return (.err .EINVAL, k)
  match ← k.mount dstp with
  | (.error e, k) => return (.err e, k)
  | (.ok dstv, k) => do
      let k ← each (fun i k => k.storeQuad (dstv + BitVec.ofNat 64 (8 * i))
        (k.mem.tables.entry .pml4 i)) (List.range' userTables (NPTE - userTables)) k
      let k ← k.storeQuad (dstv + BitVec.ofNat 64 (8 * PML4_Recursion))
        (dstp ||| PTE_KRW ||| PTE_WTCD)
      let k ← k.unmount dstv
      return (.ok, k)

/-- What `x86_64_lazycpy` works on: the tables it copies from, and the kernel's view, in which the
active tables are those it copies to. -/
structure LazyCopy where
  src : PageTables
  k : Kmem

def LazyCopy.mounted (pa : BitVec 64) (body : LazyCopy → Except Fault (Ret × LazyCopy))
    (c : LazyCopy) : Except Fault (Ret × LazyCopy) := do
  match ← c.k.mount pa with
  | (.error e, k) => return (.err e, { c with k := k })
  | (.ok va, k) => do
      let (ret, c) ← body { c with k := k }
      let k ← c.k.unmount va
      return (ret, { c with k := k })

/-- The body of a loop of `x86_64_lazycpy`: the table of a present entry gets its counterpart in the
destination, and is mounted. -/
def LazyCopy.enterTable (mapTable : Mem → BitVec 64 → Except Fault (Ret × Mem)) (raw : BitVec 64)
    (body : LazyCopy → Except Fault (Ret × LazyCopy)) (c : LazyCopy) :
    Except Fault (Ret × LazyCopy) := do
  match ← mapTable c.k.mem (PGOFF raw) with
  | (.err e, mem) => return (.err e, { c with k := { c.k with mem := mem } })
  | (.ok, mem) => mounted raw body { c with k := { c.k with mem := mem } }

def LazyCopy.copyPte (v : Nat) (c : LazyCopy) : Except Fault LazyCopy := do
  let ⟨src, mem⟩ ← Arch.copyPte v ⟨c.src, c.k.mem⟩
  return ⟨src, { c.k with mem := mem }⟩

def LazyCopy.copyPt (j : Nat) (c : LazyCopy) : Except Fault (Ret × LazyCopy) :=
  if c.src.isP .pdt j then
    c.enterTable (mapPt · j) (c.src.entry .pdt j) fun c => do
      let c ← each (fun i1 c => copyPte (j * 512 + i1) c) (List.range NPTE) c
      return (.ok, c)
  else
    .ok (.ok, c)

def LazyCopy.copyPdt (j : Nat) (c : LazyCopy) : Except Fault (Ret × LazyCopy) :=
  if c.src.isP .pdpt j then
    c.enterTable (mapPdt · j) (c.src.entry .pdpt j) fun c =>
      tryEach (fun i2 c => copyPt (j * 512 + i2) c) (List.range NPTE) c
  else
    .ok (.ok, c)

def LazyCopy.copyPdpt (j : Nat) (c : LazyCopy) : Except Fault (Ret × LazyCopy) :=
  if c.src.isP .pml4 j then
    c.enterTable (mapPdpt · j) (c.src.entry .pml4 j) fun c =>
      tryEach (fun i3 c => copyPdt (j * 512 + i3) c) (List.range NPTE) c
  else
    .ok (.ok, c)

def LazyCopy.lazycpy (dst src : BitVec 64) (c : LazyCopy) : Except Fault (Ret × LazyCopy) :=
  if dst = 0 ∨ src = 0 then
    .ok (.err .EINVAL, c)
  else
    c.mounted src fun c => do
      match ← tryEach (fun i4 c => copyPdpt i4 c) (List.range userTables) c with
      | (.ok, c) => return (.ok, c)
      | (.err e, c) => do
          let mem ← unmapFull c.k.mem
          return (.err e, { c with k := { c.k with mem := mem } })

end Kmem

end Arch
end XytherOS
