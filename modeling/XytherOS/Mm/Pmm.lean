import XytherOS.Ds.Bitmap

/-!
# Pmm — the physical page allocator of `mm/pmm`

Physical memory is divided into four zones; each has an array of page handles, a bitmap with one
bit for each handle and a counter of used pages.  A `page_t *` is modelled by the zone and the
index of the handle, a physical address by a 64-bit word.  The zone locks, the debug output and the
content of the page frames are left out; a failed assertion and a panic end the run.
-/

namespace XytherOS
namespace Mm
namespace Pmm

open Ds

inductive Watermark
  | reserved
  | dmaPool
  | normPool
  | holePool
  | highPool
  deriving DecidableEq

structure Page where
  flags : BitVec 64
  refcnt : BitVec 64
  mapcnt : BitVec 64
  icache : Option Nat
  watermark : Watermark
  deriving DecidableEq

def Page.withRefcnt (page : Page) (refcnt : BitVec 64) : Page := { page with refcnt := refcnt }

structure Zone where
  size : BitVec 64
  start : BitVec 64
  bitmap : Bitmap
  pages : Nat → Page
  npages : Nat
  upages : BitVec 64
  valid : Bool

abbrev NZONE : Nat := 4

abbrev Zones := Fin NZONE → Zone

structure PagePtr where
  zone : Fin NZONE
  index : Nat
  deriving DecidableEq

/-- What the allocator reads of the rest of the kernel: the kernel image, and where `arch_mount`
maps a frame (`none` when it fails). -/
structure Env where
  kernBase : BitVec 64
  kernSize : BitVec 64
  mount : BitVec 64 → Option (BitVec 64)

def PGSZ : BitVec 64 := 0x1000

def VMA_BASE : BitVec 64 := 0xFFFF800000000000

def PG_X : BitVec 64 := 0x1

def PG_R : BitVec 64 := 0x2

def PG_SWAPPABLE : BitVec 64 := 0x100

def KiB (x : BitVec 64) : BitVec 64 := 1024 * x

def MiB (x : BitVec 64) : BitVec 64 := KiB 1024 * x

def GiB (x : BitVec 64) : BitVec 64 := MiB 1024 * x

def NPAGE (p : BitVec 64) : BitVec 64 := p / PGSZ + if p &&& (PGSZ - 1) = 0 then 0 else 1

def PGROUND (p : BitVec 64) : BitVec 64 := p &&& ~~~(PGSZ - 1)

def BS (p : BitVec 64) : BitVec 64 := 1 <<< (p.toNat % 64)

def overlaps (x sx y sy : BitVec 64) : Bool := x < y + sy && y < x + sx

def isKernelAddr (env : Env) (addr : BitVec 64) : Bool :=
  env.kernBase ≤ addr && addr < env.kernBase + env.kernSize

def pageAddr (zone : Zone) (i : Nat) : BitVec 64 := zone.start + BitVec.ofNat 64 i * PGSZ

/-! ## Finding the zone -/

def getzoneByaddr (zones : Zones) (paddr size : BitVec 64) : Option (Fin NZONE) :=
  (List.finRange NZONE).find? fun z =>
    decide ((zones z).start ≤ paddr) && (zones z).valid &&
      decide (paddr + size ≤ (zones z).start + (zones z).size)

def getzoneBypage (zones : Zones) (page : PagePtr) : Option (Fin NZONE) :=
  if (zones page.zone).valid && decide (page.index < (zones page.zone).npages) then some page.zone
  else none

def getzoneByindex (zones : Zones) (z : Fin NZONE) : Option (Fin NZONE) :=
  if (zones z).valid then some z else none

def setZone (zones : Zones) (z : Fin NZONE) (zone : Zone) : Zones := Function.update zones z zone

def Zone.setPage (zone : Zone) (i : Nat) (page : Page) : Zone :=
  { zone with pages := Function.update zone.pages i page }

/-! ## Allocation -/

def MAX_PAGE_ORDER : BitVec 64 := 64

def GFP_WHENCE (gfp : BitVec 32) : BitVec 32 := gfp &&& 0x0F

def GFP_ZERO : BitVec 32 := 0x1000

def GFP_NORMAL : BitVec 32 := 0x2

def validateInput (gfp : BitVec 32) (order : BitVec 64) : Ret :=
  if MAX_PAGE_ORDER ≤ order then .err .ENOMEM
  else if 4 < GFP_WHENCE gfp then .err .EINVAL
  else .ok

def gfpToZoneIndex (gfp : BitVec 32) : Option (Fin NZONE) :=
  match GFP_WHENCE gfp with
  | 0 => some 1
  | 1 => some 0
  | 2 => some 1
  | 3 => some 2
  | 4 => some 3
  | _ => none

def pageVerifyWatermark (page : Page) : Except Fault Unit :=
  assert (page.watermark ≠ .reserved) "Watermark breach [%p: watermark: %p]\n"

/-- The address at which `zero_fill_page` writes a frame: that of `arch_mount` in the upper two
zones, the identity mapping in the others. -/
def mountedAt (env : Env) (paddr : BitVec 64) (whence : Fin NZONE) : Except Fault (BitVec 64) :=
  if whence = 2 ∨ whence = 3 then
    match env.mount paddr with
    | none => .error (.assertion "%s:%d: Failed to mount, err: %d\n")
    | some vaddr => .ok vaddr
  else .ok (paddr + VMA_BASE)

def zeroFillPage (env : Env) (zone : Zone) (i : Nat) (whence : Fin NZONE) : Except Fault Unit := do
  pageVerifyWatermark (zone.pages i)
  let vaddr ← mountedAt env (pageAddr zone i) whence
  assert (isKernelAddr env vaddr = false) "Allocation of kernel page[%p] detected."

def zeroFillIf (env : Env) (zero : Bool) (zone : Zone) (i : Nat) (whence : Fin NZONE) :
    Except Fault Unit :=
  if zero then zeroFillPage env zone i whence else .ok ()

/-- The loop of `do_page_alloc_n` over the pages `i .. i + n - 1`. -/
def takePages (env : Env) (zero : Bool) (whence : Fin NZONE) :
    Nat → Nat → Zone → Except Fault Zone
  | 0, _, zone => .ok zone
  | n + 1, i, zone => do
      assert (overlaps (pageAddr zone i) PGSZ env.kernBase env.kernSize = false)
        "Page: [%p] Overlaps the kernel image.\n"
      assert ((zone.pages i).refcnt = 0) "Page: [%p] already has refcnt: %ld??\n"
      let zone := zone.setPage i ((zone.pages i).withRefcnt ((zone.pages i).refcnt + 1))
      pageVerifyWatermark (zone.pages i)
      zeroFillIf env zero zone i whence
      takePages env zero whence n (i + 1) zone

/-- The checks at the head of `do_page_alloc_n`: the zone to allocate from. -/
def selectZone (zones : Zones) (gfp : BitVec 32) (order : BitVec 64) : Except Errno (Fin NZONE) :=
  match validateInput gfp order with
  | .err e => .error e
  | .ok =>
    match gfpToZoneIndex gfp with
    | none => .error .EINVAL
    | some whence =>
      match getzoneByindex zones whence with
      | none => .error .EINVAL
      | some z => .ok z

def allocInZone (env : Env) (zones : Zones) (z : Fin NZONE) (zero : Bool) (npage : BitVec 64) :
    Except Fault (Ret × Option (PagePtr × BitVec 64) × Zones) :=
  match (zones z).bitmap.bitmapAllocRange npage.toNat with
  | (err, none, _) => .ok (if err = .err .ENOSPC then .err .ENOMEM else err, none, zones)
  | (_, some index, bitmap) => do
      let zone ← takePages env zero z npage.toNat index { zones z with bitmap := bitmap }
      return (.ok, some (⟨z, index⟩, pageAddr zone index),
        setZone zones z { zone with upages := zone.upages + npage })

def doPageAllocN (env : Env) (zones : Zones) (gfp : BitVec 32) (order : BitVec 64) :
    Except Fault (Ret × Option (PagePtr × BitVec 64) × Zones) :=
  match selectZone zones gfp order with
  | .error e => .ok (.err e, none, zones)
  | .ok z => allocInZone env zones z (gfp &&& GFP_ZERO ≠ 0) (BS order)

def pageAllocN (env : Env) (zones : Zones) (gfp : BitVec 32) (order : BitVec 64) :
    Except Fault (Ret × Option PagePtr × Zones) := do
  let (err, res, zones) ← doPageAllocN env zones gfp order
  return (err, res.map Prod.fst, zones)

def pageAllocNAddr (env : Env) (zones : Zones) (gfp : BitVec 32) (order : BitVec 64) :
    Except Fault (Ret × Option (BitVec 64) × Zones) := do
  let (err, res, zones) ← doPageAllocN env zones gfp order
  return (err, res.map Prod.snd, zones)

/-! ## Release -/

/-- The end of the loop body of `do_page_free_n`, for a page whose last reference is gone. -/
def Zone.release (zone : Zone) (pos : Nat) (page : Page) : Except Fault Zone :=
  match zone.bitmap.bitmapUnset pos 1 with
  | (.err _, _) => .error (.assertion "Bitmap unset failed for page[%p]. error: %d\n")
  | (.ok, bitmap) =>
    .ok ({ zone with bitmap := bitmap, upages := zone.upages - 1 }.setPage pos
      { page with flags := 0 ||| PG_SWAPPABLE, icache := none })

/-- The loop of `do_page_free_n` over the pages `pos .. pos + n - 1`. -/
def releasePages : Nat → Nat → Zone → Except Fault Zone
  | 0, _, zone => .ok zone
  | n + 1, pos, zone => do
      inBounds pos zone.npages
      assert ((zone.pages pos).refcnt ≠ 0) "Double free detected for page[%p].\n"
      let page := (zone.pages pos).withRefcnt ((zone.pages pos).refcnt - 1)
      if page.refcnt ≠ 0 then
        releasePages n (pos + 1) (zone.setPage pos page)
      else do
        let zone ← zone.release pos page
        releasePages n (pos + 1) zone

/-- `do_page_free_n` once the zone and the index of the first page are known. -/
def freeInZone (env : Env) (zones : Zones) (z : Fin NZONE) (pos : Nat) (order : BitVec 64) :
    Except Fault Zones := do
  assert (isKernelAddr env (pageAddr (zones z) pos) = false)
    "Page(%p) is a builtin-kernel page.\n"
  if (zones z).start + (zones z).size ≤ pageAddr (zones z) pos + BS order * PGSZ then
    return zones
  else do
    let zone ← releasePages (BS order).toNat pos (zones z)
    return setZone zones z zone

def pageFreeN (env : Env) (zones : Zones) (page : PagePtr) (order : BitVec 64) :
    Except Fault Zones := do
  assert (order ≤ 64) "Requested order(%d) is greater than 64.\n"
  match getzoneBypage zones page with
  | none => throw (.assertion "Couldn't get zone by page[%p]. error: %d\n")
  | some z => freeInZone env zones z page.index order

def pageFreeNAddr (env : Env) (zones : Zones) (addr : BitVec 64) (order : BitVec 64) :
    Except Fault Zones := do
  assert (order ≤ 64) "Requested order(%d) is greater than 64.\n"
  match getzoneByaddr zones addr (BS order * PGSZ) with
  | none => throw (.assertion "Couldn't get zone by addr(%p). error: %d\n")
  | some z => do
      let pos := ((addr - (zones z).start) / PGSZ).toNat
      inBounds pos (zones z).npages
      assert (((zones z).pages pos).refcnt ≠ 0 ∧ (zones z).bitmap.bitmapTest pos 1 = true)
        "Page(%p): couldn't take a reference to the page handle.\n"
      freeInZone env zones z pos order

/-! ## Reference counts -/

/-- `page_increment` and `__page_increment` once the zone and the index are known. -/
def incrementInZone (zones : Zones) (z : Fin NZONE) (i : Nat) : Except Fault (Ret × Zones) := do
  assert ((zones z).bitmap.bitmapTest i 1 = true)
    "[Warning]: Increment refcnt on unallocated page(%p).\n"
  inBounds i (zones z).npages
  let page := (zones z).pages i
  return (.ok, setZone zones z ((zones z).setPage i (page.withRefcnt (page.refcnt + 1))))

/-- `page_decrement` and `__page_decrement` once the zone and the index are known. -/
def decrementInZone (zones : Zones) (z : Fin NZONE) (i : Nat) : Except Fault (Ret × Zones) := do
  assert ((zones z).bitmap.bitmapTest i 1 = true)
    "[Warning]: Decrement refcnt on unallocated page(%p).\n"
  inBounds i (zones z).npages
  let page := (zones z).pages i
  let zone := (zones z).setPage i (page.withRefcnt (page.refcnt - 1))
  if page.refcnt - 1 = 0 then
    match zone.bitmap.bitmapUnset i 1 with
    | (.err _, _) => throw (.assertion "[ERROR] unsetting bit(%d) page(%p).\n")
    | (.ok, bitmap) => return (.ok, setZone zones z { zone with bitmap := bitmap })
  else
    return (.ok, setZone zones z zone)

def locatePage (zones : Zones) (page : PagePtr) : Except Errno (Fin NZONE × Nat) :=
  match getzoneBypage zones page with
  | none => .error .ENOENT
  | some z => .ok (z, page.index)

def locateAddr (zones : Zones) (paddr : BitVec 64) : Except Errno (Fin NZONE × Nat) :=
  if paddr = 0 then .error .EINVAL
  else
    match getzoneByaddr zones paddr PGSZ with
    | none => .error .ENOENT
    | some z => .ok (z, ((paddr - (zones z).start) / PGSZ).toNat)

def increment (zones : Zones) : Except Errno (Fin NZONE × Nat) → Except Fault (Ret × Zones)
  | .error e => .ok (.err e, zones)
  | .ok (z, i) => incrementInZone zones z i

def decrement (zones : Zones) : Except Errno (Fin NZONE × Nat) → Except Fault (Ret × Zones)
  | .error e => .ok (.err e, zones)
  | .ok (z, i) => decrementInZone zones z i

def pageGet (zones : Zones) (page : PagePtr) : Except Fault (Ret × Zones) :=
  increment zones (locatePage zones page)

def pageGetAddr (zones : Zones) (paddr : BitVec 64) : Except Fault (Ret × Zones) :=
  increment zones (locateAddr zones paddr)

def pagePut (zones : Zones) (page : PagePtr) : Except Fault Zones := do
  let (err, zones) ← decrement zones (locatePage zones page)
  assert (err = .ok) "Failed to decrement page: %p, err: %d\n"
  return zones

def pagePutAddr (zones : Zones) (paddr : BitVec 64) : Except Fault (Ret × Zones) :=
  decrement zones (locateAddr zones paddr)

def mmFree (zones : Zones) (paddr : BitVec 64) : Except Fault Zones := do
  let (_, zones) ← pagePutAddr zones paddr
  return zones

def pageGetcountAddr (zones : Zones) (paddr : BitVec 64) : Except Fault (Ret × BitVec 64) :=
  match locateAddr zones paddr with
  | .error e => .ok (.err e, 0)
  | .ok (z, i) =>
    if i < (zones z).npages then .ok (.ok, ((zones z).pages i).refcnt)
    else .error .wildAccess

/-! ## Initialisation -/

/-- `boot_mmap_t`; `available` is `type == MULTIBOOT_MEMORY_AVAILABLE`. -/
structure BootMmap where
  addr : BitVec 64
  size : BitVec 64
  available : Bool

/-- The capacity of `bootinfo.mmap`: 64 entries and one for each of `NCPU` processors. -/
def NMMAP : Nat := 64 + 8

/-- The parts of `bootinfo` that `zones_init` reads.  `maps` are the entries of `bootinfo.mmap` at
the time they are processed, and `bootAlloc` tells whether `boot_alloc` serves a request. -/
structure BootInfo where
  total : BitVec 64
  memhi : BitVec 64
  holeSize : BitVec 64
  maps : List BootMmap
  bootAlloc : BitVec 64 → Bool
  fits : maps.length ≤ NMMAP

def zoneWatermark (z : Fin NZONE) : Watermark :=
  match z with
  | 0 => .dmaPool
  | 1 => .normPool
  | 2 => .holePool
  | 3 => .highPool

def Page.init (watermark : Watermark) : Page :=
  { flags := 0, refcnt := 0, mapcnt := 0, icache := none, watermark := watermark }

def Zone.zero : Zone :=
  { size := 0, start := 0, bitmap := { size := 0, bits := fun _ => false }
    pages := fun _ => Page.init .reserved, npages := 0, upages := 0, valid := false }

def zoneSetAddressRange (boot : BootInfo) (zones : Zones) (z : Fin NZONE) (addr size : BitVec 64) :
    Except Fault (Ret × Zones) :=
  if 0 < z.val ∧ !(zones (z - 1)).valid then
    .ok (.err .EINVAL, zones)
  else
    let npages := (NPAGE size).toNat
    if size = 0 then
      .ok (.ok, setZone zones z { zones z with start := addr, size := size, npages := npages })
    else if boot.bootAlloc size then
      .ok (.ok, setZone zones z
        { zones z with
          start := addr
          size := size
          npages := npages
          bitmap := Bitmap.bitmapInit npages
          pages := fun _ => Page.init (zoneWatermark z)
          valid := true })
    else
      .error (.assertion "boot_alloc: (%p) Exceeded usable memory limit: (%d).")

/-- The `switch` of `zone_enumerate`: start and size of a zone. -/
def zoneWindow (boot : BootInfo) (z : Fin NZONE) (memsz : BitVec 64) : BitVec 64 × BitVec 64 :=
  match z with
  | 0 => (0, if KiB 16 < memsz then MiB 16 else KiB memsz)
  | 1 => (MiB 16, if KiB 2032 < memsz then MiB 2032 else KiB memsz)
  | 2 => (GiB 2, KiB (boot.memhi + KiB 1) + boot.holeSize - GiB 2)
  | 3 => (GiB 4, KiB memsz)

/-- `initialize_memory_zone` with `zone_enumerate`; the last component is what is left of
`memsz`. -/
def initializeMemoryZone (boot : BootInfo) (zones : Zones) (z : Fin NZONE) (memsz : BitVec 64) :
    Except Fault (Ret × Zones × BitVec 64) := do
  let zones := setZone zones z Zone.zero
  if memsz = 0 then
    return (.ok, zones, memsz)
  let (addr, size) := zoneWindow boot z memsz
  match ← zoneSetAddressRange boot zones z addr size with
  | (.err e, zones) => return (.err e, zones, memsz)
  | (.ok, zones) => return (.ok, zones, memsz - (zones z).size / 1024)

/-- The handle of a page once `mark_reserved_pages` has marked it. -/
def Page.reserve (page : Page) : Page :=
  { page with
    refcnt := page.refcnt + 1
    mapcnt := page.mapcnt + 1
    watermark := .reserved
    flags := page.flags ||| (PG_R ||| PG_X) }

def markReservedPages : Nat → Nat → Zone → Except Fault Zone
  | 0, _, zone => .ok zone
  | n + 1, pos, zone => do
      inBounds pos zone.npages
      let bitmap := (zone.bitmap.bitmapSet pos 1).2
      let page := zone.pages pos
      let upages := if page.refcnt = 0 then zone.upages + 1 else zone.upages
      markReservedPages n (pos + 1)
        ({ zone with bitmap := bitmap, upages := upages }.setPage pos page.reserve)

def MEMMIO : BitVec 64 := 0xfe000000

def processMemoryMap (zones : Zones) (map : BootMmap) : Except Fault Zones :=
  if MEMMIO + VMA_BASE ≤ map.addr ∨ map.available then
    .ok zones
  else
    let addr := PGROUND (map.addr - VMA_BASE)
    match getzoneByaddr zones addr map.size with
    | none => .error (.assertion "PANIC: %s(): %s:%d: Couldn't get zone for mmap[%p: %d], err: %d
")
    | some z => do
        let pos := (NPAGE (addr - (zones z).start)).toNat
        let zone ← markReservedPages (NPAGE map.size).toNat pos (zones z)
        return setZone zones z zone

def initializeZones (boot : BootInfo) :
    List (Fin NZONE) → Zones → BitVec 64 → Except Fault (Ret × Zones)
  | [], zones, _ => .ok (.ok, zones)
  | z :: rest, zones, memsz => do
      match ← initializeMemoryZone boot zones z memsz with
      | (.err e, zones, _) => return (.err e, zones)
      | (.ok, zones, memsz) => initializeZones boot rest zones memsz

def processMemoryMaps : List BootMmap → Zones → Except Fault Zones
  | [], zones => .ok zones
  | map :: maps, zones => do
      let zones ← processMemoryMap zones map
      processMemoryMaps maps zones

def zonesInit (boot : BootInfo) : Except Fault (Ret × Zones) := do
  match ← initializeZones boot (List.finRange NZONE) (fun _ => Zone.zero) boot.total with
  | (.err e, zones) => return (.err e, zones)
  | (.ok, zones) =>
    let zones ← processMemoryMaps boot.maps zones
    return (.ok, zones)

inductive Call
  | pageAllocN (gfp : BitVec 32) (order : BitVec 64)
  | pageAllocNAddr (gfp : BitVec 32) (order : BitVec 64)
  | pageFreeN (page : PagePtr) (order : BitVec 64)
  | pageFreeNAddr (addr : BitVec 64) (order : BitVec 64)
  | pageGet (page : PagePtr)
  | pageGetAddr (paddr : BitVec 64)
  | pagePut (page : PagePtr)
  | pagePutAddr (paddr : BitVec 64)
  | mmFree (paddr : BitVec 64)
  deriving DecidableEq

def call (env : Env) (zones : Zones) : Call → Except Fault Zones
  | .pageAllocN gfp order => do
      let (_, _, zones) ← pageAllocN env zones gfp order
      return zones
  | .pageAllocNAddr gfp order => do
      let (_, _, zones) ← pageAllocNAddr env zones gfp order
      return zones
  | .pageFreeN page order => pageFreeN env zones page order
  | .pageFreeNAddr addr order => pageFreeNAddr env zones addr order
  | .pageGet page => do
      let (_, zones) ← pageGet zones page
      return zones
  | .pageGetAddr paddr => do
      let (_, zones) ← pageGetAddr zones paddr
      return zones
  | .pagePut page => pagePut zones page
  | .pagePutAddr paddr => do
      let (_, zones) ← pagePutAddr zones paddr
      return zones
  | .mmFree paddr => mmFree zones paddr

def run (env : Env) (zones : Zones) : List Call → Except Fault Zones
  | [] => .ok zones
  | c :: cs => do
      let zones ← call env zones c
      run env zones cs

def bootRun (env : Env) (boot : BootInfo) (cs : List Call) : Except Fault Zones := do
  let (_, zones) ← zonesInit boot
  run env zones cs

end Pmm
end Mm
end XytherOS
