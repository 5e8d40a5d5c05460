import XytherOS.Lib.Align
import XytherOS.Mm.Pmm

/-!
# Multiboot — the boot information of `boot/boot.c`

`multiboot_info_process` copies what the boot loader says about memory, modules and framebuffer
into `bootinfo`; `boot_alloc` hands out memory behind the kernel and the modules until the page
allocator takes over.

* The packed tables of the boot loader are lists of their entries.
* The flags that announce a table are an `Option` around it.
* Command lines and the format of the framebuffer are left out.
-/

namespace XytherOS
namespace Boot

open Mm.Pmm Align

/-! ## What the boot loader says -/

/-- `multiboot_memory_map_t`; `available` is `type == MULTIBOOT_MEMORY_AVAILABLE`. -/
structure MmapEntry where
  addr : BitVec 64
  len : BitVec 64
  available : Bool
  deriving DecidableEq

structure ModEntry where
  modStart : BitVec 32
  modEnd : BitVec 32
  deriving DecidableEq

structure Framebuffer where
  addr : BitVec 64
  height : BitVec 32
  pitch : BitVec 32
  deriving DecidableEq

structure MultibootInfo where
  memUpper : BitVec 32
  mmap : Option (List MmapEntry)
  mods : Option (List ModEntry)
  framebuffer : Option Framebuffer
  deriving DecidableEq

/-- Where the linker put the kernel: `__kernel_start` and `__kernel_end`. -/
structure Kernel where
  start : BitVec 64
  stop : BitVec 64
  deriving DecidableEq

/-! ## `bootinfo` -/

structure Mod where
  addr : BitVec 64
  size : BitVec 64
  deriving DecidableEq

/-- `bootinfo_t`; `watermark` tells whether the bump allocator is closed. -/
structure Bootinfo where
  watermark : Bool
  total : BitVec 64
  usable : BitVec 64
  memhi : BitVec 64
  holeSize : BitVec 64
  phyaddr : BitVec 64
  maps : List BootMmap
  mods : List Mod
  kernBase : BitVec 64
  kernSize : BitVec 64

def NMODS : Nat := 64

def B2KiB (x : BitVec 64) : BitVec 64 := x / KiB 1

def PGROUNDUP (p : BitVec 64) : BitVec 64 :=
  if p &&& (PGSZ - 1) = 0 then p else PGROUND (p + PGSZ)

def V2HI (p : BitVec 64) : BitVec 64 := p + VMA_BASE

def V2LO (p : BitVec 64) : BitVec 64 := p - VMA_BASE

def bootinfoAddMmap (b : Bootinfo) (map : BootMmap) : Except Fault Bootinfo := do
  assert (b.maps.length < NMMAP) "Too many mmap entries, no space to add new mmap\n"
  return { b with maps := b.maps ++ [map] }

def MmapEntry.kept (entry : MmapEntry) : Bool := entry.addr < GiB 4 || entry.available

/-- The accounts of `boot_process_mmaps` for one entry: the entry that starts where memory seems to
end is the first hole. -/
def addEntry (b : Bootinfo) (entry : MmapEntry) : Bootinfo :=
  let b :=
    if KiB b.total = entry.addr then
      { b with total := b.total + B2KiB entry.len, holeSize := entry.len }
    else if GiB 4 ≤ entry.addr ∧ entry.available then
      { b with total := b.total + B2KiB entry.len }
    else b
  { b with
    usable := if entry.available then b.usable + entry.len else b.usable
    maps := b.maps ++ [⟨V2HI entry.addr, entry.len, entry.available⟩] }

def addEntries (b : Bootinfo) : List MmapEntry → Bootinfo
  | [] => b
  | entry :: rest =>
    if b.maps.length < NMMAP then
      addEntries (if entry.kept then addEntry b entry else b) rest
    else b

def bootProcessMmaps (b : Bootinfo) (mbi : MultibootInfo) : Bootinfo :=
  let b :=
    match mbi.mmap with
    | none => b
    | some entries => addEntries { b with maps := [⟨b.kernBase, b.kernSize, false⟩] } entries
  { b with usable := b.usable - b.kernSize, phyaddr := V2LO b.kernBase + b.kernSize }

/-- `bootinfo.mods[i]` for an entry of the boot loader; the size is a difference of 32-bit words. -/
def ModEntry.toMod (entry : ModEntry) : Mod :=
  { addr := V2HI (entry.modStart.setWidth 64)
    size := PGROUNDUP ((entry.modEnd - entry.modStart).setWidth 64) }

def addModule (b : Bootinfo) (entry : ModEntry) : Except Fault Bootinfo := do
  let mod := entry.toMod
  assert (b.maps.length < NMMAP) "Too many mmap entries for modules"
  bootinfoAddMmap
    { b with
      mods := b.mods ++ [mod]
      usable := b.usable - mod.size
      phyaddr := V2LO mod.addr + mod.size }
    ⟨mod.addr, mod.size, false⟩

def addModules (b : Bootinfo) : List ModEntry → Except Fault Bootinfo
  | [] => .ok b
  | entry :: rest => do
      let b ← addModule b entry
      addModules b rest

def bootProcessModules (b : Bootinfo) (mbi : MultibootInfo) : Except Fault Bootinfo :=
  match mbi.mods with
  | none => .ok b
  | some entries => addModules b (entries.take NMODS)

def bootProcessFramebuffer (b : Bootinfo) (mbi : MultibootInfo) : Except Fault Bootinfo :=
  match mbi.framebuffer with
  | none => .ok b
  | some fb => bootinfoAddMmap b ⟨V2HI fb.addr, (fb.height * fb.pitch).setWidth 64, false⟩

def bubblePass : Nat → List BootMmap → List BootMmap
  | n + 1, a :: b :: l =>
    if b.addr < a.addr then b :: bubblePass n (a :: l) else a :: bubblePass n (b :: l)
  | _, l => l

/-- The outer loop of `bubble_sort_mmap`, with `n` comparisons in the first turn. -/
def bubbleTurns : Nat → List BootMmap → List BootMmap
  | 0, l => l
  | n + 1, l => bubbleTurns n (bubblePass (n + 1) l)

def bubbleSortMmap (l : List BootMmap) : Except Fault (List BootMmap) :=
  if l = [] then .error .wildAccess else .ok (bubbleTurns (l.length - 1) l)

def bootinfoInit (kernel : Kernel) (mbi : MultibootInfo) : Bootinfo :=
  { watermark := false
    total := KiB 1 + mbi.memUpper.setWidth 64
    usable := 0
    memhi := mbi.memUpper.setWidth 64
    holeSize := 0
    phyaddr := 0
    maps := []
    mods := []
    kernBase := PGROUND kernel.start
    kernSize := PGROUNDUP kernel.stop - PGROUND kernel.start }

def multibootInfoProcess (kernel : Kernel) (mbi : MultibootInfo) : Except Fault Bootinfo := do
  let b := bootProcessMmaps (bootinfoInit kernel mbi) mbi
  let b ← bootProcessModules b mbi
  let b := { b with usable := PGROUND b.usable / KiB 1 }
  let b ← bootProcessFramebuffer b mbi
  let maps ← bubbleSortMmap b.maps
  return { b with maps := maps }

/-! ## `boot_alloc` -/

/-- The address at which `boot_alloc` starts: `phyaddr`, rounded up unless it is aligned. -/
def alignedAddr (b : Bootinfo) (alignment : BitVec 64) : BitVec 64 :=
  if b.phyaddr % alignment ≠ 0 then roundUp b.phyaddr alignment else b.phyaddr

def bootAlloc (b : Bootinfo) (size alignment : BitVec 64) : Except Fault (BitVec 64 × Bootinfo) := do
  assert (b.watermark = false) "Watermark breach detected."
  assert (¬ (size = 0 ∨ alignment = 0 ∨ alignment &&& (alignment - 1) ≠ 0))
    "boot_alloc: Invalid size or alignment."
  let size := roundUp size alignment
  let addr := alignedAddr b alignment
  assert (¬ addr + size < addr) "boot_alloc: Overflow detected."
  assert (¬ KiB b.usable < addr + size) "boot_alloc: (%p) Exceeded usable memory limit: (%d)."
  assert (b.maps.length ≠ NMMAP) "OUT OF SPACE TO ADD ANOTHER MMAP\n"
  let b ← bootinfoAddMmap
    { b with phyaddr := addr + size, usable := b.usable - B2KiB size } ⟨V2HI addr, size, false⟩
  return (V2HI addr, b)

end Boot
end XytherOS
