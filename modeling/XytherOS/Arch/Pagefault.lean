import XytherOS.Arch.Paging

/-!
# Pagefault — demand paging and copy-on-write of `arch/pagefault.c`

A fault in a region brings in a page: a zeroed frame, a frame with the bytes of a file, or a frame of
the page cache of a shared file.  A write to a page that is mapped but not writable gets the page a
frame of its own, or the right to write when the frame has no other reference.  Of the file system
the model has what the handlers reach: the page caches `cache`, a partial map from the pages of an
inode to frames, and the locks that the faulting thread holds.  A region with a fault handler of its
own, which maps the memory of a device, is left out.
-/

namespace XytherOS
namespace Arch

open Mm.Mmap (Region has bitIf PTE_P PTE_W VM_READ VM_WRITE VM_EXEC VM_ZERO VM_SHARED)
open Mm.Pmm (NPAGE PGROUND PGSZ)

/-- What the handlers ask of the file system: the size of an inode, whether it has a page cache,
what the `n`-th read from the device returns, and the error of the `n`-th `btree_insert`. -/
structure FsEnv extends Env where
  igetsize : Nat → BitVec 64
  hasCache : Nat → Bool
  readData : Nat → Except Errno Nat
  insert : Nat → Option Errno

/-- The spinlocks of inodes and of page caches that a thread holds when it faults.  The cache of an
inode is locked in `iread` and `iwrite` only, which assert that the inode is locked. -/
structure Held where
  inode : Nat → Bool
  cache : Nat → Bool
  nested : ∀ ip, cache ip = true → inode ip = true

def Held.none : Held := ⟨fun _ => false, fun _ => false, fun _ h => absurd h (by simp)⟩

structure Kern extends Mem where
  cache : Nat → Nat → Option Nat

def Kern.withMem (k : Kern) (mem : Mem) : Kern := { k with toMem := mem }

/-- `pagefault_desc_t`; `cow` is the page whose entry it points to. -/
structure PagefaultDesc where
  addr : BitVec 64
  cow : Option Nat
  errCode : BitVec 64

def vmrRead (vmr : Region) : Bool := has vmr.flags VM_READ

def vmrWrite (vmr : Region) : Bool := has vmr.flags VM_WRITE

def vmrExec (vmr : Region) : Bool := has vmr.flags VM_EXEC

def vmrZero (vmr : Region) : Bool := has vmr.flags VM_ZERO

def vmrShared (vmr : Region) : Bool := has vmr.flags VM_SHARED

def onMem (k : Kern) (x : Except Fault (Ret × Mem)) : Except Fault (Ret × Kern) := do
  let (ret, mem) ← x
  return (ret, k.withMem mem)

/-! ## The page cache -/

/-- `arch_memcpyvp` and `arch_memcpypv` of `size` bytes of one frame. -/
def memcpyPage (env : Env) (size : Nat) (k : Kern) : Ret × Kern :=
  if size = 0 then (.ok, k) else ((mount env k.toMem).1, k.withMem (mount env k.toMem).2)

def icacheUpdate (env : FsEnv) (ip pgno f : Nat) (k : Kern) : Ret × Kern :=
  match env.readData k.ticks with
  | .error e => (.err e, k.withMem k.tick)
  | .ok size =>
    match memcpyPage env.toEnv size (k.withMem k.tick) with
    | (.err e, k) => (.err e, k)
    | (.ok, k) =>
      match env.insert k.ticks with
      | some e => (.err e, k.withMem k.tick)
      | none =>
        (.ok, { k.withMem k.tick with
          cache := Function.update k.cache ip (Function.update (k.cache ip) pgno (some f)) })

def pagePut (k : Kern) (f : Nat) : Except Fault Kern := do
  let (err, frames) ← k.frames.pagePut f
  assert (err = .ok) "Failed to decrement page: %p, err: %d\n"
  return k.withMem (k.withFrames frames)

def icacheGetpage (env : FsEnv) (locked : Bool) (ip pgno : Nat) (k : Kern) :
    Except Fault (Except Errno Nat × Kern) :=
  if env.hasCache ip then do
    assert (locked = true) "Spinlock must be held.\n"
    match k.cache ip pgno with
    | some f => return (.ok f, k)
    | none =>
      match k.frames.getPage with
      | .error e => return (.error e, k)
      | .ok (f, frames) =>
        match icacheUpdate env ip pgno f (k.withMem (k.withFrames frames)) with
        | (.ok, k) => return (.ok f, k)
        | (.err e, k) => do
            let k ← pagePut k f
            return (.error e, k)
  else
    return (.error .EINVAL, k)

/-- The loop of `icache_read`.  Every turn reads at least one byte, so that `sz` turns are
enough. -/
def icacheRead (env : FsEnv) (ip : Nat) : Nat → Nat → Nat → Kern → Except Fault (Ret × Kern)
  | 0, _, _, k => .ok (.ok, k)
  | n + 1, offset, sz, k =>
    if sz = 0 then .ok (.ok, k) else do
      match ← icacheGetpage env true ip (offset / 4096) k with
      | (.error e, k) => return (.err e, k)
      | (.ok _, k) =>
        let size := min (4096 - offset % 4096) sz
        match memcpyPage env.toEnv size k with
        | (.err e, k) => return (.err e, k)
        | (.ok, k) => icacheRead env ip n (offset + size) (sz - size) k

def iread (env : FsEnv) (held : Held) (ip : Nat) (offset sz : BitVec 64) (k : Kern) :
    Except Fault (Ret × Kern) :=
  if env.hasCache ip then do
    assert (held.cache ip = false) "Spinlock already held by [%p] @ [%s:%d].\n"
    icacheRead env ip sz.toNat offset.toNat sz.toNat k
  else
    match env.readData k.ticks with
    | .error e => return (.err e, k.withMem k.tick)
    | .ok _ => return (.ok, k.withMem k.tick)

def ilock (held : Held) (ip : Nat) : Except Fault Unit :=
  assert (held.inode ip = false) "Spinlock already held by [%p] @ [%s:%d].\n"

/-! ## Bringing pages in -/

def mapAnonymousPage (vmr : Region) (fault : PagefaultDesc) (k : Kern) :
    Except Fault (Ret × Kern) :=
  onMem k (mapN k.toMem fault.addr PGSZ (vmr.vflags ||| bitIf (vmrZero vmr) PTE_ZERO))

/-- The number of bytes that are read from the file, for a page at `size` from the start of the
region and at `offset` in the file. -/
def readSize (vmr : Region) (isize offset size : BitVec 64) : BitVec 64 :=
  if size < vmr.filesz then
    let rest := if vmr.filesz - size < isize - offset then vmr.filesz - size else isize - offset
    if PGSZ < rest then PGSZ else rest
  else 0

/-- The branch of a shared region of a file: the frame of the page cache is mapped. -/
def loadShared (env : FsEnv) (held : Held) (vmr : Region) (ip : Nat) (fault : PagefaultDesc)
    (offset : BitVec 64) (k : Kern) : Except Fault (Ret × Kern) := do
  match ← icacheGetpage env (held.cache ip) ip (offset.toNat / 4096) k with
  | (.error e, k) => return (.err e, k)
  | (.ok f, k) =>
    match ← k.frames.pageGet f with
    | (.err e, frames) => return (.err e, k.withMem (k.withFrames frames))
    | (.ok, frames) => onMem k (mapI (k.withFrames frames) fault.addr f PGSZ vmr.vflags)

def privateFlags (vmr : Region) : BitVec 64 :=
  vmr.vflags ||| bitIf (decide (vmr.filesz < vmr.size) || vmrZero vmr) PTE_ZERO

/-- The branch of a private region of a file: a new frame is mapped and filled. -/
def loadPrivate (env : FsEnv) (held : Held) (vmr : Region) (ip : Nat) (fault : PagefaultDesc)
    (offset size : BitVec 64) (k : Kern) : Except Fault (Ret × Kern) := do
  match ← onMem k (mapN k.toMem fault.addr PGSZ (privateFlags vmr)) with
  | (.err e, k) => return (.err e, k)
  | (.ok, k) =>
    match ← iread env held ip offset (readSize vmr (env.igetsize ip) offset size) k with
    | (.ok, k) => return (.ok, k)
    | (.err e, k) => do
        let mem ← unmapN k.toMem fault.addr PGSZ
        return (.err e, k.withMem mem)

def loadFile (env : FsEnv) (held : Held) (vmr : Region) (ip : Nat) (fault : PagefaultDesc)
    (offset size : BitVec 64) (k : Kern) : Except Fault (Ret × Kern) :=
  if vmrShared vmr then loadShared env held vmr ip fault offset k
  else loadPrivate env held vmr ip fault offset size k

def loadPageFromFile (env : FsEnv) (held : Held) (vmr : Region) (fault : PagefaultDesc)
    (offset size : BitVec 64) (k : Kern) : Except Fault (Ret × Kern) :=
  match vmr.file with
  | none => mapAnonymousPage vmr fault k
  | some ip => do
      ilock held ip
      if env.igetsize ip = 0 then return (.err .EFAULT, k)
      else loadFile env held vmr ip fault offset size k

/-! ## Copy-on-write -/

def undoCopy (fault : PagefaultDesc) (v : Nat) (srcpaddr : BitVec 64) (e : Errno) (k : Kern) :
    Except Fault (Ret × Kern) := do
  let mem ← unmapN k.toMem fault.addr PGSZ
  return (.err e, k.withMem (mem.setEntry .pt v srcpaddr))

/-- The end of `copy_page_on_write`: the bytes are copied and the old frame is let go. -/
def finishCopy (env : FsEnv) (fault : PagefaultDesc) (v : Nat) (srcpaddr : BitVec 64) (k : Kern) :
    Except Fault (Ret × Kern) :=
  match memcpyPage env.toEnv PGSZ.toNat k with
  | (.err e, k) => undoCopy fault v srcpaddr e k
  | (.ok, k) => do
      match ← k.frames.pagePut (frameOf srcpaddr) with
      | (.err e, frames) => undoCopy fault v srcpaddr e (k.withMem (k.withFrames frames))
      | (.ok, frames) => return (.ok, k.withMem (k.withFrames frames))

def copyPageOnWrite (env : FsEnv) (vmr : Region) (fault : PagefaultDesc) (v : Nat)
    (srcpaddr : BitVec 64) (k : Kern) : Except Fault (Ret × Kern) := do
  let vflags := vmr.vflags ||| (PGOFF (k.pte v) &&& ~~~PTE_ALLOC)
  match ← onMem k (mapN k.toMem fault.addr PGSZ (PTE_REMAP ||| vflags)) with
  | (.err e, k) => return (.err e, k)
  | (.ok, k) => finishCopy env fault v srcpaddr k

def enableWriteAccess (v : Nat) (k : Kern) : Ret × Kern :=
  (.ok, k.withMem (k.setEntry .pt v (k.pte v ||| PTE_W)))

def handleCowFault (env : FsEnv) (vmr : Region) (fault : PagefaultDesc) (v : Nat) (k : Kern) :
    Except Fault (Ret × Kern) :=
  match k.frames.pageGetcount (frameOf (k.pte v)) with
  | .error e => .ok (.err e, k)
  | .ok pgref =>
    if 1 < pgref then copyPageOnWrite env vmr fault v (k.pte v) k
    else if pgref = 1 then .ok (enableWriteAccess v k)
    else .ok (.err .EFAULT, k)

/-! ## The handlers -/

def handleWritablePageFault (env : FsEnv) (held : Held) (vmr : Region) (fault : PagefaultDesc)
    (offset size : BitVec 64) (k : Kern) : Except Fault (Ret × Kern) :=
  if has fault.errCode PTE_P then
    .ok (.err .EFAULT, k)
  else
    match vmr.file with
    | none => mapAnonymousPage vmr fault k
    | some ip => do
        ilock held ip
        loadFile env held vmr ip fault offset size k

def handleWriteFault (env : FsEnv) (held : Held) (vmr : Region) (fault : PagefaultDesc)
    (offset size : BitVec 64) (k : Kern) : Except Fault (Ret × Kern) :=
  if vmrWrite vmr then
    match fault.cow, vmrShared vmr with
    | some v, false => handleCowFault env vmr fault v k
    | _, _ => handleWritablePageFault env held vmr fault offset size k
  else
    .ok (.err .EACCES, k)

def handleReadExecFault (env : FsEnv) (held : Held) (vmr : Region) (fault : PagefaultDesc)
    (offset size : BitVec 64) (k : Kern) : Except Fault (Ret × Kern) :=
  if !vmrRead vmr && !vmrExec vmr then .ok (.err .EACCES, k)
  else if has fault.errCode PTE_P then .ok (.err .EFAULT, k)
  else loadPageFromFile env held vmr fault offset size k

def defaultPgfHandler (env : FsEnv) (held : Held) (vmr : Region) (fault : PagefaultDesc)
    (k : Kern) : Except Fault (Ret × Kern) :=
  let size := PGROUND fault.addr - vmr.start
  let offset := size + vmr.filePos
  if has fault.errCode PTE_W then handleWriteFault env held vmr fault offset size k
  else handleReadExecFault env held vmr fault offset size k

end Arch
end XytherOS
