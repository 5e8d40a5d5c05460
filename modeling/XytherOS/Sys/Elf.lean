import XytherOS.Arch.Pagefault
import XytherOS.Boot.Multiboot
import XytherOS.Fs.Tmpfs
import XytherOS.Mm.MmapFile

/-!
# Elf — the program loader of `sys/elf/elf.c`

`elf_loader` maps one region for every `PT_LOAD` header of a file and leaves the pages to the
page-fault handler, which reads them from the `file_pos` of the region.  A `PT_DYNAMIC` header makes
it apply relocations to the memory that it has just mapped.

* An executable is a regular file, with a page cache in front of it or without.
* `iread` and `elf_loader` return a count or a negated error number: `Except Errno Nat`.
* User memory is part of the page tables `π`, and every access to it is a field of `LoadEnv`.
-/

namespace XytherOS
namespace Sys

open Fs Mm.Mmap
open Boot (PGROUNDUP)
open Mm.Pmm (PGSZ PGROUND)

/-! ## Files -/

/-- An `inode_t` of a regular file; `cached` says whether it has a page cache. -/
structure Inode where
  ino : Nat
  file : File
  cached : Bool

/-- What the loader relies on: whether the `n`-th event finds memory, why a page of the cache cannot
be brought in at it, and the accesses to user memory.  No block of half the address space is ever
found. -/
structure LoadEnv (π : Type) extends Env π where
  kmalloc : Nat → BitVec 64 → Bool
  kmalloc_huge : ∀ n size, size.msb = true → kmalloc n size = false
  getpage : Nat → Nat → Option Errno
  fullvmUnmap : π → π
  load : π → BitVec 64 → Nat → Except Fault (BitVec 64 × π)
  loadStr : π → BitVec 64 → Except Fault (List Byte × π)
  store : π → BitVec 64 → BitVec 64 → Except Fault π
  symbTab : List (List Byte × BitVec 64)

variable {π : Type}

def icacheGetpage (env : LoadEnv π) (n : Nat) (f : File) (pgno : Nat) :
    Except Errno (Nat → Byte) :=
  match env.getpage n pgno with
  | some e => .error e
  | none =>
    match tmpfsIread f (BitVec.ofNat 64 (pgno * 4096)) PGSZ with
    | .error e => .error e
    | .ok bs => .ok fun j => bs.getD j 0

/-- The loop of `icache_read`.  Every turn reads at least one byte, so that `sz` turns are
enough. -/
def icacheRead (env : LoadEnv π) (n : Nat) (f : File) : Nat → Nat → Nat → Except Errno (List Byte)
  | 0, _, _ => .ok []
  | k + 1, offset, sz =>
    if sz = 0 then .ok []
    else
      match icacheGetpage env n f (offset / 4096) with
      | .error e => .error e
      | .ok page =>
        let size := min (4096 - offset % 4096) sz
        match icacheRead env n f k (offset + size) (sz - size) with
        | .error e => .error e
        | .ok bs => .ok ((List.range size).map (fun j => page (offset % 4096 + j)) ++ bs)

def iread (env : LoadEnv π) (n : Nat) (ip : Inode) (off sz : BitVec 64) :
    Except Errno (List Byte) :=
  if ip.cached then icacheRead env n ip.file sz.toNat off.toNat sz.toNat
  else tmpfsIread ip.file off sz

/-! ## File headers -/

/-- The number that `n` bytes are, the least significant one first. -/
def le (b : Nat → Byte) (off : Nat) : Nat → Nat
  | 0 => 0
  | n + 1 => (b off).toNat + 256 * le b (off + 1) n

structure Ehdr where
  eIdent : List Byte
  eEntry : BitVec 64
  ePhoff : BitVec 64
  ePhentsize : BitVec 16
  ePhnum : BitVec 16

def ehdrSize : Nat := 64

def Ehdr.decode (b : Nat → Byte) : Ehdr :=
  { eIdent := (List.range 16).map b
    eEntry := BitVec.ofNat 64 (le b 24 8)
    ePhoff := BitVec.ofNat 64 (le b 32 8)
    ePhentsize := BitVec.ofNat 16 (le b 54 2)
    ePhnum := BitVec.ofNat 16 (le b 56 2) }

/-- `elf.e_phentsize * elf.e_phnum`, an `int` that is converted to `size_t`. -/
def Ehdr.phSize (h : Ehdr) : BitVec 64 :=
  (h.ePhentsize.setWidth 32 * h.ePhnum.setWidth 32).signExtend 64

structure Phdr where
  pType : BitVec 32
  pFlags : BitVec 32
  pOffset : BitVec 64
  pVaddr : BitVec 64
  pFilesz : BitVec 64
  pMemsz : BitVec 64
  deriving DecidableEq

def phdrSize : Nat := 56

/-- The program header at the offset `off` of the bytes `b`. -/
def Phdr.decode (b : Nat → Byte) (off : Nat) : Phdr :=
  { pType := BitVec.ofNat 32 (le b off 4)
    pFlags := BitVec.ofNat 32 (le b (off + 4) 4)
    pOffset := BitVec.ofNat 64 (le b (off + 8) 8)
    pVaddr := BitVec.ofNat 64 (le b (off + 16) 8)
    pFilesz := BitVec.ofNat 64 (le b (off + 32) 8)
    pMemsz := BitVec.ofNat 64 (le b (off + 40) 8) }

def PT_LOAD : BitVec 32 := 1
def PT_DYNAMIC : BitVec 32 := 2

def PF_X : BitVec 32 := 1
def PF_W : BitVec 32 := 2
def PF_R : BitVec 32 := 4

def ELFCLASS64 : Byte := 2
def ELFDATA2LSB : Byte := 1
def EV_CURRENT : Byte := 1

def elfCheck (env : LoadEnv π) (n : Nat) (binary : Inode) : Ret :=
  match iread env n binary 0 (BitVec.ofNat 64 ehdrSize) with
  | .error _ => .err .EAGAIN
  | .ok bs =>
    let ident := (Ehdr.decode fun j => bs.getD j 0).eIdent
    if bs.length ≠ ehdrSize then .err .EAGAIN
    else if ident.take 4 ≠ [0x7F, 0x45, 0x4C, 0x46] then .err .EINVAL
    else if (ident.drop 4).take 3 ≠ [ELFCLASS64, ELFDATA2LSB, EV_CURRENT] then .err .EINVAL
    else .ok

/-! ## The state of the loader -/

/-- An `mmap_t` with its `entry`, and the number of events so far. -/
structure Image (π : Type) extends State π where
  entry : BitVec 64
  ticks : Nat

namespace Image

def withState (m : Image π) (s : State π) : Image π := { m with toState := s }

def tick (m : Image π) : Image π := { m with ticks := m.ticks + 1 }

def withPt (m : Image π) (pt : π) : Image π :=
  m.withState (m.withAccount (m.toAccount.withPt pt))

end Image

def clean (env : LoadEnv π) (m : Image π) : Except Fault (Image π) := do
  match ← mmapUnmap env.toEnv m.toState 0 (mmapLimit + 1) with
  | (.err _, s) => return m.withState s
  | (.ok, s) =>
    return m.withState { s with
      refs := 0
      usedSpace := 0
      brk := 0
      heap := none
      arg := none
      env := none
      pt := env.fullvmUnmap s.pt
      head := none
      tail := none }

/-! ## Segments -/

namespace Phdr

def pageStart (h : Phdr) : BitVec 64 := PGROUND h.pVaddr

def pageLen (h : Phdr) : BitVec 64 := PGROUNDUP h.pMemsz

def prot (h : Phdr) : BitVec 32 :=
  bitIf (has h.pFlags PF_X) PROT_EXEC ||| bitIf (has h.pFlags PF_W) PROT_WRITE |||
    bitIf (has h.pFlags PF_R) PROT_READ

end Phdr

def segmentFlags : BitVec 32 := MAP_PRIVATE ||| MAP_DONTEXPAND ||| MAP_FIXED

def fileBacked (r : Region) (ip : Inode) (hdr : Phdr) : Region :=
  { r with
    file := some ip.ino
    memsz := hdr.pMemsz
    filesz := hdr.pFilesz
    filePos := hdr.pOffset }

def loadSegment (env : LoadEnv π) (binary : Inode) (hdr : Phdr) (m : Image π) :
    Except Fault (Ret × Image π) := do
  match ← mmapMapRegion env.toEnv m.toState hdr.pageStart hdr.pageLen hdr.prot segmentFlags true with
  | (.err e, _, s) => return (.err e, m.withState s)
  | (.ok, none, _) => throw .nullDeref
  | (.ok, some vmr, s) =>
    return (.ok, m.withState (s.setRegion vmr (fileBacked (s.region vmr) binary hdr)))

/-- The loop body for a `PT_DYNAMIC` header: the dynamic section. -/
def loadDynamic (env : LoadEnv π) (binary : Inode) (hdr : Phdr) (m : Image π) :
    Except Errno (List Byte) × Image π :=
  if env.kmalloc m.ticks hdr.pFilesz then
    match iread env (m.ticks + 1) binary hdr.pOffset hdr.pFilesz with
    | .error _ => (.error Errno.EIO, m.tick.tick)
    | .ok bs => (if bs.length = hdr.pFilesz.toNat then .ok bs else .error Errno.EIO, m.tick.tick)
  else (.error .ENOMEM, m.tick)

/-- The `i`-th program header in the buffer `phdr`: what is read of it depends on its type. -/
def fetchHeader (phdr : List Byte) (i : Nat) : Except Fault Phdr := do
  inBounds (phdrSize * i + 3) phdr.length
  let hdr := Phdr.decode (fun j => phdr.getD j 0) (phdrSize * i)
  if hdr.pType = PT_LOAD then inBounds (phdrSize * i + 47) phdr.length
  else if hdr.pType = PT_DYNAMIC then inBounds (phdrSize * i + 39) phdr.length
  return hdr

/-- The loop over `n` program headers from the `i`-th one on, in the buffer `phdr`. -/
def loadHeaders (env : LoadEnv π) (binary : Inode) (phdr : List Byte) :
    Nat → Nat → Option (List Byte) → Image π →
      Except Fault (Except Errno (Option (List Byte)) × Image π)
  | 0, _, dyn, m => .ok (.ok dyn, m)
  | n + 1, i, dyn, m => do
      let hdr ← fetchHeader phdr i
      if hdr.pType = PT_LOAD then
        match ← loadSegment env binary hdr m with
        | (.err e, m) => return (.error e, m)
        | (.ok, m) => loadHeaders env binary phdr n (i + 1) dyn m
      else if hdr.pType = PT_DYNAMIC then
        match loadDynamic env binary hdr m with
        | (.error e, m) => return (.error e, m)
        | (.ok dyn, m) => loadHeaders env binary phdr n (i + 1) (some dyn) m
      else loadHeaders env binary phdr n (i + 1) dyn m

/-! ## Relocations -/

structure DynInfo where
  symtab : BitVec 64
  strtab : BitVec 64
  rela : BitVec 64
  relaCount : BitVec 64

def DT_STRTAB : BitVec 64 := 5
def DT_SYMTAB : BitVec 64 := 6
def DT_RELA : BitVec 64 := 7
def DT_RELASZ : BitVec 64 := 8

def DynInfo.enter (d : DynInfo) (entry tag val : BitVec 64) : DynInfo :=
  if tag = DT_SYMTAB then { d with symtab := entry + val }
  else if tag = DT_STRTAB then { d with strtab := entry + val }
  else if tag = DT_RELA then { d with rela := entry + val }
  else if tag = DT_RELASZ then { d with relaCount := val / 24 }
  else d

/-- The loop over the dynamic section, up to `DT_NULL`.  Every turn stays inside the section or
faults, so that as many turns as it has bytes and one more are enough. -/
def readDynamic (entry : BitVec 64) (dyn : List Byte) :
    Nat → Nat → DynInfo → Except Fault DynInfo
  | 0, _, _ => .error .wildAccess
  | n + 1, i, d => do
      inBounds (16 * i + 7) dyn.length
      let tag := BitVec.ofNat 64 (le (fun j => dyn.getD j 0) (16 * i) 8)
      if tag = 0 then return d
      else do
        inBounds (16 * i + 15) dyn.length
        let val := BitVec.ofNat 64 (le (fun j => dyn.getD j 0) (16 * i + 8) 8)
        readDynamic entry dyn n (i + 1) (d.enter entry tag val)

def resolveSymbol (env : LoadEnv π) (name : List Byte) : BitVec 64 :=
  match env.symbTab.find? fun s => s.1 = name with
  | some s => s.2
  | none => 0

def R_X86_64_GLOB_DAT : BitVec 64 := 6
def R_X86_64_JUMP_SLOT : BitVec 64 := 7
def R_X86_64_RELATIVE : BitVec 64 := 8

def relocateOne (env : LoadEnv π) (entry : BitVec 64) (d : DynInfo) (rel : BitVec 64) (pt : π) :
    Except Fault (Ret × π) := do
  let (info, pt) ← env.load pt (rel + 8) 8
  let (offset, pt) ← env.load pt rel 8
  let (name, pt) ← env.load pt (d.symtab + info / 2 ^ 32 * 24) 4
  let (symName, pt) ← env.loadStr pt (d.strtab + name)
  let symAddr := resolveSymbol env symName
  if symAddr = 0 then return (.err .EINVAL, pt)
  else if info % 2 ^ 32 = R_X86_64_RELATIVE then do
    let (addend, pt) ← env.load pt (rel + 16) 8
    let pt ← env.store pt (entry + offset) (entry + addend)
    return (.ok, pt)
  else if info % 2 ^ 32 = R_X86_64_GLOB_DAT ∨ info % 2 ^ 32 = R_X86_64_JUMP_SLOT then do
    let pt ← env.store pt (entry + offset) symAddr
    return (.ok, pt)
  else return (.err .EINVAL, pt)

/-- The loop over `n` relocations from the one at `rel` on. -/
def relocateLoop (env : LoadEnv π) (entry : BitVec 64) (d : DynInfo) :
    Nat → BitVec 64 → π → Except Fault (Ret × π)
  | 0, _, pt => .ok (.ok, pt)
  | n + 1, rel, pt => do
      match ← relocateOne env entry d rel pt with
      | (.err e, pt) => return (.err e, pt)
      | (.ok, pt) => relocateLoop env entry d n (rel + 24) pt

def relocate (env : LoadEnv π) (entry : BitVec 64) (dyn : Option (List Byte)) (m : Image π) :
    Except Fault (Ret × Image π) :=
  match dyn with
  | none => .ok (.ok, m)
  | some dyn => do
      let d ← readDynamic entry dyn (dyn.length + 1) 0 ⟨0, 0, 0, 0⟩
      if d.rela ≠ 0 ∧ d.symtab ≠ 0 ∧ d.strtab ≠ 0 then do
        let (ret, pt) ← relocateLoop env entry d d.relaCount.toNat d.rela m.pt
        return (ret, m.withPt pt)
      else return (.ok, m)

def loadError (env : LoadEnv π) (err : Except Errno Nat) (m : Image π) :
    Except Fault (Except Errno Nat × Image π) := do
  let m ← clean env m
  return (err, m)

def loadImage (env : LoadEnv π) (binary : Inode) (elf : Ehdr) (phdr : List Byte) (m : Image π) :
    Except Fault (Except Errno Nat × Image π) := do
  match ← loadHeaders env binary phdr elf.ePhnum.toNat 0 none m with
  | (.error e, m) => loadError env (.error e) m
  | (.ok dyn, m) =>
    match ← relocate env elf.eEntry dyn m with
    | (.err e, m) => loadError env (.error e) m
    | (.ok, m) => return (.ok 0, { m with entry := elf.eEntry })

def elfLoader (env : LoadEnv π) (binary : Inode) (m : Image π) :
    Except Fault (Except Errno Nat × Image π) :=
  match iread env m.ticks binary 0 (BitVec.ofNat 64 ehdrSize) with
  | .error e => .ok (.error e, m.tick)
  | .ok bs =>
    if bs.length ≠ ehdrSize then .ok (.ok bs.length, m.tick)
    else
      let elf := Ehdr.decode fun j => bs.getD j 0
      if env.kmalloc (m.ticks + 1) elf.phSize then
        match iread env (m.ticks + 2) binary elf.ePhoff elf.phSize with
        | .error e => loadError env (.error e) m.tick.tick.tick
        | .ok phdr =>
          if phdr.length ≠ elf.phSize.toNat then
            loadError env (.ok phdr.length) m.tick.tick.tick
          else loadImage env binary elf phdr m.tick.tick.tick
      else .ok (.error .ENOMEM, m.tick.tick)

/-! ## What the page-fault handler reads -/

/-- The byte at the address `a` of a private page of the file, as `load_page_from_file` brings it
in. -/
def loadedByte (env : LoadEnv π) (n : Nat) (ip : Inode) (r : Region) (a : BitVec 64) :
    Except Errno Byte :=
  if ip.file.size = 0 then .error .EFAULT
  else
    let size := PGROUND a - r.start
    let offset := size + r.filePos
    match iread env n ip offset (Arch.readSize r ip.file.size offset size) with
    | .error e => .error e
    | .ok bs => .ok (bs.getD (a - PGROUND a).toNat 0)

end Sys
end XytherOS
