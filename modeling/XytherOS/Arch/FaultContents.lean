import XytherOS.Arch.MapAtomic
import XytherOS.Arch.MountView
import XytherOS.Arch.Pagefault
import XytherOS.Fs.Icache

/-!
# FaultContents — what the first access to a private page of a file finds

A read and a write of a page that is not present are served by `load_page_from_file` and by
`handle_writable_page_fault`.  For a private region of a file both map a new frame, read from the
file into a zeroed buffer and copy the buffer to the page; the number of bytes is the smallest of
`PGSZ`, `filesz - size` and `igetsize - offset`, with unsigned differences.

Only `load_page_from_file` refuses an empty file.  And a difference that wraps lets bytes through
that are not of the region, or not of the file.
-/

namespace XytherOS
namespace Arch
namespace FaultContents

open Fs (Byte FileInode CacheEnv)
open Mm.Mmap (Region has bitIf PTE_P)
open Mm.Pmm (NPAGE PGROUND PGSZ)

structure PrivateRegion extends Region where
  backed : file.isSome = true
  notShared : vmrShared toRegion = false

structure Filled extends Mem where
  bytes : Nat → Nat → Byte
  inode : FileInode

def Filled.withMem (k : Filled) (mem : Mem) : Filled := { k with toMem := mem }

def Filled.withInode (k : Filled) (inode : FileInode) : Filled := { k with inode := inode }

def Filled.pageByte (k : Filled) (addr : BitVec 64) (j : Nat) : Byte :=
  k.bytes (frameOf (k.pte (vpn addr))) j

def faultSize (vmr : Region) (addr : BitVec 64) : BitVec 64 := PGROUND addr - vmr.start

def faultOffset (vmr : Region) (addr : BitVec 64) : BitVec 64 := faultSize vmr addr + vmr.filePos

/-! ## The handlers -/

/-- `memcpy((void *)PGROUND(addr), buf, PGSZ)`.  The kernel does not come back from a page that is
not present. -/
def copyToPage (k : Filled) (addr : BitVec 64) (buf : Nat → Byte) : Except Fault Filled :=
  if k.tables.reached .pt (vpn addr) then
    .ok { k with bytes := Function.update k.bytes (frameOf (k.pte (vpn addr))) buf }
  else throw .wildAccess

def loadPrivate (env : CacheEnv) (vmr : PrivateRegion) (fault : PagefaultDesc)
    (offset size : BitVec 64) (k : Filled) : Except Fault (Ret × Filled) := do
  match ← mapN k.toMem fault.addr PGSZ (privateFlags vmr.toRegion) with
  | (.err e, mem) => return (.err e, k.withMem mem)
  | (.ok, mem) =>
    let count := readSize vmr.toRegion k.inode.size offset size
    match Fs.iread env k.inode offset count with
    | (.error e, inode) => do
        let mem ← unmapN mem fault.addr PGSZ
        return (.err e, (k.withMem mem).withInode inode)
    | (.ok bs, inode) => do
        let k ← copyToPage ((k.withMem mem).withInode inode) fault.addr fun j => bs.getD j 0
        return (.ok, k)

def ilock (locked : Bool) : Except Fault Unit :=
  assert (locked = false) "Spinlock already held by [%p] @ [%s:%d].\n"

def loadPageFromFile (env : CacheEnv) (locked : Bool) (vmr : PrivateRegion) (fault : PagefaultDesc)
    (offset size : BitVec 64) (k : Filled) : Except Fault (Ret × Filled) := do
  ilock locked
  if k.inode.size = 0 then return (.err .EFAULT, k)
  else loadPrivate env vmr fault offset size k

def handleWritablePageFault (env : CacheEnv) (locked : Bool) (vmr : PrivateRegion)
    (fault : PagefaultDesc) (offset size : BitVec 64) (k : Filled) : Except Fault (Ret × Filled) :=
  if has fault.errCode PTE_P then .ok (.err .EFAULT, k)
  else do
    ilock locked
    loadPrivate env vmr fault offset size k

/-- The offset `j` of the page of `addr` lies in the part of the region that is backed by the
file. -/
def meant (vmr : Region) (isize addr : BitVec 64) (j : Nat) : Bool :=
  let x := (PGROUND addr).toNat + j - vmr.start.toNat
  vmr.start.toNat ≤ (PGROUND addr).toNat + j && x < vmr.filesz.toNat &&
    vmr.filePos.toNat + x < isize.toNat

def backing (vmr : Region) (ip : FileInode) (addr : BitVec 64) (j : Nat) : Byte :=
  ip.byte (vmr.filePos.toNat + ((PGROUND addr).toNat + j - vmr.start.toNat))

/-- What a page should contain: the bytes of the file, and zeros elsewhere. -/
def wanted (vmr : Region) (ip : FileInode) (addr : BitVec 64) (j : Nat) : Byte :=
  if meant vmr ip.size addr j then backing vmr ip addr j else 0

def Fails (res : Except Fault (Ret × Filled)) : Prop := ∀ k', res ≠ .ok (.ok, k')

def Maps (content : Nat → Byte) (addr : BitVec 64) (res : Except Fault (Ret × Filled)) : Prop :=
  ∃ k', res = .ok (.ok, k') ∧ k'.tables.reached .pt (vpn addr) = true ∧
    ∀ j < 4096, k'.pageByte addr j = content j

structure FirstAccess (vmr : PrivateRegion) (addr : BitVec 64) (read write : PagefaultDesc)
    (k : Filled) : Prop where
  inside : vmr.contains addr = true
  readAddr : read.addr = addr
  writeAddr : write.addr = addr
  notPresent : has write.errCode PTE_P = false
  absent : k.tables.reached .pt (vpn addr) = false

def Agree (env : CacheEnv) (locked : Bool) (vmr : PrivateRegion) (addr : BitVec 64)
    (read write : PagefaultDesc) (k : Filled) : Prop :=
  let byRead := loadPageFromFile env locked vmr read (faultOffset vmr.toRegion addr)
    (faultSize vmr.toRegion addr) k
  let byWrite := handleWritablePageFault env locked vmr write (faultOffset vmr.toRegion addr)
    (faultSize vmr.toRegion addr) k
  (Fails byRead ∧ Fails byWrite) ∨
    (Maps (wanted vmr.toRegion k.inode addr) addr byRead ∧
      Maps (wanted vmr.toRegion k.inode addr) addr byWrite)

/-! ## When they agree -/

/-- There are frames for the page and for its tables, and its flags make it present. -/
def mappable (vmr : Region) (addr : BitVec 64) (mem : Mem) : Prop :=
  has (privateFlags vmr ||| PTE_ALLOC) PTE_PS = false ∧
    has (privateFlags vmr ||| PTE_ALLOC) PTE_P = true ∧
    1 + tablesFor mem addr 1 ≤ framesLeft mem

def taken (vmr : Region) (isize addr : BitVec 64) (j : Nat) : Bool :=
  faultSize vmr addr < vmr.filesz && j < (vmr.filesz - faultSize vmr addr).toNat &&
    j < (isize - faultOffset vmr addr).toNat

def buffer (vmr : Region) (ip : FileInode) (addr : BitVec 64) (j : Nat) : Byte :=
  if taken vmr ip.size addr j then ip.byteFrom (faultOffset vmr addr) j else 0

def Brought (env : CacheEnv) (vmr : Region) (addr : BitVec 64) (k : Filled) : Prop :=
  mappable vmr addr k.toMem ∧
    k.inode.readable env (faultOffset vmr addr)
      (readSize vmr k.inode.size (faultOffset vmr addr) (faultSize vmr addr)) = true

/-- The page begins in the region, and not behind the end of the file unless behind the bytes that
the region has in it. -/
def Inside (vmr : Region) (isize addr : BitVec 64) : Prop :=
  vmr.start ≤ PGROUND addr ∧
    (vmr.filesz ≤ faultSize vmr addr ∨
      vmr.filePos.toNat + (faultSize vmr addr).toNat ≤ isize.toNat)

/-- The bytes that are let through and should not be, and those that should be and are not, are
zero. -/
def Harmless (vmr : Region) (ip : FileInode) (addr : BitVec 64) : Prop :=
  ∀ j < 4096,
    (taken vmr ip.size addr j = true → meant vmr ip.size addr j = false →
      ip.byteFrom (faultOffset vmr addr) j = 0) ∧
    (taken vmr ip.size addr j = false → meant vmr ip.size addr j = true → backing vmr ip addr j = 0)

section Read

variable {vmr : Region} {isize addr : BitVec 64} {j : Nat}

theorem lt_readSize_iff (hj : j < 4096) :
    j < (readSize vmr isize (faultOffset vmr addr) (faultSize vmr addr)).toNat ↔
      taken vmr isize addr j = true := by
  simp only [readSize, taken, Bool.and_eq_true, decide_eq_true_eq]
  by_cases hsize : faultSize vmr addr < vmr.filesz
  · rw [if_pos hsize]
    generalize vmr.filesz - faultSize vmr addr = a
    generalize isize - faultOffset vmr addr = b
    simp only [hsize, true_and]
    have hpage : PGSZ.toNat = 4096 := rfl
    simp only [BitVec.lt_def, hpage]
    split_ifs <;> omega
  · rw [if_neg hsize]
    simp [hsize]

theorem taken_eq_meant (h : Inside vmr isize addr) (hj : j < 4096) :
    taken vmr isize addr j = meant vmr isize addr j := by
  rcases h with ⟨hstart, hend⟩
  have hsize : (faultSize vmr addr).toNat = (PGROUND addr).toNat - vmr.start.toNat :=
    BitVec.toNat_sub_of_le hstart
  rw [BitVec.le_def] at hstart
  apply Bool.eq_iff_iff.2
  simp only [taken, meant, Bool.and_eq_true, decide_eq_true_eq]
  rcases hend with hbehind | hend
  · -- the region has no bytes there
    rw [BitVec.le_def] at hbehind
    refine iff_of_false ?_ ?_
    · rintro ⟨⟨hlt, -⟩, -⟩
      rw [BitVec.lt_def] at hlt
      omega
    · rintro ⟨⟨-, hlt⟩, -⟩
      omega
  · have hoffset : (faultOffset vmr addr).toNat =
        vmr.filePos.toNat + (faultSize vmr addr).toNat := by
      have hlt := isize.isLt
      rw [faultOffset, BitVec.toNat_add]
      omega
    have hleft : (isize - faultOffset vmr addr).toNat =
        isize.toNat - (faultOffset vmr addr).toNat := by
      refine BitVec.toNat_sub_of_le ?_
      rw [BitVec.le_def]
      omega
    by_cases hlt : faultSize vmr addr < vmr.filesz
    · rw [BitVec.toNat_sub_of_le (BitVec.le_of_lt hlt), hleft]
      rw [BitVec.lt_def] at hlt
      simp only [BitVec.lt_def]
      omega
    · rw [BitVec.lt_def] at hlt
      simp only [BitVec.lt_def]
      omega

theorem byteFrom_taken {env : CacheEnv} {ip : FileInode} {sz : BitVec 64}
    (hread : ip.readable env (faultOffset vmr addr) sz = true) (hj : j < 4096)
    (hmeant : meant vmr ip.size addr j = true) :
    ip.byteFrom (faultOffset vmr addr) j = backing vmr ip addr j := by
  simp only [meant, Bool.and_eq_true, decide_eq_true_eq] at hmeant
  have hlt := ip.size.isLt
  have hpos : (faultOffset vmr addr + BitVec.ofNat 64 j).toNat =
      vmr.filePos.toNat + ((PGROUND addr).toNat + j - vmr.start.toNat) := by
    rw [faultOffset, faultSize]
    simp only [BitVec.toNat_add, BitVec.toNat_sub, BitVec.toNat_ofNat]
    omega
  rcases ip with ⟨isize, data, hsmall, _ | pages⟩
  · -- a file without a cache is read up to its end, where nothing wraps
    have hin : (faultOffset vmr addr).toNat < data.size := of_decide_eq_true hread
    have hnowrap : (faultOffset vmr addr).toNat + j < 2 ^ 64 := by omega
    rw [FileInode.byteFrom_eq _ hnowrap, backing, ← hpos]
    congr 1
    rw [BitVec.toNat_add, BitVec.toNat_ofNat]
    omega
  · rw [backing, ← hpos]
    rfl

end Read

section Maps

variable {env : CacheEnv} {locked : Bool} {vmr : PrivateRegion} {fault : PagefaultDesc}
  {addr : BitVec 64} {k : Filled}

theorem mapN_page {mem : Mem} (vmr : Region) (habsent : mem.tables.reached .pt (vpn addr) = false) :
    (mappable vmr addr mem ∧ ∃ mem', mapN mem addr PGSZ (privateFlags vmr) = .ok (.ok, mem') ∧
      mem'.tables.reached .pt (vpn addr) = true) ∨
    (¬ mappable vmr addr mem ∧
      ((∃ e mem', mapN mem addr PGSZ (privateFlags vmr) = .ok (.err e, mem')) ∨
        ∃ mem', mapN mem addr PGSZ (privateFlags vmr) = .ok (.ok, mem') ∧
          mem'.tables.reached .pt (vpn addr) = false)) := by
  rw [mapN_one]
  by_cases hleft : 0 < mem.frames.unused.length
  swap
  · -- there is no frame for the page
    have hzero : framesLeft mem = 0 := by
      rw [framesLeft]
      omega
    rw [Frames.getPage_none hzero]
    exact .inr ⟨fun h => absurd h.2.2 (by omega), .inl ⟨_, _, rfl⟩⟩
  rcases Frames.getPage_some hleft with ⟨f, rest, -, hget⟩
  have hrest := framesLeft_withFrames mem
  rw [hget]
  simp only
  generalize hflags : privateFlags vmr ||| PTE_ALLOC = flags
  by_cases hps : has flags PTE_PS = true
  · rw [map_refused hps]
    refine .inr ⟨fun h => ?_, .inl ⟨_, _, rfl⟩⟩
    rw [mappable, hflags, hps] at h
    exact absurd h.1 (by simp)
  rw [Bool.not_eq_true] at hps
  by_cases henough : 1 + tablesFor mem addr 1 ≤ framesLeft mem
  · have htables : ((mem.withFrames (mem.frames.take 1)).tables.missing [vpn addr]).card ≤
        (mem.withFrames (mem.frames.take 1)).frames.unused.length := by
      change tablesFor mem addr 1 ≤ framesLeft (mem.withFrames (mem.frames.take 1))
      omega
    rcases map_mapped hps htables f with ⟨mem', hone, hmapped⟩
    have hnot : has (mem.tables.pteAt (vpn addr)) PTE_P = false := by
      rw [← PageTables.reached_pt]
      exact habsent
    have hreached : mem'.tables.reached .pt (vpn addr) = has flags PTE_P := by
      rw [PageTables.reached_pt, hmapped.pteAt, installed]
      change has (if !has (mem.tables.pteAt (vpn addr)) PTE_P || _ then _ else _) PTE_P = _
      rw [hnot, if_pos (by simp), has_mkPte_P]
    by_cases hp : has flags PTE_P = true
    · exact .inl ⟨⟨hflags ▸ hps, hflags ▸ hp, henough⟩, mem', hone, hreached.trans hp⟩
    · refine .inr ⟨fun h => hp (hflags ▸ h.2.1), .inr ⟨mem', hone, ?_⟩⟩
      rw [hreached]
      exact Bool.not_eq_true _ ▸ hp
  · -- there are not frames enough for the tables
    have hshort : (mem.withFrames (mem.frames.take 1)).frames.unused.length <
        ((mem.withFrames (mem.frames.take 1)).tables.missing [vpn addr]).card := by
      change framesLeft (mem.withFrames (mem.frames.take 1)) < tablesFor mem addr 1
      have hpos : 0 < framesLeft mem := hleft
      omega
    rcases map_exhausted hps hshort f with ⟨t, hone, -⟩
    exact .inr ⟨fun h => henough h.2.2, .inl ⟨_, _, hone⟩⟩

theorem copyToPage_spec (buf : Nat → Byte) (h : k.tables.reached .pt (vpn addr) = true) :
    ∃ k', copyToPage k addr buf = .ok k' ∧ k'.toMem = k.toMem ∧
      ∀ j, k'.pageByte addr j = buf j := by
  refine ⟨_, if_pos h, rfl, fun j => ?_⟩
  exact congrFun (Function.update_self (frameOf (k.pte (vpn addr))) buf k.bytes) j

theorem loadPrivate_spec (env : CacheEnv) (vmr : PrivateRegion) {fault : PagefaultDesc}
    {addr : BitVec 64} (haddr : fault.addr = addr) (k : Filled)
    (habsent : k.tables.reached .pt (vpn addr) = false) :
    (Brought env vmr.toRegion addr k →
      Maps (buffer vmr.toRegion k.inode addr) addr (loadPrivate env vmr fault
        (faultOffset vmr.toRegion addr) (faultSize vmr.toRegion addr) k)) ∧
    (¬ Brought env vmr.toRegion addr k →
      Fails (loadPrivate env vmr fault
        (faultOffset vmr.toRegion addr) (faultSize vmr.toRegion addr) k)) := by
  subst haddr
  rcases mapN_page vmr.toRegion habsent with ⟨hmap, mem, hmem, hreached⟩ | ⟨hmap, hmem⟩
  swap
  · -- the page is not mapped, or not made present
    refine ⟨fun h => absurd h.1 hmap, fun _ k' => ?_⟩
    rcases hmem with ⟨e, mem, hmem⟩ | ⟨mem, hmem, hreached⟩
    · rw [loadPrivate, hmem]
      simp
    · rw [loadPrivate, hmem]
      simp only [ok_bind]
      rcases Fs.iread env k.inode (faultOffset vmr.toRegion fault.addr)
        (readSize vmr.toRegion k.inode.size (faultOffset vmr.toRegion fault.addr)
          (faultSize vmr.toRegion fault.addr)) with ⟨e | bs, inode⟩
      · cases unmapN mem fault.addr PGSZ with
        | error e' => simp
        | ok mem' => simp
      · have hno : ((k.withMem mem).withInode inode).tables.reached .pt (vpn fault.addr) = false :=
          hreached
        simp [copyToPage, hno]
  have hspec := Fs.iread_spec env k.inode (faultOffset vmr.toRegion fault.addr)
    (readSize vmr.toRegion k.inode.size (faultOffset vmr.toRegion fault.addr)
      (faultSize vmr.toRegion fault.addr))
  by_cases hbrought : Brought env vmr.toRegion fault.addr k
  · rw [if_pos hbrought.2] at hspec
    rcases hspec with ⟨bs, inode, heq, hlen, hbytes⟩
    refine ⟨fun _ => ?_, fun h => absurd hbrought h⟩
    rw [loadPrivate, hmem]
    simp only [ok_bind, heq]
    have hthere : ((k.withMem mem).withInode inode).tables.reached .pt (vpn fault.addr) = true :=
      hreached
    rcases copyToPage_spec (fun j => bs.getD j 0) hthere with ⟨k', hcopy, hmem', hpage⟩
    rw [hcopy]
    refine ⟨k', rfl, (congrArg Mem.tables hmem') ▸ hreached, fun j hj => ?_⟩
    rw [hpage, buffer]
    by_cases htaken : taken vmr.toRegion k.inode.size fault.addr j = true
    · rw [if_pos htaken]
      exact hbytes j ((lt_readSize_iff hj).2 htaken)
    · -- the rest of the buffer is zero
      have hnot := mt (lt_readSize_iff hj).1 htaken
      have hbehind : bs.length ≤ j := hlen.trans (Nat.not_lt.1 hnot)
      rw [if_neg htaken, List.getD_eq_getElem?_getD, List.getElem?_eq_none hbehind]
      rfl
  · rw [if_neg fun hread => hbrought ⟨hmap, hread⟩] at hspec
    rcases hspec with ⟨e, inode, heq⟩
    refine ⟨fun h => absurd h hbrought, fun _ k' => ?_⟩
    rw [loadPrivate, hmem]
    simp only [ok_bind, heq]
    cases unmapN mem fault.addr PGSZ with
    | error e' => simp
    | ok mem' => simp

end Maps

variable {content : Nat → Byte} {res : Except Fault (Ret × Filled)}

theorem Maps.not_fails {addr : BitVec 64} (h : Maps content addr res) : ¬ Fails res := by
  rcases h with ⟨k', hok, -⟩
  exact fun hfails => hfails k' hok

theorem Maps.content_eq {content' : Nat → Byte} {addr : BitVec 64} (h : Maps content addr res) (h' : Maps content' addr res)
    {j : Nat} (hj : j < 4096) : content j = content' j := by
  rcases h with ⟨k', hok, -, hbytes⟩
  rcases h' with ⟨k'', hok', -, hbytes'⟩
  rw [hok] at hok'
  cases hok'
  exact (hbytes j hj).symm.trans (hbytes' j hj)

theorem buffer_eq_wanted_iff {env : CacheEnv} {vmr : Region} {addr : BitVec 64} {k : Filled}
    (h : Brought env vmr addr k) :
    (∀ j < 4096, buffer vmr k.inode addr j = wanted vmr k.inode addr j) ↔
      Harmless vmr k.inode addr := by
  refine forall₂_congr fun j hj => ?_
  rw [buffer, wanted]
  cases htaken : taken vmr k.inode.size addr j with
  | true =>
    cases hmeant : meant vmr k.inode.size addr j with
    | true => simp [byteFrom_taken h.2 hj hmeant]
    | false => simp
  | false =>
    cases hmeant : meant vmr k.inode.size addr j with
    | true => simp [eq_comm]
    | false => simp

theorem Inside.harmless {vmr : Region} {addr : BitVec 64} {ip : FileInode}
    (h : Inside vmr ip.size addr) : Harmless vmr ip addr := by
  intro j hj
  rw [taken_eq_meant h hj]
  constructor
  · intro htrue hfalse
    exact absurd (htrue.symm.trans hfalse) (by simp)
  · intro hfalse htrue
    exact absurd (htrue.symm.trans hfalse) (by simp)

theorem Maps.congr {content' : Nat → Byte} {addr : BitVec 64} (h : Maps content addr res)
    (heq : ∀ j < 4096, content j = content' j) : Maps content' addr res := by
  rcases h with ⟨k', hok, hreached, hbytes⟩
  exact ⟨k', hok, hreached, fun j hj => (hbytes j hj).trans (heq j hj)⟩

/-- When the page can be brought in, the file is not empty, and the page lies where nothing wraps or
where only zeros are taken and left out. -/
def ServedAlike (env : CacheEnv) (locked : Bool) (vmr : Region) (addr : BitVec 64) (k : Filled) :
    Prop :=
  locked = false → Brought env vmr addr k →
    k.inode.size ≠ 0 ∧ (Inside vmr k.inode.size addr ∨ Harmless vmr k.inode addr)

/-- The first access to a page either fails or maps a page with the bytes of the file, whether it
reads or writes, exactly when the page is served alike. -/
theorem first_access_agrees_iff (env : CacheEnv) (locked : Bool) (vmr : PrivateRegion)
    (addr : BitVec 64) (read write : PagefaultDesc) (k : Filled)
    (hfirst : FirstAccess vmr addr read write k) :
    Agree env locked vmr addr read write k ↔ ServedAlike env locked vmr.toRegion addr k := by
  have hread := loadPrivate_spec env vmr hfirst.readAddr k hfirst.absent
  have hwrite := loadPrivate_spec env vmr hfirst.writeAddr k hfirst.absent
  have hnot : ¬ has write.errCode PTE_P = true := by
    rw [hfirst.notPresent]
    simp
  rw [Agree, loadPageFromFile, handleWritablePageFault, if_neg hnot, ServedAlike]
  cases locked with
  | true =>
    -- the lock is taken in both, and is held already
    refine iff_of_true (.inl ⟨?_, ?_⟩) (by simp)
    · intro k'
      simp [ilock, assert]
    · intro k'
      simp [ilock, assert]
  | false =>
    have hlock : ilock false = .ok () := rfl
    simp only [hlock, ok_bind, true_implies]
    by_cases hbrought : Brought env vmr.toRegion addr k
    swap
    · refine iff_of_true (.inl ⟨?_, hwrite.2 hbrought⟩) fun h => absurd h hbrought
      split_ifs
      · intro k'
        simp
      · exact hread.2 hbrought
    have hmaps := hwrite.1 hbrought
    by_cases hempty : k.inode.size = 0
    · -- only the read is refused
      rw [if_pos hempty]
      refine iff_of_false ?_ fun h => (h hbrought).1 hempty
      rintro (⟨-, hfails⟩ | ⟨⟨k', hok, -⟩, -⟩)
      · exact hmaps.not_fails hfails
      · simp at hok
    rw [if_neg hempty]
    have hsame := buffer_eq_wanted_iff hbrought
    constructor
    · rintro (⟨-, hfails⟩ | ⟨-, hwanted⟩) -
      · exact absurd hfails hmaps.not_fails
      · exact ⟨hempty, .inr (hsame.1 fun j hj => hmaps.content_eq hwanted hj)⟩
    · intro h
      have hharmless : Harmless vmr.toRegion k.inode addr := by
        rcases (h hbrought).2 with hinside | hharmless
        · exact hinside.harmless
        · exact hharmless
      have heq := hsame.2 hharmless
      exact .inr ⟨(hread.1 hbrought).congr heq, hmaps.congr heq⟩

/-! ## Without the bytes -/

/-! ## Three files -/

/-- A readable and writable region of two pages from the start of a file on. -/
def sampleVmr : PrivateRegion :=
  { start := 0x400000
    endAddr := 0x401FFF
    flags := Mm.Mmap.VM_READ ||| Mm.Mmap.VM_WRITE
    vflags := PTE_P ||| Mm.Mmap.PTE_W ||| Mm.Mmap.PTE_U
    file := some 7
    filesz := 0x2000
    memsz := 0x2000
    filePos := 0
    backed := rfl
    notShared := rfl }

def sampleFilled (inode : FileInode) : Filled :=
  { tables := .empty
    frames := ⟨0x100, 8, fun _ => 0, by decide, by decide⟩
    ticks := 0
    bytes := fun _ _ => 0
    inode := inode }

def sampleFault (addr errCode : BitVec 64) : PagefaultDesc := ⟨addr, none, errCode⟩

theorem sample_firstAccess (inode : FileInode) (addr : BitVec 64)
    (hin : sampleVmr.contains addr = true) :
    FirstAccess sampleVmr addr (sampleFault addr 4) (sampleFault addr 6) (sampleFilled inode) :=
  ⟨hin, rfl, rfl, by simp [sampleFault, has, PTE_P], by
    simp [sampleFilled, PageTables.reached, PageTables.isP, PageTables.empty, has]⟩

def textInode : FileInode :=
  { size := 3
    data := ByteStore.empty.write 0 3 fun _ => 0x41
    small := by decide
    cache := none }

theorem first_access_agrees_iff_text :
    FirstAccess sampleVmr 0x400010 (sampleFault 0x400010 4) (sampleFault 0x400010 6)
      (sampleFilled textInode) ∧
    (Agree .plain false sampleVmr 0x400010 (sampleFault 0x400010 4) (sampleFault 0x400010 6)
        (sampleFilled textInode) ↔
      ServedAlike .plain false sampleVmr.toRegion 0x400010 (sampleFilled textInode)) :=
  have hfirst := sample_firstAccess textInode 0x400010 (by decide)
  ⟨hfirst, first_access_agrees_iff .plain false sampleVmr 0x400010 _ _ _ hfirst⟩

theorem empty_small : (ByteStore.empty : ByteStore Byte).size < 2 ^ 63 := by
  decide

def emptyInode : FileInode := ⟨0, .empty, empty_small, some fun _ => none⟩

/-- The same file after ten bytes of its second page have been written, and then ten of its
first. -/
def rewoundInode : FileInode :=
  (Fs.iwrite .plain (Fs.iwrite .plain emptyInode 0x1000 (fun _ => 0x41) 10).2 0
    (fun _ => 0x41) 10).2

/-- The first access to a page of an empty file fails if it reads and maps a page if it writes; and
the second page of the other file is mapped with bytes that lie behind its end. -/
theorem first_access_disagrees :
    (FirstAccess sampleVmr 0x400000 (sampleFault 0x400000 4) (sampleFault 0x400000 6)
        (sampleFilled emptyInode) ∧
      ¬ Agree .plain false sampleVmr 0x400000 (sampleFault 0x400000 4) (sampleFault 0x400000 6)
        (sampleFilled emptyInode)) ∧
    (FirstAccess sampleVmr 0x401000 (sampleFault 0x401000 4) (sampleFault 0x401000 6)
        (sampleFilled rewoundInode) ∧
      ¬ Agree .plain false sampleVmr 0x401000 (sampleFault 0x401000 4) (sampleFault 0x401000 6)
        (sampleFilled rewoundInode)) := by
  refine ⟨⟨sample_firstAccess _ _ (by decide), ?_⟩, sample_firstAccess _ _ (by decide), ?_⟩
  · rintro (⟨-, hfails⟩ | ⟨⟨k', hok, -⟩, -⟩)
    · have hwrite : (handleWritablePageFault .plain false sampleVmr (sampleFault 0x400000 6)
          (faultOffset sampleVmr.toRegion 0x400000) (faultSize sampleVmr.toRegion 0x400000)
          (sampleFilled emptyInode)).toOption.map (·.1) = some .ok := by decide +kernel
      rcases ok_of_toOption hwrite with ⟨⟨ret, k'⟩, hok, rfl⟩
      exact hfails k' hok
    · cases hok
  · -- the byte at the offset 4096 of the file is mapped
    have hbyte : (handleWritablePageFault .plain false sampleVmr (sampleFault 0x401000 6)
        (faultOffset sampleVmr.toRegion 0x401000) (faultSize sampleVmr.toRegion 0x401000)
        (sampleFilled rewoundInode)).toOption.map (fun x => (x.1, x.2.pageByte 0x401000 0)) =
          some (.ok, 0x41) := by decide +kernel
    rcases ok_of_toOption hbyte with ⟨⟨ret, k'⟩, hok, heq⟩
    simp only [Prod.mk.injEq] at heq
    rcases heq with ⟨rfl, hpage⟩
    rintro (⟨-, hfails⟩ | ⟨-, k'', hok', -, hwanted⟩)
    · exact hfails k' hok
    · rw [hok] at hok'
      cases hok'
      have hzero : wanted sampleVmr.toRegion (sampleFilled rewoundInode).inode 0x401000 0 = 0 := by
        decide +kernel
      have hne := hpage.symm.trans ((hwanted 0 (by decide)).trans hzero)
      exact absurd hne (by decide)

end FaultContents
end Arch
end XytherOS
