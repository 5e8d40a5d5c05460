import Mathlib
import XytherOS.Fs.Tmpfs
import XytherOS.Lib.ByteStore

/-!
# TmpfsStore — the calls on a regular file of `fs/tmpfs/tmpfs.c`, as operations on a byte store

`tmpfs_iwrite` sets its local `data` only where the file grows, to a block of the allocator that
holds whatever the memory held before.
-/

namespace XytherOS
namespace Fs

open Mm.Pmm (PGSZ)

/-! ## Memory -/

/-- `kmalloc`: no memory, or a block with the bytes that `mem` finds there.  The sizes of liballoc
have 32 bits: a request that does not fit with the headers gets a block that is too small. -/
def kmalloc (n : Nat) : Option (Nat → Byte) → Except Fault (Option (Nat → Byte))
  | none => .ok none
  | some junk => if n + 112 < 2 ^ 32 then .ok (some junk) else throw .wildAccess

/-- `krealloc` of a block to a larger size.  It does not check that there is a new block before it
copies the old one. -/
def krealloc (old : List Byte) (n : Nat) (mem : Option (Nat → Byte)) :
    Except Fault (Option (Nat → Byte)) := do
  match ← kmalloc n mem with
  | none => throw .nullDeref
  | some junk => return some fun i => if i < old.length then old.getD i 0 else junk i

theorem kmalloc_some {n : Nat} (junk : Nat → Byte) (h : n + 112 < 2 ^ 32) :
    kmalloc n (some junk) = .ok (some junk) := if_pos h

def memcpy (block : Nat → Byte) (off n : Nat) (buf : Nat → Byte) (i : Nat) : Byte :=
  if off ≤ i ∧ i < off + n then buf (i - off) else block i

namespace File

def ofBlock (size : BitVec 64) (block : Nat → Byte) (h : size.toNat < 2 ^ 63) : File where
  size := size
  data := some ((List.range size.toNat).map block)
  sized := by simp
  small := h

def new : File := ⟨0, none, rfl, by decide⟩

/-- The memory for a file that grows: `kmalloc` or `krealloc`. -/
def grow (f : File) (n : Nat) (mem : Option (Nat → Byte)) : Except Fault (Option (Nat → Byte)) :=
  match f.data with
  | none => kmalloc n mem
  | some data => krealloc data n mem

end File

def tmpfsIwrite (f : File) (off : BitVec 64) (buf : Nat → Byte) (sz : BitVec 64)
    (mem : Option (Nat → Byte)) : Except Fault (Except Errno Nat × File) := do
  let size := off + sz
  if f.size < size then
    match ← f.grow size.toNat mem with
    | none => return (.error .EAGAIN, f)
    | some data =>
      let n := min (size - off).toNat sz.toNat
      if h : off.toNat + n ≤ size.toNat ∧ size.toNat < 2 ^ 63 then
        return (.ok n, .ofBlock size (memcpy data off.toNat n buf) h.2)
      else throw .wildAccess
  else
    -- `data` is the null pointer
    let n := min (f.size - off).toNat sz.toNat
    if n = 0 then return (.ok 0, f) else throw .nullDeref

def tmpfsItruncate (f : File) : Ret × File :=
  match f.data with
  | none => (.ok, f)
  | some _ => (.ok, .new)

inductive TmpfsReply
  | none
  | write (ret : Except Errno Nat)
  | read (ret : Except Errno (List Byte))
  | truncate (ret : Ret)

structure TmpfsWorld where
  file : File
  reply : TmpfsReply

inductive TmpfsAct
  | iwrite (off : BitVec 64) (buf : Nat → Byte) (sz : BitVec 64) (mem : Option (Nat → Byte))
  | iread (off sz : BitVec 64)
  | itruncate

def tmpfsStep (w : TmpfsWorld) : TmpfsAct → Except Fault TmpfsWorld
  | .iwrite off buf sz mem => do
      let (ret, file) ← tmpfsIwrite w.file off buf sz mem
      return ⟨file, .write ret⟩
  | .iread off sz => return ⟨w.file, .read (tmpfsIread w.file off sz)⟩
  | .itruncate =>
    let (ret, file) := tmpfsItruncate w.file
    return ⟨file, .truncate ret⟩

/-! ## The byte store -/

def File.bytes (f : File) : ByteStore Byte where
  size := f.size.toNat
  byte := f.byte
  beyond _ h := f.byte_beyond h

/-- What a call does to the byte store, and what it returns.  A read that fails returns no bytes. -/
def TmpfsLaw (w : TmpfsWorld) (a : TmpfsAct) (w' : TmpfsWorld) : Prop :=
  match a, w'.reply with
  | .iwrite off buf sz _, .write (.ok n) =>
    n ≤ sz.toNat ∧ w'.file.bytes = w.file.bytes.write off.toNat n buf
  | .iwrite .., .write (.error _) => w'.file.bytes = w.file.bytes
  | .iread off sz, .read ret =>
    ret.toOption.getD [] = w.file.bytes.read off.toNat sz.toNat ∧ w'.file.bytes = w.file.bytes
  | .itruncate, .truncate ret => ret = .ok ∧ w'.file.bytes = .empty
  | _, _ => False

/-- A write that grows the file finds memory, if the file has a block already, the end of the file
is a number for the allocator, and the memory of the gap is zero.  A write in place moves no
bytes. -/
def tmpfsOk (w : TmpfsWorld) : TmpfsAct → Bool
  | .iwrite off _ sz mem =>
    if w.file.size < off + sz then
      match mem with
      | none => w.file.data.isNone
      | some junk => off.toNat + sz.toNat + 112 < 2 ^ 32 &&
          (List.range off.toNat).all fun i => i < w.file.size.toNat || junk i == 0
    else min (w.file.size - off).toNat sz.toNat == 0
  | .iread .. => true
  | .itruncate => true

theorem File.byte_ofBlock {size : BitVec 64} {block : Nat → Byte} {h : size.toNat < 2 ^ 63} {i : Nat}
    (hi : i < size.toNat) : (File.ofBlock size block h).byte i = block i := by
  simp [File.byte, File.ofBlock, hi]

theorem File.grow_some (f : File) {n : Nat} (junk : Nat → Byte) (hn : n + 112 < 2 ^ 32) :
    ∃ block, f.grow n (some junk) = .ok (some block) ∧
      ∀ i, block i = if i < f.size.toNat then f.byte i else junk i := by
  have hsized := f.sized
  rw [File.grow]
  cases hdata : f.data with
  | none =>
    rw [hdata] at hsized
    refine ⟨junk, kmalloc_some junk hn, ?_⟩
    intro i
    have hzero : ¬ i < f.size.toNat := by
      rw [← hsized]
      exact Nat.not_lt_zero i
    rw [if_neg hzero]
  | some data =>
    rw [hdata] at hsized
    refine ⟨fun i => if i < data.length then data.getD i 0 else junk i, ?_, ?_⟩
    · simp only [krealloc, kmalloc_some junk hn]
      rfl
    · intro i
      rw [← hsized]
      simp [File.byte, hdata]

variable {f : File} {off sz : BitVec 64}

theorem tmpfsIwrite_grow (buf junk : Nat → Byte)
    (hgrow : f.size < off + sz) (hsmall : off.toNat + sz.toNat + 112 < 2 ^ 32) :
    ∃ f', tmpfsIwrite f off buf sz (some junk) = .ok (.ok sz.toNat, f') ∧
      f'.size.toNat = off.toNat + sz.toNat ∧
      ∀ i, i < off.toNat + sz.toNat → f'.byte i =
        if off.toNat ≤ i then buf (i - off.toNat)
        else if i < f.size.toNat then f.byte i else junk i := by
  have hadd : (off + sz).toNat = off.toNat + sz.toNat := by
    rw [BitVec.toNat_add]
    omega
  have hsub : (off + sz - off).toNat = sz.toNat := by rw [BitVec.add_comm, BitVec.add_sub_cancel]
  rcases f.grow_some (n := (off + sz).toNat) junk (by omega) with ⟨block, hblock, hbytes⟩
  have hfits : off.toNat + min (off + sz - off).toNat sz.toNat ≤ (off + sz).toNat ∧
      (off + sz).toNat < 2 ^ 63 := by omega
  refine ⟨File.ofBlock (off + sz) (memcpy block off.toNat sz.toNat buf) hfits.2, ?_, hadd, ?_⟩
  · simp only [tmpfsIwrite, if_pos hgrow, hblock, ok_bind]
    rw [dif_pos hfits]
    simp [hsub]
  · intro i hi
    rw [File.byte_ofBlock (by omega), memcpy, hbytes]
    by_cases hoff : off.toNat ≤ i
    · rw [if_pos ⟨hoff, hi⟩, if_pos hoff]
    · rw [if_neg (by omega), if_neg hoff]

theorem tmpfsIwrite_large (buf junk : Nat → Byte)
    (hgrow : f.size < off + sz) (hlarge : ¬ off.toNat + sz.toNat + 112 < 2 ^ 32) :
    tmpfsIwrite f off buf sz (some junk) = .error .wildAccess := by
  have hoff := off.isLt
  have hsz := sz.isLt
  have hsub : (off + sz - off).toNat = sz.toNat := by rw [BitVec.add_comm, BitVec.add_sub_cancel]
  simp only [tmpfsIwrite, if_pos hgrow]
  by_cases hfits : (off + sz).toNat + 112 < 2 ^ 32
  · rcases f.grow_some (n := (off + sz).toNat) junk hfits with ⟨block, hblock, -⟩
    have hwrap : ¬ (off.toNat + min (off + sz - off).toNat sz.toNat ≤ (off + sz).toNat ∧
        (off + sz).toNat < 2 ^ 63) := by
      rw [hsub, BitVec.toNat_add] at *
      omega
    rw [hblock, ok_bind]
    simp only [dif_neg hwrap]
    rfl
  · have hrefused : f.grow (off + sz).toNat (some junk) = .error .wildAccess := by
      rw [File.grow]
      cases f.data with
      | none => exact if_neg hfits
      | some data =>
        simp only [krealloc, kmalloc, if_neg hfits]
        rfl
    rw [hrefused]
    rfl

theorem in_place_offset (hgrow : ¬ f.size < off + sz)
    (hzero : min (f.size - off).toNat sz.toNat = 0) : off.toNat ≤ f.size.toNat := by
  have hle : (off + sz).toNat ≤ f.size.toNat := BitVec.not_lt.1 hgrow
  rw [BitVec.toNat_add] at hle
  rw [BitVec.toNat_sub] at hzero
  have hoff := off.isLt
  have hsize := f.size.isLt
  omega

theorem bytes_grow_iff {f' : File} {buf junk : Nat → Byte}
    (hgrow : f.size.toNat < off.toNat + sz.toNat)
    (hsize : f'.size.toNat = off.toNat + sz.toNat)
    (hbytes : ∀ i, i < off.toNat + sz.toNat → f'.byte i =
      if off.toNat ≤ i then buf (i - off.toNat)
      else if i < f.size.toNat then f.byte i else junk i) :
    f'.bytes = f.bytes.write off.toNat sz.toNat buf ↔
      ∀ i, i < off.toNat → f.size.toNat ≤ i → junk i = 0 := by
  constructor
  · intro heq i hi hbehind
    have hbyte := hbytes i (by omega)
    rw [if_neg (by omega), if_neg (by omega)] at hbyte
    have hwritten : f'.byte i = (f.bytes.write off.toNat sz.toNat buf).byte i := by
      rw [← heq]
      rfl
    rw [← hbyte, hwritten, ByteStore.write]
    simp only
    rw [if_neg (by omega)]
    exact f.byte_beyond hbehind
  · intro hzero
    refine ByteStore.eq_write ?_ ?_ ?_
    · simp only [File.bytes]
      omega
    · intro i hi
      change f'.byte (off.toNat + i) = buf i
      rw [hbytes _ (by omega), if_pos (by omega), Nat.add_sub_cancel_left]
    · intro i hi
      change f'.byte i = f.byte i
      rcases hi with hi | hi
      · rw [hbytes i (by omega), if_neg (by omega)]
        split_ifs with hin
        · rfl
        · -- in the gap
          rw [hzero i hi (by omega), f.byte_beyond (by omega)]
      · rw [f'.byte_beyond (by omega), f.byte_beyond (by omega)]

theorem tmpfsIread_bytes (f : File) (off sz : BitVec 64) :
    (tmpfsIread f off sz).toOption.getD [] = f.bytes.read off.toNat sz.toNat := by
  cases hread : tmpfsIread f off sz with
  | error e =>
    -- it fails only at the end of the file
    have hend : f.size.toNat ≤ off.toNat := by
      by_contra hlt
      have hsized := f.sized
      cases hdata : f.data with
      | none =>
        rw [hdata] at hsized
        simp only [Option.getD_none, List.length_nil] at hsized
        omega
      | some data =>
        have hle : ¬ f.size ≤ off := by
          rw [BitVec.le_def]
          omega
        simp [tmpfsIread, hdata, hle] at hread
    exact (ByteStore.read_beyond hend).symm
  | ok bs =>
    rcases tmpfsIread_spec hread with ⟨hlt, hlen, hbytes⟩
    have hlt' : off.toNat < f.size.toNat := hlt
    change bs = _
    refine List.ext_getElem ?_ ?_
    · rw [hlen, ByteStore.read_length]
      simp only [File.bytes]
      omega
    · intro i hi hi'
      have hbyte := hbytes i (by omega)
      rw [List.getD_eq_getElem?_getD, List.getElem?_eq_getElem hi] at hbyte
      simpa [ByteStore.read, File.bytes] using hbyte

theorem tmpfsItruncate_bytes (f : File) :
    (tmpfsItruncate f).1 = .ok ∧ (tmpfsItruncate f).2.bytes = .empty := by
  rw [tmpfsItruncate]
  cases hdata : f.data with
  | some data =>
    refine ⟨rfl, ?_⟩
    ext i
    · rfl
    · rfl
  | none =>
    have hsized := f.sized
    rw [hdata] at hsized
    refine ⟨rfl, ?_⟩
    ext i
    · exact hsized.symm
    · simp [File.bytes, File.byte, hdata, ByteStore.empty]

theorem tmpfsLaw_of_ok {w : TmpfsWorld} {a : TmpfsAct} (hok : tmpfsOk w a = true) :
    Safe (fun _ => False) (tmpfsStep w a) (TmpfsLaw w a) := by
  cases a with
  | iread off sz => exact ⟨tmpfsIread_bytes w.file off sz, rfl⟩
  | itruncate => exact tmpfsItruncate_bytes w.file
  | iwrite off buf sz mem =>
    simp only [tmpfsOk] at hok
    split_ifs at hok with hgrow
    · cases mem with
      | none =>
        have hnone : w.file.data = none := by simpa using hok
        have hrun : tmpfsIwrite w.file off buf sz none = .ok (.error .EAGAIN, w.file) := by
          simp only [tmpfsIwrite, if_pos hgrow, File.grow, hnone, kmalloc, ok_bind]
          rfl
        simp only [tmpfsStep, hrun, ok_bind]
        exact rfl
      | some junk =>
        simp only [Bool.and_eq_true, decide_eq_true_eq, List.all_eq_true, List.mem_range,
          Bool.or_eq_true, beq_iff_eq] at hok
        rcases tmpfsIwrite_grow buf junk hgrow hok.1 with
          ⟨f', hrun, hsize, hbytes⟩
        have hlt : w.file.size.toNat < off.toNat + sz.toNat := by
          have hlt' : w.file.size.toNat < (off + sz).toNat := hgrow
          rw [BitVec.toNat_add] at hlt'
          omega
        simp only [tmpfsStep, hrun, ok_bind]
        refine ⟨Nat.le_refl _, (bytes_grow_iff hlt hsize hbytes).2 ?_⟩
        intro i hi hbehind
        exact (hok.2 i hi).resolve_left (by omega)
    · have hzero : min (w.file.size - off).toNat sz.toNat = 0 := by simpa using hok
      have hrun : tmpfsIwrite w.file off buf sz mem = .ok (.ok 0, w.file) := by
        simp only [tmpfsIwrite, if_neg hgrow]
        rw [if_pos hzero]
        rfl
      simp only [tmpfsStep, hrun, ok_bind]
      -- nothing moves, and the offset is not behind the end
      have hoff : off.toNat ≤ w.file.size.toNat := in_place_offset hgrow hzero
      refine ⟨Nat.zero_le _, ByteStore.eq_write ?_ (by simp) fun i _ => rfl⟩
      simp only [File.bytes]
      omega

theorem not_tmpfsLaw_of_not_ok {w : TmpfsWorld} {a : TmpfsAct} (hok : tmpfsOk w a = false) :
    ¬ Safe (fun _ => False) (tmpfsStep w a) (TmpfsLaw w a) := by
  cases a with
  | iread off sz => simp [tmpfsOk] at hok
  | itruncate => simp [tmpfsOk] at hok
  | iwrite off buf sz mem =>
    intro hsafe
    simp only [tmpfsOk] at hok
    split_ifs at hok with hgrow
    · cases mem with
      | none =>
        rcases hdata : w.file.data with _ | data
        · simp [hdata] at hok
        · have hrun : tmpfsIwrite w.file off buf sz none = .error .nullDeref := by
            simp only [tmpfsIwrite, if_pos hgrow, File.grow, hdata, krealloc, kmalloc, ok_bind]
            rfl
          simp only [tmpfsStep, hrun] at hsafe
          exact hsafe
      | some junk =>
        by_cases hsmall : off.toNat + sz.toNat + 112 < 2 ^ 32
        · rcases tmpfsIwrite_grow buf junk hgrow hsmall with
            ⟨f', hrun, hsize, hbytes⟩
          have hlt : w.file.size.toNat < off.toNat + sz.toNat := by
            have hlt' : w.file.size.toNat < (off + sz).toNat := hgrow
            rw [BitVec.toNat_add] at hlt'
            omega
          simp only [tmpfsStep, hrun, ok_bind] at hsafe
          have hzero := (bytes_grow_iff hlt hsize hbytes).1 hsafe.2
          simp only [hsmall, decide_true, Bool.true_and, List.all_eq_false, List.mem_range,
            Bool.or_eq_true, decide_eq_true_eq, beq_iff_eq] at hok
          rcases hok with ⟨i, hi, hbad⟩
          rw [not_or] at hbad
          exact hbad.2 (hzero i hi (by omega))
        · have hrun := tmpfsIwrite_large buf junk hgrow hsmall
          simp only [tmpfsStep, hrun] at hsafe
          exact hsafe
    · have hmoves : min (w.file.size - off).toNat sz.toNat ≠ 0 := by simpa using hok
      have hrun : tmpfsIwrite w.file off buf sz mem = .error .nullDeref := by
        simp only [tmpfsIwrite, if_neg hgrow]
        rw [if_neg hmoves]
        rfl
      simp only [tmpfsStep, hrun] at hsafe
      exact hsafe

/-- For every file and every sequence of calls. -/
theorem tmpfs_byte_store_iff (w : TmpfsWorld) (acts : List TmpfsAct) :
    Stepwise (fun _ => False) tmpfsStep TmpfsLaw w acts ↔
      guarded tmpfsStep tmpfsOk w acts = true := by
  refine stepwise_iff_guarded (I := fun _ => True) ?_ ?_ trivial
  · intro w a _ hok
    exact (tmpfsLaw_of_ok hok).mono fun _ h => ⟨h, trivial⟩
  · intro w a _ hok
    exact not_tmpfsLaw_of_not_ok hok

/-- Eight bytes are written to a new file, and then the first of them once more. -/
theorem overwrite_faults :
    ¬ Stepwise (fun _ => False) tmpfsStep TmpfsLaw ⟨.new, .none⟩
      [.iwrite 0 (fun _ => 1) 8 (some fun _ => 0), .iwrite 0 (fun _ => 2) 1 none] := by
  intro h
  -- the first write succeeds, and the second one faults
  have hrest := h.2
  exact not_tmpfsLaw_of_not_ok (by decide +kernel) hrest.head

end Fs
end XytherOS
