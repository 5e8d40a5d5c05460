import XytherOS.Core.Status
import XytherOS.Mm.Pmm

/-!
# Tmpfs — the bytes of a regular file of `fs/tmpfs/tmpfs.c`

A file is one block of memory, or none as long as nothing has been written, and its size.  A page
cache in front of it reads whole pages, with zeros behind the end of the file, and fails for a page
that begins behind it.
-/

namespace XytherOS
namespace Fs

open Mm.Pmm (PGSZ)

abbrev Byte := BitVec 8

/-- The `size` and the `data` of a `tmpfs_inode_t`: the block has the size of the file. -/
structure File where
  size : BitVec 64
  data : Option (List Byte)
  sized : (data.getD []).length = size.toNat
  small : size.toNat < 2 ^ 63

namespace File

def byte (f : File) (n : Nat) : Byte := (f.data.getD []).getD n 0

theorem byte_beyond (f : File) {n : Nat} (h : f.size.toNat ≤ n) : f.byte n = 0 := by
  rw [byte, List.getD_eq_getElem?_getD, List.getElem?_eq_none (f.sized.trans_le h)]
  rfl

end File

def tmpfsIread (f : File) (off sz : BitVec 64) : Except Errno (List Byte) :=
  match f.data with
  | none => .error .EPERM
  | some data =>
    if f.size ≤ off then .error .EPERM
    else .ok ((data.drop off.toNat).take (min (f.size - off).toNat sz.toNat))

theorem tmpfsIread_spec {f : File} {off sz : BitVec 64} {bs : List Byte}
    (h : tmpfsIread f off sz = .ok bs) :
    off < f.size ∧ bs.length = min (f.size.toNat - off.toNat) sz.toNat ∧
      ∀ j, j < sz.toNat → bs.getD j 0 = f.byte (off.toNat + j) := by
  have hsized := f.sized
  cases hdata : f.data with
  | none => simp [tmpfsIread, hdata] at h
  | some data =>
    simp only [tmpfsIread, hdata] at h
    split_ifs at h with hoff
    cases h
    have hlt : off < f.size := BitVec.not_le.1 hoff
    have hsub : (f.size - off).toNat = f.size.toNat - off.toNat :=
      BitVec.toNat_sub_of_le (BitVec.le_of_lt hlt)
    simp only [hdata, Option.getD_some] at hsized
    have hlen : ((data.drop off.toNat).take (min (f.size - off).toNat sz.toNat)).length =
        min (f.size.toNat - off.toNat) sz.toNat := by
      simp only [List.length_take, List.length_drop, hsized, hsub]
      omega
    refine ⟨hlt, hlen, ?_⟩
    intro j hj
    simp only [File.byte, hdata, Option.getD_some, List.getD_eq_getElem?_getD,
      List.getElem?_take, List.getElem?_drop, hsub]
    by_cases hin : j < f.size.toNat - off.toNat
    · rw [if_pos (by omega)]
    · -- behind the end of the file both sides are zero
      rw [if_neg (by omega), List.getElem?_eq_none (by omega)]

end Fs
end XytherOS
