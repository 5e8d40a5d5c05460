import XytherOS.Sys.ElfLoad

/-!
# ElfBounds — the copies that `elf_loader` reads

`elf_loader` copies `e_phentsize * e_phnum` bytes of program headers and the `p_filesz` bytes of a
dynamic section.  It goes through the headers with the stride of `Elf64_Phdr`, and through the
section up to an entry `DT_NULL`.
-/

namespace XytherOS
namespace Sys

open Fs

variable {π : Type} {env : LoadEnv π} {ip : Inode} {m : Image π}

/-! ## The accesses -/

/-- `elf_loader` gets to its loops with the copy `phdr` of the program headers. -/
def Copied (env : LoadEnv π) (ip : Inode) (m : Image π) (elf : Ehdr) (phdr : List Byte) : Prop :=
  ∃ bs, iread env m.ticks ip 0 (BitVec.ofNat 64 ehdrSize) = .ok bs ∧ bs.length = ehdrSize ∧
    elf = Ehdr.decode (fun j => bs.getD j 0) ∧ env.kmalloc (m.ticks + 1) elf.phSize = true ∧
    iread env (m.ticks + 2) ip elf.ePhoff elf.phSize = .ok phdr ∧
    phdr.length = elf.phSize.toNat

/-- The loop over the headers gets to the `i`-th one, with the copy `dyn` of a dynamic section. -/
def Reaches (env : LoadEnv π) (ip : Inode) (m : Image π) (phdr : List Byte) (i : Nat)
    (dyn : Option (List Byte)) : Prop :=
  ∃ m', loadHeaders env ip phdr i 0 none m.tick.tick.tick = .ok (.ok dyn, m')

/-- Every access to a copy is inside it: each header that the loop gets to can be read from the
buffer, and where the loop gets to the end, that over the dynamic section ends at a `DT_NULL`. -/
def Inside (env : LoadEnv π) (ip : Inode) (m : Image π) : Prop :=
  ∀ elf phdr, Copied env ip m elf phdr → ∀ i dyn, Reaches env ip m phdr i dyn →
    (i < elf.ePhnum.toNat → ∃ hdr, fetchHeader phdr i = .ok hdr) ∧
    (i = elf.ePhnum.toNat → ∀ d, dyn = some d →
      ∃ info, readDynamic elf.eEntry d (d.length + 1) 0 ⟨0, 0, 0, 0⟩ = .ok info)

theorem elfLoader_copied {elf : Ehdr} {phdr : List Byte} (h : Copied env ip m elf phdr) :
    elfLoader env ip m = loadImage env ip elf phdr m.tick.tick.tick := by
  rcases h with ⟨bs, hehdr, hfull, rfl, halloc, hread, hlen⟩
  simp only [elfLoader, hehdr, hfull, ne_eq, not_true, if_false, halloc, if_true, hread, hlen]

theorem loadHeaders_add {phdr : List Byte} {k n i : Nat} {dyn : Option (List Byte)} {m : Image π} :
    loadHeaders env ip phdr (k + n) i dyn m =
      loadHeaders env ip phdr k i dyn m >>= fun x =>
        match x with
        | (.error e, m) => .ok (.error e, m)
        | (.ok dyn, m) => loadHeaders env ip phdr n (i + k) dyn m := by
  induction k generalizing i dyn m with
  | zero => simp [loadHeaders]
  | succ k ih =>
    rw [Nat.succ_add, loadHeaders, loadHeaders, bind_assoc]
    refine congrArg _ (funext fun hdr => ?_)
    have hnext : i + (k + 1) = i + 1 + k := by omega
    rw [hnext]
    split_ifs
    · rw [bind_assoc]
      refine congrArg _ (funext fun x => ?_)
      rcases x with ⟨_ | e, m'⟩
      · exact ih
      · rfl
    · rcases loadDynamic env ip hdr m with ⟨e | d, m'⟩
      · rfl
      · exact ih
    · exact ih

theorem readDynamic_error {entry : BitVec 64} {dyn : List Byte} {n i : Nat} {d : DynInfo}
    {e : Fault} (h : readDynamic entry dyn n i d = .error e) : e = .wildAccess := by
  induction n generalizing i d with
  | zero => exact (Except.error.inj h).symm
  | succ n ih =>
    rw [readDynamic, inBounds] at h
    by_cases htag : 16 * i + 7 < dyn.length
    · rw [if_pos htag, ok_bind] at h
      by_cases hnull : BitVec.ofNat 64 (le (fun b => dyn.getD b 0) (16 * i) 8) = 0
      · simp only [hnull, if_true, pure_eq_ok, reduceCtorEq] at h
      · simp only [hnull, if_false, inBounds] at h
        by_cases hval : 16 * i + 15 < dyn.length
        · rw [if_pos hval, ok_bind] at h
          exact ih h
        · rw [if_neg hval] at h
          exact (Except.error.inj h).symm
    · rw [if_neg htag] at h
      exact (Except.error.inj h).symm

theorem elfLoader_overruns (h : ¬Inside env ip m) :
    elfLoader env ip m = .error .wildAccess := by
  simp only [Inside, not_forall] at h
  rcases h with ⟨elf, phdr, hcopied, i, dyn, ⟨m', hreach⟩, hout⟩
  rw [elfLoader_copied hcopied, loadImage]
  rcases not_and_or.1 hout with hout | hout
  · -- the header `i` is outside
    rcases Classical.not_imp.1 hout with ⟨hi, hfetch⟩
    obtain ⟨n, hn⟩ : ∃ n, elf.ePhnum.toNat = i + (n + 1) := ⟨elf.ePhnum.toNat - i - 1, by omega⟩
    have herror : fetchHeader phdr i = .error .wildAccess := by
      rw [fetchHeader_eq rfl] at hfetch ⊢
      split_ifs at hfetch ⊢
      · exact absurd ⟨_, rfl⟩ hfetch
      · rfl
    rw [hn, loadHeaders_add, hreach, ok_bind]
    simp only [loadHeaders, Nat.zero_add, herror]
    rfl
  · -- the dynamic section has no end
    simp only [not_forall] at hout
    rcases hout with ⟨rfl, d, rfl, hdyn⟩
    cases hread : readDynamic elf.eEntry d (d.length + 1) 0 ⟨0, 0, 0, 0⟩ with
    | ok info => exact absurd ⟨info, hread⟩ hdyn
    | error e =>
      rw [hreach, ok_bind]
      simp only [relocate, hread, readDynamic_error hread]
      rfl

/-! ## Headers and sections of the file -/

namespace Inode

/-- The header that `elf_loader` takes for the `i`-th one: its stride is `sizeof (Elf64_Phdr)`. -/
def hdr (ip : Inode) (i : Nat) : Phdr :=
  Phdr.decode ip.file.byte (ip.elf.ePhoff.toNat + phdrSize * i)

def dtag (ip : Inode) (h : Phdr) (j : Nat) : BitVec 64 :=
  BitVec.ofNat 64 (le ip.file.byte (h.pOffset.toNat + 16 * j) 8)

end Inode

/-- The dynamic section has a `DT_NULL` in its `p_filesz` bytes. -/
def Terminated (ip : Inode) (h : Phdr) : Prop :=
  ∃ j, 16 * j + 8 ≤ h.pFilesz.toNat ∧ ip.dtag h j = 0

/-- The last of the first `n` headers that is a `PT_DYNAMIC`, if any. -/
def lastDynamic (ip : Inode) : Nat → Option Phdr
  | 0 => none
  | n + 1 => if (ip.hdr n).pType = PT_DYNAMIC then some (ip.hdr n) else lastDynamic ip n

/-- As much of the header `i` as its type asks for lies in `e_phentsize * e_phnum` bytes; behind the
last header, the last dynamic section is terminated. -/
def Fits (ip : Inode) (i : Nat) : Prop :=
  if i < ip.elf.ePhnum.toNat then
    phdrSize * i + headerEnd (ip.hdr i).pType ≤ ip.elf.phBytes
  else ∀ h, lastDynamic ip i = some h → Terminated ip h

/-- The address space after a header: a segment is mapped, and a dynamic section is read. -/
def handle (env : LoadEnv π) (ip : Inode) (hdr : Phdr) (m : Image π) : Option (Image π) :=
  if hdr.pType = PT_LOAD then
    match loadSegment env ip hdr m with
    | .ok (.ok, m) => some m
    | _ => none
  else if hdr.pType = PT_DYNAMIC then
    match loadDynamic env ip hdr m with
    | (.ok _, m) => some m
    | (.error _, _) => none
  else some m

/-- The address space after the first `n` headers of the file, if all segments among them can be
mapped and all dynamic sections read. -/
def handled (env : LoadEnv π) (ip : Inode) (m : Image π) : Nat → Option (Image π)
  | 0 => some m
  | n + 1 => (handled env ip m n).bind (handle env ip (ip.hdr n))

/-! ## The dynamic section -/

theorem Copied.bytes {elf : Ehdr} {phdr : List Byte} (h : Copied env ip m elf phdr) :
    elf = ip.elf ∧ phdr.length = ip.elf.phBytes ∧
      ∀ j, j < phdr.length → phdr.getD j 0 = ip.file.byte (ip.elf.ePhoff.toNat + j) := by
  rcases h with ⟨bs, hehdr, -, rfl, halloc, hread, hlen⟩
  rw [ehdr_of_read hehdr] at halloc hread hlen ⊢
  rcases ip.elf.phSize_cases with hmsb | ⟨hsmall, hsize⟩
  · rw [env.kmalloc_huge _ _ hmsb] at halloc
    exact absurd halloc (by simp)
  · have hnat : ip.elf.phSize.toNat = ip.elf.phBytes := by
      rw [hsize, BitVec.toNat_ofNat, Nat.mod_eq_of_lt (by omega)]
    refine ⟨rfl, hlen.trans hnat, fun j hj => ?_⟩
    exact (iread_spec hread).2.2.2 j (hlen ▸ hj)

section Buffers

variable {phdr : List Byte}
  (hbytes : ∀ j, j < phdr.length → phdr.getD j 0 = ip.file.byte (ip.elf.ePhoff.toNat + j))

include hbytes

end Buffers

section Turns

variable {phdr : List Byte} {i : Nat} {dyn dyn' : Option (List Byte)} {m' : Image π}
  (hbytes : ∀ j, j < phdr.length → phdr.getD j 0 = ip.file.byte (ip.elf.ePhoff.toNat + j))

include hbytes

end Turns

end Sys
end XytherOS
