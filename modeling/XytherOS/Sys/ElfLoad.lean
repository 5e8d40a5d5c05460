import XytherOS.Sys.Elf

/-!
# ElfLoad — what a loaded program consists of

`elf_loader` rounds the address of a segment down to a page and the size up, each by itself, and
leaves the file offset as it is.  As long as the segments share no page and each still covers its
memory, every segment keeps its region until the end, and its bytes are those of the file exactly
when it begins at a page boundary or has no bytes in the file.
-/

namespace XytherOS
namespace Sys

open Fs Mm.Mmap
open Boot (PGROUNDUP)
open Mm.Pmm (PGSZ PGROUND)

variable {π : Type} {env : LoadEnv π} {n k : Nat} {ip : Inode} {m : Image π} {v : View}

/-! ## Reads -/

theorem icacheGetpage_spec {f : File} {pgno : Nat} {page : Nat → Byte} (hpgno : pgno * 4096 < 2 ^ 64)
    (h : icacheGetpage env n f pgno = .ok page) :
    pgno * 4096 < f.size.toNat ∧ ∀ j, j < 4096 → page j = f.byte (pgno * 4096 + j) := by
  rw [icacheGetpage] at h
  cases hfail : env.getpage n pgno with
  | some e => simp [hfail] at h
  | none =>
    simp only [hfail] at h
    cases hread : tmpfsIread f (BitVec.ofNat 64 (pgno * 4096)) PGSZ with
    | error e => simp [hread] at h
    | ok bs =>
      simp only [hread, Except.ok.injEq] at h
      subst h
      rcases tmpfsIread_spec hread with ⟨hlt, -, hbytes⟩
      have hoff : (BitVec.ofNat 64 (pgno * 4096)).toNat = pgno * 4096 := by
        rw [BitVec.toNat_ofNat, Nat.mod_eq_of_lt hpgno]
      rw [BitVec.lt_def, hoff] at hlt
      rw [hoff] at hbytes
      exact ⟨hlt, hbytes⟩

variable {bs : List Byte} {b b' : Nat → Byte} {off off' : Nat} {a len : BitVec 64}

theorem icacheRead_spec {f : File} {offset sz : Nat} (hoff : offset < 2 ^ 64)
    (hk : sz ≤ k) (h : icacheRead env n f k offset sz = .ok bs) :
    bs.length = sz ∧ (0 < sz → offset < f.size.toNat + 4096) ∧
      ∀ j, j < sz → bs.getD j 0 = f.byte (offset + j) := by
  induction k generalizing offset sz bs with
  | zero =>
    cases h
    exact ⟨by simp; omega, by omega, by omega⟩
  | succ k ih =>
    rw [icacheRead] at h
    by_cases hsz : sz = 0
    · rw [if_pos hsz] at h
      cases h
      exact ⟨hsz.symm, by omega, by omega⟩
    rw [if_neg hsz] at h
    cases hpage : icacheGetpage env n f (offset / 4096) with
    | error e => simp [hpage] at h
    | ok page =>
      simp only [hpage] at h
      rcases icacheGetpage_spec (by omega) hpage with ⟨hlt, hbytes⟩
      have hsmall := f.small
      have hmod : offset / 4096 * 4096 + offset % 4096 = offset := Nat.div_add_mod' offset 4096
      generalize hsize : min (4096 - offset % 4096) sz = size at h
      have hmodlt := Nat.mod_lt offset (show 0 < 4096 by omega)
      cases hrest : icacheRead env n f k (offset + size) (sz - size) with
      | error e => simp [hrest] at h
      | ok rest =>
        simp only [hrest, Except.ok.injEq] at h
        subst h
        rcases ih (by omega) (by omega) hrest with ⟨hlen, -, hrestBytes⟩
        refine ⟨?_, fun _ => by omega, ?_⟩
        · rw [List.length_append, List.length_map, List.length_range, hlen]
          omega
        · intro j hj
          rw [List.getD_eq_getElem?_getD, List.getElem?_append]
          simp only [List.length_map, List.length_range]
          by_cases hfirst : j < size
          · -- the byte is on the first page
            rw [if_pos hfirst]
            simp only [List.getElem?_map, List.getElem?_range hfirst, Option.map_some,
              Option.getD_some]
            rw [hbytes _ (by omega), ← Nat.add_assoc, hmod]
          · rw [if_neg hfirst, ← List.getD_eq_getElem?_getD, hrestBytes _ (by omega)]
            congr 1
            omega

theorem iread_spec {off sz : BitVec 64} (h : iread env n ip off sz = .ok bs) :
    bs.length ≤ sz.toNat ∧ (bs = [] → sz = 0) ∧
      (0 < sz.toNat → off.toNat < ip.file.size.toNat + 4096) ∧
      ∀ j, j < sz.toNat → bs.getD j 0 = ip.file.byte (off.toNat + j) := by
  rw [iread] at h
  split_ifs at h with hcached
  · rcases icacheRead_spec off.isLt le_rfl h with ⟨hlen, hoff, hbytes⟩
    refine ⟨hlen.le, ?_, hoff, hbytes⟩
    rintro rfl
    exact BitVec.eq_of_toNat_eq hlen.symm
  · rcases tmpfsIread_spec h with ⟨hlt, hlen, hbytes⟩
    rw [BitVec.lt_def] at hlt
    refine ⟨by omega, ?_, by omega, hbytes⟩
    rintro rfl
    rw [List.length_nil] at hlen
    have hzero : sz.toNat = 0 := by omega
    exact BitVec.eq_of_toNat_eq hzero

/-! ## Headers -/

theorem le_congr {len : Nat}
    (h : ∀ j, j < len → b (off + j) = b' (off' + j)) : le b off len = le b' off' len := by
  induction len generalizing off off' with
  | zero => rfl
  | succ len ih =>
    have hrest : le b (off + 1) len = le b' (off' + 1) len := by
      refine ih fun j hj => ?_
      have hj' := h (j + 1) (by omega)
      rwa [Nat.add_assoc, Nat.add_assoc, Nat.add_comm 1 j]
    have hfirst := h 0 (by omega)
    simp only [Nat.add_zero] at hfirst
    simp only [le, hrest, hfirst]

theorem Phdr.decode_congr
    (h : ∀ j, j < 48 → b (off + j) = b' (off' + j)) :
    Phdr.decode b off = Phdr.decode b' off' := by
  have hfield : ∀ at' len, at' + len ≤ 48 → le b (off + at') len = le b' (off' + at') len := by
    intro at' len hle
    refine le_congr fun j hj => ?_
    rw [Nat.add_assoc, Nat.add_assoc]
    exact h _ (by omega)
  simp only [Phdr.decode, hfield 4 4 (by omega), hfield 8 8 (by omega), hfield 16 8 (by omega),
    hfield 32 8 (by omega), hfield 40 8 (by omega)]
  rw [show le b off 4 = le b' off' 4 from hfield 0 4 (by omega)]

theorem Phdr.pType_congr
    (h : ∀ j, j < 4 → b (off + j) = b' (off' + j)) :
    (Phdr.decode b off).pType = (Phdr.decode b' off').pType := by
  rw [Phdr.decode, Phdr.decode, le_congr h]

def headerEnd (type : BitVec 32) : Nat :=
  if type = PT_LOAD then 48 else if type = PT_DYNAMIC then 40 else 4

theorem four_le_headerEnd (type : BitVec 32) : 4 ≤ headerEnd type := by
  rw [headerEnd]
  split_ifs <;> decide

theorem fetchHeader_eq {phdr : List Byte} {i : Nat} {hdr : Phdr}
    (hdecode : Phdr.decode (fun j => phdr.getD j 0) (phdrSize * i) = hdr) :
    fetchHeader phdr i =
      if phdrSize * i + headerEnd hdr.pType ≤ phdr.length then .ok hdr
      else .error .wildAccess := by
  have hfour := four_le_headerEnd hdr.pType
  have hle (n : Nat) : phdrSize * i + n < phdr.length ↔ phdrSize * i + (n + 1) ≤ phdr.length :=
    Iff.rfl
  simp only [fetchHeader, hdecode, inBounds, hle]
  by_cases htype : phdrSize * i + (3 + 1) ≤ phdr.length
  · by_cases hload : hdr.pType = PT_LOAD
    · simp only [if_pos htype, ok_bind, if_pos hload, headerEnd]
      split_ifs <;> rfl
    by_cases hdyn : hdr.pType = PT_DYNAMIC
    · simp only [if_pos htype, ok_bind, if_neg hload, if_pos hdyn, headerEnd]
      split_ifs <;> rfl
    · simp only [if_pos htype, ok_bind, if_neg hload, if_neg hdyn, headerEnd]
      rfl
  · have hout : ¬phdrSize * i + headerEnd hdr.pType ≤ phdr.length := by omega
    rw [if_neg htype, if_neg hout]
    rfl

theorem Ehdr.decode_congr (h : ∀ j, j < ehdrSize → b j = b' j) :
    Ehdr.decode b = Ehdr.decode b' := by
  have hfield : ∀ off len, off + len ≤ ehdrSize → le b off len = le b' off len :=
    fun off len hle => le_congr fun j hj => h _ (by omega)
  have hident : (List.range 16).map b = (List.range 16).map b' := by
    refine List.map_congr_left fun j hj => h j ?_
    have hlt := List.mem_range.1 hj
    simp only [ehdrSize]
    omega
  simp only [ehdrSize] at hfield
  simp only [Ehdr.decode, hident, hfield 24 8 (by omega), hfield 32 8 (by omega),
    hfield 54 2 (by omega), hfield 56 2 (by omega)]

def Ehdr.phBytes (h : Ehdr) : Nat := h.ePhentsize.toNat * h.ePhnum.toNat

theorem Ehdr.phSize_cases (h : Ehdr) :
    h.phSize.msb = true ∨ (h.phBytes < 2 ^ 31 ∧ h.phSize = BitVec.ofNat 64 h.phBytes) := by
  have hsize := h.ePhentsize.isLt
  have hnum := h.ePhnum.isLt
  have hlt : h.phBytes < 2 ^ 32 := by
    have hmul := Nat.mul_le_mul (Nat.le_of_lt_succ hsize) (Nat.le_of_lt_succ hnum)
    simp only [phBytes]
    omega
  have hprod : (h.ePhentsize.setWidth 32 * h.ePhnum.setWidth 32).toNat = h.phBytes := by
    rw [BitVec.toNat_mul, BitVec.toNat_setWidth, BitVec.toNat_setWidth,
      Nat.mod_eq_of_lt (hsize.trans (by decide)), Nat.mod_eq_of_lt (hnum.trans (by decide))]
    exact Nat.mod_eq_of_lt hlt
  cases hmsb : (h.ePhentsize.setWidth 32 * h.ePhnum.setWidth 32).msb with
  | true =>
    refine .inl ?_
    rw [phSize, BitVec.msb_signExtend, hmsb]
    rfl
  | false =>
    have hsmall := BitVec.msb_eq_false_iff_two_mul_lt.1 hmsb
    refine .inr ⟨by omega, ?_⟩
    rw [phSize, BitVec.signExtend_eq_setWidth_of_msb_false hmsb]
    apply BitVec.eq_of_toNat_eq
    rw [BitVec.toNat_setWidth, hprod, BitVec.toNat_ofNat]

namespace Inode

def elf (ip : Inode) : Ehdr := Ehdr.decode ip.file.byte

def phdr (ip : Inode) (i : Nat) : Phdr :=
  Phdr.decode ip.file.byte (ip.elf.ePhoff.toNat + i * ip.elf.ePhentsize.toNat)

/-- The `PT_LOAD` headers among `len` program headers from the `i`-th one on. -/
def segmentsFrom (ip : Inode) (i len : Nat) : List Phdr :=
  ((List.range' i len).map ip.phdr).filter fun h => h.pType = PT_LOAD

def segments (ip : Inode) : List Phdr := ip.segmentsFrom 0 ip.elf.ePhnum.toNat

theorem segmentsFrom_succ (ip : Inode) (i len : Nat) :
    ip.segmentsFrom i (len + 1) =
      if (ip.phdr i).pType = PT_LOAD then ip.phdr i :: ip.segmentsFrom (i + 1) len
      else ip.segmentsFrom (i + 1) len := by
  simp only [segmentsFrom, List.range'_succ, List.map_cons, List.filter_cons, decide_eq_true_eq]

end Inode

/-! ## Segments -/

def segment (ip : Inode) (h : Phdr) : Region :=
  fileBacked (newRegion h.pageStart h.pageLen h.prot segmentFlags) ip h

def Phdr.Apart (a b : Phdr) : Prop :=
  a.pageStart.toNat + a.pageLen.toNat ≤ b.pageStart.toNat ∨
    b.pageStart.toNat + b.pageLen.toNat ≤ a.pageStart.toNat

instance (a b : Phdr) : Decidable (a.Apart b) :=
  inferInstanceAs (Decidable (_ ∨ _))

/-- The segments `done` have their regions, and each of `all` begins above some region. -/
def Placed (ip : Inode) (done all : List Phdr) (s : State π) (v : View) : Prop :=
  Rel s v ∧ (∀ h ∈ done, ∃ q, (q, segment ip h) ∈ v) ∧
    ∀ h ∈ all, ∃ e ∈ v, e.2.start < h.pageStart

theorem keptByUnmap_region (env : Env π) {start : BitVec 64} (r₀ : Region)
    (hapart : r₀.endAddr < start ∨ start.toNat + len.toNat ≤ r₀.start.toNat) :
    KeptByUnmap env start len fun (_ : State π) v => ∃ q, (q, r₀) ∈ v where
  remove := by
    rintro s s' v₁ p r v₂ h ⟨q, hq⟩ hlo hhi -
    have hb := h.bounds (e := (p, r)) (by simp)
    refine ⟨q, ?_⟩
    simp only [List.mem_append, List.mem_cons, Prod.mk.injEq] at hq ⊢
    rcases hq with hq | ⟨rfl, rfl⟩ | hq
    · exact .inl hq
    · exfalso
      bv_omega
    · exact .inr hq
  front := by
    rintro s v₁ p r v₂ h ⟨q, hq⟩ hlo hmid hhi
    refine ⟨q, ?_⟩
    simp only [List.mem_append, List.mem_cons, Prod.mk.injEq] at hq ⊢
    rcases hq with hq | ⟨rfl, rfl⟩ | hq
    · exact .inl hq
    · exfalso
      bv_omega
    · exact .inr (.inr hq)
  last := by
    rintro s v₁ p r v₂ h ⟨q, hq⟩ hlt hend
    refine ⟨q, ?_⟩
    simp only [List.mem_append, List.mem_cons, Prod.mk.injEq] at hq ⊢
    rcases hq with hq | ⟨rfl, rfl⟩ | hq
    · exact .inl hq
    · exfalso
      bv_omega
    · exact .inr (.inr hq)

theorem keptByUnmap_below (env : Env π) {start : BitVec 64} (ha : a ≤ start) :
    KeptByUnmap env start len fun (_ : State π) v => ∃ e ∈ v, e.2.start < a where
  remove := by
    intro s s' v₁ p r v₂ _ hbelow hlo _ _
    exact Spans.exists_remove hbelow (BitVec.not_lt.2 (BitVec.le_trans ha hlo))
  front := by
    intro s v₁ p r v₂ _ hbelow hlo _ _
    refine Spans.exists_replace hbelow fun hlt => ?_
    exact absurd hlt (BitVec.not_lt.2 (BitVec.le_trans ha hlo))
  last := by
    intro s v₁ p r v₂ _ hbelow _ _
    exact Spans.exists_replace hbelow id

theorem keptByUnmap_forall {ι : Type} {env : Env π} {start : BitVec 64}
    {M : ι → State π → View → Prop} (hM : ∀ i, KeptByUnmap env start len (M i)) :
    KeptByUnmap env start len fun s v => ∀ i, M i s v where
  remove := fun h hm hlo hhi hrem i => (hM i).remove h (hm i) hlo hhi hrem
  front := fun h hm hlo hmid hhi i => (hM i).front h (hm i) hlo hmid hhi
  last := fun h hm hlt hend i => (hM i).last h (hm i) hlt hend

def Kept (ip : Inode) (done all : List Phdr) (h : Phdr) (_ : State π) (v : View) : Prop :=
  (∀ d : { d // d ∈ done }, ∃ q, (q, segment ip d) ∈ v) ∧
    ∀ a : { a // a ∈ all ∧ a.pageStart ≤ h.pageStart }, ∃ e ∈ v, e.2.start < a.1.pageStart

theorem keptByUnmap_kept (env : Env π) (ip : Inode) {done : List Phdr} (all : List Phdr) {h : Phdr}
    (hdone : ∀ d ∈ done, (segment ip d).endAddr < h.pageStart ∨
      h.pageStart.toNat + h.pageLen.toNat ≤ (segment ip d).start.toNat) :
    KeptByUnmap env h.pageStart h.pageLen (Kept ip done all h) :=
  .and (keptByUnmap_forall fun d => keptByUnmap_region env _ (hdone d d.2))
    (keptByUnmap_forall fun a => keptByUnmap_below env a.2.2)

theorem loadSegment_spec {done all : List Phdr} {hdr : Phdr}
    (hp : Placed ip done all m.toState v) (hmem : hdr ∈ all)
    (hwrap : hdr.pageStart.toNat + hdr.pageLen.toNat ≤ 2 ^ 64)
    (hapart : ∀ d ∈ done, d.Apart hdr) :
    Safe (OpFault env.toEnv) (loadSegment env ip hdr m) fun x =>
      x.1 = .ok → ∃ v', Placed ip (done ++ [hdr]) all x.2.toState v' := by
  rcases hp with ⟨hrel, hdone, habove⟩
  have hlen : mapLen hdr.pageLen segmentFlags = hdr.pageLen := rfl
  have hdone' : ∀ d ∈ done, (segment ip d).endAddr < hdr.pageStart ∨
      hdr.pageStart.toNat + hdr.pageLen.toNat ≤ (segment ip d).start.toNat := by
    intro d hd
    rcases hdone d hd with ⟨q, hq⟩
    have hb := hrel.bounds hq
    simp only [segment, fileBacked, newRegion, mmapLimit] at hb ⊢
    rcases hapart d hd with hlt | hlt
    · refine .inl ?_
      bv_omega
    · exact .inr hlt
  have hM := keptByUnmap_kept env.toEnv ip all hdone'
  have hm : Kept ip done all hdr m.toState v :=
    ⟨fun d => hdone d d.2, fun a => habove a a.2.1⟩
  have hmap : Safe (OpFault env.toEnv)
      (mmapMapRegion env.toEnv m.toState hdr.pageStart hdr.pageLen hdr.prot segmentFlags true)
      (FixedOutcome m.toState v (newRegion hdr.pageStart (mapLen hdr.pageLen segmentFlags) hdr.prot
        segmentFlags) (Kept ip done all hdr)) :=
    hrel.mapFixed_safe rfl true (fun _ => hwrap) (fun _ => .inl (habove hdr hmem)) hM
      fun _ _ _ => hm
  refine hmap.bind ?_
  rintro ⟨ret, out, s⟩ hout
  cases hout with
  | failed hret _ _ =>
    cases ret with
    | ok => exact absurd rfl hret
    | err e => exact fun hok => absurd hok (by simp)
  | @mapped s₂ w₁ w₂ q hret _ hout _ kept _ rel =>
    simp only at hret hout rel
    subst hret hout
    intro _
    rw [hlen] at rel
    have hmemq : ∀ r : Region, (q, r) ∈ w₁ ++ (q, r) :: w₂ := fun r => by simp
    have hreg : s.region q = newRegion hdr.pageStart hdr.pageLen hdr.prot segmentFlags :=
      rel.region (q, _) (hmemq _)
    have haround := rel.around
    have hlim := rel.limit _ (hmemq _)
    have hset : Rel (s.setRegion q (segment ip hdr)) (w₁ ++ (q, segment ip hdr) :: w₂) :=
      rel.setRegion haround.1 hlim haround.2.1 haround.2.2
    refine ⟨w₁ ++ (q, segment ip hdr) :: w₂, ?_, ?_, ?_⟩
    · simp only [Image.withState]
      rw [hreg]
      exact hset
    · intro d hd
      rcases List.mem_append.1 hd with hd | hd
      · rcases kept.1 ⟨d, hd⟩ with ⟨q', hq'⟩
        refine ⟨q', ?_⟩
        simp only [List.mem_append, List.mem_cons] at hq' ⊢
        tauto
      · rw [List.mem_singleton.1 hd]
        exact ⟨q, hmemq _⟩
    · intro a ha
      by_cases hle : a.pageStart ≤ hdr.pageStart
      · rcases kept.2 ⟨a, ha, hle⟩ with ⟨e, he, hlt⟩
        exact ⟨e, Spans.mem_insert he, hlt⟩
      · -- the new region itself begins below
        exact ⟨(q, segment ip hdr), hmemq _, BitVec.not_le.1 hle⟩

/-- The header that is read from the buffer is the one of the file; of one that is not a segment
only the type matters here. -/
def ReadAs (ip : Inode) (phdr : List Byte) (j : Nat) : Prop :=
  ∀ hdr, fetchHeader phdr j = .ok hdr →
    hdr.pType = (ip.phdr j).pType ∧ (hdr.pType = PT_LOAD → hdr = ip.phdr j)

theorem loadHeaders_spec {phdr : List Byte} {len i : Nat} {dyn : Option (List Byte)}
    {done all : List Phdr} (hp : Placed ip done all m.toState v)
    (hphdr : ∀ j, j < i + len → ReadAs ip phdr j)
    (hall : done ++ ip.segmentsFrom i len = all) (hapart : all.Pairwise Phdr.Apart)
    (hwrap : ∀ h ∈ all, h.pageStart.toNat + h.pageLen.toNat ≤ 2 ^ 64) :
    Safe AnyFault (loadHeaders env ip phdr len i dyn m) fun x =>
      ∀ dyn', x.1 = .ok dyn' → ∃ v', Placed ip all all x.2.toState v' := by
  -- induction on the number of headers that are left
  induction len generalizing i dyn m v done with
  | zero =>
    intro _ _
    have hdone : done = all := by simpa [Inode.segmentsFrom] using hall
    exact ⟨v, hdone ▸ hp⟩
  | succ len ih =>
    have hnext : ∀ j, j < i + 1 + len → ReadAs ip phdr j := fun j hj => hphdr j (by omega)
    rw [Inode.segmentsFrom_succ] at hall
    rw [loadHeaders]
    refine Safe.bind (P := fun hdr => hdr.pType = (ip.phdr i).pType ∧
      (hdr.pType = PT_LOAD → hdr = ip.phdr i)) (Safe.any fun hdr => hphdr i (by omega) hdr) ?_
    rintro hdr ⟨htype, hsame⟩
    rw [htype] at hsame ⊢
    by_cases hload : (ip.phdr i).pType = PT_LOAD
    · rw [if_pos hload, hsame hload]
      rw [if_pos hload] at hall
      have hmem : ip.phdr i ∈ all := by simp [← hall]
      have hbefore : ∀ d ∈ done, d.Apart (ip.phdr i) := by
        rw [← hall, List.pairwise_append] at hapart
        exact fun d hd => hapart.2.2 d hd _ (by simp)
      refine Safe.bind ((loadSegment_spec hp hmem (hwrap _ hmem) hbefore).faults
        fun _ _ => trivial) ?_
      rintro ⟨ret, m'⟩ hseg
      cases ret with
      | err e => exact fun dyn' hok => absurd hok (by simp)
      | ok =>
        rcases hseg rfl with ⟨v', hp'⟩
        exact ih hp' hnext (by simpa using hall)
    · rw [if_neg hload] at hall ⊢
      by_cases hdyn : (ip.phdr i).pType = PT_DYNAMIC
      · rw [if_pos hdyn]
        have hstate : (loadDynamic env ip hdr m).2.toState = m.toState := by
          rw [loadDynamic]
          split_ifs
          · split <;> rfl
          · rfl
        generalize loadDynamic env ip hdr m = x at hstate
        rcases x with ⟨e | dyn', m'⟩
        · exact fun dyn' hok => absurd hok (by simp)
        · have hsame : m'.toState = m.toState := hstate
          exact ih (hsame ▸ hp) hnext hall
      · rw [if_neg hdyn]
        exact ih hp hnext hall

/-! ## Relocations and cleaning up -/

theorem relocate_spec {entry : BitVec 64} {dyn : Option (List Byte)} {all : List Phdr}
    (hp : Placed ip all all m.toState v) :
    Safe AnyFault (relocate env entry dyn m) fun x => Placed ip all all x.2.toState v := by
  have hpt : ∀ pt, Placed ip all all (m.withPt pt).toState v := by
    refine fun pt => ⟨⟨?_, hp.1.mapped⟩, hp.2⟩
    exact hp.1.toListed.congr rfl rfl le_rfl fun _ _ => ⟨rfl, rfl, rfl⟩
  cases dyn with
  | none => exact hp
  | some dyn =>
    rw [relocate]
    refine Safe.bind (P := fun _ => True) (Safe.any fun _ _ => trivial) ?_
    intro d _
    split_ifs
    · refine Safe.bind (P := fun _ => True) (Safe.any fun _ _ => trivial) ?_
      exact fun x _ => hpt x.2
    · exact hp

theorem keptByUnmap_true (env : Env π) (start len : BitVec 64) :
    KeptByUnmap env start len fun (_ : State π) _ => True where
  remove := fun _ _ _ _ _ => trivial
  front := fun _ _ _ _ _ => trivial
  last := fun _ _ _ _ => trivial

theorem loadError_spec (hrel : Rel m.toState v) (err : Except Errno Nat) :
    Safe (OpFault env.toEnv) (loadError env err m) fun x => x.1 = err := by
  have hclean : Safe (OpFault env.toEnv) (clean env m) fun _ => True := by
    refine Safe.bind ((hrel.unmap_safe (keptByUnmap_true _ _ _) trivial).mono fun _ _ => trivial) ?_
    rintro ⟨ret | e, s⟩ - <;> exact trivial
  exact Safe.bind hclean fun _ _ => rfl

theorem loadError_ret (err : Except Errno Nat) (m : Image π) :
    Safe AnyFault (loadError env err m) fun x => x.1 = err :=
  Safe.bind (P := fun _ => True) (Safe.any fun _ _ => trivial) fun _ _ => rfl

/-! ## Loaded programs -/

/-- Where the page-fault handler takes the byte at an address of a region from: an offset of an
inode, or nowhere, and then it is zero. -/
def backing (r : Region) (a : BitVec 64) : Option (Nat × BitVec 64) :=
  match r.file with
  | none => none
  | some ino => if a - r.start < r.filesz then some (ino, r.fileOffset a) else none

/-- The `i`-th byte of a segment is mapped with the permissions of its header, and is the byte of
the file at the same place behind `p_offset`, or zero. -/
def ByteLoaded (env : LoadEnv π) (ip : Inode) (h : Phdr) (s : State π) (i : Nat) : Prop :=
  ∃ p, mmapFind s (h.pVaddr + BitVec.ofNat 64 i) = .ok (some p) ∧
    (Arch.vmrRead (s.region p) = has h.pFlags PF_R ∧
      Arch.vmrWrite (s.region p) = has h.pFlags PF_W ∧
      Arch.vmrExec (s.region p) = has h.pFlags PF_X) ∧
    backing (s.region p) (h.pVaddr + BitVec.ofNat 64 i) =
      (if i < h.pFilesz.toNat then some (ip.ino, h.pOffset + BitVec.ofNat 64 i) else none) ∧
    ∀ n b, loadedByte env n ip (s.region p) (h.pVaddr + BitVec.ofNat 64 i) = .ok b →
      b = if i < h.pFilesz.toNat then ip.file.byte (h.pOffset + BitVec.ofNat 64 i).toNat else 0

structure Loaded (env : LoadEnv π) (ip : Inode) (m : Image π) : Prop where
  entry : m.entry = ip.elf.eEntry
  bytes : ∀ h ∈ ip.segments, ∀ i, i < h.pMemsz.toNat → ByteLoaded env ip h m.toState i

/-- The program headers can be read in full at the event `n`. -/
def HeadersRead (env : LoadEnv π) (n : Nat) (ip : Inode) : Prop :=
  ∃ bs, iread env n ip ip.elf.ePhoff (BitVec.ofNat 64 ip.elf.phBytes) = .ok bs ∧
    bs.length = ip.elf.phBytes

/-- The program headers have the size that the loader takes them to have, the pages of two segments
are apart and below the end of memory, the pages of a segment cover its memory, and no segment
would become the first region of the address space. -/
structure Loadable (ip : Inode) (v : View) : Prop where
  stride : ip.elf.ePhnum.toNat ≤ 1 ∨ ip.elf.ePhentsize.toNat = phdrSize
  apart : ip.segments.Pairwise Phdr.Apart
  wrap : ∀ h ∈ ip.segments, h.pageStart.toNat + h.pageLen.toNat ≤ 2 ^ 64
  covered : ∀ h ∈ ip.segments, h.pMemsz ≠ 0 →
    h.pVaddr.toNat % 4096 + h.pMemsz.toNat ≤ h.pageLen.toNat
  above : ∀ h ∈ ip.segments, ∃ e ∈ v, e.2.start < h.pageStart

def Aligned (ip : Inode) : Prop :=
  ∀ h ∈ ip.segments, h.pFilesz ≠ 0 → h.pVaddr.toNat % 4096 = 0

theorem pround_toNat (a : BitVec 64) : (PGROUND a).toNat = a.toNat / 4096 * 4096 :=
  Align.toNat_roundDown (k := 12) a rfl

theorem page_split (a : BitVec 64) : ∃ j, j < 4096 ∧ (a - PGROUND a).toNat = j ∧
    a = PGROUND a + BitVec.ofNat 64 j := by
  have hround := pround_toNat a
  refine ⟨a.toNat % 4096, Nat.mod_lt _ (by decide), ?_, ?_⟩ <;> bv_omega

theorem pround_le (a : BitVec 64) : PGROUND a ≤ a := by
  rw [BitVec.le_def, pround_toNat]
  exact Nat.div_mul_le_self _ _

theorem le_pround {a b : BitVec 64} (hb : b.toNat % 4096 = 0) (h : b ≤ a) : b ≤ PGROUND a := by
  rw [BitVec.le_def] at h ⊢
  rw [pround_toNat]
  omega

theorem sub_split {a b p : BitVec 64} {j : Nat} (haddr : a = p + BitVec.ofNat 64 j)
    (hj : j < 4096) (hbp : b ≤ p) (hpa : p ≤ a) :
    a - b = p - b + BitVec.ofNat 64 j ∧ (a - b).toNat = (p - b).toNat + j := by
  constructor <;> bv_omega

theorem toNat_add_of_lt {isize off : BitVec 64} {j : Nat} (hj : j < 4096)
    (hsmall : isize.toNat < 2 ^ 63) (hoff : off.toNat < isize.toNat + 4096) :
    (off + BitVec.ofNat 64 j).toNat = off.toNat + j := by
  bv_omega

theorem lt_readSize_iff {r : Region} {isize off size : BitVec 64} {j : Nat} (hj : j < 4096) :
    j < (Arch.readSize r isize off size).toNat ↔
      size.toNat + j < r.filesz.toNat ∧ j < (isize - off).toNat := by
  simp only [Arch.readSize, PGSZ]
  generalize isize - off = rest
  split_ifs <;> bv_omega

theorem beyond_of_le {isize off : BitVec 64} {j : Nat} (hj : j < 4096)
    (hsmall : isize.toNat < 2 ^ 63) (h : (isize - off).toNat ≤ j) :
    isize.toNat ≤ (off + BitVec.ofNat 64 j).toNat := by
  bv_omega

theorem loadedByte_spec {r : Region} {b : Byte} (hfile : r.file = some ip.ino)
    (hstart : r.start.toNat % 4096 = 0) (ha : r.start ≤ a) (h : loadedByte env n ip r a = .ok b) :
    b = match backing r a with
      | some o => ip.file.byte o.2.toNat
      | none => 0 := by
  have hsmall := ip.file.small
  -- the page begins in the region, and the address is `j` bytes behind its beginning
  have hpage := le_pround hstart ha
  rcases page_split a with ⟨j, hj, hdiff, haddr⟩
  rw [loadedByte] at h
  by_cases hzero : ip.file.size = 0
  · rw [if_pos hzero] at h
    cases h
  rw [if_neg hzero] at h
  simp only [hdiff] at h
  obtain ⟨size, hsize⟩ : ∃ size, size = PGROUND a - r.start := ⟨_, rfl⟩
  obtain ⟨off, hoff⟩ : ∃ off, off = size + r.filePos := ⟨_, rfl⟩
  rw [← hsize, ← hoff] at h
  rcases sub_split haddr hj hpage (pround_le a) with ⟨hfrom, hfrom'⟩
  rw [← hsize] at hfrom hfrom'
  have hfileOff : r.fileOffset a = off + BitVec.ofNat 64 j := by
    rw [Region.fileOffset, hfrom, hoff]
    ac_rfl
  have hbacking : backing r a = if size.toNat + j < r.filesz.toNat then
      some (ip.ino, off + BitVec.ofNat 64 j) else none := by
    simp only [backing, hfile, BitVec.lt_def, hfrom', hfileOff]
  generalize hcount : Arch.readSize r ip.file.size off size = count at h
  cases hread : iread env n ip off count with
  | error e => simp [hread] at h
  | ok bs =>
    simp only [hread, Except.ok.injEq] at h
    subst h
    rcases iread_spec hread with ⟨hlen, -, hin, hbytes⟩
    rw [hbacking]
    by_cases hj' : j < count.toNat
    · -- the byte has been read
      have hlt := ((lt_readSize_iff hj).1 (hcount ▸ hj')).1
      have hoff' := hin (by omega)
      have hnat := toNat_add_of_lt hj hsmall hoff'
      rw [if_pos hlt, hbytes j hj', ← hnat]
    · -- the buffer is zero there, and so is the file
      rw [List.getD_eq_getElem?_getD, List.getElem?_eq_none (by omega)]
      by_cases hlt : size.toNat + j < r.filesz.toNat
      · rw [if_pos hlt]
        have hrest : (ip.file.size - off).toNat ≤ j := by
          rw [← hcount, lt_readSize_iff hj] at hj'
          exact not_lt.1 fun hmore => hj' ⟨hlt, hmore⟩
        exact (ip.file.byte_beyond (beyond_of_le hj hsmall hrest)).symm
      · rw [if_neg hlt]
        rfl

theorem segment_flags (ip : Inode) (h : Phdr) :
    Arch.vmrRead (segment ip h) = has h.pFlags PF_R ∧
      Arch.vmrWrite (segment ip h) = has h.pFlags PF_W ∧
      Arch.vmrExec (segment ip h) = has h.pFlags PF_X := by
  simp only [Arch.vmrRead, Arch.vmrWrite, Arch.vmrExec, segment, fileBacked, newRegion, mapFlags,
    Phdr.prot]
  generalize has h.pFlags PF_X = x
  generalize has h.pFlags PF_W = w
  generalize has h.pFlags PF_R = r
  revert x w r
  decide

theorem segment_backing (ip : Inode) (h : Phdr) :
    backing (segment ip h) a = if (a - h.pageStart).toNat < h.pFilesz.toNat then
      some (ip.ino, a - h.pageStart + h.pOffset) else none := by
  simp only [← BitVec.lt_def]
  rfl

section Placed

variable {h : Phdr} {q i : Nat} {s : State π}

theorem segment_found (hrel : Rel s v) (hq : (q, segment ip h) ∈ v)
    (hcovered : h.pVaddr.toNat % 4096 + h.pMemsz.toNat ≤ h.pageLen.toNat)
    (hi : i < h.pMemsz.toNat) :
    mmapFind s (h.pVaddr + BitVec.ofNat 64 i) = .ok (some q) ∧ s.region q = segment ip h ∧
      h.pageStart ≤ h.pVaddr + BitVec.ofNat 64 i ∧
      (h.pVaddr + BitVec.ofNat 64 i - h.pageStart).toNat = h.pVaddr.toNat % 4096 + i := by
  have hb := hrel.bounds hq
  simp only [segment, fileBacked, newRegion, mmapLimit] at hb
  have hround : h.pageStart.toNat = h.pVaddr.toNat / 4096 * 4096 := pround_toNat h.pVaddr
  have hlo : h.pageStart ≤ h.pVaddr + BitVec.ofNat 64 i := by bv_omega
  have hhi : h.pVaddr + BitVec.ofNat 64 i ≤ h.pageStart + h.pageLen - 1 := by bv_omega
  refine ⟨?_, hrel.region _ hq, hlo, by bv_omega⟩
  rcases List.append_of_mem hq with ⟨v₁, v₂, rfl⟩
  exact hrel.find_at hlo hhi

theorem byteLoaded_of_aligned (hrel : Rel s v) (hq : (q, segment ip h) ∈ v)
    (hcovered : h.pVaddr.toNat % 4096 + h.pMemsz.toNat ≤ h.pageLen.toNat)
    (haligned : h.pFilesz ≠ 0 → h.pVaddr.toNat % 4096 = 0) (hi : i < h.pMemsz.toNat) :
    ByteLoaded env ip h s i := by
  rcases segment_found hrel hq hcovered hi with ⟨hfind, hreg, hle, hdist⟩
  have hstart : (segment ip h).start.toNat % 4096 = 0 := by
    have hround : (segment ip h).start.toNat = h.pVaddr.toNat / 4096 * 4096 :=
      pround_toNat h.pVaddr
    omega
  have hback : backing (segment ip h) (h.pVaddr + BitVec.ofNat 64 i) =
      if i < h.pFilesz.toNat then some (ip.ino, h.pOffset + BitVec.ofNat 64 i) else none := by
    rw [segment_backing, hdist]
    by_cases hfile : h.pFilesz = 0
    · simp [hfile]
    · rw [haligned hfile] at hdist ⊢
      have hoff : h.pVaddr + BitVec.ofNat 64 i - h.pageStart = BitVec.ofNat 64 i := by bv_omega
      rw [hoff, Nat.zero_add, BitVec.add_comm]
  refine ⟨q, hfind, ?_, ?_, ?_⟩
  · rw [hreg]
    exact segment_flags ip h
  · rw [hreg, hback]
  · intro n b hb
    rw [hreg] at hb
    have hbyte := loadedByte_spec rfl hstart hle hb
    rw [hback] at hbyte
    rw [hbyte]
    by_cases hi' : i < h.pFilesz.toNat
    · simp only [if_pos hi']
    · simp only [if_neg hi']

theorem aligned_of_byteLoaded (hrel : Rel s v) (hq : (q, segment ip h) ∈ v)
    (hcovered : h.pVaddr.toNat % 4096 + h.pMemsz.toNat ≤ h.pageLen.toNat)
    (hmem : h.pMemsz ≠ 0) (hbyte : ByteLoaded env ip h s 0) (hfile : h.pFilesz ≠ 0) :
    h.pVaddr.toNat % 4096 = 0 := by
  have hpos : 0 < h.pMemsz.toNat := by bv_omega
  have hpos' : 0 < h.pFilesz.toNat := by bv_omega
  rcases segment_found hrel hq hcovered hpos with ⟨hfind, hreg, hle, hdist⟩
  rcases hbyte with ⟨p, hfind', -, hback, -⟩
  rw [hfind] at hfind'
  cases hfind'
  rw [hreg, segment_backing, if_pos hpos'] at hback
  split_ifs at hback with hin
  simp only [Option.some.injEq, Prod.mk.injEq, true_and] at hback
  bv_omega

end Placed

theorem memsz_ne_zero {h : Phdr} {q : Nat} {s : State π} (hrel : Rel s v)
    (hq : (q, segment ip h) ∈ v) : h.pMemsz ≠ 0 := by
  intro hzero
  have hb := hrel.bounds hq
  have hlen : h.pageLen = 0 := by
    rw [Phdr.pageLen, hzero]
    rfl
  simp only [segment, fileBacked, newRegion, mmapLimit, hlen] at hb
  bv_omega

theorem phdr_of_buffer {n : Nat} {phdr : List Byte} (hload : Loadable ip v)
    (hread : iread env n ip ip.elf.ePhoff (BitVec.ofNat 64 ip.elf.phBytes) = .ok phdr)
    (hlen : phdr.length = ip.elf.phBytes) (hsize : ip.elf.phBytes < 2 ^ 31) {j : Nat}
    (hj : j < ip.elf.ePhnum.toNat) : ReadAs ip phdr j := by
  have hsize' : (BitVec.ofNat 64 ip.elf.phBytes).toNat = ip.elf.phBytes := by
    rw [BitVec.toNat_ofNat, Nat.mod_eq_of_lt (by omega)]
  rcases iread_spec hread with ⟨-, -, -, hbytes⟩
  rw [hsize'] at hbytes
  have hstride : phdrSize * j = j * ip.elf.ePhentsize.toNat := by
    rcases hload.stride with hone | heq
    · have hzero : j = 0 := by omega
      simp [hzero]
    · rw [heq, Nat.mul_comm]
  have hbyte (b : Nat) (hlt : phdrSize * j + b < phdr.length) :
      phdr.getD (phdrSize * j + b) 0 =
        ip.file.byte (ip.elf.ePhoff.toNat + j * ip.elf.ePhentsize.toNat + b) := by
    rw [hbytes _ (hlen ▸ hlt), hstride, Nat.add_assoc]
  intro hdr hfetch
  rw [fetchHeader_eq rfl] at hfetch
  split_ifs at hfetch with hin
  cases hfetch
  have hfour := four_le_headerEnd
    (Phdr.decode (fun b => phdr.getD b 0) (phdrSize * j)).pType
  refine ⟨Phdr.pType_congr fun b hb => hbyte b (by omega), fun htype => ?_⟩
  rw [headerEnd, if_pos htype] at hin
  exact Phdr.decode_congr fun b hb => hbyte b (by omega)

theorem read_short {n : Nat} {off sz : BitVec 64}
    (h : iread env n ip off sz = .ok bs) (hshort : bs.length ≠ sz.toNat) : bs.length ≠ 0 := by
  intro hzero
  have hnil : bs = [] := List.eq_nil_of_length_eq_zero hzero
  rw [(iread_spec h).2.1 hnil] at hshort
  exact hshort hzero

theorem ehdr_of_read {n : Nat}
    (h : iread env n ip 0 (BitVec.ofNat 64 ehdrSize) = .ok bs) :
    Ehdr.decode (fun j => bs.getD j 0) = ip.elf := by
  rcases iread_spec h with ⟨-, -, -, hbytes⟩
  refine Ehdr.decode_congr fun j hj => ?_
  rw [hbytes j hj]
  exact congrArg _ (Nat.zero_add j)

theorem loadImage_spec {n : Nat} {phdr : List Byte} (hwf : Rel m.toState v)
    (hload : Loadable ip v)
    (hread : iread env n ip ip.elf.ePhoff (BitVec.ofNat 64 ip.elf.phBytes) = .ok phdr)
    (hlen : phdr.length = ip.elf.phBytes) (hsize : ip.elf.phBytes < 2 ^ 31) :
    Safe AnyFault (loadImage env ip ip.elf phdr m) fun x =>
      x.1 = .ok 0 → (Loaded env ip x.2 ↔ Aligned ip) := by
  rw [loadImage]
  have hplaced : Placed ip [] ip.segments m.toState v :=
    ⟨hwf, fun _ hd => absurd hd (by simp), hload.above⟩
  have hphdr : ∀ j, j < 0 + ip.elf.ePhnum.toNat → ReadAs ip phdr j :=
    fun j hj => phdr_of_buffer hload hread hlen hsize (by omega)
  refine (loadHeaders_spec hplaced hphdr rfl hload.apart hload.wrap).bind ?_
  rintro ⟨e | dyn, m1⟩ hloop
  · refine (loadError_ret _ m1).mono ?_
    exact fun x hx h0 => absurd (hx.symm.trans h0) (by simp)
  rcases hloop dyn rfl with ⟨v₁, hp⟩
  refine (relocate_spec hp).bind ?_
  rintro ⟨_ | e, m2⟩ hp'
  swap
  · refine (loadError_ret _ m2).mono ?_
    exact fun x hx h0 => absurd (hx.symm.trans h0) (by simp)
  intro _
  rcases hp' with ⟨hrel, hregions, -⟩
  -- every segment has its region, and its region its memory
  constructor
  · intro hloaded h hh
    rcases hregions h hh with ⟨q, hq⟩
    have hmem := memsz_ne_zero hrel hq
    have hbyte := hloaded.bytes h hh 0 (by bv_omega)
    exact aligned_of_byteLoaded hrel hq (hload.covered h hh hmem) hmem hbyte
  · intro haligned
    refine ⟨rfl, fun h hh i hi => ?_⟩
    rcases hregions h hh with ⟨q, hq⟩
    have hmem := memsz_ne_zero hrel hq
    exact byteLoaded_of_aligned hrel hq (hload.covered h hh hmem) (haligned h hh) hi

/-- As long as its segments share no page and each covers its memory, a file that `elf_loader`
accepts is loaded byte by byte exactly when every segment with bytes in the file begins at a page
boundary; and program headers that cannot be read in full are always reported. -/
theorem elf_loaded_iff_aligned (env : LoadEnv π) (ip : Inode) (m : Image π) (v : View)
    (hwf : Rel m.toState v) :
    (Loadable ip v → Safe AnyFault (elfLoader env ip m) fun x =>
      x.1 = .ok 0 → (Loaded env ip x.2 ↔ Aligned ip)) ∧
    (¬ HeadersRead env (m.ticks + 2) ip → Safe (OpFault env.toEnv) (elfLoader env ip m) fun x =>
      x.1 ≠ .ok 0) := by
  rw [elfLoader]
  cases hehdr : iread env m.ticks ip 0 (BitVec.ofNat 64 ehdrSize) with
  | error e => exact ⟨fun _ h0 => absurd h0 (by simp), fun _ => by simp [Safe]⟩
  | ok bs =>
    simp only
    by_cases hfull : bs.length ≠ ehdrSize
    · -- a short reading of the file header is returned as it is
      rw [if_pos hfull]
      have hne := read_short hehdr hfull
      refine ⟨fun _ h0 => ?_, fun _ h0 => ?_⟩
      · exact absurd (Except.ok.inj h0) hne
      · exact absurd (Except.ok.inj h0) hne
    rw [if_neg hfull, ehdr_of_read hehdr]
    rcases ip.elf.phSize_cases with hmsb | ⟨hsmall, hsize⟩
    · -- a negative size is more memory than there is
      rw [if_neg (by simp [env.kmalloc_huge _ _ hmsb])]
      exact ⟨fun _ h0 => absurd h0 (by simp), fun _ => by simp [Safe]⟩
    by_cases halloc : env.kmalloc (m.ticks + 1) ip.elf.phSize = true
    swap
    · rw [if_neg halloc]
      exact ⟨fun _ h0 => absurd h0 (by simp), fun _ => by simp [Safe]⟩
    rw [if_pos halloc, hsize]
    have hnat : (BitVec.ofNat 64 ip.elf.phBytes).toNat = ip.elf.phBytes := by
      rw [BitVec.toNat_ofNat, Nat.mod_eq_of_lt (by omega)]
    have hwf' : Rel m.tick.tick.tick.toState v := hwf
    cases hread : iread env (m.ticks + 2) ip ip.elf.ePhoff
        (BitVec.ofNat 64 ip.elf.phBytes) with
    | error e =>
      refine ⟨fun _ => (loadError_ret _ _).mono ?_, fun _ => (loadError_spec hwf' _).mono ?_⟩
      · exact fun x hx h0 => absurd (hx.symm.trans h0) (by simp)
      · exact fun x hx h0 => absurd (hx.symm.trans h0) (by simp)
    | ok phdr =>
      simp only [hnat]
      by_cases hphdr : phdr.length = ip.elf.phBytes
      · rw [if_neg (by simp [hphdr])]
        refine ⟨fun hload => ?_, fun hno => absurd ⟨phdr, hread, hphdr⟩ hno⟩
        exact loadImage_spec hwf' hload hread hphdr hsmall
      · rw [if_pos hphdr]
        have hne := read_short hread (by rwa [hnat])
        refine ⟨fun _ => (loadError_ret _ _).mono ?_, fun _ => (loadError_spec hwf' _).mono ?_⟩
        · exact fun x hx h0 => absurd (Except.ok.inj (hx.symm.trans h0)) hne
        · exact fun x hx h0 => absurd (Except.ok.inj (hx.symm.trans h0)) hne

/-! ## Two files -/

/-- `len` bytes of a number, the least significant one first. -/
def leBytes (len x : Nat) : List Byte :=
  (List.range len).map fun j => BitVec.ofNat 8 (x / 256 ^ j)

/-- A file header with the entry point `entry` and `phnum` program headers behind it. -/
def sampleEhdr (entry phnum : Nat) : List Byte :=
  [0x7F, 0x45, 0x4C, 0x46, ELFCLASS64, ELFDATA2LSB, EV_CURRENT] ++ leBytes 9 0 ++ leBytes 2 2 ++
    leBytes 2 62 ++ leBytes 4 1 ++ leBytes 8 entry ++ leBytes 8 64 ++ leBytes 8 0 ++ leBytes 4 0 ++
    leBytes 2 64 ++ leBytes 2 phdrSize ++ leBytes 2 phnum ++ leBytes 6 0

def samplePhdr (flags offset vaddr filesz memsz : Nat) : List Byte :=
  leBytes 4 1 ++ leBytes 4 flags ++ leBytes 8 offset ++ leBytes 8 vaddr ++ leBytes 8 vaddr ++
    leBytes 8 filesz ++ leBytes 8 memsz ++ leBytes 8 0x1000

/-- A file with the contents `bytes`, without a page cache. -/
def sampleInode (bytes : List Byte) (h : bytes.length < 2 ^ 63) : Inode :=
  { ino := 7
    file :=
      { size := BitVec.ofNat 64 bytes.length
        data := some bytes
        sized := by
          rw [BitVec.toNat_ofNat, Nat.mod_eq_of_lt (by omega)]
          rfl
        small := by
          rw [BitVec.toNat_ofNat, Nat.mod_eq_of_lt (by omega)]
          exact h }
    cached := false }

def LoadEnv.plain : LoadEnv Unit :=
  { Env.plain with
    kmalloc := fun _ size => !size.msb
    kmalloc_huge := fun _ _ h => by simp [h]
    getpage := fun _ _ => none
    fullvmUnmap := id
    load := fun _ _ _ => .ok (0, ())
    loadStr := fun _ _ => .ok ([], ())
    store := fun _ _ _ => .ok ()
    symbTab := [] }

def bootImage : Image Unit := { bootState with entry := 0, ticks := 0 }

theorem bootImage_rel : ∃ q, Rel bootImage.toState [(q, nullRegion)] := by
  have hinit : mmapInit Env.plain () = .ok (.ok, bootState) := rfl
  rcases mmapInit_rel hinit with ⟨q, hrel, -⟩
  exact ⟨q, hrel⟩

def alignedFile : Inode :=
  sampleInode (sampleEhdr 0x20000B0 2 ++ samplePhdr 5 0 0x2000000 184 184 ++
    samplePhdr 6 0 0x2001000 0 0x1000 ++ leBytes 8 0xC3) (by decide +kernel)

theorem elf_loaded_iff_aligned_file :
    elfCheck LoadEnv.plain 0 alignedFile = .ok ∧
    (elfLoader LoadEnv.plain alignedFile bootImage).toOption.map (·.1.toOption) = some (some 0) ∧
    ∃ v, Loadable alignedFile v ∧ Aligned alignedFile ∧
      ((Loadable alignedFile v →
        Safe AnyFault (elfLoader LoadEnv.plain alignedFile bootImage) fun x =>
          x.1 = .ok 0 → (Loaded LoadEnv.plain alignedFile x.2 ↔ Aligned alignedFile)) ∧
      (¬ HeadersRead LoadEnv.plain (bootImage.ticks + 2) alignedFile →
        Safe (OpFault LoadEnv.plain.toEnv) (elfLoader LoadEnv.plain alignedFile bootImage) fun x =>
          x.1 ≠ .ok 0)) := by
  rcases bootImage_rel with ⟨q, hwf⟩
  refine ⟨by decide +kernel, by decide +kernel, [(q, nullRegion)], ?_, ?_,
    elf_loaded_iff_aligned LoadEnv.plain alignedFile bootImage _ hwf⟩
  · have habove : ∀ h ∈ alignedFile.segments, nullRegion.start < h.pageStart := by decide +kernel
    refine ⟨.inr (by decide +kernel), by decide +kernel, by decide +kernel, by decide +kernel, ?_⟩
    exact fun h hh => ⟨(q, nullRegion), by simp, habove h hh⟩
  · simp only [Aligned]
    decide +kernel

/-- A program whose only segment begins behind the headers, at the same place of its page as in the
file. -/
def skewedFile : Inode :=
  sampleInode (sampleEhdr 0x2000078 1 ++ samplePhdr 5 0x78 0x2000078 8 8 ++
    leBytes 8 0xC3C3C3C3C3C3C3C3) (by decide +kernel)

def skewedImage : Except Errno Nat × Image Unit :=
  outcome (elfLoader LoadEnv.plain skewedFile bootImage) (.ok 1, bootImage)

/-- The first byte of the segment is looked for at the offset `0xF0` of the file instead of `0x78`,
and reads as zero. -/
theorem skewed_segment_misplaced :
    elfCheck LoadEnv.plain 0 skewedFile = .ok ∧
    (∀ h ∈ skewedFile.segments, h.pVaddr.toNat % 4096 = h.pOffset.toNat % 4096) ∧
    elfLoader LoadEnv.plain skewedFile bootImage = .ok skewedImage ∧
    skewedImage.1.toOption = some 0 ∧
    (mmapFind skewedImage.2.toState 0x2000078).toOption = some (some 1) ∧
    backing (skewedImage.2.region 1) 0x2000078 = none ∧
    (loadedByte LoadEnv.plain 3 skewedFile (skewedImage.2.region 1) 0x2000078).toOption = some 0 ∧
    skewedFile.file.byte 0x78 = 0xC3 ∧
    ¬ Loaded LoadEnv.plain skewedFile skewedImage.2 := by
  have hfind : (mmapFind skewedImage.2.toState 0x2000078).toOption = some (some 1) := by
    decide +kernel
  have hback : backing (skewedImage.2.region 1) 0x2000078 = none := by decide +kernel
  refine ⟨by decide +kernel, by decide +kernel, eq_ok_outcome (by decide +kernel),
    by decide +kernel, hfind, hback, by decide +kernel, by decide +kernel, ?_⟩
  intro hloaded
  have hmem : skewedFile.phdr 0 ∈ skewedFile.segments := by decide +kernel
  rcases hloaded.bytes _ hmem 0 (by decide +kernel) with ⟨p, hp, -, hbyte, -⟩
  have haddr : (skewedFile.phdr 0).pVaddr + BitVec.ofNat 64 0 = 0x2000078 := by decide +kernel
  rw [haddr] at hp hbyte
  rw [hp] at hfind
  cases hfind
  rw [hback, if_pos (by decide +kernel)] at hbyte
  cases hbyte

end Sys
end XytherOS
