import XytherOS.Ds.Bitmap
import XytherOS.Ds.BitmapWords

/-!
# BitmapPositions — the words of a bitmap as a set of positions

`Represents` says that the bits of all words are the positions of a set.  Every call keeps that, with
the set that the call asks for, and the functions that look at whole words then see the set.
-/

namespace XytherOS
namespace Ds

open WordBits
open Finset (Ico)

namespace BitmapWords

/-! ## Sizes -/

theorem numUnits_eq {size : Nat} (h : ValidSize size) :
    numUnits size = (size + 63) / 64 := by
  rw [numUnits, Nat.mod_eq_of_lt (by have := h.2; omega)]

theorem numUnits_spec {size : Nat} (h : ValidSize size) :
    0 < numUnits size ∧ size ≤ 64 * numUnits size ∧ 64 * numUnits size < size + 64 ∧
      excessBits size = 64 * numUnits size - size := by
  rcases h with ⟨hpos, hle⟩
  have hunits := numUnits_eq ⟨hpos, hle⟩
  refine ⟨by omega, by omega, by omega, ?_⟩
  rw [excessBits]
  omega

theorem range_eq {pos nbits : Nat} (h : pos + nbits ≤ 2 ^ 64 - 1) :
    (range pos nbits).Nodup ∧ ∀ k, k ∈ range pos nbits ↔ k ∈ Ico pos (pos + nbits) := by
  have hmap : range pos nbits = (List.range nbits).map fun i => pos + i := by
    refine List.map_congr_left fun i hi => Nat.mod_eq_of_lt ?_
    have := List.mem_range.1 hi
    omega
  rw [hmap]
  refine ⟨List.nodup_range.map fun i j hij => by simpa using hij, fun k => ?_⟩
  simp only [List.mem_map, List.mem_range, Finset.mem_Ico]
  constructor
  · rintro ⟨i, hi, rfl⟩
    omega
  · intro hk
    exact ⟨k - pos, by omega, by omega⟩

theorem isSet_eq (m : Nat → Word) (k : Nat) : isSet m k = bitAt m k :=
  and_mask_ne_zero (by decide) m k

/-! ## The set of a bitmap -/

structure Represents (b : BitmapWords) (s : Positions) : Prop where
  size : b.bmSize = s.size
  valid : ValidSize s.size
  below : ∀ k ∈ s.elems, k < s.size
  bits : ∀ k < 64 * numUnits s.size, bitAt b.bmMap k = decide (k ∈ s.elems)

variable {b : BitmapWords} {s : Positions} {pos nbits : Nat}

namespace Represents

theorem inside (h : Represents b s) {k : Nat} (hk : k < s.size) :
    bitAt b.bmMap k = decide (k ∈ s.elems) :=
  h.bits k (Nat.lt_of_lt_of_le hk (numUnits_spec h.valid).2.1)

theorem sum_lt (h : Represents b s) (hsum : pos + nbits ≤ s.size) : pos + nbits ≤ 2 ^ 64 - 1 := by
  have := h.valid.2
  omega

theorem any_set (h : Represents b s) (hsum : pos + nbits ≤ s.size) :
    (range pos nbits).any (isSet b.bmMap) = !decide (Disjoint (Ico pos (pos + nbits)) s.elems) := by
  rw [Bool.eq_iff_iff, List.any_eq_true, Bool.not_eq_true', decide_eq_false_iff_not,
    Finset.disjoint_left]
  push Not
  constructor
  · rintro ⟨k, hk, hset⟩
    have hk' := ((range_eq (h.sum_lt hsum)).2 k).1 hk
    rw [isSet_eq, h.inside (by rw [Finset.mem_Ico] at hk'; omega)] at hset
    exact ⟨k, hk', of_decide_eq_true hset⟩
  · rintro ⟨k, hk, hmem⟩
    refine ⟨k, ((range_eq (h.sum_lt hsum)).2 k).2 hk, ?_⟩
    rw [isSet_eq, h.inside (h.below k hmem)]
    exact decide_eq_true hmem

theorem any_unset (h : Represents b s) (hsum : pos + nbits ≤ s.size) :
    ((range pos nbits).any fun k => !isSet b.bmMap k) =
      !decide (Ico pos (pos + nbits) ⊆ s.elems) := by
  rw [Bool.eq_iff_iff, List.any_eq_true, Bool.not_eq_true', decide_eq_false_iff_not,
    Finset.not_subset]
  constructor
  · rintro ⟨k, hk, hset⟩
    have hk' := ((range_eq (h.sum_lt hsum)).2 k).1 hk
    rw [isSet_eq, h.inside (by rw [Finset.mem_Ico] at hk'; omega)] at hset
    exact ⟨k, hk', by simpa using hset⟩
  · rintro ⟨k, hk, hmem⟩
    refine ⟨k, ((range_eq (h.sum_lt hsum)).2 k).2 hk, ?_⟩
    rw [isSet_eq, h.inside (by rw [Finset.mem_Ico] at hk; omega)]
    simpa using hmem

theorem modified (h : Represents b s) {f : Word → Word → Word} {g : Bool → Bool} (hf : Acts f g)
    (hsum : pos + nbits ≤ s.size) {elems : Finset Nat}
    (hin : ∀ k ∈ Ico pos (pos + nbits), decide (k ∈ elems) = g (decide (k ∈ s.elems)))
    (hout : ∀ k, k ∉ Ico pos (pos + nbits) → (k ∈ elems ↔ k ∈ s.elems)) :
    Represents { b with bmMap := modifyAll f (range pos nbits) b.bmMap }
      { s with elems := elems } := by
  rcases range_eq (h.sum_lt hsum) with ⟨hnodup, hmem⟩
  refine ⟨h.size, h.valid, fun k hk => ?_, fun k hk => ?_⟩
  · show k < s.size
    by_cases hrange : k ∈ Ico pos (pos + nbits)
    · rw [Finset.mem_Ico] at hrange
      omega
    · exact h.below k ((hout k hrange).1 hk)
  · rw [bitAt_modifyAll (by decide) hf hnodup, h.bits k hk]
    by_cases hrange : k ∈ Ico pos (pos + nbits)
    · rw [if_pos ((hmem k).2 hrange), hin k hrange]
    · rw [if_neg fun hk' => hrange ((hmem k).1 hk')]
      simp only [hout k hrange]

theorem added (h : Represents b s) (hsum : pos + nbits ≤ s.size) :
    Represents { b with bmMap := modifyAll (fun x y => x ||| y) (range pos nbits) b.bmMap }
      { s with elems := s.elems ∪ Ico pos (pos + nbits) } := by
  refine h.modified acts_or hsum (fun k hk => ?_) fun k hk => ?_
  · exact decide_eq_true (Finset.mem_union_right _ hk)
  · simp only [Finset.mem_union, hk, or_false]

theorem removed (h : Represents b s) (hsum : pos + nbits ≤ s.size) :
    Represents { b with bmMap := modifyAll (fun x y => x &&& ~~~y) (range pos nbits) b.bmMap }
      { s with elems := s.elems \ Ico pos (pos + nbits) } := by
  refine h.modified acts_and_not hsum (fun k hk => ?_) fun k hk => ?_
  · exact decide_eq_false fun hmem => (Finset.mem_sdiff.1 hmem).2 hk
  · simp only [Finset.mem_sdiff, hk, not_false_eq_true, and_true]

theorem flipped (h : Represents b s) (hsum : pos + nbits ≤ s.size) :
    Represents { b with bmMap := modifyAll (fun x y => x ^^^ y) (range pos nbits) b.bmMap }
      { s with elems := symmDiff s.elems (Ico pos (pos + nbits)) } := by
  refine h.modified acts_xor hsum (fun k hk => ?_) fun k hk => ?_
  · simp [Finset.mem_symmDiff, hk]
  · simp [Finset.mem_symmDiff, hk]

/-! ## Whole words -/

theorem bitAt_store (m : Nat → Word) (lo hi k : Nat) (v : Word) :
    bitAt (store m lo hi v) k =
      if lo ≤ k / 64 ∧ k / 64 < hi then v.getLsbD (k % 64) else bitAt m k := by
  rw [bitAt, store]
  split
  · rfl
  · rfl

theorem bitAt_trim {size : Nat} (hsize : ValidSize size) (m : Nat → Word) {k : Nat}
    (hk : k < 64 * numUnits size) :
    bitAt (trim size m) k = (decide (k < size) && bitAt m k) := by
  rcases numUnits_spec hsize with ⟨hpos, hle, hlt, hexcess⟩
  have hexp := Nat.div_add_mod k 64
  have hbit : k % 64 < 64 := Nat.mod_lt k (by decide)
  rw [trim]
  split
  · rw [bitAt]
    by_cases hlast : k / 64 = numUnits size - 1
    · -- the last word keeps the bits below the size
      have hones : ((~~~0#64) >>> excessBits size).getLsbD (k % 64) = decide (k < size) := by
        rw [BitVec.getLsbD_ushiftRight, BitVec.getLsbD_not, BitVec.getLsbD_zero, Bool.not_false,
          Bool.and_true]
        exact decide_eq_decide.2 (by omega)
      rw [hlast, Function.update_self, BitVec.getLsbD_and, hones, Bool.and_comm, bitAt, hlast]
    · have hin : k < size := by omega
      rw [Function.update_of_ne hlast, decide_eq_true hin, Bool.true_and, bitAt]
  · have hin : k < size := by omega
    rw [decide_eq_true hin, Bool.true_and]

theorem cleared (h : Represents b s) : Represents b.bitmapClearAll { s with elems := ∅ } := by
  refine ⟨h.size, h.valid, fun k hk => absurd hk (Finset.notMem_empty k), fun k hk => ?_⟩
  have hword : k / 64 < numUnits s.size := by
    change k < 64 * numUnits s.size at hk
    omega
  rw [bitmapClearAll, bitAt_store, h.size, if_pos ⟨Nat.zero_le _, hword⟩]
  simp

theorem full_getLsbD {j : Nat} (hj : j < 64) : (~~~(0 : Word)).getLsbD j = true := by
  rw [BitVec.getLsbD_not, decide_eq_true hj, Bool.true_and]
  simp

theorem filled (h : Represents b s) :
    Represents b.bitmapSetAll { s with elems := Finset.range s.size } := by
  rw [bitmapSetAll, h.size]
  refine ⟨rfl, h.valid, fun k hk => Finset.mem_range.1 hk, fun k hk => ?_⟩
  have hword : k / 64 < numUnits s.size := by
    change k < 64 * numUnits s.size at hk
    omega
  have hbit : k % 64 < 64 := Nat.mod_lt k (by decide)
  rw [bitAt_trim h.valid _ hk, bitAt_store, if_pos ⟨Nat.zero_le _, hword⟩, full_getLsbD hbit,
    Bool.and_true]
  exact decide_eq_decide.2 Finset.mem_range.symm

theorem resized (h : Represents b s) {newSize : Nat} (hnew : ValidSize newSize)
    (mem : Nat → Word) :
    Represents (b.bitmapResize newSize (some mem)).2
      { size := newSize, elems := s.elems.filter (· < newSize) } := by
  refine ⟨rfl, hnew, fun k hk => (Finset.mem_filter.1 hk).2, fun k hk => ?_⟩
  show bitAt (trim newSize _) k = _
  change k < 64 * numUnits newSize at hk
  rw [bitAt_trim hnew _ hk, bitAt_store, h.size]
  by_cases hold : numUnits s.size ≤ k / 64
  · -- a new word
    have hle := (numUnits_spec h.valid).2.1
    have hout : k ∉ s.elems := fun hmem => by
      have := h.below k hmem
      omega
    rw [if_pos ⟨hold, by omega⟩]
    simp [hout]
  · have hkeep : bitAt (krealloc b.bmMap (numUnits s.size) (numUnits newSize) mem) k =
        bitAt b.bmMap k := by
      rw [bitAt, krealloc, if_pos ⟨by omega, by omega⟩, bitAt]
    rw [if_neg fun hword => hold hword.1, hkeep, h.bits k (by omega)]
    simp [Bool.and_comm]

theorem init {size : Nat} (hsize : ValidSize size) (mem : Nat → Word) :
    ∃ b, bitmapInit size mem = .ok b ∧ Represents b { size := size, elems := ∅ } := by
  have hne : size ≠ 0 := Nat.pos_iff_ne_zero.1 hsize.1
  refine ⟨_, if_neg hne, rfl, hsize, fun k hk => absurd hk (Finset.notMem_empty k), fun k hk => ?_⟩
  have hword : k / 64 < numUnits size := by
    change k < 64 * numUnits size at hk
    omega
  rw [bitAt_store, if_pos ⟨Nat.zero_le _, hword⟩]
  simp

/-! ## Looking at the set -/

theorem test (h : Represents b s) (hsum : pos + nbits ≤ 2 ^ 64 - 1) :
    b.bitmapTest pos nbits =
      if s.size < pos + nbits then .error .EINVAL
      else .ok (decide (Ico pos (pos + nbits) ⊆ s.elems)) := by
  rw [bitmapTest, h.size, Nat.mod_eq_of_lt (by omega)]
  split
  · rfl
  · rw [h.any_unset (by omega), Bool.not_not]

end Represents

/-- The search of `A` from `lo` up to `hi` for its least element. -/
def Search (A : Set Nat) (lo hi : Nat) : Option Nat → Prop
  | some k => k ∈ A ∧ lo ≤ k ∧ k < hi ∧ ∀ j, lo ≤ j → j < k → j ∉ A
  | none => ∀ j, lo ≤ j → j < hi → j ∉ A

theorem Search.extend {A : Set Nat} {lo mid hi : Nat} {found : Option Nat}
    (hskip : Search A lo mid none) (h : Search A mid hi found) (hlo : lo ≤ mid) :
    Search A lo hi found := by
  cases found with
  | none =>
    intro j hj hhi
    rcases Nat.lt_or_ge j mid with hlt | hge
    · exact hskip j hj hlt
    · exact h j hge hhi
  | some k =>
    rcases h with ⟨hmem, hk, hhi, hleast⟩
    refine ⟨hmem, by omega, hhi, fun j hj hjk => ?_⟩
    rcases Nat.lt_or_ge j mid with hlt | hge
    · exact hskip j hj hlt
    · exact hleast j hge hjk

theorem Search.stop {A : Set Nat} {lo mid hi k : Nat} (h : Search A lo mid (some k))
    (hhi : mid ≤ hi) : Search A lo hi (some k) :=
  ⟨h.1, h.2.1, Nat.lt_of_lt_of_le h.2.2.1 hhi, h.2.2.2⟩

namespace Represents

theorem unsetInWord (h : Represents b s) (i n bit : Nat) :
    Search s.Absent (i * 64 + bit) (i * 64 + bit + n) (b.unsetInWord i n bit) := by
  induction n generalizing bit with
  | zero => exact fun j hlo hhi => by omega
  | succ n ih =>
    rw [BitmapWords.unsetInWord, h.size]
    split
    · exact fun j hlo _ habsent => by
        have := habsent.1
        omega
    have hlt : i * 64 + bit < s.size := by omega
    rw [isSet_eq, h.inside hlt]
    split
    · rename_i hclear
      have habsent : i * 64 + bit ∈ s.Absent := ⟨hlt, by simpa using hclear⟩
      exact ⟨habsent, Nat.le_refl _, by omega, fun j hlo hj => by omega⟩
    · rename_i hset
      have hmem : i * 64 + bit ∈ s.elems := by simpa using hset
      have hskip : Search s.Absent (i * 64 + bit) (i * 64 + bit + 1) none := by
        intro j hlo hhi habsent
        have heq : j = i * 64 + bit := by omega
        exact habsent.2 (heq ▸ hmem)
      have hrest := ih (bit + 1)
      rw [← Nat.add_assoc] at hrest
      have hend : i * 64 + bit + 1 + n = i * 64 + bit + (n + 1) := by omega
      rw [hend] at hrest
      exact hskip.extend hrest (Nat.le_succ _)

theorem full_word (h : Represents b s) {i : Nat} (hi : i < numUnits s.size)
    (hfull : b.bmMap i = ~~~0) : Search s.Absent (i * 64) (i * 64 + 64) none := by
  intro j hlo hhi habsent
  have hword : j = 64 * i + (j - i * 64) := by omega
  have hbit := h.bits j (by omega)
  have hlt : j - i * 64 < 64 := by omega
  rw [decide_eq_false habsent.2, hword, bitAt_word _ hlt, hfull, full_getLsbD hlt] at hbit
  cases hbit

theorem firstUnset (h : Represents b s) (n i : Nat) (hi : i + n = numUnits s.size) :
    Search s.Absent (i * 64) ((i + n) * 64) (b.firstUnset n i) := by
  induction n generalizing i with
  | zero => exact fun j hlo hhi => by omega
  | succ n ih =>
    have hword : Search s.Absent (i * 64) (i * 64 + 64)
        (if b.bmMap i ≠ ~~~0 then b.unsetInWord i 64 0 else none) := by
      split
      · exact h.unsetInWord i 64 0
      · exact h.full_word (by omega) (not_not.1 ‹_›)
    rw [BitmapWords.firstUnset]
    cases hfound : (if b.bmMap i ≠ ~~~0 then b.unsetInWord i 64 0 else none) with
    | some k =>
      rw [hfound] at hword
      exact hword.stop (by omega)
    | none =>
      rw [hfound] at hword
      have hrest := ih (i + 1) (by omega)
      have hlo : (i + 1) * 64 = i * 64 + 64 := by omega
      have hhi : i + 1 + n = i + (n + 1) := by omega
      rw [hlo, hhi] at hrest
      exact hword.extend hrest (Nat.le_add_right _ _)

theorem findFirstUnset (h : Represents b s) :
    (∃ k, b.bitmapFindFirstUnset = .ok k ∧ IsLeast s.Absent k) ∨
      b.bitmapFindFirstUnset = .error .ENOENT ∧ s.Absent = ∅ := by
  have hsearch := h.firstUnset (numUnits s.size) 0 (Nat.zero_add _)
  have hle := (numUnits_spec h.valid).2.1
  rw [bitmapFindFirstUnset, h.size]
  cases hfound : b.firstUnset (numUnits s.size) 0 with
  | some k =>
    rw [hfound] at hsearch
    rcases hsearch with ⟨hmem, -, -, hleast⟩
    refine Or.inl ⟨k, rfl, hmem, fun j hj => ?_⟩
    by_contra hlt
    exact hleast j (by omega) (by omega) hj
  | none =>
    rw [hfound] at hsearch
    refine Or.inr ⟨rfl, Set.eq_empty_of_forall_notMem fun j hj => ?_⟩
    exact hsearch j (by omega) (by have := hj.1; omega) hj

end Represents

theorem countWord_eq (n : Nat) (val : Word) (count : Nat)
    (hval : ∀ j, n ≤ j → val.getLsbD j = false) :
    countWord n val count = count + Nat.count (fun j => val.getLsbD j = true) n := by
  induction n generalizing val count with
  | zero => rfl
  | succ n ih =>
    have hshift (j : Nat) : (val >>> 1).getLsbD j = val.getLsbD (j + 1) := by
      rw [BitVec.getLsbD_ushiftRight, Nat.add_comm]
    have hlow : (val &&& 1).toNat = if val.getLsbD 0 = true then 1 else 0 := by
      have hmod : (val &&& 1).toNat = val.toNat % 2 := by
        rw [BitVec.toNat_and]
        exact Nat.and_one_is_mod _
      rw [hmod, BitVec.getLsbD, Nat.testBit_zero]
      rcases Nat.mod_two_eq_zero_or_one val.toNat with heq | heq <;> simp [heq]
    rw [countWord, Nat.count_succ']
    split
    · rename_i hzero
      simp [hzero]
    · rw [ih _ _ fun j hj => by rw [hshift]; exact hval _ (by omega), hlow]
      simp only [hshift]
      omega

theorem countUnits (m : Nat → Word) (n : Nat) :
    (List.range n).foldl (fun count i => countWord 64 (m i) count) 0 =
      Nat.count (fun k => bitAt m k = true) (64 * n) := by
  induction n with
  | zero => rfl
  | succ n ih =>
    rw [List.range_succ, List.foldl_append, ih, List.foldl_cons, List.foldl_nil,
      countWord_eq 64 _ _ fun j hj => BitVec.getLsbD_of_ge _ _ hj, count_words]

theorem Represents.countSet (h : Represents b s) : b.bitmapCountSet = s.elems.card := by
  have hle := (numUnits_spec h.valid).2.1
  have hfilter : (Finset.range (64 * numUnits s.size)).filter (fun k => bitAt b.bmMap k = true) =
      s.elems := by
    ext k
    rw [Finset.mem_filter, Finset.mem_range]
    constructor
    · intro hk
      rw [h.bits k hk.1] at hk
      exact of_decide_eq_true hk.2
    · intro hk
      have hlt : k < 64 * numUnits s.size := by
        have := h.below k hk
        omega
      exact ⟨hlt, by rw [h.bits k hlt, decide_eq_true hk]⟩
  rw [bitmapCountSet, h.size, countUnits, Nat.count_eq_card_filter_range, hfilter]

namespace Represents

theorem find_free (h : Represents b s) (hle : nbits ≤ s.size) (i : Nat) :
    ((List.range (s.size - nbits + 1)).find? fun i => !(range i nbits).any (isSet b.bmMap)) =
        some i ↔ IsLeast (s.FreeRun nbits) i := by
  have hfree {j : Nat} (hj : j + nbits ≤ s.size) :
      (!(range j nbits).any (isSet b.bmMap)) = true ↔ j ∈ s.FreeRun nbits := by
    rw [h.any_set hj, Bool.not_not, decide_eq_true_iff]
    exact ⟨fun hd => ⟨hj, hd⟩, fun hd => hd.2⟩
  rw [List.find?_range_eq_some]
  constructor
  · rintro ⟨hi, hmem, hbefore⟩
    have hmem' := List.mem_range.1 hmem
    refine ⟨(hfree (by omega)).1 hi, fun j hj => ?_⟩
    by_contra hlt
    have htaken := hbefore j (by omega)
    rw [Bool.not_eq_true', ← Bool.not_eq_true] at htaken
    exact htaken ((hfree hj.1).2 hj)
  · rintro ⟨hi, hleast⟩
    have hfits := hi.1
    refine ⟨(hfree hfits).2 hi, List.mem_range.2 (by omega), fun j hj => ?_⟩
    rw [Bool.not_eq_true', ← Bool.not_eq_true]
    intro hfound
    have := hleast ((hfree (by omega)).1 hfound)
    omega

theorem find_none (h : Represents b s) (hle : nbits ≤ s.size)
    (hnone : ((List.range (s.size - nbits + 1)).find? fun i =>
      !(range i nbits).any (isSet b.bmMap)) = none) : s.FreeRun nbits = ∅ := by
  rw [List.find?_range_eq_none] at hnone
  refine Set.eq_empty_of_forall_notMem fun i hi => ?_
  have hfits := hi.1
  have htaken := hnone i (by omega)
  rw [h.any_set hfits, decide_eq_true hi.2] at htaken
  cases htaken

theorem set (h : Represents b s) (hsum : pos + nbits ≤ 2 ^ 64 - 1) :
    ∃ s', s.Served (.code (b.bitmapSet pos nbits).1) s' (.set pos nbits) ∧
      Represents (b.bitmapSet pos nbits).2 s' := by
  have hmod : (pos + nbits) % 2 ^ 64 = pos + nbits := Nat.mod_eq_of_lt (by omega)
  rw [bitmapSet, hmod]
  simp only [Positions.Served]
  by_cases hbad : s.size < pos + nbits
  · rw [if_pos (h.size ▸ hbad)]
    simp only [if_pos hbad]
    exact ⟨s, ⟨trivial, rfl⟩, h⟩
  rw [if_neg (h.size ▸ hbad), h.any_set (by omega)]
  by_cases hfree : Disjoint (Ico pos (pos + nbits)) s.elems
  · refine ⟨{ s with elems := s.elems ∪ Ico pos (pos + nbits) }, ?_, ?_⟩
    · rw [if_neg hbad, if_pos hfree, if_neg (by simp [hfree])]
      exact ⟨rfl, rfl⟩
    · rw [if_neg (by simp [hfree])]
      exact h.added (by omega)
  · refine ⟨s, ?_, ?_⟩
    · rw [if_neg hbad, if_neg hfree, if_pos (by simp [hfree])]
      exact ⟨rfl, rfl⟩
    · rw [if_pos (by simp [hfree])]
      exact h

theorem unset (h : Represents b s) (hsum : pos + nbits ≤ 2 ^ 64 - 1) :
    ∃ s', s.Served (.code (b.bitmapUnset pos nbits).1) s' (.unset pos nbits) ∧
      Represents (b.bitmapUnset pos nbits).2 s' := by
  have hmod : (pos + nbits) % 2 ^ 64 = pos + nbits := Nat.mod_eq_of_lt (by omega)
  rw [bitmapUnset, hmod]
  simp only [Positions.Served]
  by_cases hbad : s.size < pos + nbits
  · rw [if_pos (h.size ▸ hbad)]
    simp only [if_pos hbad]
    exact ⟨s, ⟨trivial, rfl⟩, h⟩
  rw [if_neg (h.size ▸ hbad), h.any_unset (by omega)]
  by_cases htaken : Ico pos (pos + nbits) ⊆ s.elems
  · refine ⟨{ s with elems := s.elems \ Ico pos (pos + nbits) }, ?_, ?_⟩
    · rw [if_neg hbad, if_pos htaken, if_neg (by simp [htaken])]
      exact ⟨rfl, rfl⟩
    · rw [if_neg (by simp [htaken])]
      exact h.removed (by omega)
  · refine ⟨s, ?_, ?_⟩
    · rw [if_neg hbad, if_neg htaken, if_pos (by simp [htaken])]
      exact ⟨rfl, rfl⟩
    · rw [if_pos (by simp [htaken])]
      exact h

theorem toggle (h : Represents b s) (hsum : pos + nbits ≤ 2 ^ 64 - 1) :
    ∃ s', s.Served (.code (b.bitmapToggle pos nbits).1) s' (.toggle pos nbits) ∧
      Represents (b.bitmapToggle pos nbits).2 s' := by
  have hmod : (pos + nbits) % 2 ^ 64 = pos + nbits := Nat.mod_eq_of_lt (by omega)
  rw [bitmapToggle, hmod]
  simp only [Positions.Served]
  by_cases hbad : s.size < pos + nbits
  · rw [if_pos (h.size ▸ hbad)]
    simp only [if_pos hbad]
    exact ⟨s, ⟨trivial, rfl⟩, h⟩
  · rw [if_neg (h.size ▸ hbad)]
    simp only [if_neg hbad]
    exact ⟨_, ⟨trivial, rfl⟩, h.flipped (by omega)⟩

theorem allocRange (h : Represents b s) :
    ∃ s', s.Served (.pos (b.bitmapAllocRange nbits).1) s' (.allocRange nbits) ∧
      Represents (b.bitmapAllocRange nbits).2 s' := by
  rw [bitmapAllocRange]
  simp only [Positions.Served]
  by_cases hbad : nbits = 0 ∨ s.size < nbits
  · rw [if_pos (h.size ▸ hbad)]
    simp only [if_pos hbad]
    exact ⟨s, ⟨trivial, rfl⟩, h⟩
  have hle : nbits ≤ s.size := by omega
  have hsize : b.bmSize - nbits + 1 = s.size - nbits + 1 := by rw [h.size]
  rw [if_neg (h.size ▸ hbad), hsize]
  simp only [if_neg hbad]
  cases hfound : (List.range (s.size - nbits + 1)).find? fun i =>
      !(range i nbits).any (isSet b.bmMap) with
  | some i =>
    have hleast := (h.find_free hle i).1 hfound
    exact ⟨_, Or.inl ⟨i, hleast, rfl, rfl⟩, h.added hleast.1.1⟩
  | none => exact ⟨s, Or.inr ⟨h.find_none hle hfound, rfl, rfl⟩, h⟩

theorem call (h : Represents b s) {c : Call} (hc : c.Valid) :
    ∃ s', s.Served (b.call c).1 s' c ∧ Represents (b.call c).2 s' := by
  cases c with
  | set pos nbits => exact h.set hc
  | unset pos nbits => exact h.unset hc
  | toggle pos nbits => exact h.toggle hc
  | allocRange nbits => exact h.allocRange
  | setAll => exact ⟨_, ⟨rfl, rfl⟩, h.filled⟩
  | clearAll => exact ⟨_, ⟨rfl, rfl⟩, h.cleared⟩
  | resize newSize mem =>
    cases mem with
    | none => exact ⟨s, ⟨rfl, rfl⟩, h⟩
    | some mem => exact ⟨_, ⟨rfl, rfl⟩, h.resized hc mem⟩

end Represents

structure Observed (b : BitmapWords) (s : Positions) : Prop where
  size : b.bmSize = s.size
  below : ∀ k ∈ s.elems, k < s.size
  excess : ∀ k, s.size ≤ k → k < 64 * numUnits s.size → bitAt b.bmMap k = false
  count : b.bitmapCountSet = s.elems.card
  test : ∀ pos nbits, pos + nbits ≤ 2 ^ 64 - 1 → b.bitmapTest pos nbits =
    if s.size < pos + nbits then .error .EINVAL
    else .ok (decide (Ico pos (pos + nbits) ⊆ s.elems))
  findFirstUnset : (∃ k, b.bitmapFindFirstUnset = .ok k ∧ IsLeast s.Absent k) ∨
    b.bitmapFindFirstUnset = .error .ENOENT ∧ s.Absent = ∅

theorem Represents.observed (h : Represents b s) : Observed b s := by
  refine ⟨h.size, h.below, fun k hle hk => ?_, h.countSet, fun pos nbits => h.test, h.findFirstUnset⟩
  have hout : k ∉ s.elems := fun hmem => by
    have := h.below k hmem
    omega
  rw [h.bits k hk, decide_eq_false hout]

/-- The bitmap is observed to be the set before and behind every call, and every call is served. -/
def Refines (b : BitmapWords) (s : Positions) : List Call → Prop
  | [] => Observed b s
  | c :: cs =>
    Observed b s ∧ ∃ s', s.Served (b.call c).1 s' c ∧ Refines (b.call c).2 s' cs

theorem Represents.refines (h : Represents b s) {calls : List Call}
    (hcalls : ∀ c ∈ calls, c.Valid) : Refines b s calls := by
  induction calls generalizing b s with
  | nil => exact h.observed
  | cons c cs ih =>
    rcases h.call (hcalls c (by simp)) with ⟨s', hserved, h'⟩
    exact ⟨h.observed, s', hserved, ih h' fun c' hc' => hcalls c' (by simp [hc'])⟩

/-- A bitmap that has been initialised is the empty set, and stays a set over every run of calls. -/
theorem bitmap_refines_set (size : Nat) (mem : Nat → Word) (calls : List Call)
    (hsize : 1 ≤ size ∧ size ≤ 2 ^ 64 - 64) (hcalls : ∀ c ∈ calls, c.Valid) :
    ∃ b, bitmapInit size mem = .ok b ∧ Refines b { size := size, elems := ∅ } calls := by
  rcases Represents.init hsize mem with ⟨b, hb, h⟩
  exact ⟨b, hb, h.refines hcalls⟩

theorem bitmap_refines_set_grow :
    ∃ b, bitmapInit 70 (fun _ => 5) = .ok b ∧ Refines b { size := 70, elems := ∅ }
      [.setAll, .unset 60 8, .resize 130 (some fun _ => 9), .toggle 64 66, .allocRange 3] :=
  bitmap_refines_set 70 (fun _ => 5)
    [.setAll, .unset 60 8, .resize 130 (some fun _ => 9), .toggle 64 66, .allocRange 3]
    (by decide) (by simp [Call.Valid, ValidSize])

end BitmapWords
end Ds
end XytherOS
