import XytherOS.Ds.BitmapWords

/-!
# BitmapBounds — the range check of the bitmap functions

`bitmap_set`, `bitmap_unset`, `bitmap_test` and `bitmap_toggle` compare `pos + nbits` with the size.
The sum is a `usize`: when it wraps to something small the range passes the check, and the loops run
over positions far behind the map.
-/

namespace XytherOS
namespace Ds
namespace BitmapWords

inductive RangeOp
  | set
  | unset
  | test
  | toggle

def RangeOp.error (b : BitmapWords) (pos nbits : Nat) : RangeOp → Option Errno
  | .set => match (b.bitmapSet pos nbits).1 with | .ok => none | .err e => some e
  | .unset => match (b.bitmapUnset pos nbits).1 with | .ok => none | .err e => some e
  | .test => match b.bitmapTest pos nbits with | .ok _ => none | .error e => some e
  | .toggle => match (b.bitmapToggle pos nbits).1 with | .ok => none | .err e => some e

/-- The positions that a loop looks at when it returns at the first one with `stop`. -/
def lookedAt (stop : Nat → Bool) : List Nat → List Nat
  | [] => []
  | k :: ks => if stop k then [k] else k :: lookedAt stop ks

/-- The positions whose words the loops of `op` read or write: the first loop of `bitmap_set` and
`bitmap_unset` only looks, the second one runs when the first has not returned. -/
def RangeOp.touched (b : BitmapWords) (pos nbits : Nat) (op : RangeOp) : List Nat :=
  if b.bmSize < (pos + nbits) % 2 ^ 64 then []
  else
    match op with
    | .set => lookedAt (isSet b.bmMap) (range pos nbits) ++
        if (range pos nbits).any (isSet b.bmMap) then [] else range pos nbits
    | .unset => lookedAt (fun k => !isSet b.bmMap k) (range pos nbits) ++
        if (range pos nbits).any fun k => !isSet b.bmMap k then [] else range pos nbits
    | .test => lookedAt (fun k => !isSet b.bmMap k) (range pos nbits)
    | .toggle => range pos nbits

/-- A range that is not in the bitmap is refused, and every word that is touched is one of the
`numUnits` words of the map. -/
structure RangeOp.Checked (b : BitmapWords) (pos nbits : Nat) (op : RangeOp) : Prop where
  refused : b.bmSize < pos + nbits → op.error b pos nbits = some .EINVAL
  inside : ∀ k ∈ op.touched b pos nbits, k / 64 < numUnits b.bmSize

variable {b : BitmapWords} {pos nbits : Nat} {op : RangeOp}

theorem lookedAt_subset (stop : Nat → Bool) (ks : List Nat) : ∀ k ∈ lookedAt stop ks, k ∈ ks := by
  induction ks with
  | nil => simp [lookedAt]
  | cons k ks ih =>
    rw [lookedAt]
    split
    · simp
    · simpa using fun j hj => Or.inr (ih j hj)

theorem mem_lookedAt_head (stop : Nat → Bool) (k : Nat) (ks : List Nat) :
    k ∈ lookedAt stop (k :: ks) := by
  rw [lookedAt]
  split <;> simp

theorem RangeOp.error_eq (op : RangeOp) :
    op.error b pos nbits = some .EINVAL ↔ b.bmSize < (pos + nbits) % 2 ^ 64 := by
  cases op <;> simp only [RangeOp.error, bitmapSet, bitmapUnset, bitmapTest, bitmapToggle] <;> grind

theorem RangeOp.touched_refused (hout : b.bmSize < (pos + nbits) % 2 ^ 64) :
    op.touched b pos nbits = [] := by
  unfold RangeOp.touched
  rw [if_pos hout]

theorem RangeOp.touched_range : ∀ k ∈ op.touched b pos nbits, k ∈ range pos nbits := by
  intro k hk
  by_cases hout : b.bmSize < (pos + nbits) % 2 ^ 64
  · simp [touched_refused hout] at hk
  · unfold RangeOp.touched at hk
    rw [if_neg hout] at hk
    cases op with
    | set =>
      rcases List.mem_append.1 hk with hlooked | hstored
      · exact lookedAt_subset _ _ k hlooked
      · split at hstored <;> simp_all
    | unset =>
      rcases List.mem_append.1 hk with hlooked | hstored
      · exact lookedAt_subset _ _ k hlooked
      · split at hstored <;> simp_all
    | test => exact lookedAt_subset _ _ k hk
    | toggle => exact hk

theorem RangeOp.touched_first (hpos : 0 < nbits) (hin : ¬ b.bmSize < (pos + nbits) % 2 ^ 64) :
    pos % 2 ^ 64 ∈ op.touched b pos nbits := by
  have hcons : ∃ ks, range pos nbits = pos % 2 ^ 64 :: ks := by
    obtain ⟨n, rfl⟩ : ∃ n, nbits = n + 1 := ⟨nbits - 1, by omega⟩
    exact ⟨_, by rw [range, List.range_succ_eq_map, List.map_cons, Nat.add_zero]⟩
  rcases hcons with ⟨ks, hks⟩
  unfold RangeOp.touched
  rw [if_neg hin, hks]
  cases op with
  | set | unset => exact List.mem_append_left _ (mem_lookedAt_head _ _ _)
  | test => exact mem_lookedAt_head _ _ _
  | toggle => exact List.mem_cons_self

/-- The check does its work when the sum does not wrap, or is still too large when it does; and a
size whose number of words wraps leaves no range to touch. -/
theorem range_checked_iff (op : RangeOp) (b : BitmapWords) (hsize : b.bmSize < 2 ^ 64)
    (pos nbits : BitVec 64) :
    op.Checked b pos.toNat nbits.toNat ↔
      b.bmSize < (pos.toNat + nbits.toNat) % 2 ^ 64 ∨
        pos.toNat + nbits.toNat < 2 ^ 64 ∧ (b.bmSize ≤ 2 ^ 64 - 64 ∨ nbits = 0) := by
  have hpos := pos.isLt
  have hnbits := nbits.isLt
  by_cases hout : b.bmSize < (pos.toNat + nbits.toNat) % 2 ^ 64
  · refine iff_of_true ⟨fun _ => op.error_eq.2 hout, ?_⟩ (.inl hout)
    simp [RangeOp.touched_refused hout]
  have hzero : nbits = 0 ↔ nbits.toNat = 0 := by bv_omega
  rw [or_iff_right hout, hzero]
  constructor
  · intro hchecked
    have hfits : ¬ b.bmSize < pos.toNat + nbits.toNat := fun hover =>
      hout (op.error_eq.1 (hchecked.refused hover))
    refine ⟨by omega, ?_⟩
    by_contra hlarge
    have hfirst := hchecked.inside _ (RangeOp.touched_first (by omega) hout)
    rw [numUnits] at hfirst
    omega
  · rintro ⟨hsum, hroom⟩
    rw [Nat.mod_eq_of_lt hsum] at hout
    refine ⟨fun hover => absurd hover hout, fun k hk => ?_⟩
    rcases List.mem_map.1 (RangeOp.touched_range k hk) with ⟨i, hi, rfl⟩
    have hlt := List.mem_range.1 hi
    have hunits : numUnits b.bmSize = (b.bmSize + 63) / 64 := by
      rw [numUnits, Nat.mod_eq_of_lt (by omega)]
    rw [hunits, Nat.mod_eq_of_lt (by omega)]
    omega

def oneWord : BitmapWords := { bmSize := 64, bmMap := fun _ => 0 }

theorem range_checked_iff_one_word :
    oneWord.bmSize < 2 ^ 64 ∧
      (RangeOp.test.Checked oneWord (60#64).toNat (8#64).toNat ↔
        64 < 68 % 2 ^ 64 ∨ 60 + 8 < 2 ^ 64 ∧ (64 ≤ 2 ^ 64 - 64 ∨ (8 : BitVec 64) = 0)) :=
  ⟨by decide, range_checked_iff .test oneWord (by decide) 60 8⟩

/-- The end of this range wraps to 0. -/
theorem wrapped_range_not_checked :
    ¬ ∀ (op : RangeOp) (b : BitmapWords) (pos nbits : BitVec 64), b.bmSize < 2 ^ 64 →
      op.Checked b pos.toNat nbits.toNat := by
  intro hall
  have hrefused := (hall .toggle oneWord (BitVec.ofNat 64 (2 ^ 64 - 1)) 1 (by decide)).refused
  exact absurd (RangeOp.toggle.error_eq.1 (hrefused (by decide))) (by decide)

end BitmapWords
end Ds
end XytherOS
