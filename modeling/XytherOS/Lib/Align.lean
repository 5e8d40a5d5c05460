import Mathlib.Data.BitVec

/-!
# Align — rounding machine words to powers of two

Machine code rounds `x` down to a multiple of a power of two `a` by `x & ~(a - 1)`, and up by
adding `a - 1` first.  This file reads the two operations as arithmetic on the numbers; rounding up
is exact as long as the sum does not wrap.
-/

namespace XytherOS
namespace Align

variable {w k : Nat} {a : BitVec w}

/-- `x & ~(a - 1)`. -/
def roundDown (x a : BitVec w) : BitVec w := x &&& ~~~(a - 1)

/-- `(x + a - 1) & ~(a - 1)`. -/
def roundUp (x a : BitVec w) : BitVec w := roundDown (x + a - 1) a

theorem toNat_one (hw : 0 < w) : (1 : BitVec w).toNat = 1 := by
  have hlt : 1 < 2 ^ w := Nat.one_lt_two_pow (by omega)
  simp [Nat.mod_eq_of_lt hlt]

theorem mask_eq (ha : a.toNat = 2 ^ k) : a - 1 = BitVec.ofNat w (2 ^ k - 1) := by
  have hpos : 0 < 2 ^ k := Nat.two_pow_pos k
  have hlt := a.isLt
  apply BitVec.eq_of_toNat_eq
  rcases Nat.eq_zero_or_pos w with rfl | hw
  · have hzero := (a - 1).isLt
    have hzero' := (BitVec.ofNat 0 (2 ^ k - 1)).isLt
    omega
  · have hone := toNat_one hw
    have hle : 1 ≤ a := by
      rw [BitVec.le_def, hone]
      omega
    rw [BitVec.toNat_sub_of_le hle, BitVec.toNat_ofNat, Nat.mod_eq_of_lt (by omega), hone, ha]

theorem toNat_roundDown (x : BitVec w) (ha : a.toNat = 2 ^ k) :
    (roundDown x a).toNat = x.toNat / 2 ^ k * 2 ^ k := by
  -- the mask clears the low `k` bits, as shifting them out and back in does
  have hshift : roundDown x a = (x >>> k) <<< k := by
    rw [roundDown, mask_eq ha]
    apply BitVec.eq_of_getLsbD_eq
    intro i hi
    simp only [BitVec.getLsbD_and, BitVec.getLsbD_not, BitVec.getLsbD_ofNat, hi, decide_true,
      Nat.testBit_two_pow_sub_one, BitVec.getLsbD_shiftLeft, BitVec.getLsbD_ushiftRight,
      Bool.true_and]
    by_cases hik : i < k
    · simp [hik]
    · have hi' : k + (i - k) = i := by omega
      simp [hik, hi']
  have hle := Nat.div_mul_le_self x.toNat (2 ^ k)
  have hlt := x.isLt
  rw [hshift, BitVec.toNat_shiftLeft, BitVec.toNat_ushiftRight, Nat.shiftRight_eq_div_pow,
    Nat.shiftLeft_eq, Nat.mod_eq_of_lt (by omega)]

theorem toNat_roundUp {x : BitVec w} (ha : a.toNat = 2 ^ k)
    (hx : x.toNat + (2 ^ k - 1) < 2 ^ w) :
    (roundUp x a).toNat = (x.toNat + (2 ^ k - 1)) / 2 ^ k * 2 ^ k := by
  have hsum : x + a - 1 = x + BitVec.ofNat w (2 ^ k - 1) := by
    rw [← mask_eq ha]
    simp only [BitVec.sub_eq_add_neg, BitVec.add_assoc]
  have hpow : 2 ^ k - 1 < 2 ^ w := by omega
  have hnat : (x + a - 1).toNat = x.toNat + (2 ^ k - 1) := by
    rw [hsum, BitVec.toNat_add, BitVec.toNat_ofNat, Nat.mod_eq_of_lt hpow, Nat.mod_eq_of_lt hx]
  rw [roundUp, toNat_roundDown _ ha, hnat]

/-- Rounding up does not go down, and adds less than `a`. -/
theorem le_roundUp {x : BitVec w} (ha : a.toNat = 2 ^ k) (hx : x.toNat + (2 ^ k - 1) < 2 ^ w) :
    x.toNat ≤ (roundUp x a).toNat ∧ (roundUp x a).toNat < x.toNat + 2 ^ k := by
  have hpos : 0 < 2 ^ k := Nat.two_pow_pos k
  have hdiv := Nat.div_add_mod (x.toNat + (2 ^ k - 1)) (2 ^ k)
  have hmod := Nat.mod_lt (x.toNat + (2 ^ k - 1)) hpos
  rw [toNat_roundUp ha hx, Nat.mul_comm]
  omega

theorem roundUp_mod {x : BitVec w} (ha : a.toNat = 2 ^ k) (hx : x.toNat + (2 ^ k - 1) < 2 ^ w) :
    (roundUp x a).toNat % 2 ^ k = 0 := by
  rw [toNat_roundUp ha hx, Nat.mul_mod_left]

/-- The test of a word for a power of two. -/
theorem exists_two_pow (hne : a ≠ 0) (hand : a &&& (a - 1) = 0) :
    ∃ k, a.toNat = 2 ^ k := by
  have hpos : a.toNat ≠ 0 := fun hzero => hne (BitVec.eq_of_toNat_eq (by simpa using hzero))
  have hw : 0 < w := by
    rcases Nat.eq_zero_or_pos w with rfl | hw
    · have hlt := a.isLt
      omega
    · exact hw
  have hone := toNat_one hw
  have hle : 1 ≤ a := by
    rw [BitVec.le_def, hone]
    omega
  have hnat : a.toNat &&& (a.toNat - 1) = 0 := by
    have heq := congrArg BitVec.toNat hand
    rwa [BitVec.toNat_and, BitVec.toNat_sub_of_le hle, hone] at heq
  exact (Nat.and_sub_one_eq_zero_iff_isPowerOfTwo hpos).1 hnat

end Align
end XytherOS
