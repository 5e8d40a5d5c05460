import Mathlib.Data.Nat.Count
import Mathlib.Logic.Function.Basic

/-!
# WordBits — the bits of a sequence of words

A sequence of words of `w` bits is a sequence of bits: bit `k` is bit `k % w` of the word `k / w`.
An operation on one word that acts on a single bit acts on one bit of the sequence, and the bits
below `w * n` are counted word by word.
-/

namespace XytherOS
namespace WordBits

open Function

variable {w : Nat}

/-- Bit `k` of the words `m`. -/
def bitAt (m : Nat → BitVec w) (k : Nat) : Bool := (m (k / w)).getLsbD (k % w)

/-- The word that has bit `k % w` only. -/
def mask (w k : Nat) : BitVec w := 1#w <<< (k % w)

/-- The operation `f` on the word of bit `k` and the mask of bit `k`. -/
def modify (f : BitVec w → BitVec w → BitVec w) (m : Nat → BitVec w) (k : Nat) : Nat → BitVec w :=
  update m (k / w) (f (m (k / w)) (mask w k))

/-- On a mask, `f` changes the selected bit by `g` and keeps the others. -/
def Acts (f : BitVec w → BitVec w → BitVec w) (g : Bool → Bool) : Prop :=
  ∀ x k j, j < w →
    (f x (mask w k)).getLsbD j = if j = k % w then g (x.getLsbD j) else x.getLsbD j

/-! ## Masks -/

theorem mask_getLsbD {k j : Nat} (hj : j < w) : (mask w k).getLsbD j = decide (j = k % w) := by
  rw [mask, BitVec.getLsbD_shiftLeft, BitVec.getLsbD_one]
  by_cases heq : j = k % w
  · simp [heq, heq ▸ hj]
    omega
  · have hlt : k % w < w := Nat.mod_lt _ (by omega)
    simp only [heq, hj, decide_true, decide_false, Bool.true_and]
    by_cases hle : j < k % w
    · simp [hle]
    · have hpos : j - k % w ≠ 0 := by omega
      simp [hpos]

theorem acts_or : Acts (w := w) (fun x y => x ||| y) fun _ => true := by
  intro x k j hj
  rw [BitVec.getLsbD_or, mask_getLsbD hj]
  by_cases heq : j = k % w <;> simp [heq]

theorem acts_and_not : Acts (w := w) (fun x y => x &&& ~~~y) fun _ => false := by
  intro x k j hj
  rw [BitVec.getLsbD_and, BitVec.getLsbD_not, mask_getLsbD hj]
  by_cases heq : j = k % w <;> simp [heq, hj]

theorem acts_xor : Acts (w := w) (fun x y => x ^^^ y) fun b => !b := by
  intro x k j hj
  rw [BitVec.getLsbD_xor, mask_getLsbD hj]
  by_cases heq : j = k % w <;> simp [heq]

/-- The test of a bit with its mask. -/
theorem and_mask_ne_zero (hw : 0 < w) (m : Nat → BitVec w) (k : Nat) :
    (m (k / w) &&& mask w k != 0#w) = bitAt m k := by
  have hk : k % w < w := Nat.mod_lt k hw
  cases hbit : bitAt m k with
  | true =>
    rw [bne_iff_ne]
    intro hzero
    have hget := congrArg (fun x : BitVec w => x.getLsbD (k % w)) hzero
    simp only [BitVec.getLsbD_and, mask_getLsbD hk, BitVec.getLsbD_zero] at hget
    rw [bitAt] at hbit
    simp [hbit] at hget
  | false =>
    rw [bne_eq_false_iff_eq]
    refine BitVec.eq_of_getLsbD_eq fun j hj => ?_
    rw [BitVec.getLsbD_and, mask_getLsbD hj, BitVec.getLsbD_zero]
    by_cases heq : j = k % w
    · rw [heq]
      rw [bitAt] at hbit
      rw [hbit, Bool.false_and]
    · simp [heq]

/-! ## One bit after the other -/

theorem bitAt_modify {f : BitVec w → BitVec w → BitVec w} {g : Bool → Bool} (hw : 0 < w)
    (hf : Acts f g) (m : Nat → BitVec w) (k j : Nat) :
    bitAt (modify f m k) j = if j = k then g (bitAt m j) else bitAt m j := by
  have hj : j % w < w := Nat.mod_lt j hw
  rw [bitAt, modify]
  by_cases hword : j / w = k / w
  · rw [hword, update_self, hf _ _ _ hj]
    have hiff : j % w = k % w ↔ j = k := by
      constructor
      · intro hmod
        rw [← Nat.div_add_mod j w, ← Nat.div_add_mod k w, hword, hmod]
      · exact fun heq => heq ▸ rfl
    simp only [hiff, bitAt, hword]
  · have hne : j ≠ k := fun heq => hword (heq ▸ rfl)
    rw [update_of_ne hword, if_neg hne, bitAt]

def modifyAll (f : BitVec w → BitVec w → BitVec w) (ks : List Nat) (m : Nat → BitVec w) :
    Nat → BitVec w :=
  ks.foldl (modify f) m

theorem bitAt_modifyAll {f : BitVec w → BitVec w → BitVec w} {g : Bool → Bool} (hw : 0 < w)
    (hf : Acts f g) {ks : List Nat} (hks : ks.Nodup) (m : Nat → BitVec w) (j : Nat) :
    bitAt (modifyAll f ks m) j = if j ∈ ks then g (bitAt m j) else bitAt m j := by
  induction ks generalizing m with
  | nil => rfl
  | cons k ks ih =>
    rcases List.nodup_cons.1 hks with ⟨hk, hks⟩
    rw [modifyAll, List.foldl_cons, ← modifyAll, ih hks, bitAt_modify hw hf]
    by_cases heq : j = k
    · simp [heq, hk]
    · simp [heq]

/-! ## Counting -/

/-- Bit `j` of the word `i`. -/
theorem bitAt_word (m : Nat → BitVec w) {i j : Nat} (hj : j < w) :
    bitAt m (w * i + j) = (m i).getLsbD j := by
  have hw : 0 < w := Nat.zero_lt_of_lt hj
  rw [bitAt, Nat.mul_add_div hw, Nat.div_eq_of_lt hj, Nat.add_zero, Nat.mul_add_mod,
    Nat.mod_eq_of_lt hj]

theorem count_congr {p q : Nat → Prop} [DecidablePred p] [DecidablePred q] {n : Nat}
    (h : ∀ k < n, p k ↔ q k) : Nat.count p n = Nat.count q n :=
  (Nat.count_mono_left fun k hk => (h k hk).1).antisymm
    (Nat.count_mono_left fun k hk => (h k hk).2)

theorem count_words (m : Nat → BitVec w) (n : Nat) :
    Nat.count (fun k => bitAt m k = true) (w * (n + 1)) =
      Nat.count (fun k => bitAt m k = true) (w * n) +
        Nat.count (fun j => (m n).getLsbD j = true) w := by
  rw [Nat.mul_succ, Nat.count_add]
  congr 1
  refine count_congr fun j hj => ?_
  rw [bitAt_word m hj]

end WordBits
end XytherOS
