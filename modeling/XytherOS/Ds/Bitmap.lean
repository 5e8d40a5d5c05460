import Mathlib.Data.Nat.Count
import XytherOS.Core.Status

/-!
# Bitmap — the bitmaps of `ds/bitmap.c`

A bitmap of `bm_size` bits.  Bit `pos` of the model is bit `pos % 64` of the word `pos / 64` of
`bm_map`; the bitmap lock is left out.
-/

namespace XytherOS
namespace Ds

open Function

structure Bitmap where
  size : Nat
  bits : Nat → Bool

namespace Bitmap

def fill (bits : Nat → Bool) (pos nbits : Nat) (v : Bool) : Nat → Bool := fun k =>
  if pos ≤ k ∧ k < pos + nbits then v else bits k

/-- Is one of the bits `pos .. pos + nbits - 1` equal to `v`? -/
def anyBit (bits : Nat → Bool) (pos nbits : Nat) (v : Bool) : Bool :=
  (List.range nbits).any fun i => bits (pos + i) == v

def bitmapInit (size : Nat) : Bitmap := { size := size, bits := fun _ => false }

def bitmapSet (b : Bitmap) (pos nbits : Nat) : Ret × Bitmap :=
  if b.size < pos + nbits then (.err .EINVAL, b)
  else if anyBit b.bits pos nbits true then (.err .EALREADY, b)
  else (.ok, { b with bits := fill b.bits pos nbits true })

def bitmapUnset (b : Bitmap) (pos nbits : Nat) : Ret × Bitmap :=
  if b.size < pos + nbits then (.err .EINVAL, b)
  else if anyBit b.bits pos nbits false then (.err .EALREADY, b)
  else (.ok, { b with bits := fill b.bits pos nbits false })

/-- `bitmap_test`, as a condition: out of range it returns `-EINVAL`, which counts as true. -/
def bitmapTest (b : Bitmap) (pos nbits : Nat) : Bool :=
  if b.size < pos + nbits then true
  else !anyBit b.bits pos nbits false

def bitmapAllocRange (b : Bitmap) (nbits : Nat) : Ret × Option Nat × Bitmap :=
  if nbits = 0 ∨ b.size < nbits then (.err .EINVAL, none, b)
  else
    match (List.range (b.size - nbits + 1)).find? fun i => !anyBit b.bits i nbits true with
    | some i => (.ok, some i, { b with bits := fill b.bits i nbits true })
    | none => (.err .ENOSPC, none, b)

/-! ## Reading bits back -/

variable {bits : Nat → Bool} {nbits : Nat} {b b' : Bitmap} {e : Ret}

theorem anyBit_eq_false_iff {pos : Nat} {v : Bool} :
    anyBit bits pos nbits v = false ↔ ∀ k, pos ≤ k → k < pos + nbits → bits k = !v := by
  simp only [anyBit, List.any_eq_false, List.mem_range, beq_iff_eq]
  constructor
  · intro h k hlo hhi
    have hk := h (k - pos) (by omega)
    rw [Nat.add_sub_cancel' hlo] at hk
    cases hb : bits k <;> cases v <;> simp_all
  · intro h i hi heq
    have hk := h (pos + i) (by omega) (by omega)
    rw [heq] at hk
    cases v <;> simp at hk

theorem fill_one (bits : Nat → Bool) (pos : Nat) (v : Bool) :
    fill bits pos 1 v = update bits pos v := by
  funext k
  by_cases hk : k = pos
  · subst hk
    simp [fill]
  · have hno : ¬ (pos ≤ k ∧ k < pos + 1) := by omega
    rw [fill, if_neg hno, update_of_ne hk]

theorem anyBit_one (bits : Nat → Bool) (pos : Nat) (v : Bool) :
    anyBit bits pos 1 v = (bits pos == v) := by
  simp [anyBit]

theorem bitmapUnset_one {pos : Nat} (hpos : pos < b.size) (hbit : b.bits pos = true) :
    b.bitmapUnset pos 1 = (.ok, { b with bits := update b.bits pos false }) := by
  have hrange : ¬ b.size < pos + 1 := by omega
  simp [bitmapUnset, hrange, anyBit_one, hbit, fill_one]

theorem bitmapAllocRange_ok {i : Nat}
    (h : b.bitmapAllocRange nbits = (e, some i, b')) :
    i + nbits ≤ b.size ∧ (∀ k, i ≤ k → k < i + nbits → b.bits k = false) ∧
      b' = { b with bits := fill b.bits i nbits true } := by
  unfold bitmapAllocRange at h
  split_ifs at h with hbad
  · simp at h
  · cases hfind : (List.range (b.size - nbits + 1)).find? fun i => !anyBit b.bits i nbits true with
    | none => simp [hfind] at h
    | some j =>
      rw [hfind] at h
      simp only [Prod.mk.injEq, Option.some.injEq] at h
      rcases h with ⟨_, rfl, rfl⟩
      have hmem : j < b.size - nbits + 1 := by
        simpa using List.mem_of_find?_eq_some hfind
      have hfree : anyBit b.bits j nbits true = false := by
        simpa using List.find?_some hfind
      exact ⟨by omega, anyBit_eq_false_iff.1 hfree, rfl⟩

theorem bitmapAllocRange_le {i j : Nat}
    (h : b.bitmapAllocRange nbits = (e, some i, b'))
    (hfree : ∀ k, j ≤ k → k < j + nbits → b.bits k = false) : i ≤ j := by
  unfold bitmapAllocRange at h
  split_ifs at h with hbad
  · simp at h
  · cases hfind : (List.range (b.size - nbits + 1)).find? fun i => !anyBit b.bits i nbits true with
    | none => simp [hfind] at h
    | some i' =>
      rw [hfind] at h
      simp only [Prod.mk.injEq, Option.some.injEq] at h
      rcases h with ⟨_, rfl, _⟩
      rw [List.find?_range_eq_some] at hfind
      by_contra hlt
      have htaken := hfind.2.2 j (by omega)
      rw [anyBit_eq_false_iff.2 hfree] at htaken
      simp at htaken

theorem bitmapAllocRange_none
    (h : b.bitmapAllocRange nbits = (e, none, b')) :
    b' = b ∧ (e = .err .EINVAL ∨ e = .err .ENOSPC ∧
      ∀ j, j + nbits ≤ b.size → ¬ ∀ k, j ≤ k → k < j + nbits → b.bits k = false) := by
  unfold bitmapAllocRange at h
  split_ifs at h with hbad
  · simp only [Prod.mk.injEq] at h
    exact ⟨h.2.2.symm, .inl h.1.symm⟩
  · cases hfind : (List.range (b.size - nbits + 1)).find? fun i => !anyBit b.bits i nbits true with
    | some i => simp [hfind] at h
    | none =>
      rw [hfind] at h
      simp only [Prod.mk.injEq] at h
      refine ⟨h.2.2.symm, .inr ⟨h.1.symm, fun j hj hfree => ?_⟩⟩
      rw [List.find?_range_eq_none] at hfind
      have htaken := hfind j (by omega)
      rw [anyBit_eq_false_iff.2 hfree] at htaken
      simp at htaken

/-! ## Counting set bits -/

def countSet (bits : Nat → Bool) (n : Nat) : Nat := Nat.count (fun k => bits k = true) n

theorem countSet_congr {bits' : Nat → Bool} {n : Nat} (h : ∀ k, k < n → bits k = bits' k) :
    countSet bits n = countSet bits' n := by
  induction n with
  | zero => rfl
  | succ n ih =>
    have hn := h n (by omega)
    have hrest := ih fun k hk => h k (by omega)
    simp only [countSet, Nat.count_succ] at hrest ⊢
    rw [hrest, hn]

theorem countSet_le (bits : Nat → Bool) (n : Nat) : countSet bits n ≤ n := Nat.count_le _

theorem countSet_update_true {n pos : Nat} (hpos : pos < n)
    (hbit : bits pos = false) :
    countSet (update bits pos true) n = countSet bits n + 1 := by
  induction n with
  | zero => omega
  | succ n ih =>
    simp only [countSet, Nat.count_succ] at ih ⊢
    by_cases hn : pos = n
    · subst hn
      have hsame : countSet (update bits pos true) pos = countSet bits pos :=
        countSet_congr fun k hk => by simp [Nat.ne_of_lt hk]
      simp only [countSet] at hsame
      simp [hsame, hbit]
    · rw [ih (by omega)]
      simp only [update_of_ne (Ne.symm hn)]
      omega

theorem countSet_update_false {n pos : Nat} (hpos : pos < n)
    (hbit : bits pos = true) :
    countSet (update bits pos false) n + 1 = countSet bits n := by
  have hclear : update bits pos false pos = false := by simp
  have h := countSet_update_true hpos hclear
  rw [update_idem, ← hbit, update_eq_self] at h
  exact h.symm

theorem countSet_fill_true {n pos : Nat} (hpos : pos + nbits ≤ n)
    (hfree : ∀ k, pos ≤ k → k < pos + nbits → bits k = false) :
    countSet (fill bits pos nbits true) n = countSet bits n + nbits := by
  induction nbits with
  | zero =>
    refine countSet_congr fun k _ => ?_
    have hno : ¬ (pos ≤ k ∧ k < pos) := by omega
    simp [fill, hno]
  | succ m ih =>
    have hstep : fill bits pos (m + 1) true =
        update (fill bits pos m true) (pos + m) true := by
      funext k
      by_cases hk : k = pos + m
      · subst hk
        simp [fill]
      · have hiff : (pos ≤ k ∧ k < pos + (m + 1)) ↔ (pos ≤ k ∧ k < pos + m) := by omega
        simp [fill, hk, hiff]
    have hclear : fill bits pos m true (pos + m) = false := by
      simpa [fill] using hfree (pos + m) (by omega) (by omega)
    rw [hstep, countSet_update_true (by omega) hclear,
      ih (by omega) fun k hlo hhi => hfree k hlo (by omega)]
    omega

end Bitmap
end Ds
end XytherOS
