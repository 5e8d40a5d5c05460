import Mathlib.Data.List.Basic
import Mathlib.Data.Nat.ModEq
import Mathlib.Logic.Function.Basic

/-!
# Window — a queue in a circular array

The elements of a queue lie in an array of `s` places, one behind the other and from the end of the
array on at its beginning.  The place of the first element is a number that only ever grows; the
array index is its remainder.
-/

namespace XytherOS
namespace Window

open Function

variable {α : Type} {buf : Nat → α} {s h c n : Nat}

/-- The `c` elements from the place `h` on. -/
def window (buf : Nat → α) (s h c : Nat) : List α := (List.range c).map fun i => buf ((h + i) % s)

@[simp] theorem window_zero (buf : Nat → α) (s h : Nat) : window buf s h 0 = [] := rfl

@[simp] theorem window_length (buf : Nat → α) (s h c : Nat) : (window buf s h c).length = c := by
  simp [window]

/-- The first element. -/
theorem window_succ (buf : Nat → α) (s h c : Nat) :
    window buf s h (c + 1) = buf (h % s) :: window buf s (h + 1) c := by
  simp only [window, List.range_succ_eq_map, List.map_cons, List.map_map, Nat.add_zero]
  congr 1
  refine List.map_congr_left fun i _ => ?_
  simp only [comp_apply, Nat.succ_eq_add_one]
  rw [Nat.add_assoc, Nat.add_comm 1 i]

/-- Only the remainder of the first place matters. -/
theorem window_mod {m : Nat} (hm : s ∣ m) : window buf s (h % m) c = window buf s h c := by
  refine List.map_congr_left fun i _ => ?_
  have hmod : (h % m + i) % s = (h + i) % s := by
    rw [Nat.add_mod, Nat.mod_mod_of_dvd h hm, ← Nat.add_mod]
  rw [hmod]

/-- An element that is stored behind the last one. -/
theorem window_push (hc : c < s) (x : α) :
    window (update buf ((h + c) % s) x) s h (c + 1) = window buf s h c ++ [x] := by
  rw [window, List.range_succ, List.map_append]
  congr 1
  · refine List.map_congr_left fun i hi => ?_
    have hlt : i < c := List.mem_range.1 hi
    have hne : (h + i) % s ≠ (h + c) % s := by
      intro heq
      have hmod : i ≡ c [MOD s] := Nat.ModEq.add_left_cancel' h heq
      have heq' := Nat.mod_eq_of_lt hc
      rw [← hmod, Nat.mod_eq_of_lt (by omega)] at heq'
      omega
    rw [update_of_ne hne]
  · simp

end Window
end XytherOS
