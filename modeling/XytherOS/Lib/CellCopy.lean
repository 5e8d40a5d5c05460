import Mathlib.Logic.Function.Basic

/-!
# CellCopy — cells copied one after the other

A copy loop reads cell `src i` and writes it to cell `dst i`, for one `i` after the other, in a store
whose cells may be named twice and whose two ranges may overlap.

* `copyCells_add` — a copy in two parts;
* `copyCells_frame` — what is not a target stays.
-/

namespace XytherOS
namespace Cells

variable {A V : Type*} [DecidableEq A]

/-- The store after the first `n` cells have been copied. -/
def copyCells (dst src : Nat → A) (m : A → V) : Nat → A → V
  | 0 => m
  | n + 1 => Function.update (copyCells dst src m n) (dst n) (copyCells dst src m n (src n))

variable {dst src : Nat → A} {m : A → V} {n : Nat}

/-- The first cells, and then the others. -/
theorem copyCells_add (a b : Nat) :
    copyCells dst src m (a + b) =
      copyCells (fun i => dst (a + i)) (fun i => src (a + i)) (copyCells dst src m a) b := by
  induction b with
  | zero => rfl
  | succ b ih =>
    rw [Nat.add_succ, copyCells, copyCells, ih]

theorem copyCells_frame {a : A} (h : ∀ i < n, dst i ≠ a) : copyCells dst src m n a = m a := by
  induction n with
  | zero => rfl
  | succ n ih =>
    rw [copyCells, Function.update_of_ne (h n (by omega)).symm]
    exact ih fun i hi => h i (by omega)

end Cells
end XytherOS
