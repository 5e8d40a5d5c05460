import Mathlib.Data.List.Basic
import Mathlib.Logic.Function.Basic

/-!
# WriteLog — a list of writes, and the store it leaves

A program that only stores is its log: cells with the values that are put there, the earliest first.

* `replay_frame` — a cell that the log does not name stays;
* `replay_agrees` — where every write agrees with one image, a cell that the log names holds what
  the image says, however often and in whatever order it is written;
* `lay` — the writes that put values into cells in a row.
-/

namespace XytherOS
namespace WriteLog

open Function

variable {A V : Type*} [DecidableEq A]

/-- The store after the writes `ws`. -/
def replay (m : A → V) : List (A × V) → A → V
  | [] => m
  | w :: ws => replay (update m w.1 w.2) ws

/-- Every write puts what `f` says. -/
def Agrees (ws : List (A × V)) (f : A → V) : Prop := ∀ w ∈ ws, w.2 = f w.1

variable {m : A → V} {ws : List (A × V)} {f : A → V} {a : A}

theorem replay_frame (h : ∀ w ∈ ws, w.1 ≠ a) : replay m ws a = m a := by
  induction ws generalizing m with
  | nil => rfl
  | cons w ws ih =>
    have hrest : ∀ x ∈ ws, x.1 ≠ a := fun x hx => h x (by simp [hx])
    have hne : a ≠ w.1 := (h w (by simp)).symm
    calc replay m (w :: ws) a
        = update m w.1 w.2 a := ih hrest
      _ = m a := update_of_ne hne w.2 m

theorem replay_agrees (h : Agrees ws f) (ha : ∃ w ∈ ws, w.1 = a) : replay m ws a = f a := by
  induction ws generalizing m with
  | nil =>
    rcases ha with ⟨w, hw, -⟩
    exact absurd hw (by simp)
  | cons w ws ih =>
    have hrest : Agrees ws f := fun x hx => h x (by simp [hx])
    by_cases hlater : ∃ x ∈ ws, x.1 = a
    · exact ih hrest hlater
    · -- the last write to the cell is this one
      obtain rfl : w.1 = a := by
        rcases ha with ⟨x, hx, hxa⟩
        rcases List.mem_cons.1 hx with rfl | hx
        · exact hxa
        · exact absurd ⟨x, hx, hxa⟩ hlater
      have hkeep : ∀ x ∈ ws, x.1 ≠ w.1 := fun x hx hxa => hlater ⟨x, hx, hxa⟩
      calc replay m (w :: ws) w.1
          = update m w.1 w.2 w.1 := replay_frame hkeep
        _ = w.2 := update_self w.1 w.2 m
        _ = f w.1 := h w (by simp)

/-! ## Cells in a row -/

variable {w : Nat}

/-- One value after the other, from the cell `a` on. -/
def lay (a : BitVec w) : List V → List (BitVec w × V)
  | [] => []
  | v :: vs => (a, v) :: lay (a + 1) vs

theorem step_ofNat (a : BitVec w) (n : Nat) :
    a + 1 + BitVec.ofNat w n = a + BitVec.ofNat w (n + 1) := by
  rw [BitVec.ofNat_add, BitVec.add_assoc, BitVec.add_comm (BitVec.ofNat w n)]
  rfl

theorem mem_lay {a : BitVec w} {vs : List V} {x : BitVec w × V} :
    x ∈ lay a vs ↔ ∃ (i : Nat) (h : i < vs.length), x = (a + BitVec.ofNat w i, vs[i]) := by
  induction vs generalizing a with
  | nil => simp [lay]
  | cons v vs ih =>
    rw [lay, List.mem_cons, ih]
    constructor
    · rintro (rfl | ⟨i, hi, rfl⟩)
      · exact ⟨0, Nat.succ_pos _, by simp⟩
      · exact ⟨i + 1, Nat.succ_lt_succ hi, by rw [step_ofNat, List.getElem_cons_succ]⟩
    · rintro ⟨i, hi, rfl⟩
      cases i with
      | zero => exact .inl (by simp)
      | succ i =>
        refine .inr ⟨i, Nat.lt_of_succ_lt_succ hi, ?_⟩
        rw [step_ofNat, List.getElem_cons_succ]

theorem lay_append (a : BitVec w) (vs vs' : List V) :
    lay a (vs ++ vs') = lay a vs ++ lay (a + BitVec.ofNat w vs.length) vs' := by
  induction vs generalizing a with
  | nil => simp [lay]
  | cons v vs ih =>
    calc lay a (v :: vs ++ vs')
        = (a, v) :: lay (a + 1) (vs ++ vs') := rfl
      _ = (a, v) :: (lay (a + 1) vs ++ lay (a + 1 + BitVec.ofNat w vs.length) vs') := by
          rw [ih]
      _ = lay a (v :: vs) ++ lay (a + BitVec.ofNat w (v :: vs).length) vs' := by
          rw [step_ofNat]
          rfl

end WriteLog
end XytherOS
