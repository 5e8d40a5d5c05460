import XytherOS.Lib.SearchTree

/-!
# TreeVisit — walks with a callback that may fail

A callback takes an entry and a state to a result and a state; one result, `done`, says that it has
not failed.

* `sweep` — a list from the front, up to the first failure;
* `visit` — a binary tree in order: a failure ends the walk over the subtree of its node, but the
  node above does not learn of it and goes on;
* `Unbroken` — no callback of the walk fails.

An unbroken visit is a sweep over the entries.  The other ones are told by a quantity that every
failure makes smaller than it should be (`visit_count`), or by a mark that it leaves (`visit_marked`).
-/

namespace XytherOS
namespace SearchTree

variable {α σ ρ : Type*} [DecidableEq ρ] (done : ρ) (f : α → σ → ρ × σ)

/-! ## The walks -/

/-- The callback for the entries of a list, up to the first failure. -/
def sweep : List α → σ → ρ × σ
  | [], s => (done, s)
  | a :: l, s => if (f a s).1 = done then sweep l (f a s).2 else f a s

def visit : BinaryTree α → σ → σ
  | .nil, s => s
  | .node a l r, s =>
    if (f a (visit l s)).1 = done then visit r (f a (visit l s)).2 else (f a (visit l s)).2

def atRoot : BinaryTree α → σ → ρ
  | .nil, _ => done
  | .node a l _, s => (f a (visit done f l s)).1

def Unbroken (t : BinaryTree α) (s : σ) : Prop := (sweep done f (inorder t) s).1 = done

instance (t : BinaryTree α) (s : σ) : Decidable (Unbroken done f t s) :=
  inferInstanceAs (Decidable (_ = _))

/-! ## Sweeps -/

variable {done f} {a : α} {l l' : List α} {s : σ} {t lt rt : BinaryTree α}

@[simp] theorem sweep_nil : sweep done f [] s = (done, s) := rfl

theorem sweep_cons_done (h : (f a s).1 = done) :
    sweep done f (a :: l) s = sweep done f l (f a s).2 := by
  rw [sweep, if_pos h]

theorem sweep_cons_fail (h : (f a s).1 ≠ done) : sweep done f (a :: l) s = f a s := by
  rw [sweep, if_neg h]

theorem sweep_append_done (h : (sweep done f l s).1 = done) :
    sweep done f (l ++ l') s = sweep done f l' (sweep done f l s).2 := by
  induction l generalizing s with
  | nil => rfl
  | cons a l ih =>
    by_cases ha : (f a s).1 = done
    · rw [sweep_cons_done ha] at h ⊢
      rw [List.cons_append, sweep_cons_done ha]
      exact ih h
    · rw [sweep_cons_fail ha] at h
      exact absurd h ha

theorem sweep_append_fail (h : (sweep done f l s).1 ≠ done) :
    sweep done f (l ++ l') s = sweep done f l s := by
  induction l generalizing s with
  | nil => exact absurd rfl h
  | cons a l ih =>
    by_cases ha : (f a s).1 = done
    · rw [sweep_cons_done ha] at h ⊢
      rw [List.cons_append, sweep_cons_done ha]
      exact ih h
    · rw [List.cons_append, sweep_cons_fail ha, sweep_cons_fail ha]

/-- A sweep over lists, one behind the other. -/
theorem sweep_flatMap {β : Type*} (c : β → List α) (is : List β) (s : σ) :
    sweep done (fun i => sweep done f (c i)) is s = sweep done f (is.flatMap c) s := by
  induction is generalizing s with
  | nil => rfl
  | cons i is ih =>
    rw [List.flatMap_cons]
    by_cases hi : (sweep done f (c i) s).1 = done
    · rw [sweep_append_done hi, ← ih]
      exact sweep_cons_done (f := fun i => sweep done f (c i)) hi
    · rw [sweep_append_fail hi]
      exact sweep_cons_fail (f := fun i => sweep done f (c i)) hi

/-- A quantity that grows by what each entry is worth. -/
theorem sweep_count (μ : σ → Nat) (w : α → Nat)
    (hdone : ∀ a s, (f a s).1 = done → μ (f a s).2 = μ s + w a)
    (hfail : ∀ a s, (f a s).1 ≠ done → μ (f a s).2 < μ s + w a) (l : List α) (s : σ) :
    ((sweep done f l s).1 = done → μ (sweep done f l s).2 = μ s + (l.map w).sum) ∧
      ((sweep done f l s).1 ≠ done → μ (sweep done f l s).2 < μ s + (l.map w).sum) := by
  induction l generalizing s with
  | nil => exact ⟨fun _ => by simp, fun h => absurd rfl h⟩
  | cons a l ih =>
    rw [List.map_cons, List.sum_cons]
    by_cases ha : (f a s).1 = done
    · rw [sweep_cons_done ha]
      have hnext := ih (f a s).2
      rw [hdone a s ha, Nat.add_assoc] at hnext
      exact hnext
    · rw [sweep_cons_fail ha]
      have hlt := hfail a s ha
      exact ⟨fun h => absurd h ha, fun _ => by omega⟩

/-! ## Visits -/

theorem visit_node_done (h : (f a (visit done f lt s)).1 = done) :
    visit done f (.node a lt rt) s = visit done f rt (f a (visit done f lt s)).2 := by
  rw [visit, if_pos h]

theorem visit_node_fail (h : (f a (visit done f lt s)).1 ≠ done) :
    visit done f (.node a lt rt) s = (f a (visit done f lt s)).2 := by
  rw [visit, if_neg h]

/-- Where no callback fails, the walk is the sweep over the entries. -/
theorem visit_of_unbroken (h : Unbroken done f t s) :
    visit done f t s = (sweep done f (inorder t) s).2 := by
  induction t generalizing s with
  | nil => rfl
  | node a l r ihl ihr =>
    rw [Unbroken, inorder_node] at h
    by_cases hl : Unbroken done f l s
    · rw [sweep_append_done hl, ← ihl hl] at h
      by_cases ha : (f a (visit done f l s)).1 = done
      · rw [sweep_cons_done ha] at h
        rw [visit_node_done ha, inorder_node, sweep_append_done hl, ← ihl hl,
          sweep_cons_done ha]
        exact ihr h
      · rw [sweep_cons_fail ha] at h
        exact absurd h ha
    · rw [sweep_append_fail hl] at h
      exact absurd h hl

theorem unbroken_node :
    Unbroken done f (.node a lt rt) s ↔
      Unbroken done f lt s ∧ (f a (visit done f lt s)).1 = done ∧
        Unbroken done f rt (f a (visit done f lt s)).2 := by
  rw [Unbroken, inorder_node]
  by_cases hl : Unbroken done f lt s
  · rw [sweep_append_done hl, ← visit_of_unbroken hl]
    by_cases ha : (f a (visit done f lt s)).1 = done
    · rw [sweep_cons_done ha]
      exact ⟨fun h => ⟨hl, ha, h⟩, fun h => h.2.2⟩
    · rw [sweep_cons_fail ha]
      exact ⟨fun h => absurd h ha, fun h => absurd h.2.1 ha⟩
  · rw [sweep_append_fail hl]
    exact ⟨fun h => absurd h hl, fun h => absurd h.1 hl⟩

/-- Where no callback fails, the one at the root does not. -/
theorem atRoot_of_unbroken (h : Unbroken done f t s) : atRoot done f t s = done := by
  cases t with
  | nil => rfl
  | node a l r => exact (unbroken_node.1 h).2.1

/-- A quantity that grows by what each entry is worth, as long as no callback fails. -/
theorem visit_count (μ : σ → Nat) (w : α → Nat)
    (hdone : ∀ a s, (f a s).1 = done → μ (f a s).2 = μ s + w a)
    (hfail : ∀ a s, (f a s).1 ≠ done → μ (f a s).2 < μ s + w a) (t : BinaryTree α) (s : σ) :
    (Unbroken done f t s → μ (visit done f t s) = μ s + ((inorder t).map w).sum) ∧
      (¬ Unbroken done f t s → μ (visit done f t s) < μ s + ((inorder t).map w).sum) := by
  induction t generalizing s with
  | nil => exact ⟨fun _ => by simp [visit], fun h => absurd rfl h⟩
  | node a l r ihl ihr =>
    rcases ihl s with ⟨hl, hl'⟩
    rw [unbroken_node, inorder_node, List.map_append, List.map_cons, List.sum_append,
      List.sum_cons]
    have hle : μ (visit done f l s) ≤ μ s + ((inorder l).map w).sum := by
      by_cases h : Unbroken done f l s
      · exact Nat.le_of_eq (hl h)
      · exact Nat.le_of_lt (hl' h)
    by_cases ha : (f a (visit done f l s)).1 = done
    · rcases ihr (f a (visit done f l s)).2 with ⟨hr, hr'⟩
      have hroot := hdone _ _ ha
      rw [visit_node_done ha]
      constructor
      · rintro ⟨hul, -, hur⟩
        rw [hr hur, hroot, hl hul]
        omega
      · intro hbroken
        by_cases hur : Unbroken done f r (f a (visit done f l s)).2
        · have hul : ¬ Unbroken done f l s := fun hul => hbroken ⟨hul, ha, hur⟩
          have hlt := hl' hul
          rw [hr hur]
          omega
        · have hlt := hr' hur
          omega
    · have hlt := hfail _ _ ha
      rw [visit_node_fail ha]
      exact ⟨fun h => absurd h.2.1 ha, fun _ => by omega⟩

/-- A mark that stays is kept by the walk. -/
theorem visit_keeps {M : σ → Prop} (hkeep : ∀ a s, M s → M (f a s).2) (t : BinaryTree α)
    (h : M s) : M (visit done f t s) := by
  induction t generalizing s with
  | nil => exact h
  | node a l r ihl ihr =>
    rw [visit]
    split
    · exact ihr (hkeep a _ (ihl h))
    · exact hkeep a _ (ihl h)

/-- A mark that stays, and that every failure leaves. -/
theorem visit_marked {M : σ → Prop} (hkeep : ∀ a s, M s → M (f a s).2)
    (hfail : ∀ a s, (f a s).1 ≠ done → M (f a s).2) (h : ¬ Unbroken done f t s) :
    M (visit done f t s) := by
  induction t generalizing s with
  | nil => exact absurd rfl h
  | node a l r ihl ihr =>
    by_cases ha : (f a (visit done f l s)).1 = done
    · rw [visit_node_done ha]
      by_cases hl : Unbroken done f l s
      · exact ihr fun hr => h (unbroken_node.2 ⟨hl, ha, hr⟩)
      · exact visit_keeps hkeep r (hkeep a _ (ihl hl))
    · rw [visit_node_fail ha]
      exact hfail a _ ha

end SearchTree
end XytherOS
