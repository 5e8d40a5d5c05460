import Mathlib

/-!
# Spans — ascending lists of disjoint, non-empty intervals

Elements of any type carry two end points `lo x` and `hi x` in a linear order.  A list of them is
`Ascending` when every interval is non-empty and ends before the next one starts.  An address
either lies in exactly one of the intervals or in a gap, and this file turns both cases into a
decomposition of the list, on which searches, insertions and removals are computed.
-/

namespace XytherOS
namespace Spans

variable {E α : Type*} [LinearOrder α] {lo hi : E → α}

/-- Non-empty intervals, in ascending order and pairwise disjoint. -/
structure Ascending (lo hi : E → α) (l : List E) : Prop where
  nonempty : ∀ x ∈ l, lo x ≤ hi x
  apart : l.Pairwise fun x y => hi x < lo y

/-! ## One element among others -/

section Among

variable {P : E → Prop} {l₁ l₂ : List E} {x x' y : E}

theorem mem_insert (hy : y ∈ l₁ ++ l₂) : y ∈ l₁ ++ x :: l₂ := by
  rcases List.mem_append.1 hy with hy | hy
  · exact List.mem_append_left _ hy
  · exact List.mem_append_right _ (List.mem_cons_of_mem _ hy)

theorem forall_remove (h : ∀ y ∈ l₁ ++ x :: l₂, P y) : ∀ y ∈ l₁ ++ l₂, P y :=
  fun y hy => h y (mem_insert hy)

theorem forall_insert (h : ∀ y ∈ l₁ ++ l₂, P y) (hx : P x) : ∀ y ∈ l₁ ++ x :: l₂, P y := by
  intro y hy
  simp only [List.mem_append, List.mem_cons] at hy
  rcases hy with hy | rfl | hy
  · exact h y (by simp [hy])
  · exact hx
  · exact h y (by simp [hy])

theorem forall_replace (h : ∀ y ∈ l₁ ++ x' :: l₂, P y) (hx : P x) : ∀ y ∈ l₁ ++ x :: l₂, P y :=
  forall_insert (forall_remove h) hx

theorem exists_remove (h : ∃ y ∈ l₁ ++ x :: l₂, P y) (hx : ¬ P x) : ∃ y ∈ l₁ ++ l₂, P y := by
  by_contra hnone
  rcases h with ⟨y, hy, hP⟩
  exact forall_insert (P := fun y => ¬ P y) (fun z hz hz' => hnone ⟨z, hz, hz'⟩) hx y hy hP

theorem exists_replace (h : ∃ y ∈ l₁ ++ x' :: l₂, P y) (hx : P x' → P x) :
    ∃ y ∈ l₁ ++ x :: l₂, P y := by
  by_contra hnone
  rcases h with ⟨y, hy, hP⟩
  have hnot : ∀ z ∈ l₁ ++ x :: l₂, ¬ P z := fun z hz hz' => hnone ⟨z, hz, hz'⟩
  exact forall_replace (P := fun y => ¬ P y) hnot (fun hx' => hnot x (by simp) (hx hx')) y hy hP

end Among

/-! ## Cutting and joining -/

theorem ascending_append {l₁ l₂ : List E} :
    Ascending lo hi (l₁ ++ l₂) ↔ Ascending lo hi l₁ ∧ Ascending lo hi l₂ ∧
      ∀ x ∈ l₁, ∀ y ∈ l₂, hi x < lo y := by
  constructor
  · intro h
    rcases List.pairwise_append.1 h.apart with ⟨h₁, h₂, h12⟩
    refine ⟨⟨?_, h₁⟩, ⟨?_, h₂⟩, h12⟩
    · exact fun x hx => h.nonempty x (List.mem_append_left _ hx)
    · exact fun x hx => h.nonempty x (List.mem_append_right _ hx)
  · rintro ⟨h₁, h₂, h12⟩
    refine ⟨?_, List.pairwise_append.2 ⟨h₁.apart, h₂.apart, h12⟩⟩
    intro x hx
    rcases List.mem_append.1 hx with hx | hx
    · exact h₁.nonempty x hx
    · exact h₂.nonempty x hx

variable {l : List E}

theorem ascending_cons {x : E} :
    Ascending lo hi (x :: l) ↔ lo x ≤ hi x ∧ Ascending lo hi l ∧ ∀ y ∈ l, hi x < lo y := by
  constructor
  · intro h
    rcases List.pairwise_cons.1 h.apart with ⟨hx, hl⟩
    exact ⟨h.nonempty x (by simp), ⟨fun y hy => h.nonempty y (by simp [hy]), hl⟩, hx⟩
  · rintro ⟨hx, hl, hxl⟩
    refine ⟨?_, List.pairwise_cons.2 ⟨hxl, hl.apart⟩⟩
    intro y hy
    rcases List.mem_cons.1 hy with rfl | hy
    · exact hx
    · exact hl.nonempty y hy

theorem ascending_nil : Ascending lo hi ([] : List E) :=
  ⟨fun x hx => absurd hx (by simp), List.Pairwise.nil⟩

/-- The neighbourhood of one interval of an ascending list. -/
theorem Ascending.around {l₁ l₂ : List E} {x : E} (h : Ascending lo hi (l₁ ++ x :: l₂)) :
    lo x ≤ hi x ∧ (∀ y ∈ l₁, hi y < lo x) ∧ ∀ y ∈ l₂, hi x < lo y := by
  rcases ascending_append.1 h with ⟨_, h₂, h12⟩
  rcases ascending_cons.1 h₂ with ⟨hx, _, hx2⟩
  exact ⟨hx, fun y hy => h12 y hy x (by simp), hx2⟩

theorem Ascending.remove {l₁ l₂ : List E} {x : E} (h : Ascending lo hi (l₁ ++ x :: l₂)) :
    Ascending lo hi (l₁ ++ l₂) := by
  rcases ascending_append.1 h with ⟨h₁, h₂, h12⟩
  exact ascending_append.2
    ⟨h₁, (ascending_cons.1 h₂).2.1, fun y hy z hz => h12 y hy z (by simp [hz])⟩

/-- A new interval goes into a gap. -/
theorem Ascending.insert {l₁ l₂ : List E} {x : E} (h : Ascending lo hi (l₁ ++ l₂))
    (hx : lo x ≤ hi x) (h₁ : ∀ y ∈ l₁, hi y < lo x) (h₂ : ∀ y ∈ l₂, hi x < lo y) :
    Ascending lo hi (l₁ ++ x :: l₂) := by
  rcases ascending_append.1 h with ⟨ha1, ha2, ha12⟩
  refine ascending_append.2 ⟨ha1, ascending_cons.2 ⟨hx, ha2, h₂⟩, ?_⟩
  intro y hy z hz
  rcases List.mem_cons.1 hz with rfl | hz
  · exact h₁ y hy
  · exact ha12 y hy z hz

/-- One interval is exchanged for another that fits between the same neighbours. -/
theorem Ascending.replace {l₁ l₂ : List E} {x x' : E} (h : Ascending lo hi (l₁ ++ x :: l₂))
    (hx : lo x' ≤ hi x') (h₁ : ∀ y ∈ l₁, hi y < lo x') (h₂ : ∀ y ∈ l₂, hi x' < lo y) :
    Ascending lo hi (l₁ ++ x' :: l₂) :=
  h.remove.insert hx h₁ h₂

/-- The first end point is the least of the list. -/
theorem Ascending.head_le {x y : E} (h : Ascending lo hi (x :: l))
    (hy : y ∈ x :: l) : lo x ≤ lo y := by
  rcases List.mem_cons.1 hy with rfl | hy
  · exact le_rfl
  · rcases ascending_cons.1 h with ⟨hx, _, hxl⟩
    exact hx.trans (hxl y hy).le

/-! ## Locating an address -/

/-- The list is cut in a gap that contains `a`. -/
structure Gap (lo hi : E → α) (a : α) (l₁ l₂ : List E) : Prop where
  below : ∀ y ∈ l₁, hi y < a
  above : ∀ y ∈ l₂, a < lo y

/-- An address lies in one of the intervals or in a gap. -/
theorem Ascending.locate (h : Ascending lo hi l) (a : α) :
    (∃ l₁ x l₂, l = l₁ ++ x :: l₂ ∧ lo x ≤ a ∧ a ≤ hi x) ∨
      ∃ l₁ l₂, l = l₁ ++ l₂ ∧ Gap lo hi a l₁ l₂ := by
  induction l with
  | nil => exact .inr ⟨[], [], rfl, by simp, by simp⟩
  | cons x l ih =>
    rcases ascending_cons.1 h with ⟨hx, hl, hxl⟩
    rcases lt_or_ge a (lo x) with hax | hax
    · -- everything lies above
      refine .inr ⟨[], x :: l, rfl, by simp, ?_⟩
      intro y hy
      exact hax.trans_le (h.head_le hy)
    rcases le_or_gt a (hi x) with hxa | hxa
    · exact .inl ⟨[], x, l, rfl, hax, hxa⟩
    rcases ih hl with ⟨l₁, y, l₂, rfl, hy⟩ | ⟨l₁, l₂, rfl, hgap⟩
    · exact .inl ⟨x :: l₁, y, l₂, rfl, hy⟩
    · refine .inr ⟨x :: l₁, l₂, rfl, ?_, hgap.above⟩
      intro y hy
      rcases List.mem_cons.1 hy with rfl | hy
      · exact hxa
      · exact hgap.below y hy

/-- In an ascending list the interval that contains an address is the first one found. -/
theorem Ascending.find?_at {l₁ l₂ : List E} {x : E} (h : Ascending lo hi (l₁ ++ x :: l₂)) {a : α}
    (hlo : lo x ≤ a) (hhi : a ≤ hi x) :
    (l₁ ++ x :: l₂).find? (fun y => lo y ≤ a ∧ a ≤ hi y) = some x := by
  rw [List.find?_append, List.find?_eq_none.2, Option.none_or, List.find?_cons_of_pos]
  · simp [hlo, hhi]
  · intro y hy
    have hlt : hi y < a := (h.around.2.1 y hy).trans_le hlo
    simp [hlt]

theorem Gap.find?_eq_none {l₁ l₂ : List E} {a : α} (h : Gap lo hi a l₁ l₂) :
    (l₁ ++ l₂).find? (fun y => lo y ≤ a ∧ a ≤ hi y) = none := by
  refine List.find?_eq_none.2 ?_
  intro y hy
  rcases List.mem_append.1 hy with hy | hy
  · simp [h.below y hy]
  · have hlt : ¬ lo y ≤ a := not_le.2 (h.above y hy)
    simp [hlt]

/-- Two intervals of an ascending list that share an address are the same one. -/
theorem Ascending.eq_of_mem (h : Ascending lo hi l) {x y : E} (hx : x ∈ l)
    (hy : y ∈ l) {a : α} (hxa : lo x ≤ a ∧ a ≤ hi x) (hya : lo y ≤ a ∧ a ≤ hi y) : x = y := by
  rcases List.append_of_mem hx with ⟨l₁, l₂, rfl⟩
  rcases h.around with ⟨_, hbelow, habove⟩
  rcases List.mem_append.1 hy with hy | hy
  · exact absurd ((hbelow y hy).trans_le hxa.1) (not_lt.2 hya.2)
  rcases List.mem_cons.1 hy with rfl | hy
  · rfl
  · exact absurd ((habove y hy).trans_le hya.1) (not_lt.2 hxa.2)

/-- An ascending list lies on both sides of an interval that misses all of its members. -/
theorem Ascending.cut (h : Ascending lo hi l) {a b : α} (hab : a ≤ b)
    (hmiss : ∀ y ∈ l, hi y < a ∨ b < lo y) :
    ∃ l₁ l₂, l = l₁ ++ l₂ ∧ (∀ y ∈ l₁, hi y < a) ∧ ∀ y ∈ l₂, b < lo y := by
  rcases h.locate a with ⟨l₁, x, l₂, rfl, hlo, hhi⟩ | ⟨l₁, l₂, rfl, hgap⟩
  · rcases hmiss x (by simp) with hlt | hlt
    · exact absurd hlt (not_lt.2 hhi)
    · exact absurd hlt (not_lt.2 (hlo.trans hab))
  · refine ⟨l₁, l₂, rfl, hgap.below, ?_⟩
    intro y hy
    rcases hmiss y (List.mem_append_right _ hy) with hlt | hlt
    · -- `y` starts above `a`, so it cannot end below it
      have hne := h.nonempty y (List.mem_append_right _ hy)
      exact absurd (hlt.trans (hgap.above y hy)) (not_lt.2 hne)
    · exact hlt

end Spans
end XytherOS
