import Mathlib.Data.List.Nodup
import Mathlib.Data.List.Perm.Basic
import Mathlib.Logic.Function.Basic

/-!
# Places — tokens that lie in one place at a time

Tokens `α` lie in places `P`, each of which is a list of them.  The places are exclusive if no token
lies in two of them, or twice in one.  A token is moved by taking it, after which it lies nowhere, and
putting it: both keep the places exclusive.
-/

namespace XytherOS
namespace Places

open Function

variable {P α : Type} [DecidableEq P]

structure Exclusive (place : P → List α) : Prop where
  nodup : ∀ p, (place p).Nodup
  apart : ∀ p q a, a ∈ place p → a ∈ place q → p = q

namespace Exclusive

variable {place : P → List α} {p : P} {a : α} {l : List α}

/-- A token that is taken lies nowhere. -/
theorem take (h : Exclusive place) (hp : (place p).Perm (a :: l)) :
    Exclusive (update place p l) ∧ ∀ q, a ∉ update place p l q := by
  have hnodup : (a :: l).Nodup := hp.nodup_iff.mp (h.nodup p)
  have hsub : ∀ q b, b ∈ update place p l q → b ∈ place q := by
    intro q b hb
    by_cases hq : q = p
    · subst hq
      rw [update_self] at hb
      exact hp.mem_iff.mpr (List.mem_cons_of_mem a hb)
    · rwa [update_of_ne hq] at hb
  refine ⟨⟨?_, ?_⟩, ?_⟩
  · intro q
    by_cases hq : q = p
    · subst hq
      rw [update_self]
      exact (List.nodup_cons.mp hnodup).2
    · rw [update_of_ne hq]
      exact h.nodup q
  · intro q r b hb hb'
    exact h.apart q r b (hsub q b hb) (hsub r b hb')
  · intro q ha
    by_cases hq : q = p
    · subst hq
      rw [update_self] at ha
      exact (List.nodup_cons.mp hnodup).1 ha
    · exact hq (h.apart q p a (hsub q a ha) (hp.mem_iff.mpr List.mem_cons_self))

/-- A token that lies nowhere may be put anywhere. -/
theorem put (h : Exclusive place) (ha : ∀ q, a ∉ place q) (hp : l.Perm (a :: place p)) :
    Exclusive (update place p l) := by
  have hcases : ∀ q b, b ∈ update place p l q → b ∈ place q ∨ b = a ∧ q = p := by
    intro q b hb
    by_cases hq : q = p
    · subst hq
      rw [update_self, hp.mem_iff, List.mem_cons] at hb
      exact hb.elim (fun hba => .inr ⟨hba, rfl⟩) .inl
    · rw [update_of_ne hq] at hb
      exact .inl hb
  refine ⟨?_, ?_⟩
  · intro q
    by_cases hq : q = p
    · subst hq
      rw [update_self, hp.nodup_iff, List.nodup_cons]
      exact ⟨ha q, h.nodup q⟩
    · rw [update_of_ne hq]
      exact h.nodup q
  · intro q r b hb hb'
    rcases hcases q b hb with hq | ⟨rfl, rfl⟩
    · rcases hcases r b hb' with hr | ⟨rfl, rfl⟩
      · exact h.apart q r b hq hr
      · exact absurd hq (ha q)
    · rcases hcases r b hb' with hr | ⟨-, rfl⟩
      · exact absurd hr (ha r)
      · rfl

end Exclusive

end Places
end XytherOS
