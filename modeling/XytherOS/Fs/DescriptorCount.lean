import XytherOS.Fs.Descriptors
import XytherOS.Lib.Ledger

/-!
# DescriptorCount — the references to open files are those of the descriptor tables

The tables are the slots of a ledger.  `Counts` says that the references of the open files are those
of a given set of slots; a new file, a closed one and a shared one are the steps of the ledger.
-/

namespace XytherOS
namespace Fs
namespace Descriptors

open Function

open Ledger (Book Sound)

variable {C F : Type} [DecidableEq C] [DecidableEq F]

/-! ## Counting references -/

section Counting

omit [DecidableEq C]

/-- The references of the open files are those of the slots, and a file is released with the last
of them. -/
structure Counts (slot : C × Nat → Option F) (s : State C F) : Prop where
  finite : {a | slot a ≠ none}.Finite
  counted : ∀ f, s.live f = true → s.refcnt f = ({a | slot a = some f}.ncard : Int)
  held : ∀ f, s.live f = true ↔ ∃ a, slot a = some f

def bookOf (slot : C × Nat → Option F) (s : State C F) : Book (C × Nat) F where
  slot := slot
  refcnt f := if s.live f then (s.refcnt f).toNat else 0
  writable _ := false

namespace Counts

variable {slot : C × Nat → Option F} {s s' : State C F} {a a' : C × Nat} {f g : F}

theorem live (h : Counts slot s) (ha : slot a = some f) : s.live f = true := (h.held f).2 ⟨a, ha⟩

theorem sound (h : Counts slot s) : Sound (fun _ => True) (bookOf slot s) where
  finite := h.finite
  exact := by
    intro a f ha
    have hlive : s.live f = true := h.live ha
    have hcount := h.counted f hlive
    simp only [bookOf, hlive, if_true, hcount]
    exact Int.toNat_natCast _
  own a ha := absurd trivial ha

theorem of_sound (h : Sound (fun _ => True) (bookOf slot s))
    (hpos : ∀ f, s.live f = true → 0 < s.refcnt f ∧ ∃ a, slot a = some f)
    (hlive : ∀ a f, slot a = some f → s.live f = true) : Counts slot s where
  finite := h.finite
  counted := by
    intro f hf
    rcases hpos f hf with ⟨hcnt, a, ha⟩
    have hexact := h.exact a f ha
    simp only [bookOf, hf, if_true] at hexact
    have hholders : (bookOf slot s).holders f = {a | slot a = some f} := rfl
    rw [bookOf] at hholders
    rw [hholders] at hexact
    omega
  held f := ⟨fun hf => (hpos f hf).2, fun ⟨a, ha⟩ => hlive a f ha⟩

theorem refcnt_pos (h : Counts slot s) (hf : s.live f = true) : 0 < s.refcnt f := by
  rcases (h.held f).1 hf with ⟨a, ha⟩
  have hpos := h.sound.refcnt_pos (a := a) ha
  simp only [bookOf, hf, if_true] at hpos
  omega

theorem congr (h : Counts slot s) (hlive : s'.live = s.live) (hrefcnt : s'.refcnt = s.refcnt) :
    Counts slot s' :=
  ⟨h.finite, hrefcnt ▸ hlive ▸ h.counted, hlive ▸ h.held⟩

end Counts

end Counting

namespace Counts

variable {slot : C × Nat → Option F} {s s' : State C F} {a a' : C × Nat} {f g : F}

theorem falloc (h : Counts slot s) (ha : slot a = none) (hf : s.live f = false) :
    Counts (update slot a (some f)) (s.falloc f) := by
  have hbook : bookOf (update slot a (some f)) (s.falloc f) = (bookOf slot s).take a f := by
    have hrefcnt : (bookOf (update slot a (some f)) (s.falloc f)).refcnt =
        update (bookOf slot s).refcnt f 1 := by
      funext g
      by_cases hg : g = f
      · subst hg
        simp [bookOf, State.falloc]
      · simp [bookOf, State.falloc, update_of_ne hg]
    exact congrArg (fun r => Book.mk (update slot a (some f)) r fun _ => false) hrefcnt
  refine .of_sound (hbook ▸ h.sound.take ha (by simp [bookOf, hf])) ?_ ?_
  · intro g hg
    by_cases hgf : g = f
    · subst hgf
      exact ⟨by simp [State.falloc], a, by simp⟩
    · have hlive : s.live g = true := by simpa [State.falloc, update_of_ne hgf] using hg
      rcases (h.held g).1 hlive with ⟨a', ha'⟩
      have hne : a' ≠ a := by
        rintro rfl
        simp [ha] at ha'
      refine ⟨?_, a', by rw [update_of_ne hne]; exact ha'⟩
      simpa [State.falloc, update_of_ne hgf] using h.refcnt_pos hlive
  · intro a' g ha'
    by_cases hgf : g = f
    · simp [State.falloc, hgf]
    · have hne : a' ≠ a := by
        rintro rfl
        exact hgf (by simpa using ha'.symm)
      rw [update_of_ne hne] at ha'
      simpa [State.falloc, update_of_ne hgf] using h.live ha'

theorem fdup (h : Counts slot s) (ha : slot a = none) (ha' : slot a' = some f) :
    Counts (update slot a (some f)) (s.fdup f) := by
  have hlive : s.live f = true := h.live ha'
  have hpos : 0 < s.refcnt f := h.refcnt_pos hlive
  have hbook : bookOf (update slot a (some f)) (s.fdup f) =
      (bookOf slot s).share a a' f := by
    have hrefcnt : (bookOf (update slot a (some f)) (s.fdup f)).refcnt =
        update (bookOf slot s).refcnt f ((bookOf slot s).refcnt f + 1) := by
      funext g
      by_cases hg : g = f
      · subst hg
        simp only [bookOf, State.fdup, hlive, if_true, update_self]
        omega
      · simp [bookOf, State.fdup, update_of_ne hg]
    have hwritable : (fun _ => false) = ((bookOf slot s).share a a' f).writable := by
      simp [bookOf, Book.share]
    exact congrArg₂ (fun r w => Book.mk (update slot a (some f)) r w) hrefcnt hwritable
  refine .of_sound (hbook ▸ h.sound.share trivial trivial ha ha') ?_ ?_
  · intro g hg
    have hg' : 0 < s.refcnt g := h.refcnt_pos hg
    rcases (h.held g).1 hg with ⟨b, hb⟩
    have hne : b ≠ a := by
      rintro rfl
      simp [ha] at hb
    refine ⟨?_, b, by rw [update_of_ne hne]; exact hb⟩
    by_cases hgf : g = f
    · subst hgf
      simp only [State.fdup, update_self]
      omega
    · simpa [State.fdup, update_of_ne hgf] using hg'
  · intro b g hb
    by_cases hne : b = a
    · subst hne
      rw [update_self, Option.some.injEq] at hb
      exact hb ▸ hlive
    · rw [update_of_ne hne] at hb
      exact h.live hb

theorem fclose_live (h : Counts slot s) (hf : s.live f = true) (g : F) :
    (s.fclose f).live g = true ↔ s.live g = true ∧ (g = f → 1 < s.refcnt f) := by
  have hpos : 0 < s.refcnt f := h.refcnt_pos hf
  by_cases hg : g = f
  · subst hg
    by_cases hlast : s.refcnt g - 1 ≤ 0
    · simp [State.fclose, State.fput, State.fdestroy, hlast, hf]
      omega
    · simp [State.fclose, State.fput, hlast, hf]
      omega
  · by_cases hlast : s.refcnt f - 1 ≤ 0
    · simp [State.fclose, State.fput, State.fdestroy, hlast, hg]
    · simp [State.fclose, State.fput, hlast, hg]

end Counts

theorem fclose_refcnt (s : State C F) (f : F) :
    (s.fclose f).refcnt = update s.refcnt f (s.refcnt f - 1) := by
  by_cases hlast : s.refcnt f - 1 ≤ 0
  · simp [State.fclose, State.fput, State.fdestroy, hlast]
  · simp [State.fclose, State.fput, hlast]

theorem fclose_fctx (s : State C F) (f : F) : (s.fclose f).fctx = s.fctx := by
  by_cases hlast : s.refcnt f - 1 ≤ 0
  · simp [State.fclose, State.fput, State.fdestroy, hlast]
  · simp [State.fclose, State.fput, hlast]

namespace Counts

variable {slot : C × Nat → Option F} {s s' : State C F} {a a' : C × Nat} {f g : F}

theorem fclose (h : Counts slot s) (ha : slot a = some f) :
    Counts (update slot a none) (s.fclose f) := by
  have hlive : s.live f = true := h.live ha
  have hpos : 0 < s.refcnt f := h.refcnt_pos hlive
  have hbook : bookOf (update slot a none) (s.fclose f) = (bookOf slot s).drop a f := by
    have hrefcnt : (bookOf (update slot a none) (s.fclose f)).refcnt =
        update (bookOf slot s).refcnt f ((bookOf slot s).refcnt f - 1) := by
      funext g
      by_cases hg : g = f
      · subst hg
        by_cases hlast : s.refcnt g = 1
        · have hdead : ¬ (s.fclose g).live g = true := by
            rw [h.fclose_live hlive]
            rintro ⟨-, hmore⟩
            have hone := hmore rfl
            omega
          simp [bookOf, hlive, hdead, hlast]
        · have hstays : (s.fclose g).live g = true := by
            rw [h.fclose_live hlive]
            exact ⟨hlive, fun _ => by omega⟩
          simp only [bookOf, hlive, hstays, if_true, fclose_refcnt, update_self]
          omega
      · have hsame : (s.fclose f).live g = true ↔ s.live g = true := by
          rw [h.fclose_live hlive]
          simp [hg]
        simp [bookOf, hsame, fclose_refcnt, update_of_ne hg]
    have hwritable : (fun _ => false) = ((bookOf slot s).drop a f).writable := by
      simp [bookOf, Book.drop]
    exact congrArg₂ (fun r w => Book.mk (update slot a none) r w) hrefcnt hwritable
  have hcount : ((bookOf (update slot a none) (s.fclose f)).holders f).ncard + 1 =
      ((bookOf slot s).holders f).ncard := h.sound.ncard_empty rfl ha
  have hexact : s.refcnt f = (((bookOf slot s).holders f).ncard : Int) := h.counted f hlive
  refine .of_sound (hbook ▸ h.sound.drop ha) ?_ ?_
  · intro g hg
    rw [h.fclose_live hlive] at hg
    by_cases hgf : g = f
    · -- the file has another holder
      subst hgf
      have hmore := hg.2 rfl
      have hne : ((bookOf (update slot a none) (s.fclose g)).holders g).Nonempty :=
        Set.nonempty_of_ncard_ne_zero (by omega)
      refine ⟨?_, hne⟩
      rw [fclose_refcnt, update_self]
      omega
    · rcases (h.held g).1 hg.1 with ⟨b, hb⟩
      have hne : b ≠ a := by
        rintro rfl
        exact hgf (Option.some.inj (hb.symm.trans ha))
      refine ⟨?_, b, by rw [update_of_ne hne]; exact hb⟩
      rw [fclose_refcnt, update_of_ne hgf]
      exact h.refcnt_pos hg.1
  · intro b g hb
    have hne : b ≠ a := by
      rintro rfl
      simp at hb
    rw [update_of_ne hne] at hb
    rw [h.fclose_live hlive]
    refine ⟨h.live hb, ?_⟩
    rintro rfl
    -- `a` and `b` hold the file, so that `a` is not its last holder
    by_contra hle
    have hone : (bookOf slot s).refcnt g = 1 := by
      simp only [bookOf, hlive, if_true]
      omega
    exact h.sound.alone_of_refcnt ha hone g ha b hne hb

end Counts

end Descriptors
end Fs
end XytherOS
