import Mathlib.Logic.Basic

/-!
# Ends — weakest preconditions of computations with a state and errors

`Ends m s Q` says that `m` returns from the state `s`, and in what state.  The rules are equivalences,
so that `simp` turns a straight-line program into the exact condition under which it returns.
-/

namespace XytherOS

variable {σ ε α β : Type}

/-- `m` returns, with `Q`. -/
def Ends (m : StateT σ (Except ε) α) (s : σ) (Q : α → σ → Prop) : Prop :=
  match m s with
  | .ok (a, s') => Q a s'
  | .error _ => False

variable {s : σ} {Q R : α → σ → Prop}

@[simp] theorem ends_pure (a : α) : Ends (pure a : StateT σ (Except ε) α) s Q ↔ Q a s := Iff.rfl

@[simp] theorem ends_throw (e : ε) : Ends (throw e : StateT σ (Except ε) α) s Q ↔ False := Iff.rfl

@[simp] theorem ends_bind (m : StateT σ (Except ε) β) (f : β → StateT σ (Except ε) α) :
    Ends (m >>= f) s Q ↔ Ends m s fun b s' => Ends (f b) s' Q := by
  have hrun : (m >>= f) s = (m s >>= fun r => f r.1 r.2) := rfl
  rw [Ends, hrun, Ends]
  rcases m s with _ | ⟨b, s'⟩
  · exact Iff.rfl
  · exact Iff.rfl

@[simp] theorem ends_map (m : StateT σ (Except ε) β) (f : β → α) :
    Ends (f <$> m) s Q ↔ Ends m s fun b s' => Q (f b) s' := by
  rw [← bind_pure_comp, ends_bind]
  rfl

@[simp] theorem ends_get {Q : σ → σ → Prop} : Ends (get : StateT σ (Except ε) σ) s Q ↔ Q s s :=
  Iff.rfl

@[simp] theorem ends_modify (f : σ → σ) {Q : PUnit → σ → Prop} :
    Ends (modify f : StateT σ (Except ε) PUnit) s Q ↔ Q ⟨⟩ (f s) := Iff.rfl

theorem Ends.mono {m : StateT σ (Except ε) α} (hm : Ends m s Q) (hQR : ∀ a s', Q a s' → R a s') :
    Ends m s R := by
  unfold Ends at *
  split at hm
  · exact hQR _ _ hm
  · exact hm

end XytherOS
