import Mathlib.Data.Set.Card
import Mathlib.Logic.Relation

/-!
# Ledger — slots that hold counted references

A book has slots, each of which holds one object or none, and a reference count for every object.
Slots of one kind may share an object and may be writable; a slot of any other kind has its object
for itself.  The steps are those of a copy-on-write discipline: an object without references is
taken, moved to another slot, lost, shared with an empty slot or dropped, and the right to write is
revoked or granted.  The counts of the objects in slots stay right whatever is granted (`Sound`), and
a writable slot never shares its object (`Isolated`) as long as the right to write is granted only to
slots that do not share theirs.
-/

namespace XytherOS
namespace Ledger

open Function

variable {α β : Type} [DecidableEq α] [DecidableEq β]

/-- The slots `α` with the objects `β` they hold. -/
structure Book (α β : Type) where
  slot : α → Option β
  refcnt : β → Nat
  writable : α → Bool

namespace Book

/-- Put the first reference to `f` into the slot `a`. -/
def take (b : Book α β) (a : α) (f : β) : Book α β :=
  { b with
    slot := update b.slot a (some f)
    refcnt := update b.refcnt f 1 }

/-- Empty the slot `a`, which holds `f`. -/
def drop (b : Book α β) (a : α) (f : β) : Book α β :=
  { slot := update b.slot a none
    refcnt := update b.refcnt f (b.refcnt f - 1)
    writable := update b.writable a false }

/-- Forget what the slot `a` holds; the reference is lost. -/
def lose (b : Book α β) (a : α) : Book α β :=
  { b with slot := update b.slot a none }

/-- Move the object `f` of the slot `a` to the slot `a'`. -/
def move (b : Book α β) (a a' : α) (f : β) (w : Bool) : Book α β :=
  { b with
    slot := update (update b.slot a none) a' (some f)
    writable := update b.writable a' w }

/-- Share the object `f` of the slot `a'` with the slot `a`; neither may be written then. -/
def share (b : Book α β) (a a' : α) (f : β) : Book α β :=
  { slot := update b.slot a (some f)
    refcnt := update b.refcnt f (b.refcnt f + 1)
    writable := update (update b.writable a' false) a false }

/-- Revoke or grant the right to write to the slot `a`. -/
def setWritable (b : Book α β) (a : α) (w : Bool) : Book α β :=
  { b with writable := update b.writable a w }

/-- The slots that hold `f`. -/
def holders (b : Book α β) (f : β) : Set α := {a | b.slot a = some f}

/-- The slot `a` does not share its object. -/
def Alone (b : Book α β) (a : α) : Prop :=
  ∀ f, b.slot a = some f → ∀ a', a' ≠ a → b.slot a' ≠ some f

end Book

/-- One step of a book; `shared` says which slots may share an object and be writable.  When
`strict` holds, only a slot that does not share its object is granted the right to write. -/
inductive Step (shared : α → Prop) (strict : Prop) : Book α β → Book α β → Prop
  | take {b : Book α β} (a : α) (f : β) : ¬ shared a → b.slot a = none → b.refcnt f = 0 →
      Step shared strict b (b.take a f)
  | drop {b : Book α β} (a : α) (f : β) : b.slot a = some f → Step shared strict b (b.drop a f)
  | lose {b : Book α β} (a : α) : ¬ shared a → Step shared strict b (b.lose a)
  | move {b : Book α β} (a a' : α) (f : β) (w : Bool) : ¬ shared a → (¬ shared a' → w = false) →
      b.slot a = some f → b.slot a' = none → Step shared strict b (b.move a a' f w)
  | share {b : Book α β} (a a' : α) (f : β) : shared a → shared a' → b.slot a = none →
      b.slot a' = some f → Step shared strict b (b.share a a' f)
  | revoke {b : Book α β} (a : α) : Step shared strict b (b.setWritable a false)
  | grant {b : Book α β} (a : α) : shared a → (strict → b.Alone a) →
      Step shared strict b (b.setWritable a true)

abbrev Steps (shared : α → Prop) (strict : Prop) : Book α β → Book α β → Prop :=
  Relation.ReflTransGen (Step shared strict)

/-! ## Counting holders -/

variable {shared : α → Prop} {strict : Prop} {b b' : Book α β} {a a' : α} {f g : β} {w : Bool}

omit [DecidableEq α] [DecidableEq β] in
@[simp] theorem Book.mem_holders : a ∈ b.holders f ↔ b.slot a = some f := Iff.rfl

omit [DecidableEq β] in
/-- The holders of the object that a slot is overwritten with. -/
theorem Book.holders_fill (hslot : b'.slot = update b.slot a (some f)) :
    b'.holders f = insert a (b.holders f) := by
  ext x
  rw [Book.mem_holders, hslot]
  by_cases hx : x = a
  · subst hx
    simp
  · simp [hx]

omit [DecidableEq β] in
/-- The holders of any other object. -/
theorem Book.holders_erase {o : Option β} (hslot : b'.slot = update b.slot a o)
    (ho : o ≠ some g) : b'.holders g = b.holders g \ {a} := by
  ext x
  rw [Book.mem_holders, hslot]
  by_cases hx : x = a
  · subst hx
    simp [ho]
  · simp [hx]

/-! ## Sound books -/

/-- The counts of `b` are right: an object in a slot has the references of the slots that hold it and
no others, and the slots that do not share have their objects for themselves. -/
structure Sound (shared : α → Prop) (b : Book α β) : Prop where
  finite : {a | b.slot a ≠ none}.Finite
  exact : ∀ a f, b.slot a = some f → b.refcnt f = (b.holders f).ncard
  own : ∀ a, ¬ shared a → b.Alone a

namespace Sound

section General

omit [DecidableEq α] [DecidableEq β]

theorem holders_finite (h : Sound shared b) (f : β) : (b.holders f).Finite := by
  refine h.finite.subset ?_
  intro a ha
  rw [Book.mem_holders] at ha
  simp [ha]

/-- The object of a slot has a reference. -/
theorem refcnt_pos (h : Sound shared b) (ha : b.slot a = some f) : 0 < b.refcnt f := by
  rw [h.exact a f ha, Set.ncard_pos (h.holders_finite f)]
  exact ⟨a, ha⟩

/-- Nobody holds an object without references. -/
theorem unheld (h : Sound shared b) (hf : b.refcnt f = 0) (a : α) : b.slot a ≠ some f := by
  intro ha
  have hpos := h.refcnt_pos ha
  omega

/-- A slot whose object has one reference does not share it. -/
theorem alone_of_refcnt (h : Sound shared b) (ha : b.slot a = some f) (hf : b.refcnt f = 1) :
    b.Alone a := by
  intro g hg a' hne ha'
  cases ha.symm.trans hg
  have hcard : (b.holders f).ncard ≤ 1 := (hf ▸ h.exact a f ha).ge
  have hone := (Set.ncard_le_one (h.holders_finite f)).1 hcard
  exact hne (hone a' ha' a ha)

end General

section Update

omit [DecidableEq β]

theorem finite_update {o : Option β} (h : Sound shared b)
    (hslot : b'.slot = update b.slot a o) : {x | b'.slot x ≠ none}.Finite := by
  refine (h.finite.insert a).subset ?_
  intro x hx
  by_cases hxa : x = a
  · exact Or.inl hxa
  · right
    simpa [hslot, update_of_ne hxa] using hx

/-- A slot is emptied; the other holders of its object know of one holder less. -/
theorem ncard_empty (h : Sound shared b) (hslot : b'.slot = update b.slot a none)
    (ha : b.slot a = some f) : (b'.holders f).ncard + 1 = (b.holders f).ncard := by
  rw [Book.holders_erase hslot (by simp)]
  exact Set.ncard_sdiff_singleton_add_one ha (h.holders_finite f)

/-- An empty slot is filled. -/
theorem ncard_fill (h : Sound shared b) (hslot : b'.slot = update b.slot a (some f))
    (ha : b.slot a = none) : (b'.holders f).ncard = (b.holders f).ncard + 1 := by
  rw [Book.holders_fill hslot]
  exact Set.ncard_insert_of_notMem (by simp [ha]) (h.holders_finite f)

/-- The holders of another object stay. -/
theorem holders_other {o : Option β}
    (hslot : b'.slot = update b.slot a o)
    (hold : b.slot a ≠ some g) (hnew : o ≠ some g) : b'.holders g = b.holders g := by
  rw [Book.holders_erase hslot hnew, Set.sdiff_singleton_eq_self]
  exact hold

/-- Emptying a slot leaves the others alone. -/
theorem own_empty (h : Sound shared b) (hslot : b'.slot = update b.slot a none)
    (x : α) (hx : ¬ shared x) : b'.Alone x := by
  intro g hxg y hy hyg
  rw [hslot] at hxg hyg
  have hxa : x ≠ a := by
    rintro rfl
    simp at hxg
  have hya : y ≠ a := by
    rintro rfl
    simp at hyg
  rw [update_of_ne hxa] at hxg
  rw [update_of_ne hya] at hyg
  exact h.own x hx g hxg y hy hyg

end Update

theorem take (h : Sound shared b) (ha : b.slot a = none) (hf : b.refcnt f = 0) :
    Sound shared (b.take a f) := by
  have hslot : (b.take a f).slot = update b.slot a (some f) := rfl
  refine ⟨h.finite_update hslot, ?_, ?_⟩
  · intro x g hxg
    by_cases hg : g = f
    · subst hg
      have hempty : b.holders g = ∅ := by
        ext y
        simpa using h.unheld hf y
      rw [h.ncard_fill hslot ha, hempty]
      simp [Book.take]
    · have hxa : x ≠ a := by
        rintro rfl
        rw [hslot, update_self] at hxg
        exact hg (Option.some.inj hxg).symm
      rw [hslot, update_of_ne hxa] at hxg
      rw [holders_other hslot (by simp [ha]) (by simp [Ne.symm hg])]
      simpa [Book.take, update_of_ne hg] using h.exact x g hxg
  · intro x hx g hxg y hy hyg
    rw [hslot] at hxg hyg
    by_cases hxa : x = a
    · -- the slot that was filled: nobody else holds its object
      subst hxa
      rw [update_self] at hxg
      rw [update_of_ne hy] at hyg
      exact h.unheld hf y (Option.some.inj hxg ▸ hyg)
    · rw [update_of_ne hxa] at hxg
      by_cases hya : y = a
      · subst hya
        rw [update_self] at hyg
        exact h.unheld hf x (Option.some.inj hyg ▸ hxg)
      · rw [update_of_ne hya] at hyg
        exact h.own x hx g hxg y hy hyg

theorem drop (h : Sound shared b) (ha : b.slot a = some f) : Sound shared (b.drop a f) := by
  have hslot : (b.drop a f).slot = update b.slot a none := rfl
  refine ⟨h.finite_update hslot, ?_, h.own_empty hslot⟩
  intro x g hxg
  have hxa : x ≠ a := by
    rintro rfl
    simp [hslot] at hxg
  rw [hslot, update_of_ne hxa] at hxg
  have hexact := h.exact x g hxg
  by_cases hg : g = f
  · subst hg
    have hcount := h.ncard_empty hslot ha
    simp only [Book.drop, update_self] at hcount ⊢
    omega
  · rw [holders_other hslot (by simp [ha, Ne.symm hg]) (by simp)]
    simpa [Book.drop, update_of_ne hg] using hexact

omit [DecidableEq β] in
theorem lose (h : Sound shared b) (hs : ¬ shared a) : Sound shared (b.lose a) := by
  have hslot : (b.lose a).slot = update b.slot a none := rfl
  refine ⟨h.finite_update hslot, ?_, h.own_empty hslot⟩
  intro x g hxg
  have hxa : x ≠ a := by
    rintro rfl
    simp [hslot] at hxg
  rw [hslot, update_of_ne hxa] at hxg
  -- the lost object had no other holder, so that it is not the one of `x`
  have hag : b.slot a ≠ some g := fun hag => h.own a hs g hag x hxa hxg
  rw [holders_other hslot hag (by simp)]
  exact h.exact x g hxg

theorem share (h : Sound shared b) (hs : shared a) (hs' : shared a') (ha : b.slot a = none)
    (ha' : b.slot a' = some f) : Sound shared (b.share a a' f) := by
  have hslot : (b.share a a' f).slot = update b.slot a (some f) := rfl
  refine ⟨h.finite_update hslot, ?_, ?_⟩
  · intro x g hxg
    by_cases hg : g = f
    · subst hg
      rw [h.ncard_fill hslot ha, ← h.exact a' g ha']
      simp [Book.share]
    · have hxa : x ≠ a := by
        rintro rfl
        rw [hslot, update_self] at hxg
        exact hg (Option.some.inj hxg).symm
      rw [hslot, update_of_ne hxa] at hxg
      rw [holders_other hslot (by simp [ha]) (by simp [Ne.symm hg])]
      simpa [Book.share, update_of_ne hg] using h.exact x g hxg
  · intro x hx g hxg y hy hyg
    have hxa : x ≠ a := fun hxa => hx (hxa ▸ hs)
    rw [hslot, update_of_ne hxa] at hxg
    rw [hslot] at hyg
    by_cases hya : y = a
    · -- the new holder has the object of `a'`, which `x` would have to share
      subst hya
      rw [update_self] at hyg
      have hx' : x ≠ a' := fun hx' => hx (hx' ▸ hs')
      exact h.own x hx g hxg a' (Ne.symm hx') (Option.some.inj hyg ▸ ha')
    · rw [update_of_ne hya] at hyg
      exact h.own x hx g hxg y hy hyg

omit [DecidableEq β] in
/-- The slot that an object is moved to has it for itself. -/
theorem move_alone (h : Sound shared b) (hs : ¬ shared a) (ha : b.slot a = some f) :
    (b.move a a' f w).Alone a' := by
  intro g hg y hy hyg
  simp only [Book.move, update_self, Option.some.injEq] at hg
  subst hg
  simp only [Book.move, update_of_ne hy] at hyg
  have hya : y ≠ a := by
    rintro rfl
    simp at hyg
  rw [update_of_ne hya] at hyg
  exact h.own a hs f ha y hya hyg

omit [DecidableEq β] in
theorem move (h : Sound shared b) (hs : ¬ shared a) (ha : b.slot a = some f)
    (ha' : b.slot a' = none) : Sound shared (b.move a a' f w) := by
  have hlose := h.lose hs
  have hslot : (b.move a a' f w).slot = update (b.lose a).slot a' (some f) := rfl
  have hne : a' ≠ a := by
    rintro rfl
    simp [ha] at ha'
  have hempty : (b.lose a).slot a' = none := by simp [Book.lose, update_of_ne hne, ha']
  refine ⟨hlose.finite_update hslot, ?_, ?_⟩
  · intro x g hxg
    by_cases hg : g = f
    · subst hg
      have hless : ((b.lose a).holders g).ncard + 1 = (b.holders g).ncard := h.ncard_empty rfl ha
      rw [hlose.ncard_fill hslot hempty, hless]
      exact h.exact a g ha
    · have hxa : x ≠ a' := by
        rintro rfl
        rw [hslot, update_self] at hxg
        exact hg (Option.some.inj hxg).symm
      rw [hslot, update_of_ne hxa] at hxg
      rw [holders_other hslot (by simp [hempty]) (by simp [Ne.symm hg])]
      exact hlose.exact x g hxg
  · intro x hx g hxg y hy hyg
    by_cases hxa : x = a'
    · subst hxa
      exact h.move_alone hs ha g hxg y hy hyg
    · by_cases hya : y = a'
      · subst hya
        exact h.move_alone hs ha g hyg x hxa hxg
      · rw [hslot, update_of_ne hxa] at hxg
        rw [hslot, update_of_ne hya] at hyg
        exact hlose.own x hx g hxg y hy hyg

omit [DecidableEq β] in
theorem setWritable (h : Sound shared b) (a : α) (w : Bool) : Sound shared (b.setWritable a w) :=
  ⟨h.finite, h.exact, h.own⟩

theorem step (h : Sound shared b) (hstep : Step shared strict b b') : Sound shared b' := by
  cases hstep with
  | take a f _ ha hf => exact h.take ha hf
  | drop a f ha => exact h.drop ha
  | lose a hs => exact h.lose hs
  | move a a' f w hs _ ha ha' => exact h.move hs ha ha'
  | share a a' f hs hs' ha ha' => exact h.share hs hs' ha ha'
  | revoke a => exact h.setWritable a false
  | grant a _ _ => exact h.setWritable a true

theorem steps (h : Sound shared b) (hsteps : Steps shared strict b b') : Sound shared b' := by
  induction hsteps with
  | refl => exact h
  | tail _ hstep ih => exact ih.step hstep

end Sound

/-! ## Isolated books -/

/-- A writable slot does not share its object; only a slot that may share is writable at all. -/
structure Isolated (shared : α → Prop) (b : Book α β) : Prop where
  alone : ∀ a, b.writable a = true → b.Alone a
  kind : ∀ a, b.writable a = true → shared a

namespace Isolated

omit [DecidableEq β] in
theorem setWritable (hi : Isolated shared b) (ha : w = true → b.Alone a ∧ shared a) :
    Isolated shared (b.setWritable a w) := by
  have hcases : ∀ x, (b.setWritable a w).writable x = true →
      b.writable x = true ∨ (x = a ∧ w = true) := by
    intro x hx
    by_cases hxa : x = a
    · subst hxa
      exact Or.inr ⟨rfl, by simpa [Book.setWritable] using hx⟩
    · exact Or.inl (by simpa [Book.setWritable, update_of_ne hxa] using hx)
  refine ⟨?_, ?_⟩
  · intro x hx
    rcases hcases x hx with hx | ⟨rfl, hw⟩
    · exact hi.alone x hx
    · exact (ha hw).1
  · intro x hx
    rcases hcases x hx with hx | ⟨rfl, hw⟩
    · exact hi.kind x hx
    · exact (ha hw).2

theorem take (hi : Isolated shared b) (h : Sound shared b) (hs : ¬ shared a)
    (hf : b.refcnt f = 0) : Isolated shared (b.take a f) := by
  refine ⟨?_, hi.kind⟩
  intro x hx g hxg y hy hyg
  have hxa : x ≠ a := fun hxa => hs (hxa ▸ hi.kind x hx)
  simp only [Book.take] at hxg hyg
  rw [update_of_ne hxa] at hxg
  by_cases hya : y = a
  · subst hya
    rw [update_self] at hyg
    exact h.unheld hf x (Option.some.inj hyg ▸ hxg)
  · rw [update_of_ne hya] at hyg
    exact hi.alone x hx g hxg y hy hyg

omit [DecidableEq β] in
/-- A slot is emptied and no slot becomes writable. -/
theorem empty (hi : Isolated shared b) (hslot : b'.slot = update b.slot a none)
    (hw : ∀ x, b'.writable x = true → b.writable x = true) : Isolated shared b' := by
  refine ⟨?_, fun x hx => hi.kind x (hw x hx)⟩
  intro x hx g hxg y hy hyg
  rw [hslot] at hxg hyg
  have hxa : x ≠ a := by
    rintro rfl
    simp at hxg
  have hya : y ≠ a := by
    rintro rfl
    simp at hyg
  rw [update_of_ne hxa] at hxg
  rw [update_of_ne hya] at hyg
  exact hi.alone x (hw x hx) g hxg y hy hyg

theorem drop (hi : Isolated shared b) : Isolated shared (b.drop a f) := by
  refine hi.empty (a := a) rfl ?_
  intro x hx
  by_cases hxa : x = a
  · subst hxa
    simp [Book.drop] at hx
  · simpa [Book.drop, update_of_ne hxa] using hx

omit [DecidableEq β] in
theorem move (hi : Isolated shared b) (h : Sound shared b) (hs : ¬ shared a)
    (hw : ¬ shared a' → w = false) (ha : b.slot a = some f) :
    Isolated shared (b.move a a' f w) := by
  have hcases : ∀ x, (b.move a a' f w).writable x = true →
      x = a' ∧ w = true ∨ x ≠ a' ∧ b.writable x = true := by
    intro x hx
    by_cases hxa : x = a'
    · subst hxa
      exact Or.inl ⟨rfl, by simpa [Book.move] using hx⟩
    · exact Or.inr ⟨hxa, by simpa [Book.move, update_of_ne hxa] using hx⟩
  refine ⟨?_, ?_⟩
  · intro x hx g hxg y hy hyg
    rcases hcases x hx with ⟨rfl, _⟩ | ⟨hxa, hxw⟩
    · exact h.move_alone hs ha g hxg y hy hyg
    · have hxs : x ≠ a := fun hxs => hs (hxs ▸ hi.kind x hxw)
      simp only [Book.move, update_of_ne hxa, update_of_ne hxs] at hxg
      by_cases hya : y = a'
      · -- the object was in the slot `a` before
        subst hya
        simp only [Book.move, update_self, Option.some.injEq] at hyg
        exact hi.alone x hxw g hxg a (Ne.symm hxs) (hyg ▸ ha)
      · simp only [Book.move, update_of_ne hya] at hyg
        have hys : y ≠ a := by
          rintro rfl
          simp at hyg
        rw [update_of_ne hys] at hyg
        exact hi.alone x hxw g hxg y hy hyg
  · intro x hx
    rcases hcases x hx with ⟨rfl, hwt⟩ | ⟨_, hx⟩
    · by_contra hns
      simp [hw hns] at hwt
    · exact hi.kind x hx

theorem share (hi : Isolated shared b) (ha' : b.slot a' = some f) :
    Isolated shared (b.share a a' f) := by
  have hcases : ∀ x, (b.share a a' f).writable x = true →
      x ≠ a ∧ x ≠ a' ∧ b.writable x = true := by
    intro x hx
    simp only [Book.share] at hx
    have hxa : x ≠ a := by
      rintro rfl
      simp at hx
    rw [update_of_ne hxa] at hx
    have hxa' : x ≠ a' := by
      rintro rfl
      simp at hx
    rw [update_of_ne hxa'] at hx
    exact ⟨hxa, hxa', hx⟩
  refine ⟨?_, fun x hx => hi.kind x (hcases x hx).2.2⟩
  intro x hx g hxg y hy hyg
  rcases hcases x hx with ⟨hxa, hxa', hxw⟩
  simp only [Book.share] at hxg hyg
  rw [update_of_ne hxa] at hxg
  by_cases hya : y = a
  · -- `x` is writable, so that its object is not the one of `a'`
    subst hya
    rw [update_self] at hyg
    exact hi.alone x hxw g hxg a' (Ne.symm hxa') (Option.some.inj hyg ▸ ha')
  · rw [update_of_ne hya] at hyg
    exact hi.alone x hxw g hxg y hy hyg

theorem step (hi : Isolated shared b) (h : Sound shared b) (hstep : Step shared True b b') :
    Isolated shared b' := by
  cases hstep with
  | take a f hs _ hf => exact hi.take h hs hf
  | drop a f _ => exact hi.drop
  | lose a _ => exact hi.empty (a := a) rfl fun _ hx => hx
  | move a a' f w hs hw ha _ => exact hi.move h hs hw ha
  | share a a' f _ _ _ ha' => exact hi.share ha'
  | revoke a => exact hi.setWritable fun hw => absurd hw (by simp)
  | grant a hs halone => exact hi.setWritable fun _ => ⟨halone trivial, hs⟩

theorem steps (hi : Isolated shared b) (h : Sound shared b) (hsteps : Steps shared True b b') :
    Isolated shared b' := by
  induction hsteps with
  | refl => exact hi
  | tail hsteps hstep ih => exact ih.step (h.steps hsteps) hstep

end Isolated

end Ledger
end XytherOS
