import Mathlib

/-!
# SearchTree — places in an ordered binary tree

A place in a binary tree is the list of crumbs on the way from it to the root: at each step the
node that was passed, and the child that was not taken.

* `plug cs t` — the tree with `t` at the place `cs`;
* `before cs`, `after cs` — what stands left and right of the place, so that
  `inorder (plug cs t) = before cs ++ inorder t ++ after cs`;
* `Leads key k cs` — a search for `k` takes the turns of `cs`.

An insertion, a deletion or a rotation is a change of what stands at one place.
-/

namespace XytherOS
namespace SearchTree

variable {α : Type*}

/-! ## Places -/

def inorder : BinaryTree α → List α
  | .nil => []
  | .node a l r => inorder l ++ a :: inorder r

@[simp] theorem inorder_nil : inorder (.nil : BinaryTree α) = [] := rfl

@[simp] theorem inorder_node (a : α) (l r : BinaryTree α) :
    inorder (.node a l r) = inorder l ++ a :: inorder r := rfl

theorem inorder_eq_nil {t : BinaryTree α} : inorder t = [] ↔ t = .nil := by
  cases t with
  | nil => simp
  | node a l r => simp

/-- A turn on the way down: the node that was passed, and the child that was not taken. -/
inductive Crumb (α : Type*)
  | left (a : α) (r : BinaryTree α)
  | right (l : BinaryTree α) (a : α)

def Crumb.item : Crumb α → α
  | .left a _ => a
  | .right _ a => a

/-- The tree below the node that was passed, with `t` as the child that was taken. -/
def Crumb.fill : Crumb α → BinaryTree α → BinaryTree α
  | .left a r, t => .node a t r
  | .right l a, t => .node a l t

/-- The tree with `t` at a place; the innermost crumb comes first. -/
def plug : List (Crumb α) → BinaryTree α → BinaryTree α
  | [], t => t
  | c :: cs, t => plug cs (c.fill t)

@[simp] theorem plug_nil (t : BinaryTree α) : plug [] t = t := rfl

@[simp] theorem plug_cons (c : Crumb α) (cs : List (Crumb α)) (t : BinaryTree α) :
    plug (c :: cs) t = plug cs (c.fill t) := rfl

theorem plug_append (cs ds : List (Crumb α)) (t : BinaryTree α) :
    plug (cs ++ ds) t = plug ds (plug cs t) := by
  induction cs generalizing t with
  | nil => rfl
  | cons c cs ih => exact ih (c.fill t)

def before : List (Crumb α) → List α
  | [] => []
  | .left _ _ :: cs => before cs
  | .right l a :: cs => before cs ++ (inorder l ++ [a])

def after : List (Crumb α) → List α
  | [] => []
  | .left a r :: cs => (a :: inorder r) ++ after cs
  | .right _ _ :: cs => after cs

theorem inorder_plug (cs : List (Crumb α)) (t : BinaryTree α) :
    inorder (plug cs t) = before cs ++ inorder t ++ after cs := by
  induction cs generalizing t with
  | nil => simp [before, after]
  | cons c cs ih =>
    cases c with
    | left a r => simp [ih, Crumb.fill, before, after]
    | right l a => simp [ih, Crumb.fill, before, after]

/-- A place is no deeper than the tree has entries. -/
theorem length_le_plug (cs : List (Crumb α)) (t : BinaryTree α) :
    cs.length + (inorder t).length ≤ (inorder (plug cs t)).length := by
  induction cs generalizing t with
  | nil => simp
  | cons c cs ih =>
    have hfill : (inorder t).length + 1 ≤ (inorder (c.fill t)).length := by
      cases c <;> simp [Crumb.fill]
    calc
      (c :: cs).length + (inorder t).length
          ≤ cs.length + (inorder (c.fill t)).length := by
            simp only [List.length_cons]
            omega
      _ ≤ (inorder (plug cs (c.fill t))).length := ih _

/-- Every entry has a place. -/
theorem exists_place {t : BinaryTree α} {a : α} (ha : a ∈ inorder t) :
    ∃ cs l r, t = plug cs (.node a l r) := by
  induction t with
  | nil => simp at ha
  | node b l r ihl ihr =>
    rcases List.mem_append.1 ha with ha | ha
    · rcases ihl ha with ⟨cs, l', r', hl⟩
      exact ⟨cs ++ [.left b r], l', r', by rw [plug_append, ← hl]; rfl⟩
    · rcases List.mem_cons.1 ha with rfl | ha
      · exact ⟨[], l, r, rfl⟩
      · rcases ihr ha with ⟨cs, l', r', hr⟩
        exact ⟨cs ++ [.right l b], l', r', by rw [plug_append, ← hr]; rfl⟩

/-! ## Searching -/

section Order

variable {K : Type*} [LinearOrder K] {key : α → K}

def Ordered (key : α → K) (t : BinaryTree α) : Prop :=
  (inorder t).Pairwise fun a b => key a < key b

/-- A search for `k` takes this turn. -/
def Crumb.Toward (key : α → K) (k : K) : Crumb α → Prop
  | .left a _ => k < key a
  | .right _ a => key a < k

/-- A search for `k` comes to this place. -/
def Leads (key : α → K) (k : K) (cs : List (Crumb α)) : Prop := ∀ c ∈ cs, c.Toward key k

theorem Leads.append {k : K} {cs ds : List (Crumb α)} (hcs : Leads key k cs)
    (hds : Leads key k ds) : Leads key k (cs ++ ds) := by
  intro c hc
  rcases List.mem_append.1 hc with hc | hc
  · exact hcs c hc
  · exact hds c hc

/-- A search for `k` ends at an entry with that key, or in a place where there is none. -/
theorem search_ends (key : α → K) (k : K) (t : BinaryTree α) :
    (∃ cs a l r, t = plug cs (.node a l r) ∧ key a = k ∧ Leads key k cs) ∨
      ∃ cs, t = plug cs .nil ∧ Leads key k cs := by
  induction t with
  | nil => exact .inr ⟨[], rfl, by simp [Leads]⟩
  | node b l r ihl ihr =>
    rcases lt_trichotomy k (key b) with hlt | heq | hgt
    · have hturn : Leads key k [.left b r] := by simpa [Leads, Crumb.Toward] using hlt
      rcases ihl with ⟨cs, a, l', r', hl, ha, hcs⟩ | ⟨cs, hl, hcs⟩
      · exact .inl ⟨cs ++ [.left b r], a, l', r', by rw [plug_append, ← hl]; rfl, ha,
          hcs.append hturn⟩
      · exact .inr ⟨cs ++ [.left b r], by rw [plug_append, ← hl]; rfl, hcs.append hturn⟩
    · exact .inl ⟨[], b, l, r, rfl, heq.symm, by simp [Leads]⟩
    · have hturn : Leads key k [.right l b] := by simpa [Leads, Crumb.Toward] using hgt
      rcases ihr with ⟨cs, a, l', r', hr, ha, hcs⟩ | ⟨cs, hr, hcs⟩
      · exact .inl ⟨cs ++ [.right l b], a, l', r', by rw [plug_append, ← hr]; rfl, ha,
          hcs.append hturn⟩
      · exact .inr ⟨cs ++ [.right l b], by rw [plug_append, ← hr]; rfl, hcs.append hturn⟩

/-- A search comes to every place between whose neighbours its key lies. -/
theorem leads_of_between {k : K} {cs : List (Crumb α)} (hb : ∀ a ∈ before cs, key a < k)
    (ha : ∀ a ∈ after cs, k < key a) : Leads key k cs := by
  induction cs with
  | nil => simp [Leads]
  | cons c cs ih =>
    cases c with
    | left a r =>
      have hrest := ih hb fun x hx => ha x (List.mem_append_right _ hx)
      have hturn : k < key a := ha a (by simp [after])
      intro d hd
      rcases List.mem_cons.1 hd with rfl | hd
      · exact hturn
      · exact hrest d hd
    | right l a =>
      have hrest := ih (fun x hx => hb x (List.mem_append_left _ hx)) ha
      have hturn : key a < k := hb a (by simp [before])
      intro d hd
      rcases List.mem_cons.1 hd with rfl | hd
      · exact hturn
      · exact hrest d hd

/-- In an ordered tree the key of a search lies between the neighbours of the place it comes to. -/
theorem Leads.between {k : K} {cs : List (Crumb α)} {t : BinaryTree α} (h : Leads key k cs)
    (hord : Ordered key (plug cs t)) :
    (∀ a ∈ before cs, key a < k) ∧ ∀ a ∈ after cs, k < key a := by
  induction cs generalizing t with
  | nil => simp [before, after]
  | cons c cs ih =>
    have hrest := ih (fun d hd => h d (List.mem_cons_of_mem _ hd)) hord
    have hturn := h c (by simp)
    have hfill : (inorder (c.fill t)).Pairwise fun a b => key a < key b := by
      rw [Ordered, plug_cons, inorder_plug, List.append_assoc] at hord
      exact (List.pairwise_append.1 (List.pairwise_append.1 hord).2.1).1
    cases c with
    | left a r =>
      refine ⟨hrest.1, ?_⟩
      intro x hx
      rcases List.mem_append.1 hx with hx | hx
      · rcases List.mem_cons.1 hx with rfl | hx
        · exact hturn
        · have hax := (List.pairwise_cons.1 (List.pairwise_append.1 hfill).2.1).1 x hx
          exact lt_trans hturn hax
      · exact hrest.2 x hx
    | right l a =>
      refine ⟨?_, hrest.2⟩
      intro x hx
      rcases List.mem_append.1 hx with hx | hx
      · exact hrest.1 x hx
      · rcases List.mem_append.1 hx with hx | hx
        · have hxa := (List.pairwise_append.1 hfill).2.2 x hx a (by simp)
          exact lt_trans hxa hturn
        · rw [List.mem_singleton.1 hx]
          exact hturn

/-- In an ordered tree a search for the key of an entry comes to every place above it. -/
theorem Ordered.leads {cs : List (Crumb α)} {t : BinaryTree α} (h : Ordered key (plug cs t))
    {a : α} (ha : a ∈ inorder t) : Leads key (key a) cs := by
  rw [Ordered, inorder_plug, List.append_assoc] at h
  rcases List.pairwise_append.1 h with ⟨_, hmid, hleft⟩
  refine leads_of_between ?_ ?_
  · intro b hb
    exact hleft b hb a (List.mem_append_left _ ha)
  · intro b hb
    exact (List.pairwise_append.1 hmid).2.2 a ha b hb

/-- Every part of an ordered tree is ordered. -/
theorem Ordered.part {cs : List (Crumb α)} {t : BinaryTree α} (h : Ordered key (plug cs t)) :
    Ordered key t := by
  rw [Ordered, inorder_plug, List.append_assoc] at h
  exact (List.pairwise_append.1 (List.pairwise_append.1 h).2.1).1

/-- What stands at a place may be replaced by a part of it that keeps the order. -/
theorem Ordered.sublist {cs : List (Crumb α)} {t t' : BinaryTree α}
    (h : Ordered key (plug cs t)) (hsub : (inorder t').Sublist (inorder t)) :
    Ordered key (plug cs t') := by
  rw [Ordered, inorder_plug] at h ⊢
  exact List.Pairwise.sublist ((hsub.append_left _).append_right _) h

/-- A search for a key from the left of an entry ends at the left end of its right subtree. -/
theorem Ordered.left_end {a b : α} {l r : BinaryTree α} (h : Ordered key (.node b l r))
    (ha : a ∈ inorder l) :
    ∃ cs, r = plug cs .nil ∧ Leads key (key a) cs ∧ before cs = [] := by
  rcases List.pairwise_append.1 h with ⟨_, hright, hleft⟩
  have hab : key a < key b := hleft a ha b (by simp)
  have hsmaller : ∀ c ∈ inorder r, key a < key c := by
    intro c hc
    exact lt_trans hab ((List.pairwise_cons.1 hright).1 c hc)
  rcases search_ends key (key a) r with ⟨cs, c, l', r', rfl, hkey, _⟩ | ⟨cs, rfl, hcs⟩
  · have hlt := hsmaller c (by simp [inorder_plug])
    exact absurd hkey (ne_of_gt hlt)
  · refine ⟨cs, rfl, hcs, ?_⟩
    have hord : Ordered key (plug cs .nil) := (List.pairwise_cons.1 hright).2
    refine List.eq_nil_iff_forall_not_mem.2 ?_
    intro c hc
    have hlt := (hcs.between hord).1 c hc
    exact absurd (hsmaller c (by simp [inorder_plug, hc])) (not_lt_of_gt hlt)

/-- A new entry goes where the search for its key ends. -/
theorem Ordered.insert {cs : List (Crumb α)} {a : α} (h : Ordered key (plug cs .nil))
    (hcs : Leads key (key a) cs) : Ordered key (plug cs (.node a .nil .nil)) := by
  rcases hcs.between h with ⟨hb, ha⟩
  rw [Ordered, inorder_plug] at h ⊢
  simp only [inorder_nil, List.append_nil] at h
  rcases List.pairwise_append.1 h with ⟨hbb, haa, hba⟩
  simp only [inorder_node, inorder_nil, List.nil_append, List.append_assoc, List.singleton_append]
  refine List.pairwise_append.2 ⟨hbb, List.pairwise_cons.2 ⟨ha, haa⟩, ?_⟩
  intro x hx y hy
  rcases List.mem_cons.1 hy with rfl | hy
  · exact hb x hx
  · exact hba x hx y hy

end Order

end SearchTree
end XytherOS
