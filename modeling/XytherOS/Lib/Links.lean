import Mathlib.Data.List.Nodup
import Mathlib.Data.List.TakeWhile
import Mathlib.Logic.Function.Basic

/-!
# Links — doubly linked chains threaded through a memory of nodes

A node of an intrusive list carries a `next` and a `prev` link.  This file develops the two link
fields as functions `P → Option P` on pointers (`none` is the null pointer):

* `Chain next prev b l a` — the nodes of `l` are linked both ways, in order, coming from `b` and
  going on to `a`;
* `setLink` — the guarded store `if (p) p->link = v`;
* `Chain.insert`, `Chain.remove`, `Chain.replace` — the three edits of a chain;
* `scan` — the search loop over `next` with a step budget, and the theorem that on a chain it
  splits the list at the first node that stops the loop.

Nothing here knows what else a node carries; `LinkNode` packages a record with two link fields.
-/

namespace XytherOS
namespace Links

open Function

variable {P : Type*}

/-! ## Splitting lists without repetition -/

variable {a b p : Option P} {l l₁ l₂ : List P} {next' prev' : P → Option P}

theorem nodup_split {k₁ k2 : List P} {x : P} (hnd : (l₁ ++ x :: l₂).Nodup)
    (h : l₁ ++ x :: l₂ = k₁ ++ x :: k2) : l₁ = k₁ ∧ l₂ = k2 := by
  have hx : x ∉ l₁ := fun hmem => (List.nodup_append.1 hnd).2.2 x hmem x (by simp) rfl
  have hx' : x ∉ k₁ := fun hmem => (List.nodup_append.1 (h ▸ hnd)).2.2 x hmem x (by simp) rfl
  induction l₁ generalizing k₁ with
  | nil =>
    cases k₁ with
    | nil => simpa using h
    | cons y ys =>
      simp only [List.nil_append, List.cons_append, List.cons.injEq] at h
      exact absurd (by simp [h.1]) hx'
  | cons z zs ih =>
    cases k₁ with
    | nil =>
      simp only [List.nil_append, List.cons_append, List.cons.injEq] at h
      exact absurd (by simp [h.1]) hx
    | cons y ys =>
      simp only [List.cons_append, List.cons.injEq] at h
      simp only [List.mem_cons, not_or] at hx hx'
      have hnd' : (zs ++ x :: l₂).Nodup := (List.nodup_cons.1 hnd).2
      rcases ih hnd' h.2 hx.2 hx'.2 with ⟨h₁, h₂⟩
      exact ⟨by rw [h.1, h₁], h₂⟩

/-- The first node once `x` is gone. -/
theorem head?_unlink [DecidableEq P] {x : P} (hnd : (l₁ ++ x :: l₂).Nodup) :
    (if (l₁ ++ x :: l₂).head? = some x then l₂.head? else (l₁ ++ x :: l₂).head?) =
      (l₁ ++ l₂).head? := by
  cases l₁ with
  | nil => simp
  | cons y ys =>
    have hyx : ¬ y = x := by
      rintro rfl
      exact (List.nodup_cons.1 hnd).1 (by simp)
    simp [hyx]

/-- The last node once `x` is gone. -/
theorem getLast?_unlink [DecidableEq P] {x : P}
    (hnd : (l₁ ++ x :: l₂).Nodup) :
    (if (l₁ ++ x :: l₂).getLast? = some x then l₁.getLast? else (l₁ ++ x :: l₂).getLast?) =
      (l₁ ++ l₂).getLast? := by
  have hnd' : (l₂.reverse ++ x :: l₁.reverse).Nodup := by
    have hrev := List.nodup_reverse.2 hnd
    simpa using hrev
  have h := head?_unlink hnd'
  -- The last node is the first one of the reversed list.
  simpa [List.head?_append, List.getLast?_append, List.head?_reverse, List.getLast?_cons] using h

/-! ## Chains -/

/-- The nodes of `l` are linked both ways in order, preceded by `b` and followed by `a`. -/
def Chain (next prev : P → Option P) : Option P → List P → Option P → Prop
  | _, [], _ => True
  | b, x :: xs, a => prev x = b ∧ next x = xs.head?.or a ∧ Chain next prev (some x) xs a

@[simp] theorem chain_nil {next prev : P → Option P} {b a : Option P} :
    Chain next prev b [] a := trivial

theorem chain_cons {next prev : P → Option P} {x : P} {xs : List P} :
    Chain next prev b (x :: xs) a ↔
      prev x = b ∧ next x = xs.head?.or a ∧ Chain next prev (some x) xs a :=
  Iff.rfl

theorem getLast?_cons_or (x : P) (xs : List P) (b : Option P) :
    (x :: xs).getLast?.or b = xs.getLast?.or (some x) := by
  cases xs with
  | nil => simp
  | cons y ys =>
    rw [List.getLast?_cons_cons]
    cases hys : (y :: ys).getLast? with
    | none => simp at hys
    | some z => rfl

/-- Cutting a chain: each half is a chain whose ends are the nodes across the cut. -/
theorem chain_append {next prev : P → Option P} :
    Chain next prev b (l₁ ++ l₂) a ↔
      Chain next prev b l₁ (l₂.head?.or a) ∧ Chain next prev (l₁.getLast?.or b) l₂ a := by
  induction l₁ generalizing b with
  | nil => simp
  | cons x xs ih =>
    simp only [List.cons_append, chain_cons, ih, getLast?_cons_or, List.head?_append,
      Option.or_assoc]
    tauto

/-- A chain only reads the links of its own nodes. -/
theorem Chain.congr {next prev : P → Option P}
    (h : Chain next prev b l a)
    (hag : ∀ x ∈ l, next' x = next x ∧ prev' x = prev x) : Chain next' prev' b l a := by
  induction l generalizing b with
  | nil => trivial
  | cons x xs ih =>
    rcases h with ⟨hp, hn, hrest⟩
    have hx := hag x (by simp)
    refine ⟨hx.2.trans hp, hx.1.trans hn, ih hrest ?_⟩
    intro y hy
    exact hag y (by simp [hy])

/-- The links of a node in the middle of a chain. -/
theorem Chain.mid {next prev : P → Option P} {x : P}
    (h : Chain next prev b (l₁ ++ x :: l₂) a) :
    prev x = l₁.getLast?.or b ∧ next x = l₂.head?.or a := by
  rcases (chain_append.1 h).2 with ⟨hp, hn, _⟩
  exact ⟨hp, hn⟩

/-- Read backwards, a chain is a chain along the other links. -/
theorem Chain.reverse {next prev : P → Option P}
    (h : Chain next prev b l a) : Chain prev next a l.reverse b := by
  induction l generalizing b with
  | nil => trivial
  | cons x xs ih =>
    rcases h with ⟨hp, hn, hrest⟩
    rw [List.reverse_cons, chain_append]
    refine ⟨ih hrest, ?_, by simpa using hp, trivial⟩
    simpa using hn

/-- The tail of a chain is determined by its first node: both are read off `next`. -/
theorem Chain.unique {next prev : P → Option P} {b' : Option P} {l' : List P}
    (h : Chain next prev b l none) (h' : Chain next prev' b' l' none)
    (hhead : l.head? = l'.head?) : l = l' := by
  induction l generalizing b b' l' with
  | nil =>
    cases l' with
    | nil => rfl
    | cons y ys => simp at hhead
  | cons x xs ih =>
    cases l' with
    | nil => simp at hhead
    | cons y ys =>
      have hxy : x = y := by simpa using hhead
      subst hxy
      have hnext : xs.head? = ys.head? := by
        have h₁ := h.2.1
        have h₂ := h'.2.1
        simp only [Option.or_none] at h₁ h₂
        exact h₁.symm.trans h₂
      rw [ih h.2.2 h'.2.2 hnext]

/-- A null-terminated chain never visits a node twice. -/
theorem Chain.nodup {next prev : P → Option P}
    (h : Chain next prev b l none) : l.Nodup := by
  induction l generalizing b with
  | nil => simp
  | cons x xs ih =>
    refine List.nodup_cons.2 ⟨?_, ih h.2.2⟩
    intro hx
    -- A second visit of `x` would start a proper suffix equal to the whole chain.
    rcases List.append_of_mem hx with ⟨s, t, hst⟩
    have hsuffix : Chain next prev ((x :: s).getLast?.or b) (x :: t) none := by
      have hwhole : Chain next prev b ((x :: s) ++ (x :: t)) none := by
        simpa [hst] using h
      exact (chain_append.1 hwhole).2
    have heq : x :: xs = x :: t := h.unique hsuffix rfl
    have hlen := congrArg List.length heq
    simp only [hst, List.length_cons, List.length_append] at hlen
    omega

/-! ## Guarded stores to one link field -/

variable [DecidableEq P]

/-- `if (p) p->link = v`. -/
def setLink (link : P → Option P) : Option P → Option P → P → Option P
  | none, _ => link
  | some p, v => update link p v

@[simp] theorem setLink_none (link : P → Option P) (v : Option P) :
    setLink link none v = link := rfl

theorem setLink_apply (link : P → Option P) (p v : Option P) (q : P) :
    setLink link p v q = if p = some q then v else link q := by
  cases p with
  | none => simp
  | some p =>
    by_cases hpq : q = p
    · subst hpq
      simp [setLink]
    · have hqp : ¬ p = q := fun h => hpq h.symm
      simp [setLink, hpq, hqp]

@[simp] theorem setLink_setLink (link : P → Option P) (p v w : Option P) :
    setLink (setLink link p v) p w = setLink link p w := by
  cases p with
  | none => rfl
  | some p => simp [setLink]

/-- Storing the value that is there already. -/
theorem setLink_self {link : P → Option P} {v : Option P} (h : ∀ q, p = some q → link q = v) :
    setLink link p v = link := by
  funext q
  by_cases hp : p = some q
  · simp [setLink_apply, hp, h q hp]
  · simp [setLink_apply, hp]

/-! ## The three edits -/

/-- A store outside a chain keeps it. -/
theorem Chain.setNext_of_not_mem {next prev : P → Option P}
    (h : Chain next prev b l a) (hp : ∀ x ∈ l, p ≠ some x) (v : Option P) :
    Chain (setLink next p v) prev b l a := by
  refine h.congr ?_
  intro x hx
  simp [setLink_apply, hp x hx]

theorem Chain.setPrev_of_not_mem {next prev : P → Option P}
    (h : Chain next prev b l a) (hp : ∀ x ∈ l, p ≠ some x) (v : Option P) :
    Chain next (setLink prev p v) b l a := by
  refine h.congr ?_
  intro x hx
  simp [setLink_apply, hp x hx]

/-- Redirecting the last node of a chain. -/
theorem Chain.setNext_last {next prev : P → Option P}
    (h : Chain next prev b l a) (hnd : l.Nodup) (v : Option P) :
    Chain (setLink next l.getLast? v) prev b l v := by
  rcases List.eq_nil_or_concat l with rfl | ⟨ys, y, rfl⟩
  · trivial
  · have hy : y ∉ ys := by
      intro hmem
      have hnd' : (ys ++ [y]).Nodup := by simpa using hnd
      exact (List.nodup_append.1 hnd').2.2 y hmem y (by simp) rfl
    rcases chain_append.1 (by simpa using h) with ⟨hys, hyl⟩
    simp only [List.concat_eq_append, List.getLast?_append, List.getLast?_singleton,
      Option.some_or]
    refine chain_append.2 ⟨?_, ?_⟩
    · refine Chain.setNext_of_not_mem hys ?_ v
      intro x hx hxy
      exact hy (by simpa [Option.some.inj hxy] using hx)
    · refine ⟨hyl.1, ?_, trivial⟩
      simp [setLink_apply]

/-- Redirecting the first node of a chain backwards. -/
theorem Chain.setPrev_head {next prev : P → Option P}
    (h : Chain next prev b l a) (hnd : l.Nodup) (v : Option P) :
    Chain next (setLink prev l.head? v) v l a := by
  cases l with
  | nil => trivial
  | cons x xs =>
    rcases h with ⟨_, hn, hrest⟩
    refine ⟨by simp [setLink_apply], hn, ?_⟩
    refine Chain.setPrev_of_not_mem hrest ?_ v
    intro y hy hxy
    have hxy' : x = y := by simpa using hxy
    exact (List.nodup_cons.1 hnd).1 (by simpa [hxy'] using hy)

/-- Linking `x` in between `l₁` and `l₂`. -/
theorem Chain.insert {next prev : P → Option P} {x : P}
    (h : Chain next prev none (l₁ ++ l₂) none) (hx : x ∉ l₁ ++ l₂)
    (hn : next' = setLink (setLink next (some x) l₂.head?) l₁.getLast? (some x))
    (hp : prev' = setLink (setLink prev (some x) l₁.getLast?) l₂.head? (some x)) :
    Chain next' prev' none (l₁ ++ x :: l₂) none := by
  have hnd := List.nodup_append.1 h.nodup
  rcases chain_append.1 h with ⟨h₁, h₂⟩
  have hx1 : ∀ y ∈ l₁, some x ≠ some y := by
    intro y hy hxy
    exact hx (List.mem_append_left _ (by simpa [Option.some.inj hxy] using hy))
  have hx2 : ∀ y ∈ l₂, some x ≠ some y := by
    intro y hy hxy
    exact hx (List.mem_append_right _ (by simpa [Option.some.inj hxy] using hy))
  have hlast : ∀ y ∈ l₂, l₁.getLast? ≠ some y := by
    intro y hy hl
    exact hnd.2.2 y (List.mem_of_getLast? hl) y hy rfl
  have hhead : ∀ y ∈ l₁, l₂.head? ≠ some y := by
    intro y hy hl
    exact hnd.2.2 y hy y (List.mem_of_head? hl) rfl
  have hlx : l₁.getLast? ≠ some x := by
    intro hl
    exact hx (List.mem_append_left _ (List.mem_of_getLast? hl))
  have hhx : l₂.head? ≠ some x := by
    intro hl
    exact hx (List.mem_append_right _ (List.mem_of_head? hl))
  subst hn hp
  refine chain_append.2 ⟨?_, ?_, ?_, ?_⟩
  · exact (((h₁.setNext_of_not_mem hx1 _).setNext_last hnd.1 _).setPrev_of_not_mem hx1 _
      ).setPrev_of_not_mem hhead _
  · simp [setLink_apply, hhx]
  · simp [setLink_apply, hlx]
  · exact (((h₂.setNext_of_not_mem hx2 _).setNext_of_not_mem hlast _).setPrev_of_not_mem hx2 _
      ).setPrev_head hnd.2.1 _

/-- Linking the last node of `l₁` and the first node of `l₂` to each other. -/
theorem Chain.join {next prev : P → Option P}
    (h₁ : Chain next prev none l₁ a) (h₂ : Chain next prev b l₂ none) (hnd : (l₁ ++ l₂).Nodup) :
    Chain (setLink next l₁.getLast? l₂.head?) (setLink prev l₂.head? l₁.getLast?)
      none (l₁ ++ l₂) none := by
  have hnd' := List.nodup_append.1 hnd
  have hlast : ∀ y ∈ l₂, l₁.getLast? ≠ some y := by
    intro y hy hl
    exact hnd'.2.2 y (List.mem_of_getLast? hl) y hy rfl
  have hhead : ∀ y ∈ l₁, l₂.head? ≠ some y := by
    intro y hy hl
    exact hnd'.2.2 y hy y (List.mem_of_head? hl) rfl
  refine chain_append.2 ⟨?_, ?_⟩
  · rw [Option.or_none]
    exact (h₁.setNext_last hnd'.1 l₂.head?).setPrev_of_not_mem hhead l₁.getLast?
  · rw [Option.or_none]
    exact (h₂.setNext_of_not_mem hlast l₂.head?).setPrev_head hnd'.2.1 l₁.getLast?

/-- Cutting a chain off at both ends. -/
theorem Chain.isolate {next prev : P → Option P}
    (h : Chain next prev b l a) (hnd : l.Nodup) :
    Chain (setLink next l.getLast? none) (setLink prev l.head? none) none l none :=
  (h.setNext_last hnd none).setPrev_head hnd none

/-- Unlinking `x`. -/
theorem Chain.remove {next prev : P → Option P} {x : P}
    (h : Chain next prev none (l₁ ++ x :: l₂) none)
    (hn : ∀ y, y ≠ x → next' y = setLink next l₁.getLast? l₂.head? y)
    (hp : ∀ y, y ≠ x → prev' y = setLink prev l₂.head? l₁.getLast? y) :
    Chain next' prev' none (l₁ ++ l₂) none := by
  have hnd := List.nodup_middle.1 h.nodup
  rcases chain_append.1 h with ⟨h₁, _, _, h₂⟩
  have hcore := h₁.join h₂ (List.nodup_cons.1 hnd).2
  refine hcore.congr ?_
  intro y hy
  have hyx : y ≠ x := by
    rintro rfl
    exact (List.nodup_cons.1 hnd).1 hy
  exact ⟨hn y hyx, hp y hyx⟩

/-- Putting `z` in the place of `x`. -/
theorem Chain.replace {next prev : P → Option P} {x z : P}
    (h : Chain next prev none (l₁ ++ x :: l₂) none) (hz : z ∉ l₁ ++ x :: l₂)
    (hn : ∀ y, y ≠ x →
      next' y = setLink (setLink next (some z) l₂.head?) l₁.getLast? (some z) y)
    (hp : ∀ y, y ≠ x →
      prev' y = setLink (setLink prev (some z) l₁.getLast?) l₂.head? (some z) y) :
    Chain next' prev' none (l₁ ++ z :: l₂) none := by
  have hz' : z ∉ l₁ ++ l₂ := by
    intro hmem
    apply hz
    rcases List.mem_append.1 hmem with hmem | hmem
    · exact List.mem_append_left _ hmem
    · exact List.mem_append_right _ (List.mem_cons_of_mem _ hmem)
  have hremoved : Chain (setLink next l₁.getLast? l₂.head?) (setLink prev l₂.head? l₁.getLast?)
      none (l₁ ++ l₂) none :=
    h.remove (fun _ _ => rfl) (fun _ _ => rfl)
  have hinserted := hremoved.insert hz' rfl rfl
  have hnd := List.nodup_append.1 h.nodup
  have hx1 : x ∉ l₁ := fun hmem => hnd.2.2 x hmem x (by simp) rfl
  have hx2 : x ∉ l₂ := (List.nodup_cons.1 hnd.2.1).1
  refine hinserted.congr ?_
  intro y hy
  have hyx : y ≠ x := by
    rintro rfl
    rcases List.mem_append.1 hy with hy | hy
    · exact hx1 hy
    · rcases List.mem_cons.1 hy with hy | hy
      · exact hz (by simp [← hy])
      · exact hx2 hy
  refine ⟨(hn y hyx).trans ?_, (hp y hyx).trans ?_⟩
  · simp only [setLink_apply]
    split_ifs <;> rfl
  · simp only [setLink_apply]
    split_ifs <;> rfl

/-! ## Several chains in one memory -/

section Chains

variable {ι : Type*} [DecidableEq ι]

/-- A family of chains threaded through the same link fields, no node in two of them. -/
structure Chains (next prev : P → Option P) (L : ι → List P) : Prop where
  chain : ∀ i, Chain next prev none (L i) none
  disjoint : ∀ i j x, x ∈ L i → x ∈ L j → i = j

variable {next' prev' : P → Option P} {l₁ l₂ : List P}

omit [DecidableEq P] [DecidableEq ι] in
/-- The chains only read the links of their own nodes. -/
theorem Chains.congr {next prev : P → Option P} {L : ι → List P}
    (h : Chains next prev L)
    (hag : ∀ i, ∀ x ∈ L i, next' x = next x ∧ prev' x = prev x) : Chains next' prev' L :=
  ⟨fun i => (h.chain i).congr (hag i), h.disjoint⟩

/-- Linking a node of no chain into chain `i`, between `l₁` and `l₂`. -/
theorem Chains.insert {next prev : P → Option P} {L : ι → List P} {i : ι} {x : P} (h : Chains next prev L) (hi : L i = l₁ ++ l₂)
    (hx : ∀ j, x ∉ L j)
    (hn : next' = setLink (setLink next (some x) l₂.head?) l₁.getLast? (some x))
    (hp : prev' = setLink (setLink prev (some x) l₁.getLast?) l₂.head? (some x)) :
    Chains next' prev' (update L i (l₁ ++ x :: l₂)) := by
  have hchain := h.chain i
  have hxi := hx i
  rw [hi] at hchain hxi
  refine ⟨fun j => ?_, fun j k y hj hk => ?_⟩
  · by_cases hji : j = i
    · subst hji
      simpa using hchain.insert hxi hn hp
    · -- The stores hit `x` and the neighbours in chain `i`, all outside chain `j`.
      have hout : ∀ y ∈ L j, x ≠ y ∧ l₁.getLast? ≠ some y ∧ l₂.head? ≠ some y := by
        intro y hy
        have hyi : y ∉ l₁ ++ l₂ := fun hmem => hji (h.disjoint j i y hy (hi ▸ hmem))
        refine ⟨fun hxy => hx j (hxy ▸ hy), fun hl => ?_, fun hl => ?_⟩
        · exact hyi (List.mem_append_left _ (List.mem_of_getLast? hl))
        · exact hyi (List.mem_append_right _ (List.mem_of_head? hl))
      simp only [update_of_ne hji]
      refine (h.chain j).congr fun y hy => ?_
      rcases hout y hy with ⟨hxy, hl, hh⟩
      subst hn hp
      simp [setLink_apply, hxy, hl, hh]
  · have hmem : ∀ k, y ∈ update L i (l₁ ++ x :: l₂) k → y = x ∧ k = i ∨ y ∈ L k := by
      intro k hk
      by_cases hki : k = i
      · subst hki
        have hk' : y ∈ l₁ ∨ y = x ∨ y ∈ l₂ := by simpa using hk
        rw [hi, List.mem_append]
        tauto
      · exact Or.inr (by simpa [hki] using hk)
    rcases hmem j hj with ⟨hyx, hji⟩ | hj
    · rcases hmem k hk with ⟨_, hki⟩ | hk
      · exact hji.trans hki.symm
      · exact absurd (hyx ▸ hk) (hx k)
    · rcases hmem k hk with ⟨hyx, _⟩ | hk
      · exact absurd (hyx ▸ hj) (hx j)
      · exact h.disjoint j k y hj hk

/-- Unlinking a node of chain `i`. -/
theorem Chains.remove {next prev : P → Option P} {L : ι → List P} {i : ι} {x : P} (h : Chains next prev L) (hi : L i = l₁ ++ x :: l₂)
    (hn : ∀ y, y ≠ x → next' y = setLink next l₁.getLast? l₂.head? y)
    (hp : ∀ y, y ≠ x → prev' y = setLink prev l₂.head? l₁.getLast? y) :
    Chains next' prev' (update L i (l₁ ++ l₂)) := by
  have hchain := h.chain i
  rw [hi] at hchain
  refine ⟨fun j => ?_, fun j k y hj hk => ?_⟩
  · by_cases hji : j = i
    · subst hji
      simpa using hchain.remove hn hp
    · have hout : ∀ y ∈ L j, y ∉ l₁ ++ x :: l₂ :=
        fun y hy hmem => hji (h.disjoint j i y hy (hi ▸ hmem))
      simp only [update_of_ne hji]
      refine (h.chain j).congr fun y hy => ?_
      have hyi := hout y hy
      have hyx : y ≠ x := by
        rintro rfl
        simp at hyi
      have hl : l₁.getLast? ≠ some y := fun hl =>
        hyi (List.mem_append_left _ (List.mem_of_getLast? hl))
      have hh : l₂.head? ≠ some y := fun hl =>
        hyi (List.mem_append_right _ (List.mem_cons_of_mem _ (List.mem_of_head? hl)))
      simp [hn y hyx, hp y hyx, setLink_apply, hl, hh]
  · have hmem : ∀ k, y ∈ update L i (l₁ ++ l₂) k → y ∈ L k := by
      intro k hk
      by_cases hki : k = i
      · subst hki
        have hk' : y ∈ l₁ ∨ y ∈ l₂ := by simpa using hk
        rw [hi, List.mem_append, List.mem_cons]
        tauto
      · simpa [hki] using hk
    exact h.disjoint j k y (hmem j hj) (hmem k hk)

omit [DecidableEq P] in
/-- A node that was unlinked is in no chain. -/
theorem Chains.not_mem_remove {next prev : P → Option P} {L : ι → List P} {i : ι} {x : P} (h : Chains next prev L) (hi : L i = l₁ ++ x :: l₂) (j : ι) :
    x ∉ update L i (l₁ ++ l₂) j := by
  have hnd := (h.chain i).nodup
  rw [hi] at hnd
  by_cases hji : j = i
  · subst hji
    have hx := (List.nodup_middle.1 hnd).notMem
    simpa using hx
  · simp only [update_of_ne hji]
    exact fun hmem => hji (h.disjoint j i x hmem (by simp [hi]))

end Chains

/-! ## Records with two link fields -/

/-- A record with a `next` and a `prev` field. -/
class LinkNode (N : Type*) (P : outParam (Type*)) where
  next : N → Option P
  prev : N → Option P
  setNext : N → Option P → N
  setPrev : N → Option P → N
  next_setNext : ∀ n v, next (setNext n v) = v
  prev_setNext : ∀ n v, prev (setNext n v) = prev n
  next_setPrev : ∀ n v, next (setPrev n v) = next n
  prev_setPrev : ∀ n v, prev (setPrev n v) = v

section Store

variable {N : Type*} [LinkNode N P]

/-- The `next` links of a memory of nodes. -/
def nexts (m : P → N) : P → Option P := fun p => LinkNode.next (m p)

/-- The `prev` links of a memory of nodes. -/
def prevs (m : P → N) : P → Option P := fun p => LinkNode.prev (m p)

/-- `if (p) p->next = v`. -/
def storeNext (m : P → N) : Option P → Option P → P → N
  | none, _ => m
  | some p, v => update m p (LinkNode.setNext (m p) v)

/-- `if (p) p->prev = v`. -/
def storePrev (m : P → N) : Option P → Option P → P → N
  | none, _ => m
  | some p, v => update m p (LinkNode.setPrev (m p) v)

@[simp] theorem nexts_storeNext (m : P → N) (p v : Option P) :
    nexts (storeNext m p v) = setLink (nexts m) p v := by
  cases p with
  | none => rfl
  | some p =>
    funext q
    by_cases hq : q = p
    · subst hq
      simp [nexts, storeNext, setLink, LinkNode.next_setNext]
    · simp [nexts, storeNext, setLink, hq]

@[simp] theorem prevs_storeNext (m : P → N) (p v : Option P) :
    prevs (storeNext m p v) = prevs m := by
  cases p with
  | none => rfl
  | some p =>
    funext q
    by_cases hq : q = p
    · subst hq
      simp [prevs, storeNext, LinkNode.prev_setNext]
    · simp [prevs, storeNext, hq]

@[simp] theorem nexts_storePrev (m : P → N) (p v : Option P) :
    nexts (storePrev m p v) = nexts m := by
  cases p with
  | none => rfl
  | some p =>
    funext q
    by_cases hq : q = p
    · subst hq
      simp [nexts, storePrev, LinkNode.next_setPrev]
    · simp [nexts, storePrev, hq]

@[simp] theorem prevs_storePrev (m : P → N) (p v : Option P) :
    prevs (storePrev m p v) = setLink (prevs m) p v := by
  cases p with
  | none => rfl
  | some p =>
    funext q
    by_cases hq : q = p
    · subst hq
      simp [prevs, storePrev, setLink, LinkNode.prev_setPrev]
    · simp [prevs, storePrev, setLink, hq]

theorem storeNext_of_ne (m : P → N) {p : Option P} {q : P} (h : p ≠ some q) (v : Option P) :
    storeNext m p v q = m q := by
  cases p with
  | none => rfl
  | some p =>
    have hqp : q ≠ p := fun hq => h (by rw [hq])
    simp [storeNext, hqp]

theorem storePrev_of_ne (m : P → N) {p : Option P} {q : P} (h : p ≠ some q) (v : Option P) :
    storePrev m p v q = m q := by
  cases p with
  | none => rfl
  | some p =>
    have hqp : q ≠ p := fun hq => h (by rw [hq])
    simp [storePrev, hqp]

/-- A field that `setNext` keeps is kept by `storeNext`. -/
theorem storeNext_field {α : Type*} (f : N → α) (hf : ∀ n v, f (LinkNode.setNext n v) = f n)
    (m : P → N) (p v : Option P) (q : P) : f (storeNext m p v q) = f (m q) := by
  cases p with
  | none => rfl
  | some p =>
    by_cases hq : q = p
    · subst hq
      simp [storeNext, hf]
    · simp [storeNext, hq]

/-- A field that `setPrev` keeps is kept by `storePrev`. -/
theorem storePrev_field {α : Type*} (f : N → α) (hf : ∀ n v, f (LinkNode.setPrev n v) = f n)
    (m : P → N) (p v : Option P) (q : P) : f (storePrev m p v q) = f (m q) := by
  cases p with
  | none => rfl
  | some p =>
    by_cases hq : q = p
    · subst hq
      simp [storePrev, hf]
    · simp [storePrev, hq]

end Store

/-! ## The search loop -/

omit [DecidableEq P]

/-- `for (n = p; n; last = n, n = n->next) if (stop n) break;` with a budget of nodes to visit.
The result is the last node passed over and the node stopped at; `none` when the budget runs out
before the loop ends. -/
def scan (next : P → Option P) (stop : P → Bool) :
    Nat → Option P → Option P → Option (Option P × Option P)
  | _, last, none => some (last, none)
  | 0, _, some _ => none
  | n + 1, last, some p =>
    if stop p then some (last, some p) else scan next stop n (some p) (next p)

/-- On a chain the loop splits the list at the first node that stops it. -/
theorem scan_chain {next prev : P → Option P} {last : Option P} {n : Nat}
    (stop : P → Bool) (h : Chain next prev b l none) (hn : l.length ≤ n) :
    scan next stop n last l.head? =
      some ((l.takeWhile (fun p => !stop p)).getLast?.or last,
        (l.dropWhile (fun p => !stop p)).head?) := by
  induction l generalizing b last n with
  | nil => cases n <;> simp [scan]
  | cons x xs ih =>
    cases n with
    | zero => simp at hn
    | succ n =>
      rcases h with ⟨_, hnext, hrest⟩
      have hlen : xs.length ≤ n := by simpa using hn
      simp only [Option.or_none] at hnext
      cases hx : stop x with
      | true => simp [scan, hx]
      | false =>
        simp [scan, hx, hnext, ih hrest hlen, getLast?_cons_or]

/-- The node the loop stops at is the first one in the list that satisfies the test. -/
theorem scan_chain_find {next prev : P → Option P} {n : Nat}
    (stop : P → Bool) (last : Option P) (h : Chain next prev b l none) (hn : l.length ≤ n) :
    ∃ last', scan next stop n last l.head? = some (last', l.find? stop) := by
  rw [scan_chain stop h hn, List.find?_eq_head?_dropWhile_not]
  exact ⟨_, rfl⟩

/-- The loop over a chain in which every node of `l₁` is passed over and every node of `l₂` stops
it. -/
theorem scan_chain_split {next prev : P → Option P} {last : Option P} {n : Nat}
    {stop : P → Bool} (h : Chain next prev b (l₁ ++ l₂) none) (hn : (l₁ ++ l₂).length ≤ n)
    (h₁ : ∀ x ∈ l₁, stop x = false) (h₂ : ∀ x ∈ l₂, stop x = true) :
    scan next stop n last (l₁ ++ l₂).head? = some (l₁.getLast?.or last, l₂.head?) := by
  have htake : l₂.takeWhile (fun p => !stop p) = [] := by
    cases l₂ with
    | nil => rfl
    | cons x xs => simp [h₂ x (by simp)]
  have hdrop : l₂.dropWhile (fun p => !stop p) = l₂ := by
    cases l₂ with
    | nil => rfl
    | cons x xs => simp [h₂ x (by simp)]
  have hpass : ∀ x ∈ l₁, (!stop x) = true := fun x hx => by simp [h₁ x hx]
  rw [scan_chain stop h hn, List.takeWhile_append_of_pos hpass, List.dropWhile_append_of_pos hpass,
    htake, hdrop, List.append_nil]

/-- The node `n` places after `p`, if the links go that far. -/
def walk (next : P → Option P) : Nat → Option P → Option P
  | 0, p => p
  | _ + 1, none => none
  | n + 1, some p => walk next n (next p)

theorem walk_chain {next prev : P → Option P} {n : Nat}
    (h : Chain next prev b (l₁ ++ l₂) a) (hn : l₁.length = n) (hne : l₂ ≠ []) :
    walk next n (l₁ ++ l₂).head? = l₂.head? := by
  induction l₁ generalizing b n with
  | nil =>
    subst hn
    rfl
  | cons x xs ih =>
    subst hn
    rw [List.cons_append, chain_cons] at h
    rcases h with ⟨_, hnext, hrest⟩
    have hhead : (xs ++ l₂).head?.or a = (xs ++ l₂).head? := by
      cases xs with
      | nil =>
        cases l₂ with
        | nil => exact absurd rfl hne
        | cons y ys => rfl
      | cons y ys => rfl
    rw [hhead] at hnext
    rw [List.length_cons, List.cons_append, List.head?_cons, walk, hnext]
    exact ih hrest rfl

/-- As many steps as a chain has nodes lead behind its end. -/
theorem walk_chain_end {next prev : P → Option P} {n : Nat}
    (h : Chain next prev b l none) (hn : l.length ≤ n) : walk next n l.head? = none := by
  induction l generalizing b n with
  | nil => cases n <;> rfl
  | cons x xs ih =>
    cases n with
    | zero => simp at hn
    | succ n =>
      rcases h with ⟨_, hnext, hrest⟩
      rw [Option.or_none] at hnext
      rw [List.head?_cons, walk, hnext]
      exact ih hrest (Nat.le_of_succ_le_succ hn)

/-- The nodes visited from `p` along `next`, at most `n` of them. -/
def collect (next : P → Option P) : Nat → Option P → List P
  | _, none => []
  | 0, some _ => []
  | n + 1, some p => p :: collect next n (next p)

theorem collect_chain {next prev : P → Option P} {n : Nat}
    (h : Chain next prev b l none) (hn : l.length ≤ n) : collect next n l.head? = l := by
  induction l generalizing b n with
  | nil => cases n <;> rfl
  | cons x xs ih =>
    cases n with
    | zero => simp at hn
    | succ n =>
      rcases h with ⟨_, hnext, hrest⟩
      have hlen : xs.length ≤ n := by simpa using hn
      simp only [Option.or_none] at hnext
      simp [collect, hnext, ih hrest hlen]

/-- Array elements that point at their neighbours, and at `b` and `a` at the ends, are a chain. -/
theorem chain_range' {next prev : Nat → Option Nat} {b a : Option Nat} (n i : Nat)
    (hnext : ∀ j, i ≤ j → j < i + n → next j = if j + 1 < i + n then some (j + 1) else a)
    (hprev : ∀ j, i ≤ j → j < i + n → prev j = if i < j then some (j - 1) else b) :
    Chain next prev b (List.range' i n) a := by
  induction n generalizing i b with
  | zero => trivial
  | succ n ih =>
    rw [List.range'_succ, chain_cons]
    refine ⟨by simpa using hprev i (by omega) (by omega), ?_, ?_⟩
    · rw [hnext i (by omega) (by omega)]
      cases n with
      | zero => simp
      | succ n => simp [List.range'_succ]
    · refine ih (i + 1) ?_ ?_
      · intro j hj hlt
        rw [hnext j (by omega) (by omega)]
        simp only [show i + 1 + n = i + (n + 1) by omega]
      · intro j hj hlt
        rw [hprev j (by omega) (by omega), if_pos (by omega)]
        by_cases hij : i + 1 < j
        · rw [if_pos hij]
        · have heq : j = i + 1 := by omega
          simp [heq]

/-- Along a chain `next` and `prev` are inverse to each other. -/
theorem Chain.next_iff_prev {next prev : P → Option P}
    (h : Chain next prev none l none) {x y : P} (hx : x ∈ l) (hy : y ∈ l) :
    next x = some y ↔ prev y = some x := by
  rcases List.append_of_mem hx with ⟨l₁, l₂, rfl⟩
  rcases List.append_of_mem hy with ⟨k₁, k2, hk⟩
  have hnx := h.mid.2
  have hpy := (hk ▸ h).mid.1
  have hnd := h.nodup
  simp only [Option.or_none] at hnx hpy
  rw [hnx, hpy]
  constructor
  · intro hhead
    cases l₂ with
    | nil => simp at hhead
    | cons z zs =>
      have hzy : z = y := by simpa using hhead
      subst hzy
      have hsplit : (l₁ ++ [x]) ++ z :: zs = k₁ ++ z :: k2 := by simpa using hk
      have hleft : l₁ ++ [x] = k₁ := (nodup_split (by simpa using hnd) hsplit).1
      simp [← hleft]
  · intro hlast
    rcases List.eq_nil_or_concat k₁ with rfl | ⟨ks, w, rfl⟩
    · simp at hlast
    · have hwx : w = x := by simpa using hlast
      subst hwx
      have hsplit : l₁ ++ w :: l₂ = ks ++ w :: (y :: k2) := by simpa using hk
      have hright : l₂ = y :: k2 := (nodup_split hnd hsplit).2
      simp [hright]

/-- The successor of a node of a chain is in the chain. -/
theorem Chain.next_mem {next prev : P → Option P}
    (h : Chain next prev b l none) {x y : P} (hx : x ∈ l) (hxy : next x = some y) : y ∈ l := by
  rcases List.append_of_mem hx with ⟨l₁, l₂, rfl⟩
  have hnx := h.mid.2
  simp only [Option.or_none] at hnx
  have hhead : l₂.head? = some y := hnx.symm.trans hxy
  exact List.mem_append_right _ (List.mem_cons_of_mem _ (List.mem_of_head? hhead))

/-- A doubly linked list with both ends: nothing before the head, nothing after the tail, the links
stay inside the list, and along it `next` and `prev` are inverse to each other. -/
structure DoublyLinked (next prev : P → Option P) (head tail : Option P) (l : List P) : Prop where
  nodup : l.Nodup
  head_first : head = l.head?
  tail_last : tail = l.getLast?
  head_prev : ∀ x, head = some x → prev x = none
  tail_next : ∀ x, tail = some x → next x = none
  next_mem : ∀ x ∈ l, ∀ y, next x = some y → y ∈ l
  inverse : ∀ x ∈ l, ∀ y ∈ l, next x = some y ↔ prev y = some x

theorem Chain.doublyLinked {next prev : P → Option P} {head tail : Option P}
    (h : Chain next prev none l none) (hhead : head = l.head?) (htail : tail = l.getLast?) :
    DoublyLinked next prev head tail l := by
  refine ⟨h.nodup, hhead, htail, ?_, ?_, ?_, ?_⟩
  · intro x hx
    rw [hhead] at hx
    cases l with
    | nil => simp at hx
    | cons y ys =>
      have hyx : y = x := by simpa using hx
      exact hyx ▸ h.1
  · intro x hx
    rw [htail] at hx
    rcases List.eq_nil_or_concat l with rfl | ⟨ys, y, rfl⟩
    · simp at hx
    · simp only [List.concat_eq_append] at h hx
      have hyx : y = x := by simpa using hx
      exact hyx ▸ h.mid.2
  · intro x hx y hxy
    exact h.next_mem hx hxy
  · intro x hx y hy
    exact h.next_iff_prev hx hy

end Links
end XytherOS
