import XytherOS.Ds.Btree
import XytherOS.Lib.SearchTree

/-!
# BtreeShape — the tree in memory, and what the functions of `btree.c` do to it

`IsTree s t g` says that the tree at `t` is the binary tree `g`: every node carries the key and the
datum of its entry, points to its children and its parent, and to `t`.  Each function is specified
by the place at which it changes the tree.
-/

namespace XytherOS
namespace Ds
namespace Btree

open SearchTree

variable {P T K D : Type}

/-! ## The tree in memory -/

structure Item (P K D : Type) where
  addr : P
  key : K
  data : D
  deriving DecidableEq

def top : BinaryTree (Item P K D) → Option P
  | .nil => none
  | .node e _ _ => some e.addr

@[simp] theorem top_nil : top (.nil : BinaryTree (Item P K D)) = none := rfl

@[simp] theorem top_node (e : Item P K D) (l r : BinaryTree (Item P K D)) :
    top (.node e l r) = some e.addr := rfl

structure Stored (s : Btrees P T K D) (t : T) (e : Item P K D) (left parent right : Option P) :
    Prop where
  live : s.live e.addr = true
  node : s.node e.addr = ⟨e.key, e.data, left, parent, right, some t⟩

def Shape (s : Btrees P T K D) (t : T) : Option P → BinaryTree (Item P K D) → Prop
  | _, .nil => True
  | parent, .node e l r =>
    Stored s t e (top l) parent (top r) ∧ Shape s t (some e.addr) l ∧ Shape s t (some e.addr) r

def parentOf : List (Crumb (Item P K D)) → Option P
  | [] => none
  | c :: _ => some c.item.addr

/-- The nodes around a place, which holds the pointer `hole`. -/
def Around (s : Btrees P T K D) (t : T) : Option P → List (Crumb (Item P K D)) → Prop
  | _, [] => True
  | hole, .left e r :: cs =>
    Stored s t e hole (parentOf cs) (top r) ∧ Shape s t (some e.addr) r ∧
      Around s t (some e.addr) cs
  | hole, .right l e :: cs =>
    Stored s t e (top l) (parentOf cs) hole ∧ Shape s t (some e.addr) l ∧
      Around s t (some e.addr) cs

structure IsTree (s : Btrees P T K D) (t : T) (g : BinaryTree (Item P K D)) : Prop where
  root : s.root t = top g
  shape : Shape s t none g

variable {cs : List (Crumb (Item P K D))} {s' : Btrees P T K D} {a e : Item P K D}

theorem shape_plug {s : Btrees P T K D} {t : T}
    {g : BinaryTree (Item P K D)} :
    Shape s t none (plug cs g) ↔ Around s t (top g) cs ∧ Shape s t (parentOf cs) g := by
  induction cs generalizing g with
  | nil => simp [Around, parentOf]
  | cons c cs ih =>
    rw [plug_cons, ih]
    cases c with
    | left e r =>
      simp only [Crumb.fill, Around, Shape, parentOf, Crumb.item, top_node]
      tauto
    | right l e =>
      simp only [Crumb.fill, Around, Shape, parentOf, Crumb.item, top_node]
      tauto

@[simp] theorem top_fill (c : Crumb (Item P K D)) (g : BinaryTree (Item P K D)) :
    top (c.fill g) = some c.item.addr := by
  cases c <;> rfl

theorem top_plug {g g' : BinaryTree (Item P K D)} (h : top g = top g')
    (cs : List (Crumb (Item P K D))) : top (plug cs g) = top (plug cs g') := by
  induction cs generalizing g g' with
  | nil => exact h
  | cons c cs ih => exact ih (by simp)

theorem top_plug_cons (c : Crumb (Item P K D)) (cs : List (Crumb (Item P K D)))
    (g : BinaryTree (Item P K D)) : ∃ d ∈ c :: cs, top (plug (c :: cs) g) = some d.item.addr := by
  induction cs generalizing c g with
  | nil => exact ⟨c, by simp, by simp⟩
  | cons d cs ih =>
    rcases ih d (c.fill g) with ⟨d', hd', htop⟩
    exact ⟨d', List.mem_cons_of_mem _ hd', htop⟩

structure Same (s s' : Btrees P T K D) (e : Item P K D) : Prop where
  node : s'.node e.addr = s.node e.addr
  live : s'.live e.addr = s.live e.addr

theorem Stored.congr {s : Btrees P T K D} {t : T} {l p r : Option P}
    (h : Stored s t e l p r) (hs : Same s s' e) : Stored s' t e l p r :=
  ⟨hs.live.trans h.live, hs.node.trans h.node⟩

theorem Shape.congr {s : Btrees P T K D} {t : T} {parent : Option P}
    {g : BinaryTree (Item P K D)} (h : Shape s t parent g) (hs : ∀ e ∈ inorder g, Same s s' e) :
    Shape s' t parent g := by
  induction g generalizing parent with
  | nil => trivial
  | node e l r ihl ihr =>
    rcases h with ⟨hnode, hl, hr⟩
    refine ⟨hnode.congr (hs e (by simp)), ihl hl ?_, ihr hr ?_⟩
    · intro a ha
      exact hs a (List.mem_append_left _ ha)
    · intro a ha
      exact hs a (List.mem_append_right _ (List.mem_cons_of_mem _ ha))

def around (cs : List (Crumb (Item P K D))) : List (Item P K D) := before cs ++ after cs

def sibling : Crumb (Item P K D) → BinaryTree (Item P K D)
  | .left _ r => r
  | .right l _ => l

theorem mem_around_cons {c : Crumb (Item P K D)} :
    a ∈ around (c :: cs) ↔ a = c.item ∨ a ∈ inorder (sibling c) ∨ a ∈ around cs := by
  cases c with
  | left e r =>
    simp only [around, before, after, Crumb.item, sibling, List.mem_append, List.mem_cons]
    tauto
  | right l e =>
    simp only [around, before, after, Crumb.item, sibling, List.mem_append, List.mem_cons,
      List.not_mem_nil, or_false]
    tauto

theorem Around.congr {s : Btrees P T K D} {t : T} {hole : Option P} (h : Around s t hole cs)
    (hs : ∀ e ∈ around cs, Same s s' e) : Around s' t hole cs := by
  induction cs generalizing hole with
  | nil => trivial
  | cons c cs ih =>
    have hrest : ∀ e ∈ around cs, Same s s' e := fun e he => hs e (mem_around_cons.2 (by tauto))
    have hitem : Same s s' c.item := hs _ (mem_around_cons.2 (by tauto))
    cases c with
    | left e r =>
      rcases h with ⟨hnode, hr, hup⟩
      refine ⟨hnode.congr hitem, hr.congr ?_, ih hup hrest⟩
      intro a ha
      exact hs a (mem_around_cons.2 (.inr (.inl ha)))
    | right l e =>
      rcases h with ⟨hnode, hl, hup⟩
      refine ⟨hnode.congr hitem, hl.congr ?_, ih hup hrest⟩
      intro a ha
      exact hs a (mem_around_cons.2 (.inr (.inl ha)))

theorem IsTree.congr {s : Btrees P T K D} {t : T} {g : BinaryTree (Item P K D)}
    (h : IsTree s t g) (hroot : s'.root t = s.root t) (hs : ∀ e ∈ inorder g, Same s s' e) :
    IsTree s' t g :=
  ⟨hroot.trans h.root, h.shape.congr hs⟩

theorem Shape.stored {s : Btrees P T K D} {t : T} {parent : Option P}
    {g : BinaryTree (Item P K D)} (h : Shape s t parent g)
    (he : e ∈ inorder g) :
    s.live e.addr = true ∧ (s.node e.addr).key = e.key ∧ (s.node e.addr).data = e.data := by
  induction g generalizing parent with
  | nil => simp at he
  | node a l r ihl ihr =>
    rcases h with ⟨hnode, hl, hr⟩
    rcases List.mem_append.1 he with he | he
    · exact ihl hl he
    · rcases List.mem_cons.1 he with rfl | he
      · exact ⟨hnode.live, by rw [hnode.node], by rw [hnode.node]⟩
      · exact ihr hr he

def Apart (es : List (Item P K D)) : Prop := es.Pairwise fun a b => a.addr ≠ b.addr

theorem Apart.sublist {es es' : List (Item P K D)} (h : Apart es) (hsub : es'.Sublist es) :
    Apart es' :=
  List.Pairwise.sublist hsub h

theorem mem_inorder_plug {g : BinaryTree (Item P K D)} : a ∈ inorder (plug cs g) ↔ a ∈ around cs ∨ a ∈ inorder g := by
  simp only [inorder_plug, around, List.mem_append]
  tauto

theorem Apart.around {g : BinaryTree (Item P K D)}
    (h : Apart (inorder (plug cs g))) {b : Item P K D} (ha : a ∈ around cs)
    (hb : b ∈ inorder g) : a.addr ≠ b.addr := by
  rw [inorder_plug, List.append_assoc] at h
  rcases List.pairwise_append.1 h with ⟨_, hmid, hleft⟩
  rcases List.mem_append.1 ha with ha | ha
  · exact hleft a ha b (List.mem_append_left _ hb)
  · exact ((List.pairwise_append.1 hmid).2.2 b hb a ha).symm

theorem Apart.part {g : BinaryTree (Item P K D)}
    (h : Apart (inorder (plug cs g))) : Apart (inorder g) := by
  rw [inorder_plug, List.append_assoc] at h
  exact (List.pairwise_append.1 (List.pairwise_append.1 h).2.1).1

theorem Apart.node {l r : BinaryTree (Item P K D)}
    (h : Apart (inorder (.node e l r))) (ha : a ∈ inorder l ∨ a ∈ inorder r) :
    a.addr ≠ e.addr := by
  rcases List.pairwise_append.1 h with ⟨_, hright, hleft⟩
  rcases ha with ha | ha
  · exact hleft a ha e (by simp)
  · exact ((List.pairwise_cons.1 hright).1 a ha).symm

theorem Apart.crumb {c : Crumb (Item P K D)}
    {g : BinaryTree (Item P K D)} (h : Apart (inorder (plug (c :: cs) g)))
    (ha : a ∈ inorder (sibling c) ∨ a ∈ Btree.around cs ∨ a ∈ inorder g) :
    a.addr ≠ c.item.addr := by
  rw [plug_cons] at h
  have hfill : c.item ∈ inorder (c.fill g) := by
    cases c <;> simp [Crumb.fill, Crumb.item]
  rcases ha with ha | ha | ha
  · cases c with
    | left e r => exact h.part.node (.inr ha)
    | right l e => exact h.part.node (.inl ha)
  · exact h.around ha hfill
  · cases c with
    | left e r => exact h.part.node (.inl ha)
    | right l e => exact h.part.node (.inr ha)

def setChild (c : Crumb (Item P K D)) (v : Option P) (n : BtreeNode P T K D) :
    BtreeNode P T K D :=
  match c with
  | .left _ _ => { n with left := v }
  | .right _ _ => { n with right := v }

structure Rehooked (s s' : Btrees P T K D) (c : Crumb (Item P K D))
    (cs : List (Crumb (Item P K D))) (v : Option P) : Prop where
  node : s'.node c.item.addr = setChild c v (s.node c.item.addr)
  live : s'.live c.item.addr = s.live c.item.addr
  other : ∀ a ∈ around (c :: cs), a.addr ≠ c.item.addr → Same s s' a

theorem Around.rehook {s : Btrees P T K D} {t : T} {hole v : Option P}
    {c : Crumb (Item P K D)}
    (h : Around s t hole (c :: cs)) (hs : Rehooked s s' c cs v)
    (hapart : ∀ a, a ∈ inorder (sibling c) ∨ a ∈ around cs → a.addr ≠ c.item.addr) :
    Around s' t v (c :: cs) := by
  have hother : ∀ a, a ∈ inorder (sibling c) ∨ a ∈ around cs → Same s s' a :=
    fun a ha => hs.other a (mem_around_cons.2 (.inr ha)) (hapart a ha)
  have hnode := hs.node
  have hlive := hs.live
  cases c with
  | left e r =>
    rcases h with ⟨hstored, hr, hup⟩
    refine ⟨⟨hlive.trans hstored.live, ?_⟩, hr.congr ?_, hup.congr ?_⟩
    · simp only [Crumb.item] at hnode
      rw [hnode, hstored.node]
      rfl
    · exact fun a ha => hother a (.inl ha)
    · exact fun a ha => hother a (.inr ha)
  | right l e =>
    rcases h with ⟨hstored, hl, hup⟩
    refine ⟨⟨hlive.trans hstored.live, ?_⟩, hl.congr ?_, hup.congr ?_⟩
    · simp only [Crumb.item] at hnode
      rw [hnode, hstored.node]
      rfl
    · exact fun a ha => hother a (.inl ha)
    · exact fun a ha => hother a (.inr ha)

variable [LinearOrder K]

theorem IsTree.apart {s : Btrees P T K D} {t : T} {g : BinaryTree (Item P K D)}
    (h : IsTree s t g) (hord : Ordered Item.key g) : Apart (inorder g) := by
  refine List.Pairwise.imp_of_mem ?_ hord
  intro a b ha hb hlt hab
  have hkey : a.key = b.key := by
    rw [← (h.shape.stored ha).2.1, ← (h.shape.stored hb).2.1, hab]
  exact absurd hkey hlt.ne

theorem IsTree.length_le [Fintype P] {s : Btrees P T K D} {t : T} {g : BinaryTree (Item P K D)}
    (h : IsTree s t g) (hord : Ordered Item.key g) : (inorder g).length ≤ Fintype.card P := by
  have hnd : ((inorder g).map Item.addr).Nodup := List.pairwise_map.2 (h.apart hord)
  simpa using hnd.length_le_card

/-! ## Searching -/

section Search

variable {s : Btrees P T K D} {t : T} {g : BinaryTree (Item P K D)}

variable {e : Item P K D} {cs : List (Crumb (Item P K D))} {parent : Option P}

omit [LinearOrder K] in
theorem read_stored {l p r : Option P} (h : Stored s t e l p r) :
    s.read e.addr = .ok ⟨e.key, e.data, l, p, r, some t⟩ := by
  simp [Btrees.read, h.live, h.node]

theorem descend_plug {key : K}
    (hshape : Shape s t none (plug cs g)) (hcs : Leads Item.key key cs) (n : Nat) :
    descend s key (n + cs.length) none (top (plug cs g)) =
      descend s key n (parentOf cs) (top g) := by
  induction cs generalizing g n with
  | nil => rfl
  | cons c cs ih =>
    have hturn := hcs c (by simp)
    have hloop := ih hshape (fun d hd => hcs d (List.mem_cons_of_mem _ hd)) (n + 1)
    have hfuel : n + (c :: cs).length = n + 1 + cs.length := by
      simp only [List.length_cons]
      omega
    rw [hfuel, plug_cons, hloop]
    have hnode := (shape_plug.1 hshape).1
    cases c with
    | left e r =>
      have hlt : key < e.key := hturn
      simp [Crumb.fill, descend, read_stored hnode.1, hlt, hlt.ne', parentOf, Crumb.item]
    | right l e =>
      have hlt : e.key < key := hturn
      simp [Crumb.fill, descend, read_stored hnode.1, hlt.not_gt, hlt.ne, parentOf, Crumb.item]

variable [Fintype P]

theorem descend_found {key : K}
    {l r : BinaryTree (Item P K D)} (h : IsTree s t (plug cs (.node e l r)))
    (hord : Ordered Item.key (plug cs (.node e l r))) (hcs : Leads Item.key key cs)
    (hkey : e.key = key) :
    descend s key (Fintype.card P) none (s.root t) = .ok (parentOf cs, some e.addr) := by
  have hle := h.length_le hord
  have hplace := length_le_plug cs (.node e l r)
  have hfuel : ∃ n, Fintype.card P = n + 1 + cs.length := by
    refine ⟨Fintype.card P - cs.length - 1, ?_⟩
    simp only [inorder_node, List.length_append, List.length_cons] at hplace
    omega
  rcases hfuel with ⟨n, hn⟩
  rw [hn, h.root, descend_plug h.shape hcs]
  have hnode := (shape_plug.1 h.shape).2.1
  simp [descend, read_stored hnode, hkey]

theorem descend_hole {key : K} (h : IsTree s t (plug cs .nil))
    (hord : Ordered Item.key (plug cs .nil)) (hcs : Leads Item.key key cs) :
    descend s key (Fintype.card P) none (s.root t) = .ok (parentOf cs, none) := by
  have hle := h.length_le hord
  have hplace := length_le_plug cs (.nil : BinaryTree (Item P K D))
  have hfuel : ∃ n, Fintype.card P = n + cs.length := by
    refine ⟨Fintype.card P - cs.length, ?_⟩
    simp only [inorder_nil, List.length_nil] at hplace
    omega
  rcases hfuel with ⟨n, hn⟩
  rw [hn, h.root, descend_plug h.shape hcs]
  cases n <;> rfl

omit [Fintype P] in
theorem eq_of_key (hord : Ordered Item.key g) {a b : Item P K D} (ha : a ∈ inorder g)
    (hb : b ∈ inorder g) (hab : a.key = b.key) : a = b := by
  by_contra hne
  have hkeys : ((inorder g).map Item.key).Nodup :=
    List.pairwise_map.2 (List.Pairwise.imp (fun h => ne_of_lt h) hord)
  exact hne (List.inj_on_of_nodup_map hkeys ha hb hab)

omit [Fintype P] in
theorem IsTree.eq_of_addr (h : IsTree s t g) (hord : Ordered Item.key g) {a b : Item P K D}
    (ha : a ∈ inorder g) (hb : b ∈ inorder g) (hab : a.addr = b.addr) : a = b := by
  refine eq_of_key hord ha hb ?_
  rw [← (h.shape.stored ha).2.1, ← (h.shape.stored hb).2.1, hab]

theorem lookup_some (h : IsTree s t g) (hord : Ordered Item.key g)
    (he : e ∈ inorder g) : btreeLookup s t e.key = .ok (some e.addr) := by
  rcases exists_place he with ⟨cs, l, r, rfl⟩
  have hcs : Leads Item.key e.key cs := hord.leads (a := e) (by simp)
  rw [btreeLookup, descend_found h hord hcs rfl]
  rfl

theorem lookup_none (h : IsTree s t g) (hord : Ordered Item.key g) {key : K}
    (hno : ∀ e ∈ inorder g, e.key ≠ key) : btreeLookup s t key = .ok none := by
  rcases search_ends Item.key key g with ⟨cs, e, l, r, rfl, hkey, hcs⟩ | ⟨cs, rfl, hcs⟩
  · refine absurd hkey (hno e ?_)
    simp [inorder_plug]
  · rw [btreeLookup, descend_hole h hord hcs]
    rfl

theorem search_some (h : IsTree s t g) (hord : Ordered Item.key g)
    (he : e ∈ inorder g) : btreeSearch s t e.key = .ok (.ok, some e.data) := by
  rcases h.shape.stored he with ⟨hlive, _, hdata⟩
  simp [btreeSearch, lookup_some h hord he, Btrees.read_live hlive, hdata]

theorem search_none (h : IsTree s t g) (hord : Ordered Item.key g) {key : K}
    (hno : ∀ e ∈ inorder g, e.key ≠ key) : btreeSearch s t key = .ok (.err .ENOENT, none) := by
  simp [btreeSearch, lookup_none h hord hno]

omit [Fintype P] [LinearOrder K] in
theorem endLoop_left (h : Shape s t parent g) (last : Option P) {n : Nat}
    (hn : (inorder g).length ≤ n) :
    endLoop s BtreeNode.left n last (top g) =
      .ok (((inorder g).head?.map Item.addr).or last) := by
  induction g generalizing parent last n with
  | nil => cases n <;> rfl
  | node e l r ihl _ =>
    rcases h with ⟨hnode, hl, _⟩
    cases n with
    | zero => simp at hn
    | succ n =>
      have hle : (inorder l).length ≤ n := by
        simp only [inorder_node, List.length_append, List.length_cons] at hn
        omega
      simp only [top_node, endLoop, read_stored hnode, ok_bind]
      rw [ihl hl (some e.addr) hle]
      cases hil : inorder l with
      | nil => simp [hil]
      | cons a as => simp [hil]

omit [Fintype P] [LinearOrder K] in
theorem endLoop_right (h : Shape s t parent g) (last : Option P) {n : Nat}
    (hn : (inorder g).length ≤ n) :
    endLoop s BtreeNode.right n last (top g) =
      .ok (((inorder g).getLast?.map Item.addr).or last) := by
  induction g generalizing parent last n with
  | nil => cases n <;> rfl
  | node e l r _ ihr =>
    rcases h with ⟨hnode, _, hr⟩
    cases n with
    | zero => simp at hn
    | succ n =>
      have hle : (inorder r).length ≤ n := by
        simp only [inorder_node, List.length_append, List.length_cons] at hn
        omega
      simp only [top_node, endLoop, read_stored hnode, ok_bind]
      rw [ihr hr (some e.addr) hle]
      cases hir : inorder r with
      | nil => simp [hir]
      | cons a as => simp [hir, List.getLast?_append, List.getLast?_cons]

omit [Fintype P] [LinearOrder K] in
theorem dataOf_shape (h : Shape s t parent g) {e : Option (Item P K D)}
    (he : ∀ a, e = some a → a ∈ inorder g) :
    dataOf s (e.map Item.addr) = .ok (e.map Item.data) := by
  cases e with
  | none => rfl
  | some a =>
    rcases h.stored (he a rfl) with ⟨hlive, _, hdata⟩
    simp [dataOf, Btrees.read, hlive, hdata]

theorem least_spec (h : IsTree s t g) (hord : Ordered Item.key g) :
    btreeLeast s t = .ok ((inorder g).head?.map Item.data) := by
  rw [btreeLeast, btreeLeastNode, h.root, endLoop_left h.shape none (h.length_le hord), ok_bind,
    Option.or_none]
  exact dataOf_shape h.shape fun a ha => List.mem_of_head? ha

theorem largest_spec (h : IsTree s t g) (hord : Ordered Item.key g) :
    btreeLargest s t = .ok ((inorder g).getLast?.map Item.data) := by
  rw [btreeLargest, btreeLargestNode, h.root, endLoop_right h.shape none (h.length_le hord),
    ok_bind, Option.or_none]
  exact dataOf_shape h.shape fun a ha => List.mem_of_getLast? ha

end Search

/-! ## Inserting -/

section Insert

variable [DecidableEq P] [DecidableEq T] [Fintype P] {s : Btrees P T K D} {t : T}

omit [LinearOrder K] [Fintype P] [DecidableEq P] [DecidableEq T] in
theorem Around.stored {hole : Option P} {c : Crumb (Item P K D)} {cs : List (Crumb (Item P K D))}
    (h : Around s t hole (c :: cs)) :
    s.live c.item.addr = true ∧ (s.node c.item.addr).key = c.item.key := by
  cases c with
  | left e r => exact ⟨h.1.live, by rw [Crumb.item, h.1.node]⟩
  | right l e => exact ⟨h.1.live, by rw [Crumb.item, h.1.node]⟩

/-- A subtree that is not linked to a parent: the parent link of its root is stale. -/
def Loose (s : Btrees P T K D) (t : T) : BinaryTree (Item P K D) → Prop
  | .nil => True
  | .node e l r =>
    s.live e.addr = true ∧
      (∃ parent tree, s.node e.addr = ⟨e.key, e.data, top l, parent, top r, tree⟩) ∧
      Shape s t (some e.addr) l ∧ Shape s t (some e.addr) r

omit [LinearOrder K] [Fintype P] [DecidableEq P] [DecidableEq T] in
theorem Shape.loose {parent : Option P} {g : BinaryTree (Item P K D)} (h : Shape s t parent g) :
    Loose s t g := by
  cases g with
  | nil => trivial
  | node e l r => exact ⟨h.1.live, ⟨_, _, h.1.node⟩, h.2.1, h.2.2⟩

omit [LinearOrder K] [Fintype P] [DecidableEq P] [DecidableEq T] in
theorem Loose.congr {s' : Btrees P T K D} {g : BinaryTree (Item P K D)} (h : Loose s t g)
    (hs : ∀ e ∈ inorder g, Same s s' e) : Loose s' t g := by
  cases g with
  | nil => trivial
  | node e l r =>
    rcases h with ⟨hlive, ⟨parent, tree, hnode⟩, hl, hr⟩
    have he := hs e (by simp)
    refine ⟨he.live.trans hlive, ⟨parent, tree, he.node.trans hnode⟩, hl.congr ?_, hr.congr ?_⟩
    · intro a ha
      exact hs a (by simp [ha])
    · intro a ha
      exact hs a (by simp [ha])

omit [LinearOrder K] [Fintype P] in
theorem insertDone_live {p : P} (h : s.live p = true) :
    insertDone s t p =
      .ok (.ok, (s.setNrNodes t (s.nrNodes t + 1)).write p { s.node p with btree := some t }) := by
  have hlive : (s.setNrNodes t (s.nrNodes t + 1)).live p = true := h
  simp [insertDone, Btrees.modify_live hlive]

theorem insertNode_spec {cs : List (Crumb (Item P K D))} {e : Item P K D}
    {l r : BinaryTree (Item P K D)} (htree : IsTree s t (plug cs .nil))
    (hord : Ordered Item.key (plug cs .nil)) (hloose : Loose s t (.node e l r))
    (hcs : Leads Item.key e.key cs) (hapart : Apart (inorder (plug cs (.node e l r)))) :
    ∃ s', btreeInsertNode s t e.addr = .ok (.ok, s') ∧ IsTree s' t (plug cs (.node e l r)) ∧
      s'.live = s.live ∧ s'.nrNodes t = s.nrNodes t + 1 ∧
      ∀ q, q ≠ e.addr → (∀ a ∈ around cs, q ≠ a.addr) → s'.node q = s.node q := by
  rcases hloose with ⟨hlive, ⟨parent, tree, hnode⟩, hl, hr⟩
  have hbelow : ∀ a, a ∈ inorder l ∨ a ∈ inorder r → a.addr ≠ e.addr :=
    fun a ha => hapart.part.node ha
  cases cs with
  | nil =>
    -- The tree is empty: the node becomes its root.
    have hroot : s.root t = none := htree.root
    refine ⟨_, by
      simp only [btreeInsertNode, Btrees.modify_live hlive, ok_bind, Btrees.write_root, hroot,
        if_true]
      exact insertDone_live hlive, ⟨?_, ?_, hl.congr ?_, hr.congr ?_⟩, ?_, ?_, ?_⟩
    · simp
    · exact ⟨hlive, by simp [hnode]⟩
    · intro a ha
      exact ⟨by simp [hbelow a (.inl ha)], rfl⟩
    · intro a ha
      exact ⟨by simp [hbelow a (.inr ha)], rfl⟩
    · rfl
    · simp
    · intro q hq _
      simp [hq]
  | cons c cs =>
    have hshape := shape_plug.1 htree.shape
    rcases hshape.1.stored with ⟨hclive, hckey⟩
    have hce : c.item.addr ≠ e.addr :=
      hapart.around (mem_around_cons.2 (.inl rfl)) (by simp)
    have hne : ∀ a ∈ around (c :: cs), a.addr ≠ e.addr := fun a ha => hapart.around ha (by simp)
    have hcbelow : ∀ a, a ∈ inorder l ∨ a ∈ inorder r → a.addr ≠ c.item.addr := by
      intro a ha
      exact (hapart.around (mem_around_cons.2 (.inl rfl)) (by
        rcases ha with ha | ha <;> simp [ha])).symm
    have hroot : s.root t ≠ none := by
      rcases top_plug_cons c cs .nil with ⟨d, _, htop⟩
      rw [htree.root, htop]
      exact Option.some_ne_none _
    -- The loop does not meet the node itself.
    let s₁ := s.write e.addr { s.node e.addr with parent := none }
    have htree1 : IsTree s₁ t (plug (c :: cs) .nil) := by
      refine htree.congr rfl ?_
      intro a ha
      have ha' : a ∈ around (c :: cs) := (mem_inorder_plug.1 ha).resolve_right (by simp)
      exact ⟨by simp [s₁, Btrees.write, hne a ha'], rfl⟩
    have hdescend : descend s₁ e.key (Fintype.card P) none (s.root t) =
        .ok (some c.item.addr, none) := descend_hole htree1 hord hcs
    have hlink : ∀ n : BtreeNode P T K D, n.key = c.item.key →
        (if e.key < n.key then { n with left := some e.addr }
          else if n.key < e.key then { n with right := some e.addr }
          else n) = setChild c (some e.addr) n := by
      intro n hn
      have hturn := hcs c (by simp)
      cases c with
      | left a r' =>
        have hlt : e.key < n.key := by
          rw [hn]
          exact hturn
        simp [setChild, hlt]
      | right l' a =>
        have hlt : n.key < e.key := by
          rw [hn]
          exact hturn
        simp [setChild, hlt, hlt.not_gt]
    let s₂ := s₁.write e.addr { s₁.node e.addr with parent := some c.item.addr }
    have hc2 : s₂.node c.item.addr = s.node c.item.addr := by simp [s₂, s₁, hce]
    let s3 := s₂.write c.item.addr (setChild c (some e.addr) (s₂.node c.item.addr))
    have hrun : btreeInsertNode s t e.addr = insertDone s3 t e.addr := by
      have hcs2 := hlink (s₂.node c.item.addr) (by rw [hc2, hckey])
      simp only [btreeInsertNode, Btrees.modify_live hlive, ok_bind, Btrees.write_root, hroot,
        if_false]
      rw [Btrees.read_live (s := s₁) hlive, ok_bind]
      have hkey1 : (s₁.node e.addr).key = e.key := by simp [s₁, hnode]
      rw [hkey1, hdescend, ok_bind]
      simp only
      rw [Btrees.modify_live (s := s₁) hlive, ok_bind, Btrees.modify_live (s := s₂) hclive,
        ok_bind, hcs2]
    refine ⟨_, hrun.trans (insertDone_live hlive), ⟨?_, ?_⟩, ?_, ?_, ?_⟩
    · rw [plug_cons, top_plug (show top (c.fill (.node e l r)) = top (c.fill .nil) by simp)]
      exact htree.root
    · refine shape_plug.2 ⟨?_, ?_, hl.congr ?_, hr.congr ?_⟩
      · refine hshape.1.rehook ⟨?_, rfl, ?_⟩ ?_
        · simp [s3, hc2, hce]
        · intro a ha hac
          exact ⟨by simp [s3, s₂, s₁, hac, hne a ha], rfl⟩
        · intro a ha
          exact hapart.crumb (ha.imp_right .inl)
      · exact ⟨hlive, by simp [s3, s₂, s₁, hce.symm, hnode, parentOf]⟩
      · intro a ha
        exact ⟨by simp [s3, s₂, s₁, hbelow a (.inl ha), hcbelow a (.inl ha)], rfl⟩
      · intro a ha
        exact ⟨by simp [s3, s₂, s₁, hbelow a (.inr ha), hcbelow a (.inr ha)], rfl⟩
    · rfl
    · simp [s3, s₂, s₁]
    · intro q hq haround
      have hqc : q ≠ c.item.addr := haround _ (mem_around_cons.2 (.inl rfl))
      simp [s3, s₂, s₁, hq, hqc]

end Insert

/-! ## Deleting -/

section Delete

variable [DecidableEq P] [DecidableEq T] {s : Btrees P T K D} {t : T}

variable {cs : List (Crumb (Item P K D))}

omit [LinearOrder K] [DecidableEq P] [DecidableEq T] in
theorem item_mem_around {c : Crumb (Item P K D)}
    (hc : c ∈ cs) : c.item ∈ around cs := by
  induction cs with
  | nil => simp at hc
  | cons d cs ih =>
    rcases List.mem_cons.1 hc with rfl | hc
    · exact mem_around_cons.2 (.inl rfl)
    · exact mem_around_cons.2 (.inr (.inr (ih hc)))

omit [LinearOrder K] in
theorem unhook_spec {e : Item P K D}
    {l r : BinaryTree (Item P K D)} (htree : IsTree s t (plug cs (.node e l r)))
    (hapart : Apart (inorder (plug cs (.node e l r)))) :
    ∃ s', unhook s t e.addr (parentOf cs) = .ok s' ∧ IsTree s' t (plug cs .nil) ∧
      s'.live = s.live ∧ s'.nrNodes = s.nrNodes ∧
      ∀ q, (∀ a ∈ around cs, q ≠ a.addr) → s'.node q = s.node q := by
  cases cs with
  | nil =>
    have hroot : s.root t = some e.addr := htree.root
    refine ⟨s.setRoot t none, by simp [unhook, hroot], ⟨by simp, trivial⟩, rfl, rfl, ?_⟩
    intro q _
    rfl
  | cons c cs =>
    have hshape := shape_plug.1 htree.shape
    rcases hshape.1.stored with ⟨hclive, _⟩
    -- The node is below the root, and it is not the other child of its parent.
    have hroot : s.root t ≠ some e.addr := by
      rcases top_plug_cons c cs (.node e l r) with ⟨d, hd, htop⟩
      rw [htree.root, htop]
      intro heq
      exact hapart.around (item_mem_around hd) (by simp) (Option.some.inj heq)
    have hsib : ∀ a ∈ inorder (sibling c), a.addr ≠ e.addr := fun a ha =>
      hapart.around (mem_around_cons.2 (.inr (.inl ha))) (by simp)
    have hrun : unhook s t e.addr (parentOf (c :: cs)) =
        .ok (s.write c.item.addr (setChild c none (s.node c.item.addr))) := by
      simp only [unhook, if_neg hroot, parentOf, Btrees.read_live hclive, ok_bind,
        Btrees.modify_live hclive]
      cases c with
      | left a r' =>
        have hother : top r' ≠ some e.addr := by
          cases r' with
          | nil => simp
          | node b l'' r'' => simpa using hsib b (by simp [sibling])
        have hnode := hshape.1.1.node
        simp only [Crumb.item, hnode, top_node, if_neg hother, if_true, setChild]
      | right l' a =>
        have hnode := hshape.1.1.node
        simp only [Crumb.item, hnode, top_node, if_true, setChild]
    refine ⟨_, hrun, ⟨?_, ?_⟩, rfl, rfl, ?_⟩
    · rw [plug_cons, top_plug (show top (c.fill .nil) = top (c.fill (.node e l r)) by simp)]
      exact htree.root
    · refine shape_plug.2 ⟨?_, trivial⟩
      refine hshape.1.rehook ⟨by simp, rfl, ?_⟩ ?_
      · intro a _ hac
        exact ⟨by simp [hac], rfl⟩
      · intro a ha
        exact hapart.crumb (ha.imp_right .inl)
    · intro q hq
      have hqc := hq _ (mem_around_cons.2 (.inl rfl))
      simp [hqc]

omit [LinearOrder K] [DecidableEq T] in
theorem setData_spec {e : Item P K D}
    {l r : BinaryTree (Item P K D)} (htree : IsTree s t (plug cs (.node e l r)))
    (hapart : Apart (inorder (plug cs (.node e l r)))) (data : D) :
    IsTree (s.write e.addr { s.node e.addr with data := data }) t
      (plug cs (.node { e with data := data } l r)) := by
  rcases shape_plug.1 htree.shape with ⟨haround, hstored, hl, hr⟩
  refine ⟨?_, shape_plug.2 ⟨?_, ⟨hstored.live, ?_⟩, hl.congr ?_, hr.congr ?_⟩⟩
  · rw [top_plug (show top (.node { e with data := data } l r) = top (.node e l r) from rfl)]
    exact htree.root
  · refine haround.congr ?_
    intro a ha
    have hae : a.addr ≠ e.addr := hapart.around ha (by simp)
    exact ⟨by simp [hae], rfl⟩
  · simp [hstored.node]
  · intro a ha
    exact ⟨by simp [hapart.part.node (.inl ha)], rfl⟩
  · intro a ha
    exact ⟨by simp [hapart.part.node (.inr ha)], rfl⟩

variable [Fintype P]

theorem reinsert_spec {g : BinaryTree (Item P K D)}
    (htree : IsTree s t (plug cs .nil)) (hord : Ordered Item.key (plug cs g))
    (hloose : Loose s t g) (hapart : Apart (inorder (plug cs g)))
    (hcount : g ≠ .nil → 0 < s.nrNodes t) :
    ∃ s', reinsert s t (top g) = .ok s' ∧ IsTree s' t (plug cs g) ∧ s'.live = s.live ∧
      s'.nrNodes t = s.nrNodes t ∧
      ∀ q, (∀ a ∈ inorder (plug cs g), q ≠ a.addr) → s'.node q = s.node q := by
  cases g with
  | nil => exact ⟨s, rfl, htree, rfl, rfl, fun _ _ => rfl⟩
  | node e l r =>
    have hpos := hcount (by simp)
    have htree' : IsTree (s.setNrNodes t (s.nrNodes t - 1)) t (plug cs .nil) :=
      htree.congr rfl fun _ _ => ⟨rfl, rfl⟩
    have hloose' : Loose (s.setNrNodes t (s.nrNodes t - 1)) t (.node e l r) :=
      hloose.congr fun _ _ => ⟨rfl, rfl⟩
    have hcs : Leads Item.key e.key cs := hord.leads (a := e) (by simp)
    rcases insertNode_spec htree' (hord.sublist (by simp)) hloose' hcs hapart with
      ⟨s', hrun, hnew, hlive, hnr, hframe⟩
    refine ⟨s', ?_, hnew, hlive, ?_, ?_⟩
    · simp only [reinsert, top_node, hrun, ok_bind]
      rfl
    · rw [hnr]
      simp only [Btrees.setNrNodes_nrNodes, Function.update_self]
      omega
    · intro q hq
      refine hframe q ?_ ?_
      · exact hq e (mem_inorder_plug.2 (.inr (by simp)))
      · exact fun a ha => hq a (mem_inorder_plug.2 (.inl ha))

end Delete

end Btree
end Ds
end XytherOS
