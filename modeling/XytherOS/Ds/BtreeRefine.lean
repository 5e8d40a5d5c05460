import XytherOS.Ds.BtreeShape

/-!
# BtreeRefine — binary trees are finite maps

A tree is a finite map from keys to data; `listCall` says what each call does to the entries of the
map, in whatever order they are listed.  Deletion takes a node out and links its two subtrees in
again: `deleteNode_spec` shows that this changes one place of the tree only, and that is why a flush
can delete the nodes of a subtree while it walks through it.
-/

namespace XytherOS
namespace Ds
namespace Btree

open Function SearchTree

variable {P T K D : Type} [LinearOrder K] [DecidableEq P] [DecidableEq T] [Fintype P]

section Delete

variable {s : Btrees P T K D} {t : T}

theorem deleteNode_spec {cs : List (Crumb (Item P K D))} {e : Item P K D}
    {l r : BinaryTree (Item P K D)} (htree : IsTree s t (plug cs (.node e l r)))
    (hord : Ordered Item.key (plug cs (.node e l r)))
    (hcount : s.nrNodes t = (inorder (plug cs (.node e l r))).length) :
    ∃ s' g, btreeDeleteNode s t (some e.addr) = .ok s' ∧ IsTree s' t (plug cs g) ∧
      inorder g = inorder l ++ inorder r ∧ (l = .nil → g = r) ∧
      s'.live = update s.live e.addr false ∧
      s'.nrNodes t = (inorder (plug cs g)).length := by
  have hapart := htree.apart hord
  rcases shape_plug.1 htree.shape with ⟨_, hstored, hl, hr⟩
  have hbelow : ∀ a, a ∈ inorder l ∨ a ∈ inorder r → a.addr ≠ e.addr :=
    fun a ha => hapart.part.node ha
  have hout : ∀ a, a ∈ inorder l ∨ a ∈ inorder r → ∀ b ∈ around cs, a.addr ≠ b.addr := by
    intro a ha b hb
    exact (hapart.around hb (by rcases ha with ha | ha <;> simp [ha])).symm
  rcases unhook_spec htree hapart with ⟨s₁, hunhook, htree1, hlive1, hnr1, hframe1⟩
  let s₂ := (s₁.btreeFreeNode e.addr).setNrNodes t ((s₁.btreeFreeNode e.addr).nrNodes t - 1)
  have hlive2 : s₂.live = update s.live e.addr false := by simp [s₂, hlive1]
  have hnr2 : s₂.nrNodes t = s.nrNodes t - 1 := by simp [s₂, hnr1]
  have hsame2 : ∀ a, a ∈ inorder l ∨ a ∈ inorder r → Same s s₂ a := by
    intro a ha
    exact ⟨hframe1 _ (hout a ha), by simp [hlive2, hbelow a ha]⟩
  have htree2 : IsTree s₂ t (plug cs .nil) := by
    refine htree1.congr rfl ?_
    intro a ha
    have ha' : a ∈ around cs := (mem_inorder_plug.1 ha).resolve_right (by simp)
    have hae : a.addr ≠ e.addr := hapart.around ha' (by simp)
    exact ⟨rfl, by simp [s₂, hae]⟩
  have hlen : s.nrNodes t = (before cs).length + ((inorder l).length + ((inorder r).length + 1)) +
      (after cs).length := by
    rw [hcount, inorder_plug]
    simp
    omega
  -- The right subtree goes back to the place of the node.
  have hsubr : (inorder r).Sublist (inorder (.node e l r)) := by simp
  have hordr := hord.sublist hsubr
  have hapartr := hapart.sublist
    (show (inorder (plug cs r)).Sublist (inorder (plug cs (.node e l r))) by
      simp only [inorder_plug]
      exact (hsubr.append_left _).append_right _)
  have hposr : r ≠ .nil → 0 < s₂.nrNodes t := by
    intro hne
    have hrlen : 0 < (inorder r).length := List.length_pos_iff.2 fun h => hne (inorder_eq_nil.1 h)
    omega
  rcases reinsert_spec htree2 hordr (hr.loose.congr fun a ha => hsame2 a (.inr ha)) hapartr hposr
    with ⟨s3, hrunr, htree3, hlive3, hnr3, hframe3⟩
  have hstart : btreeDeleteNode s t (some e.addr) = reinsert s3 t (top l) := by
    simp only [btreeDeleteNode, read_stored hstored, hunhook, ok_bind]
    rw [hrunr, ok_bind]
  cases l with
  | nil =>
    refine ⟨s3, r, hstart, htree3, by simp, fun _ => rfl, hlive3.trans hlive2, ?_⟩
    rw [hnr3, hnr2, hlen, inorder_plug]
    simp
    omega
  | node a l' r' =>
    -- The left subtree goes to the left end of the right one.
    have hmem : a ∈ inorder (.node a l' r') := by simp
    rcases hord.part.left_end hmem with ⟨ds, hds, -, hbefore⟩
    have hin : inorder (plug ds (.node a l' r')) = inorder (.node a l' r') ++ inorder r := by
      rw [hds, inorder_plug, inorder_plug, hbefore]
      simp
    have hsub : (inorder (plug ds (.node a l' r'))).Sublist
        (inorder (.node e (.node a l' r') r)) := by
      rw [hin, inorder_node (a := e)]
      exact (List.sublist_cons_self _ _).append_left _
    have htree3' : IsTree s3 t (plug (ds ++ cs) .nil) := by
      rw [plug_append, ← hds]
      exact htree3
    have hord3 : Ordered Item.key (plug (ds ++ cs) (.node a l' r')) := by
      rw [plug_append]
      exact hord.sublist hsub
    have hapart3 : Apart (inorder (plug (ds ++ cs) (.node a l' r'))) := by
      rw [plug_append]
      refine hapart.sublist ?_
      rw [inorder_plug cs, inorder_plug cs]
      exact (hsub.append_left _).append_right _
    have hloose3 : Loose s3 t (.node a l' r') := by
      refine hl.loose.congr ?_
      intro b hb
      have hsame := hsame2 b (.inl hb)
      refine ⟨(hframe3 _ ?_).trans hsame.node, ?_⟩
      · intro c hc
        rcases mem_inorder_plug.1 hc with hc | hc
        · exact hout b (.inl hb) c hc
        · have hpart := hapart.part
          rw [Apart, inorder_node (a := e)] at hpart
          exact (List.pairwise_append.1 hpart).2.2 b hb c (List.mem_cons_of_mem _ hc)
      · rw [hlive3]
        exact hsame.live
    have hposl : (.node a l' r' : BinaryTree (Item P K D)) ≠ .nil → 0 < s3.nrNodes t := by
      intro _
      rw [hnr3, hnr2, hlen]
      simp
      omega
    rcases reinsert_spec htree3' hord3 hloose3 hapart3 hposl with
      ⟨s4, hrunl, htree4, hlive4, hnr4, -⟩
    refine ⟨s4, plug ds (.node a l' r'), hstart.trans hrunl, ?_, hin, by simp, ?_, ?_⟩
    · rw [← plug_append]
      exact htree4
    · rw [hlive4, hlive3, hlive2]
    · rw [hnr4, hnr3, hnr2, hlen, inorder_plug cs, hin]
      simp
      omega

theorem flushNode_spec {g : BinaryTree (Item P K D)} :
    ∀ {s : Btrees P T K D} {cs : List (Crumb (Item P K D))} {n : Nat},
      IsTree s t (plug cs g) → Ordered Item.key (plug cs g) →
      s.nrNodes t = (inorder (plug cs g)).length → (inorder g).length ≤ n →
      ∃ s', btreeFlushNode n s (top g) = .ok s' ∧ IsTree s' t (plug cs .nil) ∧
        s'.nrNodes t = (inorder (plug cs .nil)).length ∧
        ∀ p, s'.live p = true ↔ s.live p = true ∧ ∀ a ∈ inorder g, p ≠ a.addr := by
  induction g with
  | nil =>
    intro s cs n htree _ hcount _
    refine ⟨s, ?_, htree, hcount, by simp⟩
    cases n <;> rfl
  | node e l r ihl ihr =>
    intro s cs n htree hord hcount hn
    cases n with
    | zero => simp at hn
    | succ n =>
      have hlen : (inorder l).length + (inorder r).length ≤ n := by
        simp only [inorder_node, List.length_append, List.length_cons] at hn
        omega
      have hstored := (shape_plug.1 htree.shape).2.1
      -- First the left subtree, at its place below the node.
      have hleft : IsTree s t (plug (.left e r :: cs) l) := htree
      rcases ihl (n := n) hleft hord hcount (by omega) with
        ⟨s₁, hrun1, htree1, hcount1, hlive1⟩
      have hord1 : Ordered Item.key (plug cs (.node e .nil r)) :=
        hord.sublist (by simp)
      have hmid : IsTree s₁ t (plug cs (.node e .nil r)) := htree1
      have hstored1 := (shape_plug.1 hmid.shape).2.1
      -- Without a left subtree, the right one takes the place of the deleted node.
      rcases deleteNode_spec hmid hord1 hcount1 with
        ⟨s₂, g, hrun2, htree2, _, hg, hlive2, hcount2⟩
      have hgr : g = r := hg rfl
      subst hgr
      have hord2 : Ordered Item.key (plug cs g) := hord1.sublist (by simp)
      rcases ihr (n := n) htree2 hord2 hcount2 (by omega) with
        ⟨s3, hrun3, htree3, hcount3, hlive3⟩
      refine ⟨s3, ?_, htree3, hcount3, ?_⟩
      · simp only [top_node, btreeFlushNode, read_stored hstored, ok_bind, hrun1,
          read_stored hstored1, hrun2, hrun3]
      · intro p
        rw [hlive3, hlive2]
        by_cases hp : p = e.addr
        · subst hp
          refine ⟨fun h => by simp at h, ?_⟩
          intro h
          exact absurd rfl (h.2 e (by simp))
        · simp [hp, hlive1, or_imp, forall_and, and_assoc]

end Delete

/-! ## The finite map -/

section Lists

omit [DecidableEq T] [Fintype P]

def firstBy (le : K → K → Prop) [DecidableRel le] (l : List (Item P K D)) :
    Option (Item P K D) :=
  l.find? fun e => l.all fun a => decide (le e.key a.key)

def listCall (l : List (Item P K D)) : BCall P K D → Reply D × List (Item P K D)
  | .insert key data place =>
    match place.filter fun p => decide (p ∉ l.map Item.addr) with
    | none => (⟨.err .ENOMEM, none⟩, l)
    | some p =>
      if key ∈ l.map Item.key then (⟨.err .EEXIST, none⟩, l)
      else (⟨.ok, none⟩, ⟨p, key, data⟩ :: l)
  | .delete key => (⟨.ok, none⟩, l.filter fun e => decide (e.key ≠ key))
  | .deleteNode node => (⟨.ok, none⟩, l.filter fun e => decide (e.addr ≠ node))
  | .flush => (⟨.ok, none⟩, [])
  | .search key =>
    match l.find? fun e => decide (e.key = key) with
    | none => (⟨.err .ENOENT, none⟩, l)
    | some e => (⟨.ok, some e.data⟩, l)
  | .least => (⟨.ok, (firstBy (· ≤ ·) l).map Item.data⟩, l)
  | .largest => (⟨.ok, (firstBy (· ≥ ·) l).map Item.data⟩, l)

def listRun (l : List (Item P K D)) : List (BCall P K D) → List (Reply D) × List (Item P K D)
  | [] => ([], l)
  | c :: cs =>
    ((listCall l c).1 :: (listRun (listCall l c).2 cs).1, (listRun (listCall l c).2 cs).2)

/-- Only `btree_delete_node` asks something of its caller: the node is in the tree. -/
def Allowed (l : List (Item P K D)) : BCall P K D → Prop
  | .deleteNode node => node ∈ l.map Item.addr
  | _ => True

def AllowedRun (l : List (Item P K D)) : List (BCall P K D) → Prop
  | [] => True
  | c :: cs => Allowed l c ∧ AllowedRun (listCall l c).2 cs

instance (l : List (Item P K D)) : (c : BCall P K D) → Decidable (Allowed l c)
  | .deleteNode node => inferInstanceAs (Decidable (node ∈ l.map Item.addr))
  | .insert _ _ _ => isTrue trivial
  | .delete _ => isTrue trivial
  | .flush => isTrue trivial
  | .search _ => isTrue trivial
  | .least => isTrue trivial
  | .largest => isTrue trivial

instance decidableAllowedRun :
    (l : List (Item P K D)) → (cs : List (BCall P K D)) → Decidable (AllowedRun l cs)
  | _, [] => isTrue trivial
  | l, c :: cs =>
    have := decidableAllowedRun (listCall l c).2 cs
    inferInstanceAs (Decidable (Allowed l c ∧ AllowedRun (listCall l c).2 cs))

end Lists

/-- The memory holds the tree `g` at `t`, and its entries are those of the map. -/
structure Holds (s : Btrees P T K D) (t : T) (g : BinaryTree (Item P K D))
    (l : List (Item P K D)) : Prop where
  tree : IsTree s t g
  ordered : Ordered Item.key g
  count : s.nrNodes t = (inorder g).length
  live : ∀ p, s.live p = true ↔ p ∈ (inorder g).map Item.addr
  entries : (inorder g).Perm l

omit [DecidableEq P] [DecidableEq T] [Fintype P] in
theorem holds_init (memory : P → BtreeNode P T K D) (t : T) :
    Holds (btreeInit memory) t .nil [] where
  tree := ⟨rfl, trivial⟩
  ordered := List.Pairwise.nil
  count := rfl
  live p := by simp [btreeInit]
  entries := List.Perm.refl _

section Calls

variable {s : Btrees P T K D} {t : T} {g : BinaryTree (Item P K D)} {l : List (Item P K D)}

omit [DecidableEq P] [DecidableEq T] [Fintype P] in
theorem Holds.key_mem (h : Holds s t g l) {key : K} :
    key ∈ l.map Item.key ↔ ∃ e ∈ inorder g, e.key = key := by
  rw [← (h.entries.map Item.key).mem_iff, List.mem_map]

omit [DecidableEq P] [DecidableEq T] [Fintype P] in
theorem Holds.addr_mem (h : Holds s t g l) (p : P) :
    p ∈ l.map Item.addr ↔ s.live p = true := by
  rw [h.live, (h.entries.map Item.addr).mem_iff]

variable {e : Item P K D} {cs : List (Crumb (Item P K D))} {l' r : BinaryTree (Item P K D)} {p : P}

omit [LinearOrder K] [DecidableEq P] [DecidableEq T] [Fintype P] in
theorem filter_place
    {g' : BinaryTree (Item P K D)} {keep : Item P K D → Bool}
    (hg' : inorder g' = inorder l' ++ inorder r) (he : keep e = false)
    (hrest : ∀ a ∈ inorder (plug cs (.node e l' r)), a ≠ e → keep a = true)
    (hnd : (inorder (plug cs (.node e l' r))).Nodup) :
    (inorder (plug cs (.node e l' r))).filter keep = inorder (plug cs g') := by
  have hsplit : inorder (plug cs (.node e l' r)) =
      (before cs ++ inorder l') ++ e :: (inorder r ++ after cs) := by
    rw [inorder_plug]
    simp
  rw [hsplit] at hrest hnd ⊢
  rcases List.nodup_append.1 hnd with ⟨_, hright, hne⟩
  have hleft : ∀ a ∈ before cs ++ inorder l', keep a = true := by
    intro a ha
    exact hrest a (List.mem_append_left _ ha) (hne a ha e (by simp))
  have hafter : ∀ a ∈ inorder r ++ after cs, keep a = true := by
    intro a ha
    refine hrest a (List.mem_append_right _ (List.mem_cons_of_mem _ ha)) ?_
    rintro rfl
    exact (List.nodup_cons.1 hright).1 ha
  rw [List.filter_append, List.filter_cons_of_neg (by simp [he]), List.filter_eq_self.2 hleft,
    List.filter_eq_self.2 hafter, inorder_plug, hg']
  simp

theorem Holds.deletePlace (h : Holds s t (plug cs (.node e l' r)) l)
    {keep : Item P K D → Bool} (hke : keep e = false)
    (hrest : ∀ a ∈ inorder (plug cs (.node e l' r)), a ≠ e → keep a = true) :
    ∃ s' g', btreeDeleteNode s t (some e.addr) = .ok s' ∧ Holds s' t (plug cs g') (l.filter keep) ∧
      inorder (plug cs g') = (inorder (plug cs (.node e l' r))).filter keep ∧
      (l' = .nil → g' = r) := by
  have he : e ∈ inorder (plug cs (.node e l' r)) := mem_inorder_plug.2 (.inr (by simp))
  rcases deleteNode_spec h.tree h.ordered h.count with
    ⟨s', g', hrun, htree, hin, hnil, hlive, hcount⟩
  have hnd : (inorder (plug cs (.node e l' r))).Nodup :=
    List.Pairwise.imp (fun hne hab => hne (congrArg Item.addr hab)) (h.tree.apart h.ordered)
  have hfilter := filter_place hin hke hrest hnd
  refine ⟨s', g', hrun, ⟨htree, ?_, hcount, ?_, ?_⟩, hfilter.symm, hnil⟩
  · exact h.ordered.sublist (by simp [hin])
  · intro p
    rw [hlive, ← hfilter]
    by_cases hp : p = e.addr
    · -- Every entry that is left has another node.
      subst hp
      refine ⟨fun hq => by simp at hq, ?_⟩
      intro hmem
      rcases List.mem_map.1 hmem with ⟨a, ha, haddr⟩
      rcases List.mem_filter.1 ha with ⟨ha, hkeep⟩
      have hae : a ≠ e := by
        rintro rfl
        simp [hke] at hkeep
      exact absurd (h.tree.eq_of_addr h.ordered ha he haddr) hae
    · rw [update_of_ne hp, h.live]
      refine ⟨?_, ?_⟩
      · intro hmem
        rcases List.mem_map.1 hmem with ⟨a, ha, rfl⟩
        have hae : a ≠ e := fun hae => hp (by rw [hae])
        exact List.mem_map_of_mem (List.mem_filter.2 ⟨ha, hrest a ha hae⟩)
      · intro hmem
        rcases List.mem_map.1 hmem with ⟨a, ha, rfl⟩
        exact List.mem_map_of_mem (List.mem_filter.1 ha).1
  · rw [← hfilter]
    exact h.entries.filter _

omit [LinearOrder K] [DecidableEq P] [DecidableEq T] [Fintype P] in
theorem mem_place {a : Item P K D} :
    a ∈ inorder (plug cs (.node e l' r)) ↔
      a = e ∨ a ∈ around cs ∨ a ∈ inorder l' ∨ a ∈ inorder r := by
  rw [mem_inorder_plug, inorder_node, List.mem_append, List.mem_cons]
  tauto

omit [DecidableEq T] [Fintype P] in
theorem Holds.setData (h : Holds s t (plug cs (.node e l' r)) l) (data : D) :
    Holds (s.write e.addr { s.node e.addr with data := data }) t
      (plug cs (.node { e with data := data } l' r))
      (inorder (plug cs (.node { e with data := data } l' r))) := by
  have hkeys : (inorder (plug cs (.node { e with data := data } l' r))).map Item.key =
      (inorder (plug cs (.node e l' r))).map Item.key := by
    simp [inorder_plug]
  have haddrs : (inorder (plug cs (.node { e with data := data } l' r))).map Item.addr =
      (inorder (plug cs (.node e l' r))).map Item.addr := by
    simp [inorder_plug]
  refine ⟨setData_spec h.tree (h.tree.apart h.ordered) data, ?_, ?_, ?_, List.Perm.refl _⟩
  · have hord := h.ordered
    rw [Ordered, ← List.pairwise_map (f := Item.key)] at hord ⊢
    rw [hkeys]
    exact hord
  · have hlen := congrArg List.length hkeys
    simp only [List.length_map] at hlen
    rw [hlen]
    exact h.count
  · intro p
    rw [haddrs]
    exact h.live p

theorem Holds.deleteNode (h : Holds s t g l) (he : e ∈ inorder g)
    {keep : Item P K D → Bool} (hke : keep e = false)
    (hrest : ∀ a ∈ inorder g, a ≠ e → keep a = true) :
    ∃ s' g', btreeDeleteNode s t (some e.addr) = .ok s' ∧ Holds s' t g' (l.filter keep) := by
  rcases exists_place he with ⟨cs, l', r, rfl⟩
  rcases h.deletePlace hke hrest with ⟨s', g', hrun, hholds, -, -⟩
  exact ⟨s', plug cs g', hrun, hholds⟩

omit [DecidableEq T] [Fintype P] in
theorem Holds.alloc (h : Holds s t g l) (hp : s.live p = false) (key : K) (data : D) :
    ∃ s₁, s.btreeAllocNode (some p) key data = some (p, s₁) ∧ IsTree s₁ t g ∧
      s₁.live = update s.live p true ∧ s₁.nrNodes = s.nrNodes ∧
      s₁.node p = ⟨key, data, none, none, none, none⟩ ∧ ∀ a ∈ inorder g, a.addr ≠ p := by
  have hne : ∀ a ∈ inorder g, a.addr ≠ p := by
    rintro a ha rfl
    rw [(h.tree.shape.stored ha).1] at hp
    exact absurd hp (by simp)
  refine ⟨{ s.write p ⟨key, data, none, none, none, none⟩ with
    live := update s.live p true }, by simp [Btrees.btreeAllocNode, hp], ?_, rfl, rfl,
    by simp, hne⟩
  exact h.tree.congr rfl fun a ha => ⟨by simp [hne a ha], by simp [hne a ha]⟩

theorem Holds.insert_present (h : Holds s t g l) (hp : s.live p = false) {key : K}
    (data : D) (hkey : key ∈ l.map Item.key) :
    ∃ s', btreeInsert s t key data (some p) = .ok (.err .EEXIST, s') ∧ Holds s' t g l := by
  rcases h.alloc hp key data with ⟨s₁, halloc, htree, hlive, hnr, hnode, hne⟩
  rcases h.key_mem.1 hkey with ⟨e, he, hek⟩
  rcases exists_place he with ⟨cs, l', r, rfl⟩
  have hlive1 : s₁.live p = true := by simp [hlive]
  let s₂ := s₁.write p { s₁.node p with parent := none }
  have htree2 : IsTree s₂ t (plug cs (.node e l' r)) :=
    htree.congr rfl fun a ha => ⟨by simp [s₂, hne a ha], rfl⟩
  have hleads : Leads Item.key key cs := hek ▸ h.ordered.leads (t := .node e l' r) (by simp)
  have hfound : descend s₂ key (Fintype.card P) none (s₁.root t) =
      .ok (parentOf cs, some e.addr) := descend_found htree2 h.ordered hleads hek
  have hroot : s₁.root t ≠ none := by
    rw [htree.root]
    cases cs with
    | nil => simp
    | cons c cs =>
      rcases top_plug_cons c cs (.node e l' r) with ⟨d, _, htop⟩
      rw [htop]
      exact Option.some_ne_none _
  have hrun : btreeInsertNode s₁ t p = .ok (.err .EEXIST, s₂) := by
    simp only [btreeInsertNode, Btrees.modify_live hlive1, ok_bind, Btrees.write_root, hroot,
      if_false]
    rw [Btrees.read_live (s := s₂) hlive1, ok_bind]
    have hkey2 : (s₂.node p).key = key := by simp [s₂, hnode]
    rw [hkey2, hfound]
    rfl
  refine ⟨s₂.btreeFreeNode p, ?_, ?_, h.ordered, ?_, ?_, h.entries⟩
  · simp [btreeInsert, halloc, hrun]
  · exact htree2.congr rfl fun a ha => ⟨rfl, by simp [hne a ha]⟩
  · rw [← h.count]
    simp [s₂, hnr]
  · intro q
    rw [← h.live]
    by_cases hq : q = p
    · subst hq
      simp [hp]
    · simp [hq, s₂, hlive]

theorem Holds.insert_new (h : Holds s t g l) (hp : s.live p = false) {key : K}
    (data : D) (hkey : key ∉ l.map Item.key) :
    ∃ s' g', btreeInsert s t key data (some p) = .ok (.ok, s') ∧
      Holds s' t g' (⟨p, key, data⟩ :: l) := by
  rcases h.alloc hp key data with ⟨s₁, halloc, htree, hlive, hnr, hnode, hne⟩
  rcases search_ends Item.key key g with ⟨cs, e, l', r, rfl, hek, _⟩ | ⟨cs, rfl, hleads⟩
  · exact absurd (h.key_mem.2 ⟨e, by simp [inorder_plug], hek⟩) hkey
  · let e : Item P K D := ⟨p, key, data⟩
    have hord : Ordered Item.key (plug cs (.node e .nil .nil)) := h.ordered.insert hleads
    have hsplit : inorder (plug cs (.node e .nil .nil)) = before cs ++ e :: after cs := by
      rw [inorder_plug]
      simp
    have hold : inorder (plug cs (.nil : BinaryTree (Item P K D))) = before cs ++ after cs := by
      rw [inorder_plug]
      simp
    have hapart : Apart (inorder (plug cs (.node e .nil .nil))) := by
      have hapart := h.tree.apart h.ordered
      rw [hold] at hapart hne
      rw [hsplit]
      rcases List.pairwise_append.1 hapart with ⟨hb, ha, hba⟩
      refine List.pairwise_append.2 ⟨hb, List.pairwise_cons.2 ⟨?_, ha⟩, ?_⟩
      · intro a ha' heq
        exact hne a (List.mem_append_right _ ha') heq.symm
      · intro a ha' b hb'
        rcases List.mem_cons.1 hb' with rfl | hb'
        · exact hne a (List.mem_append_left _ ha')
        · exact hba a ha' b hb'
    have hloose : Loose s₁ t (.node e .nil .nil) :=
      ⟨by simp [hlive, e], ⟨none, none, hnode⟩, trivial, trivial⟩
    rcases insertNode_spec htree h.ordered hloose hleads hapart with
      ⟨s', hrun, hnew, hlive', hnr', -⟩
    refine ⟨s', plug cs (.node e .nil .nil), ?_, hnew, hord, ?_, ?_, ?_⟩
    · simp only [btreeInsert, halloc]
      rw [hrun]
      simp
    · rw [hnr', hnr, h.count, hsplit, hold]
      simp
      omega
    · intro q
      rw [hlive', hlive, hsplit]
      have hq := h.live q
      rw [hold] at hq
      by_cases hqp : q = p
      · subst hqp
        simp [e]
      · rw [update_of_ne hqp, hq]
        simp [e, hqp]
    · rw [hsplit]
      exact List.perm_middle.trans ((hold ▸ h.entries).cons e)

theorem Holds.search (h : Holds s t g l) (key : K) :
    call s t (.search key) = .ok ((listCall l (.search key)).1, s) := by
  cases hf : l.find? fun e => decide (e.key = key) with
  | none =>
    have hno : ∀ e ∈ inorder g, e.key ≠ key := by
      intro e he hek
      exact absurd (List.find?_eq_none.1 hf e (h.entries.mem_iff.1 he)) (by simp [hek])
    simp [call, search_none h.tree h.ordered hno, listCall, hf]
  | some e =>
    have he : e ∈ inorder g := h.entries.mem_iff.2 (List.mem_of_find?_eq_some hf)
    have hek : e.key = key := by simpa using List.find?_some hf
    have hsearch := search_some h.tree h.ordered he
    rw [hek] at hsearch
    simp [call, hsearch, listCall, hf]

omit [DecidableEq P] [DecidableEq T] [Fintype P] in
theorem Holds.firstBy_eq (h : Holds s t g l) (le : K → K → Prop) [DecidableRel le]
    (hanti : ∀ a b, le a b → le b a → a = b) {o : Option (Item P K D)}
    (hnone : o = none → inorder g = [])
    (hsome : ∀ a, o = some a → a ∈ inorder g ∧ ∀ b ∈ inorder g, le a.key b.key) :
    firstBy le l = o := by
  cases o with
  | none =>
    have hl : l = [] := by
      have hperm := h.entries
      rw [hnone rfl] at hperm
      exact hperm.nil_eq.symm
    simp [firstBy, hl]
  | some a =>
    rcases hsome a rfl with ⟨ha, hle⟩
    have hal : a ∈ l := h.entries.mem_iff.1 ha
    have hpass : l.all (fun b => decide (le a.key b.key)) = true := by
      rw [List.all_eq_true]
      intro b hb
      simpa using hle b (h.entries.mem_iff.2 hb)
    cases hf : firstBy le l with
    | none => exact absurd hpass (List.find?_eq_none.1 hf a hal)
    | some b =>
      have hb : b ∈ inorder g := h.entries.mem_iff.2 (List.mem_of_find?_eq_some hf)
      have hba : le b.key a.key := by
        have hall := List.find?_some hf
        rw [List.all_eq_true] at hall
        simpa using hall a hal
      rw [eq_of_key h.ordered hb ha (hanti _ _ hba (hle b hb))]

omit [DecidableEq P] [DecidableEq T] in
theorem Holds.least (h : Holds s t g l) :
    btreeLeast s t = .ok ((firstBy (· ≤ ·) l).map Item.data) := by
  rw [least_spec h.tree h.ordered]
  have hfirst : firstBy (· ≤ ·) l = (inorder g).head? := by
    refine h.firstBy_eq _ (fun a b => le_antisymm) (fun hn => List.head?_eq_none_iff.1 hn) ?_
    intro a ha
    rcases List.head?_eq_some_iff.1 ha with ⟨as, has⟩
    have hord := h.ordered
    rw [Ordered, has] at hord
    refine ⟨by simp [has], ?_⟩
    intro b hb
    rw [has] at hb
    rcases List.mem_cons.1 hb with rfl | hb
    · exact le_refl _
    · exact ((List.pairwise_cons.1 hord).1 b hb).le
  rw [hfirst]

omit [DecidableEq P] [DecidableEq T] in
theorem Holds.largest (h : Holds s t g l) :
    btreeLargest s t = .ok ((firstBy (· ≥ ·) l).map Item.data) := by
  rw [largest_spec h.tree h.ordered]
  have hlast : firstBy (· ≥ ·) l = (inorder g).getLast? := by
    refine h.firstBy_eq _ (fun a b hab hba => le_antisymm hba hab)
      (fun hn => List.getLast?_eq_none_iff.1 hn) ?_
    intro a ha
    rcases List.getLast?_eq_some_iff.1 ha with ⟨as, has⟩
    have hord := h.ordered
    rw [Ordered, has] at hord
    refine ⟨by simp [has], ?_⟩
    intro b hb
    rw [has] at hb
    rcases List.mem_append.1 hb with hb | hb
    · exact ((List.pairwise_append.1 hord).2.2 b hb a (by simp)).le
    · rw [List.mem_singleton.1 hb]
  rw [hlast]

theorem call_refines (h : Holds s t g l) (c : BCall P K D) (hc : Allowed l c) :
    ∃ s' g', call s t c = .ok ((listCall l c).1, s') ∧ Holds s' t g' (listCall l c).2 := by
  cases c with
  | insert key data place =>
    cases place with
    | none => exact ⟨s, g, by simp [call, btreeInsert, Btrees.btreeAllocNode, listCall], h⟩
    | some p =>
      cases hp : s.live p with
      | true =>
        have hmem := (h.addr_mem p).2 hp
        refine ⟨s, g, ?_, ?_⟩
        · simp [call, btreeInsert, Btrees.btreeAllocNode, hp, listCall, Option.filter, hmem]
        · simpa [listCall, Option.filter, hmem] using h
      | false =>
        have hmem : p ∉ l.map Item.addr := by
          rw [h.addr_mem, hp]
          simp
        by_cases hkey : key ∈ l.map Item.key
        · rcases h.insert_present hp data hkey with ⟨s', hrun, hholds⟩
          refine ⟨s', g, ?_, ?_⟩
          · simp only [call, hrun, ok_bind, listCall, Option.filter, hmem, hkey, if_true,
              not_false_eq_true, decide_true]
            rfl
          · simpa only [listCall, Option.filter, hmem, hkey, if_true, not_false_eq_true,
              decide_true] using hholds
        · rcases h.insert_new hp data hkey with ⟨s', g', hrun, hholds⟩
          refine ⟨s', g', ?_, ?_⟩
          · simp only [call, hrun, ok_bind, listCall, Option.filter, hmem, hkey, if_true,
              if_false, not_false_eq_true, decide_true]
            rfl
          · simpa only [listCall, Option.filter, hmem, hkey, if_true, if_false,
              not_false_eq_true, decide_true] using hholds
  | delete key =>
    by_cases hkey : ∃ e ∈ inorder g, e.key = key
    · rcases hkey with ⟨e, he, rfl⟩
      have hrest : ∀ a ∈ inorder g, a ≠ e → decide (a.key ≠ e.key) = true := by
        intro a ha hae
        exact decide_eq_true fun hk => hae (eq_of_key h.ordered ha he hk)
      rcases h.deleteNode he (by simp) hrest with ⟨s', g', hrun, hholds⟩
      refine ⟨s', g', ?_, hholds⟩
      simp [call, btreeDelete, lookup_some h.tree h.ordered he, hrun, listCall]
    · -- Nothing has the key: nothing is deleted.
      have hno : ∀ e ∈ inorder g, e.key ≠ key := fun e he hek => hkey ⟨e, he, hek⟩
      have hkeep : l.filter (fun e => decide (e.key ≠ key)) = l := by
        refine List.filter_eq_self.2 ?_
        intro e he
        simpa using hno e (h.entries.mem_iff.2 he)
      refine ⟨s, g, ?_, ?_⟩
      · simp [call, btreeDelete, lookup_none h.tree h.ordered hno, btreeDeleteNode, listCall]
      · rw [listCall, hkeep]
        exact h
  | deleteNode node =>
    have hnode : node ∈ (inorder g).map Item.addr := by
      rw [← h.live, ← h.addr_mem]
      exact hc
    rcases List.mem_map.1 hnode with ⟨e, he, rfl⟩
    have hrest : ∀ a ∈ inorder g, a ≠ e → decide (a.addr ≠ e.addr) = true := by
      intro a ha hae
      exact decide_eq_true fun hk => hae (h.tree.eq_of_addr h.ordered ha he hk)
    rcases h.deleteNode he (by simp) hrest with ⟨s', g', hrun, hholds⟩
    exact ⟨s', g', by simp [call, hrun, listCall], hholds⟩
  | flush =>
    have htree0 : IsTree s t (plug [] g) := h.tree
    rcases flushNode_spec htree0 h.ordered h.count (h.tree.length_le h.ordered) with
      ⟨s', hrun, htree, hcount, hlive⟩
    refine ⟨s', .nil, ?_, htree, List.Pairwise.nil, hcount, ?_, List.Perm.refl _⟩
    · simp [call, btreeFlush, h.tree.root, hrun, listCall]
    · intro p
      rw [hlive, h.live]
      simp only [List.mem_map, inorder_nil, List.map_nil, List.not_mem_nil, iff_false, not_and]
      rintro ⟨a, ha, rfl⟩ hall
      exact hall a ha rfl
  | search key =>
    refine ⟨s, g, h.search key, ?_⟩
    cases hf : l.find? fun e => decide (e.key = key) <;> simpa [listCall, hf] using h
  | least => exact ⟨s, g, by simp [call, h.least, listCall], h⟩
  | largest => exact ⟨s, g, by simp [call, h.largest, listCall], h⟩

theorem run_refines (h : Holds s t g l) {cs : List (BCall P K D)} (hcs : AllowedRun l cs) :
    ∃ s' g', run s t cs = .ok ((listRun l cs).1, s') ∧ Holds s' t g' (listRun l cs).2 := by
  induction cs generalizing s g l with
  | nil => exact ⟨s, g, rfl, h⟩
  | cons c cs ih =>
    rcases call_refines h c hcs.1 with ⟨s₁, g1, hcall, h₁⟩
    rcases ih h₁ hcs.2 with ⟨s₂, g2, hrun, h₂⟩
    refine ⟨s₂, g2, ?_, h₂⟩
    simp [run, hcall, hrun, listRun]

end Calls

/-- Whatever is in memory, every allowed sequence of calls on an initialised tree returns the
replies of the finite map.  It leaves a search tree: every node holds an entry of the map, points
to its children, to its parent and to the tree, the keys grow from left to right, the count is the
number of nodes, and the nodes in use are the nodes of the tree. -/
theorem btree_refines_map (memory : P → BtreeNode P T K D) (t : T) (cs : List (BCall P K D))
    (hcs : AllowedRun [] cs) :
    ∃ s g, run (btreeInit memory) t cs = .ok ((listRun [] cs).1, s) ∧
      IsTree s t g ∧ Ordered Item.key g ∧ s.nrNodes t = (inorder g).length ∧
      (inorder g).Perm (listRun [] cs).2 ∧
      ∀ p, s.live p = true ↔ p ∈ (inorder g).map Item.addr := by
  rcases run_refines (holds_init memory t) hcs with ⟨s, g, hrun, h⟩
  exact ⟨s, g, hrun, h.tree, h.ordered, h.count, h.entries, h.live⟩

theorem btree_refines_map_flush :
    let cs : List (BCall (Fin 4) Nat Bool) :=
      [.insert 5 true (some 0), .insert 2 false (some 1), .insert 8 true (some 2),
        .insert 2 true (some 3), .insert 9 true (some 2), .deleteNode 0, .search 2, .search 5,
        .least, .largest, .delete 8, .flush, .least]
    ∃ s g, run (btreeInit fun _ => ⟨0, true, some 1, none, some 2, none⟩) () cs =
        .ok
          ([⟨.ok, none⟩, ⟨.ok, none⟩, ⟨.ok, none⟩, ⟨.err .EEXIST, none⟩, ⟨.err .ENOMEM, none⟩,
            ⟨.ok, none⟩, ⟨.ok, some false⟩, ⟨.err .ENOENT, none⟩, ⟨.ok, some false⟩,
            ⟨.ok, some true⟩, ⟨.ok, none⟩, ⟨.ok, none⟩, ⟨.ok, none⟩], s) ∧
      IsTree s () g ∧ (inorder g).Perm [] := by
  intro cs
  have hcs : AllowedRun [] cs := by decide
  rcases btree_refines_map (fun _ => ⟨0, true, some 1, none, some 2, none⟩) () cs hcs with
    ⟨s, g, hrun, htree, _, _, hperm, _⟩
  refine ⟨s, g, ?_, htree, hperm⟩
  rw [hrun]
  rfl

end Btree
end Ds
end XytherOS
