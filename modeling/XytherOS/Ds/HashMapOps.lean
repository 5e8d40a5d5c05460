import XytherOS.Ds.HashMapChain

/-!
# HashMapOps — what the functions of `hashMap.c` do to the entries of a map

An insertion appends to the chain of its hash, or brings a new tree node; a removal takes an entry
out of its chain, and the tree node with it when it was the only one.  The removal is specified at
the place of the tree node, so that a flush can be followed while it deletes the nodes of the tree
it walks through.
-/

namespace XytherOS
namespace Ds
namespace HashMap

open Function Btree SearchTree

variable {E P H K V : Type} [DecidableEq E] [DecidableEq P] [LinearOrder H] [Fintype E] [Fintype P]
  {ctx : HashMapContext H K} {s : HMap E P H K V} {g : BinaryTree (Item P H E)}
  {l : List (HItem E K V)}

/-! ## Updating -/

def setValue [DecidableEq K] (key : K) (value : Option V) (e : HItem E K V) : HItem E K V :=
  if e.key = key then { e with value := value } else e

omit [DecidableEq E] [Fintype E] in
theorem setValue_addr [DecidableEq K] (key : K) (value : Option V) (e : HItem E K V) :
    (setValue key value e).addr = e.addr ∧ (setValue key value e).key = e.key := by
  by_cases he : e.key = key <;> simp [setValue, he]

omit [DecidableEq P] [Fintype E] [Fintype P] in
theorem Holds.setValue [DecidableEq K] (h : Holds ctx s g l) {e : HItem E K V} (he : e ∈ l)
    (value : Option V) :
    Holds ctx { s with entry := update s.entry e.addr { s.entry e.addr with value } } g
      (l.map (setValue e.key value)) := by
  have haddr := setValue_addr (E := E) e.key value
  have hbucket : ∀ k, bucket ctx.hash (l.map (HashMap.setValue e.key value)) k =
      (bucket ctx.hash l k).map (HashMap.setValue e.key value) :=
    bucket_map l _ fun a => (haddr a).2
  have hfirst : ∀ es : List (HItem E K V), first (es.map (HashMap.setValue e.key value)) =
      first es := by
    intro es
    cases es with
    | nil => rfl
    | cons a as => simp [first, (haddr a).1]
  refine ⟨h.tree, ?_, ?_, ?_, ?_, ?_, ?_⟩
  · intro k
    rw [h.buckets, hbucket]
    simp
  · intro i hi
    rw [hbucket, hfirst]
    exact h.heads i hi
  · intro k
    rw [hbucket]
    refine (h.chains k).map _ haddr ?_
    intro a ha
    have hal := (mem_bucket.1 ha).1
    refine ⟨rfl, ?_⟩
    by_cases hae : a = e
    · subst hae
      simp [HashMap.setValue]
    · have hne : a.addr ≠ e.addr := fun heq => hae (h.eq_of_addr hal he heq)
      have hkey : a.key ≠ e.key := fun heq => hae (h.eq_of_key hal he heq)
      simp only [update_of_ne hne, HashMap.setValue, if_neg hkey]
      rw [← (h.stored hal).2.2]
  · simpa using h.size
  · have hkeys : (l.map (HashMap.setValue e.key value)).map HItem.key = l.map HItem.key := by
      rw [List.map_map]
      exact List.map_congr_left fun a _ => (haddr a).2
    rw [hkeys]
    exact h.keys
  · have haddrs : (l.map (HashMap.setValue e.key value)).map HItem.addr = l.map HItem.addr := by
      rw [List.map_map]
      exact List.map_congr_left fun a _ => (haddr a).1
    rw [haddrs]
    exact h.live

/-! ## Inserting -/

omit [DecidableEq E] [Fintype E] in
theorem bucket_single (e : HItem E K V) (k : H) :
    bucket ctx.hash [e] k = if ctx.hash e.key = k then [e] else [] := by
  by_cases he : ctx.hash e.key = k <;> simp [bucket, he]

/-- The memory once `hashEntry_alloc` has filled an entry in. -/
def filled (s : HMap E P H K V) (e : HItem E K V) : HMap E P H K V :=
  { s with
    entry := update s.entry e.addr ⟨e.key, none, e.value⟩
    live := update s.live e.addr true }

section Insert

variable {e : HItem E K V}

structure Outside (s : HMap E P H K V) (l : List (HItem E K V)) (e : HItem E K V) : Prop where
  live : s.live e.addr = true
  key : (s.entry e.addr).key = e.key
  new : ∀ a ∈ l, a.addr ≠ e.addr

theorem Linked.run_tail (h : Linked ctx s g l) (he : Outside s l e) {bs : List (HItem E K V)}
    {x : HItem E K V} (hbs : bucket ctx.hash l (ctx.hash e.key) = bs ++ [x]) (node : Option P) :
    hashMapInsertEntry ctx s e.addr node =
      .ok (.ok, { s with
        entry := update s.entry x.addr { s.entry x.addr with next := some e.addr }
        size := s.size + 1 }) := by
  have hx : x ∈ l := (mem_bucket.1 (show x ∈ bucket ctx.hash l (ctx.hash e.key) by
    rw [hbs]; simp)).1
  have hread : s.read e.addr = .ok (s.entry e.addr) := by simp [HMap.read, he.live]
  have hxread : s.read x.addr = .ok (s.entry x.addr) := by simp [HMap.read, (h.stored hx).1]
  have hseek := seek_none (fun _ _ => false) (h.chains (ctx.hash e.key)) (fun _ _ => rfl) none
    (h.bucket_length_le _)
  have hlast : ((bucket ctx.hash l (ctx.hash e.key)).getLast?.map HItem.addr).or none =
      some x.addr := by
    rw [hbs]
    simp
  rw [hlast] at hseek
  cases hb : bucket ctx.hash l (ctx.hash e.key) with
  | nil =>
    rw [hb] at hbs
    simp at hbs
  | cons a as =>
    have hsearch := h.search_some hb
    rw [hb] at hseek
    have hfirst : first (a :: as) = some a.addr := rfl
    rw [hfirst] at hseek
    simp only [hashMapInsertEntry, hread, he.key, ok_bind, hsearch, hseek, HMap.modify, hxread]
    rfl

variable {p : P} {g' : BinaryTree (Item P H E)}

theorem Linked.run_node (h : Linked ctx s g l) (he : Outside s l e)
    (hk : bucket ctx.hash l (ctx.hash e.key) = []) (hp : s.bucketTree.live p = false) :
    ∃ tree g',
      hashMapInsertEntry ctx s e.addr (some p) =
        .ok (.ok, { s with bucketTree := tree, size := s.size + 1 }) ∧
      Btree.Holds tree () g' (⟨p, ctx.hash e.key, e.addr⟩ :: inorder g) := by
  have hno : ctx.hash e.key ∉ (inorder g).map Item.key := fun hmem => (h.buckets _).1 hmem hk
  rcases h.tree.insert_new hp e.addr hno with ⟨tree, g', hinsert, htree⟩
  refine ⟨tree, g', ?_, htree⟩
  have hread : s.read e.addr = .ok (s.entry e.addr) := by simp [HMap.read, he.live]
  simp only [hashMapInsertEntry, hread, he.key, ok_bind, h.search_none hk, hinsert]
  rfl

theorem Linked.run_fails (h : Linked ctx s g l) (he : Outside s l e)
    (hk : bucket ctx.hash l (ctx.hash e.key) = []) {node : Option P}
    (hnode : ∀ p, node = some p → s.bucketTree.live p = true) :
    hashMapInsertEntry ctx s e.addr node = .ok (.err .ENOMEM, s) := by
  have hread : s.read e.addr = .ok (s.entry e.addr) := by simp [HMap.read, he.live]
  have hinsert : btreeInsert s.bucketTree () (ctx.hash e.key) e.addr node =
      .ok (.err .ENOMEM, s.bucketTree) := by
    cases node with
    | none => rfl
    | some p => simp [btreeInsert, Btrees.btreeAllocNode, hnode p rfl]
  simp only [hashMapInsertEntry, hread, he.key, ok_bind, h.search_none hk, hinsert]
  rfl

omit [DecidableEq E] [DecidableEq P] [Fintype E] [Fintype P] in
theorem Linked.added {s' : HMap E P H K V} (h : Linked ctx s g l)
    (hnew : ∀ a ∈ l, a.addr ≠ e.addr)
    (htree : Btree.Holds s'.bucketTree () g' (inorder g'))
    (hbuckets : ∀ k, k ∈ (inorder g').map Item.key ↔ k ∈ (inorder g).map Item.key ∨
      k = ctx.hash e.key)
    (hheads : ∀ i ∈ inorder g', some i.data = first (bucket ctx.hash (l ++ [e]) i.key))
    (hchains : ∀ k, Chained s' (bucket ctx.hash (l ++ [e]) k) none)
    (hsize : s'.size = s.size + 1) : Linked ctx s' g' (l ++ [e]) := by
  refine ⟨htree, ?_, hheads, hchains, ?_, ?_⟩
  · intro k
    rw [hbuckets, h.buckets, bucket_append, bucket_single]
    by_cases hk : ctx.hash e.key = k
    · simp [hk]
    · have hk' : k ≠ ctx.hash e.key := fun heq => hk heq.symm
      simp [hk, hk']
  · simp [hsize, h.size]
  · rw [List.map_append]
    refine List.nodup_append.2 ⟨h.addrs, by simp, ?_⟩
    intro a ha b hb heq
    rcases List.mem_map.1 ha with ⟨x, hx, rfl⟩
    exact hnew x hx (heq.trans (by simpa using hb))

omit [DecidableEq P] [Fintype E] [Fintype P] in
theorem Linked.append_tail (h : Linked ctx s g l) (he : Outside s l e)
    (hentry : s.entry e.addr = ⟨e.key, none, e.value⟩) {bs : List (HItem E K V)}
    {x : HItem E K V} (hbs : bucket ctx.hash l (ctx.hash e.key) = bs ++ [x]) :
    Linked ctx { s with
        entry := update s.entry x.addr { s.entry x.addr with next := some e.addr }
        size := s.size + 1 } g (l ++ [e]) := by
  have hx : x ∈ l ∧ ctx.hash x.key = ctx.hash e.key := mem_bucket.1 (by rw [hbs]; simp)
  have hxe := he.new x hx.1
  have hk : bucket ctx.hash l (ctx.hash e.key) ≠ [] := by simp [hbs]
  refine h.added he.new h.tree ?_ ?_ ?_ rfl
  · intro k
    refine ⟨.inl, ?_⟩
    rintro (hmem | rfl)
    · exact hmem
    · exact (h.buckets _).2 hk
  · intro i hi
    have hne : bucket ctx.hash l i.key ≠ [] := (h.buckets _).1 (List.mem_map_of_mem hi)
    rw [bucket_append, first_append, h.heads i hi]
    cases hb : bucket ctx.hash l i.key with
    | nil => exact absurd hb hne
    | cons a as => simp [first]
  · intro k
    rw [bucket_append, bucket_single]
    by_cases hk' : ctx.hash e.key = k
    · -- The old last entry of the chain points to the new one.
      subst hk'
      have hchain := h.chains (ctx.hash e.key)
      have hold : ∀ a ∈ bs, a.addr ≠ x.addr := by
        intro a ha haddr
        have hal := (mem_bucket.1 (show a ∈ bucket ctx.hash l (ctx.hash e.key) by
          rw [hbs]; simp [ha])).1
        have hax : a = x := h.eq_of_addr hal hx.1 haddr
        have hnd : (bucket ctx.hash l (ctx.hash e.key)).Nodup := h.nodup.filter _
        rw [hbs] at hnd
        exact (List.nodup_append.1 hnd).2.2 a ha x (by simp) hax
      rw [if_pos rfl, chained_append]
      refine ⟨?_, he.live, ?_, trivial⟩
      · rw [hbs] at hchain ⊢
        refine hchain.retail ?_ ?_ ?_
        · simp [first]
        · exact fun a _ => rfl
        · intro a ha
          simp [hold a ha]
      · simp [hxe.symm, hentry, first]
    · -- The other chains do not meet either entry.
      rw [if_neg hk', List.append_nil]
      refine (h.chains k).congr ?_
      intro a ha
      have hal := mem_bucket.1 ha
      have hax : a.addr ≠ x.addr := by
        intro haddr
        rw [h.eq_of_addr hal.1 hx.1 haddr, hx.2] at hal
        exact hk' hal.2
      exact ⟨by simp [hax], rfl⟩

omit [DecidableEq E] [DecidableEq P] [Fintype E] [Fintype P] in
theorem Linked.append_node (h : Linked ctx s g l) (he : Outside s l e)
    (hentry : s.entry e.addr = ⟨e.key, none, e.value⟩)
    (hk : bucket ctx.hash l (ctx.hash e.key) = []) {tree : Btrees P Unit H E}
    (htree : Btree.Holds tree () g' (⟨p, ctx.hash e.key, e.addr⟩ :: inorder g)) :
    Linked ctx { s with bucketTree := tree, size := s.size + 1 } g' (l ++ [e]) := by
  have hno : ctx.hash e.key ∉ (inorder g).map Item.key := fun hmem => (h.buckets _).1 hmem hk
  have hmem : ∀ i, i ∈ inorder g' ↔ i = ⟨p, ctx.hash e.key, e.addr⟩ ∨ i ∈ inorder g := by
    intro i
    rw [htree.entries.mem_iff, List.mem_cons]
  refine h.added he.new ?_ ?_ ?_ ?_ rfl
  · exact ⟨htree.tree, htree.ordered, htree.count, htree.live, List.Perm.refl _⟩
  · intro k
    simp only [List.mem_map, hmem]
    constructor
    · rintro ⟨i, rfl | hi, rfl⟩
      · exact .inr rfl
      · exact .inl ⟨i, hi, rfl⟩
    · rintro (⟨i, hi, rfl⟩ | rfl)
      · exact ⟨i, .inr hi, rfl⟩
      · exact ⟨_, .inl rfl, rfl⟩
  · intro i hi
    rw [bucket_append, bucket_single]
    rcases (hmem i).1 hi with rfl | hi
    · simp [hk, first]
    · have hik : ctx.hash e.key ≠ i.key := fun heq => hno (heq ▸ List.mem_map_of_mem hi)
      rw [if_neg hik, List.append_nil]
      exact h.heads i hi
  · intro k
    rw [bucket_append, bucket_single, chained_append]
    refine ⟨?_, ?_⟩
    · by_cases hk' : ctx.hash e.key = k
      · rw [← hk', hk]
        trivial
      · rw [if_neg hk']
        exact (h.chains k).congr fun _ _ => ⟨rfl, rfl⟩
    · by_cases hk' : ctx.hash e.key = k
      · rw [if_pos hk']
        exact ⟨he.live, by simp [hentry, first], trivial⟩
      · rw [if_neg hk']
        trivial

omit [DecidableEq E] [DecidableEq P] [Fintype E] [Fintype P] in
theorem Stored.ne_new (h : Stored ctx s g l) (hfree : s.live e.addr = false) {a : HItem E K V}
    (ha : a ∈ l) : a.addr ≠ e.addr := by
  intro heq
  rw [← heq, (h.toLinked.stored ha).1] at hfree
  exact absurd hfree (by simp)

omit [DecidableEq P] [Fintype E] [Fintype P] in
theorem Stored.filled (h : Stored ctx s g l) (hfree : s.live e.addr = false) :
    Linked ctx (filled s e) g l ∧ Outside (filled s e) l e := by
  refine ⟨⟨h.tree, h.buckets, h.heads, fun k => (h.chains k).congr fun a ha => ?_, h.size,
    h.addrs⟩, ⟨by simp [HashMap.filled], by simp [HashMap.filled], fun a ha => h.ne_new hfree ha⟩⟩
  have hne := h.ne_new hfree (mem_bucket.1 ha).1
  simp [HashMap.filled, hne]

omit [DecidableEq P] [Fintype E] [Fintype P] in
theorem Linked.toStored {s' : HMap E P H K V}
    (h' : Linked ctx s' g' (l ++ [e])) (h : Stored ctx s g l)
    (hlive : s'.live = update s.live e.addr true) : Stored ctx s' g' (l ++ [e]) := by
  refine ⟨h'.tree, h'.buckets, h'.heads, h'.chains, h'.size, h'.addrs, ?_⟩
  intro a
  rw [hlive]
  by_cases hae : a = e.addr
  · simp [hae]
  · rw [update_of_ne hae, h.live]
    simp [hae]

theorem Stored.insert_tail (h : Stored ctx s g l) (hfree : s.live e.addr = false)
    (hk : bucket ctx.hash l (ctx.hash e.key) ≠ [])
    (node : Option P) :
    ∃ s', hashMapInsertEntry ctx (HashMap.filled s e) e.addr node = .ok (.ok, s') ∧
      Stored ctx s' g (l ++ [e]) := by
  rcases List.eq_nil_or_concat (bucket ctx.hash l (ctx.hash e.key)) with hnil | ⟨bs, x, hbs⟩
  · exact absurd hnil hk
  rw [List.concat_eq_append] at hbs
  rcases h.filled hfree with ⟨hlinked, hout⟩
  exact ⟨_, hlinked.run_tail hout hbs node,
    (hlinked.append_tail hout (by simp [HashMap.filled]) hbs).toStored h rfl⟩

theorem Stored.insert_node (h : Stored ctx s g l) (hfree : s.live e.addr = false)
    (hk : bucket ctx.hash l (ctx.hash e.key) = [])
    (hp : s.bucketTree.live p = false) :
    ∃ s' g', hashMapInsertEntry ctx (HashMap.filled s e) e.addr (some p) = .ok (.ok, s') ∧
      Stored ctx s' g' (l ++ [e]) ∧
      (inorder g').Perm (⟨p, ctx.hash e.key, e.addr⟩ :: inorder g) := by
  rcases h.filled hfree with ⟨hlinked, hout⟩
  rcases hlinked.run_node hout hk hp with ⟨tree, g', hrun, htree⟩
  exact ⟨_, g', hrun,
    (hlinked.append_node hout (by simp [HashMap.filled]) hk htree).toStored h rfl, htree.entries⟩

theorem Stored.insert_fails (h : Stored ctx s g l) (hfree : s.live e.addr = false)
    (hk : bucket ctx.hash l (ctx.hash e.key) = [])
    {node : Option P} (hnode : ∀ p, node = some p → s.bucketTree.live p = true) :
    hashMapInsertEntry ctx (HashMap.filled s e) e.addr node =
      .ok (.err .ENOMEM, HashMap.filled s e) := by
  rcases h.filled hfree with ⟨hlinked, hout⟩
  exact hlinked.run_fails hout hk hnode

omit [DecidableEq P] [Fintype E] [Fintype P] in
theorem Stored.destroyed (h : Stored ctx s g l) (hfree : s.live e.addr = false) :
    Stored ctx (hashEntryDestroy (HashMap.filled s e) e.addr) g l := by
  refine ⟨h.tree, h.buckets, h.heads, ?_, h.size, h.addrs, ?_⟩
  · intro k
    refine (h.chains k).congr ?_
    intro a ha
    have hne := h.ne_new hfree (mem_bucket.1 ha).1
    simp [hashEntryDestroy, HashMap.filled, hne]
  · intro a
    rw [← h.live]
    by_cases hae : a = e.addr
    · simp [hashEntryDestroy, hae, hfree]
    · simp [hashEntryDestroy, HashMap.filled, hae]

end Insert

/-! ## Removing -/

omit [DecidableEq E] [DecidableEq P] [LinearOrder H] [Fintype E] [Fintype P] in
theorem filter_split {α : Type} {l l₁ l₂ : List α} {e : α} {keep : α → Bool}
    (hl : l = l₁ ++ e :: l₂) (hnd : l.Nodup) (he : keep e = false)
    (hrest : ∀ a ∈ l, a ≠ e → keep a = true) : l.filter keep = l₁ ++ l₂ := by
  subst hl
  have hleft : ∀ a ∈ l₁, keep a = true := by
    intro a ha
    exact hrest a (by simp [ha]) ((List.nodup_append.1 hnd).2.2 a ha e (by simp))
  have hright : ∀ a ∈ l₂, keep a = true := by
    intro a ha
    refine hrest a (by simp [ha]) ?_
    rintro rfl
    exact (List.nodup_cons.1 (List.nodup_append.1 hnd).2.1).1 ha
  rw [List.filter_append, List.filter_cons_of_neg (by simp [he]), List.filter_eq_self.2 hleft,
    List.filter_eq_self.2 hright]

section Remove

variable {e : HItem E K V} {b₁ b₂ : List (HItem E K V)}

/-- An entry has been taken out of its chain, which was `b₁ ++ e :: b₂`. -/
structure Unchained (ctx : HashMapContext H K) (s s' : HMap E P H K V)
    (g g' : BinaryTree (Item P H E)) (l : List (HItem E K V)) (e : HItem E K V)
    (es : List (HItem E K V)) : Prop where
  tree : Btree.Holds s'.bucketTree () g' (inorder g')
  others : ∀ j, j.key ≠ ctx.hash e.key → (j ∈ inorder g' ↔ j ∈ inorder g)
  node : ctx.hash e.key ∈ (inorder g').map Item.key ↔ es ≠ []
  head : ∀ j ∈ inorder g', j.key = ctx.hash e.key → some j.data = first es
  chain : Chained s' es none
  entries : ∀ a ∈ l, ctx.hash a.key ≠ ctx.hash e.key → s'.entry a.addr = s.entry a.addr
  live : s'.live = s.live
  size : s'.size = s.size

def Untouched (s s' : HMap E P H K V) (l : List (HItem E K V)) (e : HItem E K V) : Prop :=
  ∀ a, (∀ x ∈ l, x ≠ e → x.addr ≠ a) → s'.entry a = s.entry a

omit [DecidableEq E] [DecidableEq P] [LinearOrder H] [Fintype E] [Fintype P] in
variable {keep : HItem E K V → Bool}

omit [DecidableEq E] [DecidableEq P] [Fintype E] [Fintype P] in
theorem Unchained.linked {s' : HMap E P H K V} {g' : BinaryTree (Item P H E)}
    (hu : Unchained ctx s s' g g' l e (b₁ ++ b₂)) (h : Linked ctx s g l)
    (hb : bucket ctx.hash l (ctx.hash e.key) = b₁ ++ e :: b₂)
    (he : keep e = false) (hrest : ∀ a ∈ l, a ≠ e → keep a = true) :
    Linked ctx { s' with size := s'.size - 1 } g' (l.filter keep) := by
  have hel : e ∈ l := (mem_bucket.1 (show e ∈ bucket ctx.hash l (ctx.hash e.key) by
    rw [hb]; simp)).1
  have hbnd : (bucket ctx.hash l (ctx.hash e.key)).Nodup := h.nodup.filter _
  have hown : bucket ctx.hash (l.filter keep) (ctx.hash e.key) = b₁ ++ b₂ := by
    rw [bucket_filter]
    exact filter_split hb hbnd he fun a ha => hrest a (mem_bucket.1 ha).1
  have hother : ∀ k, k ≠ ctx.hash e.key →
      bucket ctx.hash (l.filter keep) k = bucket ctx.hash l k := by
    intro k hk
    rw [bucket_filter]
    refine List.filter_eq_self.2 ?_
    intro a ha
    refine hrest a (mem_bucket.1 ha).1 ?_
    rintro rfl
    exact hk (mem_bucket.1 ha).2.symm
  refine ⟨hu.tree, ?_, ?_, ?_, ?_, ?_⟩
  · intro k
    by_cases hk : k = ctx.hash e.key
    · rw [hk, hown]
      exact hu.node
    · rw [hother k hk, ← h.buckets k]
      simp only [List.mem_map]
      constructor
      · rintro ⟨j, hj, rfl⟩
        exact ⟨j, (hu.others j hk).1 hj, rfl⟩
      · rintro ⟨j, hj, rfl⟩
        exact ⟨j, (hu.others j hk).2 hj, rfl⟩
  · intro j hj
    by_cases hk : j.key = ctx.hash e.key
    · rw [hk, hown]
      exact hu.head j hj hk
    · rw [hother _ hk]
      exact h.heads j ((hu.others j hk).1 hj)
  · intro k
    by_cases hk : k = ctx.hash e.key
    · rw [hk, hown]
      exact hu.chain.congr fun _ _ => ⟨rfl, rfl⟩
    · rw [hother k hk]
      refine (h.chains k).congr fun a ha => ⟨hu.entries a (mem_bucket.1 ha).1 ?_, ?_⟩
      · rw [(mem_bucket.1 ha).2]
        exact hk
      · rw [hu.live]
  · rcases List.append_of_mem hel with ⟨l₁, l₂, hl⟩
    show s'.size - 1 = _
    rw [hu.size, h.size, filter_split hl h.nodup he hrest, hl]
    simp
  · exact List.Nodup.sublist (List.filter_sublist.map _) h.addrs

omit [DecidableEq P] [Fintype E] [Fintype P] in
theorem Linked.destroy (h : Linked ctx s g l) {x : E} (hx : ∀ a ∈ l, a.addr ≠ x) :
    Linked ctx (hashEntryDestroy s x) g l :=
  ⟨h.tree, h.buckets, h.heads, fun k => (h.chains k).congr fun a ha =>
    ⟨rfl, update_of_ne (hx a (mem_bucket.1 ha).1) _ _⟩, h.size, h.addrs⟩

omit [DecidableEq E] [DecidableEq P] [Fintype E] [Fintype P] in
theorem Linked.kept_ne (h : Linked ctx s g l) (hel : e ∈ l) (he : keep e = false)
    {a : HItem E K V} (ha : a ∈ l.filter keep) : a ∈ l ∧ a.addr ≠ e.addr := by
  rcases List.mem_filter.1 ha with ⟨hal, hkeep⟩
  refine ⟨hal, fun haddr => ?_⟩
  rw [h.eq_of_addr hal hel haddr, he] at hkeep
  exact absurd hkeep (by simp)

omit [DecidableEq P] [Fintype E] [Fintype P] in
theorem Unchained.holds {s' : HMap E P H K V} {g' : BinaryTree (Item P H E)}
    (hu : Unchained ctx s s' g g' l e (b₁ ++ b₂)) (h : Holds ctx s g l)
    (hb : bucket ctx.hash l (ctx.hash e.key) = b₁ ++ e :: b₂)
    (he : keep e = false) (hrest : ∀ a ∈ l, a ≠ e → keep a = true) :
    Holds ctx (hashEntryDestroy { s' with size := s'.size - 1 } e.addr) g' (l.filter keep) := by
  have hel : e ∈ l := (mem_bucket.1 (show e ∈ bucket ctx.hash l (ctx.hash e.key) by
    rw [hb]; simp)).1
  have hgone : ∀ a ∈ l.filter keep, a.addr ≠ e.addr := fun a ha =>
    (h.toLinked.kept_ne hel he ha).2
  have hlinked := (hu.linked h.toLinked hb he hrest).destroy hgone
  refine ⟨hlinked.tree, hlinked.buckets, hlinked.heads, hlinked.chains, hlinked.size, ?_, ?_⟩
  · exact List.Nodup.sublist (List.filter_sublist.map _) h.keys
  · intro a
    by_cases hae : a = e.addr
    · subst hae
      refine ⟨fun hl => by simp [hashEntryDestroy] at hl, ?_⟩
      intro hmem
      rcases List.mem_map.1 hmem with ⟨b, hb', haddr⟩
      exact absurd haddr (hgone b hb')
    · simp only [hashEntryDestroy, update_of_ne hae, hu.live, h.live, List.mem_map,
        List.mem_filter]
      constructor
      · rintro ⟨b, hbl, rfl⟩
        exact ⟨b, ⟨hbl, hrest b hbl fun hbe => hae (by rw [hbe])⟩, rfl⟩
      · rintro ⟨b, ⟨hbl, _⟩, rfl⟩
        exact ⟨b, hbl, rfl⟩

variable {cs : List (Crumb (Item P H E))} {i : Item P H E} {lt rt : BinaryTree (Item P H E)}

omit [Fintype E] [Fintype P] [DecidableEq P] [DecidableEq E] in
theorem Linked.at_place (h : Linked ctx s (plug cs (.node i lt rt)) l)
    (hb : bucket ctx.hash l i.key = b₁ ++ e :: b₂) :
    i.key = ctx.hash e.key ∧ some i.data = first (b₁ ++ e :: b₂) ∧
      s.bucketTree.live i.addr = true ∧ (s.bucketTree.node i.addr).data = i.data := by
  have hi : i ∈ inorder (plug cs (.node i lt rt)) := Btree.mem_place.2 (.inl rfl)
  have he : ctx.hash e.key = i.key := (mem_bucket.1 (show e ∈ bucket ctx.hash l i.key by
    rw [hb]; simp)).2
  have hhead := h.heads i hi
  rw [hb] at hhead
  have hstored := h.tree.tree.shape.stored hi
  exact ⟨he.symm, hhead, hstored.1, hstored.2.2⟩

omit [DecidableEq E] [DecidableEq P] [Fintype E] [Fintype P] in
theorem Linked.key_ne (h : Linked ctx s (plug cs (.node i lt rt)) l) {j : Item P H E}
    (hj : j ∈ inorder (plug cs (.node i lt rt))) (hji : j ≠ i) : j.key ≠ i.key :=
  fun heq => hji (Btree.eq_of_key h.tree.ordered hj (Btree.mem_place.2 (.inl rfl)) heq)

theorem Linked.unchain_only (h : Linked ctx s (plug cs (.node i lt rt)) l)
    (hb : bucket ctx.hash l i.key = [e]) {test : E → HashEntry E K V → Bool}
    (hat : test e.addr (s.entry e.addr) = true) :
    ∃ s' g', unchain s i.addr test = .ok (some e.addr, s') ∧
      Unchained ctx s s' (plug cs (.node i lt rt)) (plug cs g') l e [] ∧
      Untouched s s' l e ∧ (lt = .nil → g' = rt) := by
  have hb0 : bucket ctx.hash l i.key = [] ++ [e] := hb
  rcases h.at_place hb0 with ⟨hkey, hhead, hnlive, hndata⟩
  have hdata : i.data = e.addr := by simpa [first] using hhead
  have hchain := h.chains i.key
  rw [hb] at hchain
  rcases hchain with ⟨hlive, hentry, _⟩
  have hnext : (s.entry e.addr).next = none := by simp [hentry, first]
  have hkeep : ∀ j ∈ inorder (plug cs (.node i lt rt)), j ≠ i → decide (j.key ≠ i.key) = true :=
    fun j hj hji => decide_eq_true (h.key_ne hj hji)
  rcases h.tree.deletePlace (by simp) hkeep with ⟨tree, g', hrun, htree, hin, hnil⟩
  have htree' : Btree.Holds tree () (plug cs g') (inorder (plug cs g')) :=
    ⟨htree.tree, htree.ordered, htree.count, htree.live, List.Perm.refl _⟩
  have hmem : ∀ j, j ∈ inorder (plug cs g') ↔
      j ∈ inorder (plug cs (.node i lt rt)) ∧ j.key ≠ i.key := by
    intro j
    rw [hin, List.mem_filter]
    simp
  refine ⟨{ s with bucketTree := tree }, g', ?_, ⟨htree', ?_, ?_, ?_, trivial, ?_, rfl, rfl⟩,
    fun _ _ => rfl, hnil⟩
  · simp [unchain, Btrees.read_live hnlive, hndata, hdata, HMap.read, hlive, hat, hnext, hrun]
  · intro j hj
    rw [hmem, hkey]
    exact and_iff_left hj
  · simp only [List.mem_map, hmem, hkey]
    simp
  · intro j hj hjk
    rw [hmem, hkey] at hj
    exact absurd hjk hj.2
  · intro a _ _
    rfl

theorem Linked.unchain_head (h : Linked ctx s (plug cs (.node i lt rt)) l) {a : HItem E K V}
    (hb : bucket ctx.hash l i.key = e :: a :: b₂) {test : E → HashEntry E K V → Bool}
    (hat : test e.addr (s.entry e.addr) = true) :
    ∃ s', unchain s i.addr test = .ok (some e.addr, s') ∧
      Unchained ctx s s' (plug cs (.node i lt rt))
        (plug cs (.node { i with data := a.addr } lt rt)) l e (a :: b₂) ∧
      Untouched s s' l e := by
  have hb0 : bucket ctx.hash l i.key = [] ++ e :: a :: b₂ := hb
  rcases h.at_place hb0 with ⟨hkey, hhead, hnlive, hndata⟩
  have hdata : i.data = e.addr := by simpa [first] using hhead
  have hchain := h.chains i.key
  rw [hb] at hchain
  rcases hchain with ⟨hlive, hentry, hrest⟩
  have hnext : (s.entry e.addr).next = some a.addr := by simp [hentry, first]
  have hmem : ∀ j, j ∈ inorder (plug cs (.node { i with data := a.addr } lt rt)) →
      j = { i with data := a.addr } ∨ j ∈ inorder (plug cs (.node i lt rt)) ∧ j ≠ i := by
    intro j hj
    by_cases hji : j = { i with data := a.addr }
    · exact .inl hji
    · have hin : j ∈ inorder (plug cs (.node i lt rt)) :=
        Btree.mem_place.2 (.inr ((Btree.mem_place.1 hj).resolve_left hji))
      refine .inr ⟨hin, ?_⟩
      rintro rfl
      -- The old entry of the node would have the key a second time.
      have htree := h.tree.setData a.addr
      exact hji (Btree.eq_of_key htree.ordered hj (Btree.mem_place.2 (.inl rfl)) rfl)
  let node := s.bucketTree.node i.addr
  refine ⟨{ s with bucketTree := s.bucketTree.write i.addr { node with data := a.addr } }, ?_,
    ⟨h.tree.setData a.addr, ?_, ?_, ?_, ?_, ?_, ?_, ?_⟩, fun _ _ => rfl⟩
  · simp [unchain, Btrees.read_live hnlive, hndata, hdata, HMap.read, hlive, hat, hnext,
      Btrees.modify_live hnlive, node]
  · intro j hj
    rw [← hkey] at hj
    rw [Btree.mem_place, Btree.mem_place]
    constructor
    · rintro (rfl | hj')
      · exact absurd rfl hj
      · exact .inr hj'
    · rintro (rfl | hj')
      · exact absurd rfl hj
      · exact .inr hj'
  · simp only [List.mem_map, ne_eq, reduceCtorEq, not_false_eq_true, iff_true]
    exact ⟨{ i with data := a.addr }, Btree.mem_place.2 (.inl rfl), hkey⟩
  · intro j hj hjk
    rcases hmem j hj with rfl | ⟨hj, hji⟩
    · rfl
    · exact absurd (hjk.trans hkey.symm) (h.key_ne hj hji)
  · exact hrest.congr fun _ _ => ⟨rfl, rfl⟩
  · intro _ _ _
    rfl
  · rfl
  · rfl

theorem Linked.unchain_middle (h : Linked ctx s (plug cs (.node i lt rt)) l) {x : HItem E K V}
    (hb : bucket ctx.hash l i.key = (b₁ ++ [x]) ++ e :: b₂) {test : E → HashEntry E K V → Bool}
    (hpass : ∀ a ∈ b₁ ++ [x], test a.addr (s.entry a.addr) = false)
    (hat : test e.addr (s.entry e.addr) = true) :
    ∃ s', unchain s i.addr test = .ok (some e.addr, s') ∧
      Unchained ctx s s' (plug cs (.node i lt rt)) (plug cs (.node i lt rt)) l e
        ((b₁ ++ [x]) ++ b₂) ∧ Untouched s s' l e := by
  rcases h.at_place hb with ⟨hkey, hhead, hnlive, hndata⟩
  have hchain := h.chains i.key
  have hlen := h.bucket_length_le i.key
  have hnd : (bucket ctx.hash l i.key).Nodup := h.nodup.filter _
  have hin : ∀ a, a ∈ (b₁ ++ [x]) ++ e :: b₂ → a ∈ l ∧ ctx.hash a.key = i.key := by
    intro a ha
    exact mem_bucket.1 (by rw [hb]; exact ha)
  rw [hb] at hchain hlen hnd
  rcases chained_append.1 hchain with ⟨hbefore, helive, heentry, hafter⟩
  have hx : x ∈ l := (hin x (by simp)).1
  have hne : ∀ a, a ∈ b₁ ∨ a ∈ b₂ → a.addr ≠ x.addr := by
    intro a ha haddr
    have hal : a ∈ l := (hin a (by rcases ha with ha | ha <;> simp [ha])).1
    have hax : a = x := h.eq_of_addr hal hx haddr
    subst hax
    rcases List.nodup_append.1 hnd with ⟨hleft, _, hlr⟩
    rcases ha with ha | ha
    · exact (List.nodup_append.1 hleft).2.2 a ha a (by simp) rfl
    · exact hlr a (by simp) a (List.mem_cons_of_mem _ ha) rfl
  -- The search starts behind the head of the chain.
  cases hhd : b₁ ++ [x] with
  | nil => simp at hhd
  | cons d ds =>
    rw [hhd] at hb hhead hchain hlen hpass
    have hdata : i.data = d.addr := by simpa [first] using hhead
    rcases hchain with ⟨hdlive, hdentry, hdrest⟩
    have hdpass := hpass d (by simp)
    have hdnext : (s.entry d.addr).next = first (ds ++ e :: b₂) := by
      rw [hdentry, Option.or_none]
      rfl
    have hseek := seek_some test hdrest (fun a ha => hpass a (List.mem_cons_of_mem _ ha)) hat
      (some d.addr) (n := Fintype.card E) (by
        simp only [List.cons_append, List.length_cons] at hlen
        omega)
    have hlast : (ds.getLast?.map HItem.addr).or (some d.addr) = some x.addr := by
      have hl : (d :: ds).getLast? = some x := by
        rw [← hhd]
        simp
      cases ds with
      | nil =>
        have hdx : d = x := by simpa using hl
        simp [hdx]
      | cons c cs =>
        rw [List.getLast?_cons_cons] at hl
        simp [hl]
    rw [hlast] at hseek
    have hxlive : s.live x.addr = true := (h.stored hx).1
    have hnext : (s.entry e.addr).next = first b₂ := by
      rw [heentry, Option.or_none]
    let entry := s.entry x.addr
    refine ⟨{ s with
      entry := update s.entry x.addr { entry with next := first b₂ } }, ?_,
      ⟨h.tree, fun _ _ => Iff.rfl, ?_, ?_, ?_, ?_, rfl, rfl⟩, ?_⟩
    · simp only [unchain, Btrees.read_live hnlive, hndata, hdata, ok_bind, HMap.read, hdlive,
        if_true, hdpass, hdnext]
      have hseek' : s.seek test (Fintype.card E) (some d.addr) (first (ds ++ e :: b₂)) =
          .ok (some x.addr, some e.addr) := hseek
      simp only [Bool.false_eq_true, if_false, hseek', ok_bind, helive, if_true, HMap.modify,
        HMap.read, hxlive, hnext]
      rfl
    · simp only [List.cons_append, ne_eq, reduceCtorEq, not_false_eq_true, iff_true, List.mem_map]
      exact ⟨i, Btree.mem_place.2 (.inl rfl), hkey⟩
    · intro j hj hjk
      have hji : j = i := by
        by_contra hji
        exact h.key_ne hj hji (hjk.trans hkey.symm)
      rw [hji, hhead]
      rfl
    · rw [← hhd]
      refine chained_append.2 ⟨hbefore.retail ?_ ?_ ?_, hafter.congr ?_⟩
      · simp [entry]
      · exact fun _ _ => rfl
      · intro a ha
        simp [hne a (.inl ha)]
      · intro a ha
        simp [hne a (.inr ha)]
    · intro a ha hak
      have hax : a.addr ≠ x.addr := by
        intro haddr
        refine hak ?_
        rw [h.eq_of_addr ha hx haddr, (hin x (by simp)).2, hkey]
      simp [hax]
    · intro a ha
      have hxe : x ≠ e := (List.nodup_append.1 hnd).2.2 x (by simp) e (by simp)
      have hax : a ≠ x.addr := (ha x hx hxe).symm
      simp [hax]

theorem Linked.unchain (h : Linked ctx s (plug cs (.node i lt rt)) l)
    (hb : bucket ctx.hash l i.key = b₁ ++ e :: b₂) (test : E → HashEntry E K V → Bool)
    (hpass : ∀ a ∈ b₁, test a.addr (s.entry a.addr) = false)
    (hat : test e.addr (s.entry e.addr) = true) :
    ∃ s' g', HashMap.unchain s i.addr test = .ok (some e.addr, s') ∧
      Unchained ctx s s' (plug cs (.node i lt rt)) (plug cs g') l e (b₁ ++ b₂) ∧
      Untouched s s' l e ∧
      (∀ j ∈ inorder (plug cs g'),
        ∃ j' ∈ inorder (plug cs (.node i lt rt)), j'.addr = j.addr ∧ j'.key = j.key) ∧
      (b₁ = [] → (b₂ = [] → lt = .nil → g' = rt) ∧
        (b₂ ≠ [] → ∃ data, g' = .node { i with data := data } lt rt)) := by
  have hi : i ∈ inorder (plug cs (.node i lt rt)) := Btree.mem_place.2 (.inl rfl)
  rcases List.eq_nil_or_concat b₁ with rfl | ⟨bs, x, rfl⟩
  · cases b₂ with
    | nil =>
      rcases h.unchain_only hb hat with ⟨s', g', hrun, hu, hun, hnil⟩
      refine ⟨s', g', hrun, hu, hun, ?_, fun _ => ⟨fun _ => hnil, by simp⟩⟩
      intro j hj
      by_cases hjk : j.key = ctx.hash e.key
      · exact absurd rfl (hu.node.1 (hjk ▸ List.mem_map_of_mem hj))
      · exact ⟨j, (hu.others j hjk).1 hj, rfl, rfl⟩
    | cons a b₂ =>
      rcases h.unchain_head hb hat with ⟨s', hrun, hu, hun⟩
      refine ⟨s', _, hrun, hu, hun, ?_, fun _ => ⟨by simp, fun _ => ⟨a.addr, rfl⟩⟩⟩
      intro j hj
      rcases Btree.mem_place.1 hj with rfl | hj
      · exact ⟨i, hi, rfl, rfl⟩
      · exact ⟨j, Btree.mem_place.2 (.inr hj), rfl, rfl⟩
  · rw [List.concat_eq_append] at *
    rcases h.unchain_middle hb hpass hat with ⟨s', hrun, hu, hun⟩
    exact ⟨s', _, hrun, hu, hun, fun j hj => ⟨j, hj, rfl, rfl⟩, by simp⟩

theorem Holds.removeInternal (h : Holds ctx s (plug cs (.node i lt rt)) l)
    (hb : bucket ctx.hash l i.key = b₁ ++ e :: b₂) (test : E → HashEntry E K V → Bool)
    (hpass : ∀ a ∈ b₁, test a.addr (s.entry a.addr) = false)
    (hat : test e.addr (s.entry e.addr) = true) (hke : keep e = false)
    (hrest : ∀ a ∈ l, a ≠ e → keep a = true) :
    ∃ s' g', hashMapRemoveInternalEntry s i.key test = .ok (.ok, s') ∧
      Holds ctx s' (plug cs g') (l.filter keep) ∧
      (∀ j ∈ inorder (plug cs g'),
        ∃ j' ∈ inorder (plug cs (.node i lt rt)), j'.addr = j.addr ∧ j'.key = j.key) ∧
      (b₁ = [] → (b₂ = [] → lt = .nil → g' = rt) ∧
        (b₂ ≠ [] → ∃ data, g' = .node { i with data := data } lt rt)) := by
  have hi : i ∈ inorder (plug cs (.node i lt rt)) := Btree.mem_place.2 (.inl rfl)
  have hlookup := Btree.lookup_some h.tree.tree h.tree.ordered hi
  have hkey := (h.toLinked.at_place hb).1
  have hb' := hb
  rw [hkey] at hb'
  rcases h.toLinked.unchain hb test hpass hat with ⟨s', g', hrun, hu, -, hnodes, hshape⟩
  refine ⟨_, g', ?_, hu.holds h hb' hke hrest, hnodes, hshape⟩
  simp only [hashMapRemoveInternalEntry, hlookup, ok_bind, hrun]
  rfl

/-! ## Flushing -/

omit [DecidableEq P] [DecidableEq E] [Fintype E] [Fintype P] in
theorem keep_addr (h : Holds ctx s g l) [DecidableEq E] (he : e ∈ l) :
    ∀ a ∈ l, a ≠ e → decide (a.addr ≠ e.addr) = true :=
  fun _ ha hae => decide_eq_true fun haddr => hae (h.eq_of_addr ha he haddr)

theorem chainIter_spec {b : List (HItem E K V)} :
    ∀ {s : HMap E P H K V} {l : List (HItem E K V)} {i : Item P H E} {n : Nat},
      Holds ctx s (plug cs (.node i .nil rt)) l → bucket ctx.hash l i.key = b → b ≠ [] →
      b.length ≤ n →
      ∃ s' l', chainIter (hashMapRemoveEntry ctx) n s (first b) = .ok (.ok, s') ∧
        Holds ctx s' (plug cs rt) l' := by
  induction b with
  | nil =>
    intro s l i n _ _ hne _
    exact absurd rfl hne
  | cons e b ih =>
    intro s l i n h hb _ hn
    cases n with
    | zero => simp at hn
    | succ n =>
      have hel : e ∈ l := (mem_bucket.1 (show e ∈ bucket ctx.hash l i.key by
        rw [hb]; simp)).1
      have hb0 : bucket ctx.hash l i.key = [] ++ e :: b := hb
      rcases h.toLinked.at_place hb0 with ⟨hkey, _⟩
      rcases h.stored hel with ⟨hlive, hekey, _⟩
      have hchain := h.chains i.key
      rw [hb] at hchain
      have hnext : (s.entry e.addr).next = first b := by
        rw [hchain.2.1, Option.or_none]
      rcases h.removeInternal hb0 (fun entry _ => decide (entry = e.addr)) (by simp)
        (by simp) (by simp) (keep_addr h hel) with ⟨s₁, g1, hrun, h₁, _, hg⟩
      have hcb : hashMapRemoveEntry ctx s e.addr = .ok (.ok, s₁) := by
        simp only [hashMapRemoveEntry, HMap.read, hlive, if_true, ok_bind, hekey, ← hkey, hrun]
      have hstep : chainIter (hashMapRemoveEntry ctx) (n + 1) s (first (e :: b)) =
          chainIter (hashMapRemoveEntry ctx) n s₁ (first b) := by
        have hfirst : first (e :: b) = some e.addr := rfl
        rw [hfirst]
        simp only [chainIter, HMap.read, hlive, if_true, ok_bind, hcb, hnext]
        rfl
      rcases hg rfl with ⟨hlast, hmore⟩
      cases b with
      | nil =>
        have hg1 := hlast rfl rfl
        subst hg1
        refine ⟨s₁, _, ?_, h₁⟩
        rw [hstep]
        cases n <;> rfl
      | cons a b =>
        rcases hmore (by simp) with ⟨data, rfl⟩
        have hnd : (bucket ctx.hash l i.key).Nodup :=
          (List.Nodup.of_map _ h.keys).filter _
        have hb1 : bucket ctx.hash (l.filter fun a => decide (a.addr ≠ e.addr)) i.key =
            a :: b := by
          rw [bucket_filter]
          exact filter_split hb0 hnd (by simp)
            fun a ha => keep_addr h hel a (mem_bucket.1 ha).1
        rcases ih (n := n) h₁ hb1 (by simp) (by simpa using hn) with ⟨s₂, l₂, hloop, h₂⟩
        exact ⟨s₂, l₂, hstep.trans hloop, h₂⟩

theorem intoIter_spec {g : BinaryTree (Item P H E)} :
    ∀ {s : HMap E P H K V} {l : List (HItem E K V)} {cs : List (Crumb (Item P H E))} {n : Nat},
      Holds ctx s (plug cs g) l → (inorder g).length ≤ n →
      ∃ s' l', hashMapIntoIterInternal (hashMapRemoveEntry ctx) n s (top g) = .ok (.ok, s') ∧
        Holds ctx s' (plug cs .nil) l' := by
  induction g with
  | nil =>
    intro s l cs n h _
    refine ⟨s, l, ?_, h⟩
    cases n <;> rfl
  | node i lt rt ihl ihr =>
    intro s l cs n h hn
    cases n with
    | zero => simp at hn
    | succ n =>
      have hlen : (inorder lt).length + (inorder rt).length ≤ n := by
        simp only [inorder_node, List.length_append, List.length_cons] at hn
        omega
      have hstored := (shape_plug.1 h.tree.tree.shape).2.1
      -- First the left subtree, at its place below the node.
      have hleft : Holds ctx s (plug (.left i rt :: cs) lt) l := h
      rcases ihl (n := n) hleft (by omega) with ⟨s₁, l₁, hrun1, h₁⟩
      have hmid : Holds ctx s₁ (plug cs (.node i .nil rt)) l₁ := h₁
      have hstored1 := (shape_plug.1 hmid.tree.tree.shape).2.1
      -- Then the chain of the node, which goes with its last entry.
      have hi : i ∈ inorder (plug cs (.node i .nil rt)) := Btree.mem_place.2 (.inl rfl)
      have hne : bucket ctx.hash l₁ i.key ≠ [] := (hmid.buckets _).1 (List.mem_map_of_mem hi)
      rcases chainIter_spec hmid rfl hne (hmid.bucket_length_le _) with ⟨s₂, l₂, hrun2, h₂⟩
      rw [← hmid.heads i hi] at hrun2
      rcases ihr (n := n) h₂ (by omega) with ⟨s3, l3, hrun3, h3⟩
      refine ⟨s3, l3, ?_, h3⟩
      simp only [top_node, hashMapIntoIterInternal, read_stored hstored, ok_bind, hrun1,
        read_stored hstored1, hrun2, ne_eq, not_true, if_false, hrun3]
      rfl

theorem Holds.flush (h : Holds ctx s g l) :
    ∃ s', hashMapFlush ctx s = .ok s' ∧ Holds ctx s' .nil [] := by
  have hroot : Holds ctx s (plug [] g) l := h
  rcases intoIter_spec hroot (h.tree.tree.length_le h.tree.ordered) with ⟨s', l', hrun, h'⟩
  have hempty : l' = [] := by
    refine List.eq_nil_iff_forall_not_mem.2 ?_
    intro a ha
    have hb : bucket ctx.hash l' (ctx.hash a.key) ≠ [] :=
      List.ne_nil_of_mem (mem_bucket.2 ⟨ha, rfl⟩)
    have hmem := (h'.buckets _).2 hb
    simp at hmem
  subst hempty
  refine ⟨s', ?_, h'⟩
  simp [hashMapFlush, h.tree.tree.root, hrun]

end Remove

end HashMap
end Ds
end XytherOS
