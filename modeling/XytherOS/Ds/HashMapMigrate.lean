import XytherOS.Ds.HashMapRefine

/-!
# HashMapMigrate — moving an entry from one map to another

`hashMap_migrate_entry` takes an entry out of its chain and appends it to a chain of the other map,
and where that fails to a chain of the first map again.  The entry keeps its `next` pointer: if it
was not the last one of its chain, the chain it comes to goes on with the entries that were behind
it.
-/

namespace XytherOS
namespace Ds
namespace HashMap

open Btree SearchTree

variable {E P H K V : Type}

/-! ## Two maps -/

structure MapHead (E P H : Type) where
  size : Nat
  bucketTree : Btrees P Unit H E

structure Maps (E P H K V : Type) where
  entry : E → HashEntry E K V
  live : E → Bool
  src : MapHead E P H
  dst : MapHead E P H

namespace Maps

def srcMap (t : Maps E P H K V) : HMap E P H K V :=
  ⟨t.entry, t.live, t.src.size, t.src.bucketTree⟩

def dstMap (t : Maps E P H K V) : HMap E P H K V :=
  ⟨t.entry, t.live, t.dst.size, t.dst.bucketTree⟩

def setSrc (t : Maps E P H K V) (s : HMap E P H K V) : Maps E P H K V :=
  { t with entry := s.entry, live := s.live, src := ⟨s.size, s.bucketTree⟩ }

def setDst (t : Maps E P H K V) (s : HMap E P H K V) : Maps E P H K V :=
  { t with entry := s.entry, live := s.live, dst := ⟨s.size, s.bucketTree⟩ }

end Maps

section Functions

variable [DecidableEq E] [DecidableEq P] [LinearOrder H] [Fintype E] [Fintype P]
  (ctx : HashMapContext H K)

/-- `hashMap_detach_entry`: `hashMap_remove_internal_entry`, without destroying the entry. -/
def hashMapDetachEntry (s : HMap E P H K V) (target : E) :
    Except Fault (Ret × HMap E P H K V) := do
  let hashKey := ctx.hash (← s.read target).key
  match ← btreeLookup s.bucketTree () hashKey with
  | none => return (.err .ENOENT, s)
  | some node =>
    match ← unchain s node fun entry _ => decide (entry = target) with
    | (none, s) => return (.err .ENOENT, s)
    | (some _, s) => return (.ok, { s with size := s.size - 1 })

/-- `hashMap_migrate_entry`, given the tree node for the insertion and the one for putting the entry
back. -/
def hashMapMigrateEntry (t : Maps E P H K V) (key : K) (node back : Option P) :
    Except Fault (Ret × Maps E P H K V) := do
  match ← hashMapLookupEntry ctx t.srcMap key with
  | none => return (.err .ENOENT, t)
  | some entry =>
    let (err, s) ← hashMapDetachEntry ctx t.srcMap entry
    let t := t.setSrc s
    if err ≠ .ok then return (err, t)
    let (err, d) ← hashMapInsertEntry ctx t.dstMap entry node
    let t := t.setDst d
    if err = .ok then return (.ok, t)
    let (_, s) ← hashMapInsertEntry ctx t.srcMap entry back
    return (err, t.setSrc s)

end Functions

/-! ## Chains and their ends -/

section Chains

variable [LinearOrder H] {ctx : HashMapContext H K} {s s' : HMap E P H K V}
  {g : BinaryTree (Item P H E)} {l : List (HItem E K V)} {e : HItem E K V}

theorem Linked.congr (h : Linked ctx s g l) (htree : s'.bucketTree = s.bucketTree)
    (hsize : s'.size = s.size)
    (hentries : ∀ a ∈ l, s'.entry a.addr = s.entry a.addr ∧ s'.live a.addr = s.live a.addr) :
    Linked ctx s' g l :=
  ⟨htree ▸ h.tree, h.buckets, h.heads,
    fun k => (h.chains k).congr fun a ha => hentries a (mem_bucket.1 ha).1, hsize.trans h.size,
    h.addrs⟩

theorem Linked.next_eq (h : Linked ctx s g l) {k : H} {b₁ b₂ : List (HItem E K V)}
    (hb : bucket ctx.hash l k = b₁ ++ e :: b₂) : s.entry e.addr = ⟨e.key, first b₂, e.value⟩ := by
  have hchain := h.chains k
  rw [hb] at hchain
  rw [(chained_append.1 hchain).2.2.1, Option.or_none]

theorem Linked.next_mem (h : Linked ctx s g l) (he : e ∈ l) {a : E}
    (hnext : (s.entry e.addr).next = some a) : ∃ x ∈ l, x.addr = a := by
  have hmem : e ∈ bucket ctx.hash l (ctx.hash e.key) := mem_bucket.2 ⟨he, rfl⟩
  rcases List.append_of_mem hmem with ⟨b₁, b₂, hb⟩
  rw [h.next_eq hb] at hnext
  rcases Option.map_eq_some_iff.1 hnext with ⟨x, hx, rfl⟩
  have hxb : x ∈ bucket ctx.hash l (ctx.hash e.key) := by
    rw [hb]
    exact List.mem_append_right _ (List.mem_cons_of_mem _ (List.mem_of_mem_head? hx))
  exact ⟨x, (mem_bucket.1 hxb).1, rfl⟩

theorem Linked.exists_last (h : Linked ctx s g l) {k : H} (hk : bucket ctx.hash l k ≠ []) :
    ∃ x ∈ bucket ctx.hash l k, (s.entry x.addr).next = none := by
  rcases List.eq_nil_or_concat (bucket ctx.hash l k) with hnil | ⟨bs, x, hbs⟩
  · exact absurd hnil hk
  · rw [List.concat_eq_append] at hbs
    refine ⟨x, by rw [hbs]; simp, ?_⟩
    rw [h.next_eq hbs]
    rfl

end Chains

/-! ## Taking an entry out and putting it in -/

section Steps

variable [DecidableEq E] [DecidableEq P] [LinearOrder H] [Fintype E] [Fintype P]
  {ctx : HashMapContext H K} {s : HMap E P H K V} {g : BinaryTree (Item P H E)}
  {l : List (HItem E K V)} {e : HItem E K V}

def without (l : List (HItem E K V)) (e : HItem E K V) : List (HItem E K V) :=
  l.filter fun a => decide (a.addr ≠ e.addr)

/-- The entry `e` is out of the map; `es` is what is left of its chain. -/
structure Detached (ctx : HashMapContext H K) (s s' : HMap E P H K V)
    (g g' : BinaryTree (Item P H E)) (l : List (HItem E K V)) (e : HItem E K V)
    (es : List (HItem E K V)) : Prop where
  linked : Linked ctx s' g' (without l e)
  chain : bucket ctx.hash (without l e) (ctx.hash e.key) = es
  live : s'.live = s.live
  entries : Untouched s s' l e
  nodes : ∀ j, j.key ≠ ctx.hash e.key → (j ∈ inorder g' ↔ j ∈ inorder g)
  node : ctx.hash e.key ∈ (inorder g').map Item.key ↔ es ≠ []

theorem Linked.detach (h : Linked ctx s g l) {b₁ b₂ : List (HItem E K V)}
    (hb : bucket ctx.hash l (ctx.hash e.key) = b₁ ++ e :: b₂) :
    ∃ s' g', hashMapDetachEntry ctx s e.addr = .ok (.ok, s') ∧
      Detached ctx s s' g g' l e (b₁ ++ b₂) := by
  have hin : ∀ a ∈ b₁ ++ e :: b₂, a ∈ l := fun a ha => (mem_bucket.1 (hb.symm ▸ ha)).1
  have hel : e ∈ l := hin e (by simp)
  have hnd : (b₁ ++ e :: b₂).Nodup := hb ▸ h.nodup.filter _
  rcases h.node_of (k := ctx.hash e.key) (by simp [hb]) with ⟨i, hi, hik⟩
  rcases exists_place hi with ⟨cs, lt, rt, rfl⟩
  have hb' := hb
  rw [← hik] at hb'
  have hpass : ∀ a ∈ b₁, decide (a.addr = e.addr) = false := by
    intro a ha
    refine decide_eq_false fun haddr => ?_
    have hae := h.eq_of_addr (hin a (by simp [ha])) hel haddr
    exact (List.nodup_append.1 hnd).2.2 a ha e (by simp) hae
  rcases h.unchain hb' (fun entry _ => decide (entry = e.addr)) hpass (decide_eq_true rfl) with
    ⟨s', g', hrun, hu, hun, -, -⟩
  have hke : decide (e.addr ≠ e.addr) = false := by simp
  have hrest : ∀ a ∈ l, a ≠ e → decide (a.addr ≠ e.addr) = true := fun a ha hae =>
    decide_eq_true fun haddr => hae (h.eq_of_addr ha hel haddr)
  refine ⟨{ s' with size := s'.size - 1 }, plug cs g', ?_,
    ⟨hu.linked h hb hke hrest, ?_, hu.live, hun, hu.others, hu.node⟩⟩
  · have hread : s.read e.addr = .ok (s.entry e.addr) := by simp [HMap.read, (h.stored hel).1]
    have hlookup := Btree.lookup_some h.tree.tree h.tree.ordered hi
    rw [hik] at hlookup
    simp only [hashMapDetachEntry, hread, ok_bind, (h.stored hel).2.1, hlookup, hrun]
    rfl
  · rw [without, bucket_filter]
    exact filter_split hb (h.nodup.filter _) hke fun a ha => hrest a (mem_bucket.1 ha).1

def Room (ctx : HashMapContext H K) (s : HMap E P H K V) (l : List (HItem E K V))
    (e : HItem E K V) (node : Option P) : Prop :=
  bucket ctx.hash l (ctx.hash e.key) ≠ [] ∨ ∃ p, node = some p ∧ s.bucketTree.live p = false

/-- The entry `e` has come in: the map has it as well if it points nowhere, and all the entries that
were in its chain point somewhere. -/
structure Inserted (ctx : HashMapContext H K) (s s' : HMap E P H K V) (l : List (HItem E K V))
    (e : HItem E K V) : Prop where
  live : s'.live = s.live
  entries : ∀ a, (∀ x ∈ l, x.addr ≠ a) → s'.entry a = s.entry a
  linked : (s.entry e.addr).next = none → ∃ g', Linked ctx s' g' (l ++ [e])
  chain : ∀ x ∈ bucket ctx.hash l (ctx.hash e.key), (s'.entry x.addr).next ≠ none

theorem Linked.inserts (h : Linked ctx s g l) (he : Outside s l e)
    (hvalue : (s.entry e.addr).value = e.value) {node : Option P} (hroom : Room ctx s l e node) :
    ∃ s', hashMapInsertEntry ctx s e.addr node = .ok (.ok, s') ∧ Inserted ctx s s' l e := by
  have hentry (hnext : (s.entry e.addr).next = none) :
      s.entry e.addr = ⟨e.key, none, e.value⟩ := by
    rw [← hnext, ← he.key, ← hvalue]
  rcases List.eq_nil_or_concat (bucket ctx.hash l (ctx.hash e.key)) with hnil | ⟨bs, x, hbs⟩
  · rcases hroom.resolve_left fun hne => hne hnil with ⟨p, rfl, hp⟩
    rcases h.run_node he hnil hp with ⟨tree, g', hrun, htree⟩
    refine ⟨_, hrun, rfl, fun _ _ => rfl, fun hnext => ⟨g', ?_⟩, ?_⟩
    · exact h.append_node he (hentry hnext) hnil htree
    · intro x hx
      rw [hnil] at hx
      cases hx
  · rw [List.concat_eq_append] at hbs
    have hx : x ∈ l := (mem_bucket.1 (show x ∈ bucket ctx.hash l (ctx.hash e.key) by
      rw [hbs]; simp)).1
    refine ⟨_, h.run_tail he hbs node, rfl, ?_, fun hnext => ⟨g, ?_⟩, ?_⟩
    · exact fun a ha => Function.update_of_ne (ha x hx).symm _ _
    · exact h.append_tail he (hentry hnext) hbs
    · intro y hy
      by_cases hyx : y.addr = x.addr
      · simp [hyx]
      · -- an entry before the last one
        rcases List.append_of_mem hy with ⟨b₁, b₂, hb⟩
        have hnext : (s.entry y.addr).next = first b₂ := by rw [h.next_eq hb]
        simp only [Function.update_of_ne hyx, hnext]
        cases b₂ with
        | nil =>
          have hlast : (b₁ ++ [y]).getLast? = (bs ++ [x]).getLast? := by rw [← hb, hbs]
          have heq : y = x := by simpa using hlast
          exact absurd (congrArg HItem.addr heq) hyx
        | cons z b₂ => simp [first]

theorem Linked.refuses (h : Linked ctx s g l) (he : Outside s l e) {node : Option P}
    (hroom : ¬ Room ctx s l e node) :
    hashMapInsertEntry ctx s e.addr node = .ok (.err .ENOMEM, s) := by
  have hnil : bucket ctx.hash l (ctx.hash e.key) = [] := by
    by_contra hne
    exact hroom (Or.inl hne)
  refine h.run_fails he hnil fun p hp => ?_
  by_contra hfree
  exact hroom (Or.inr ⟨p, hp, by simpa using hfree⟩)

end Steps

section Guarantee

variable [LinearOrder H] {ctx : HashMapContext H K} {t : Maps E P H K V}
  {g gs gd : BinaryTree (Item P H E)} {s s' : HMap E P H K V} {l ls ld : List (HItem E K V)}
  {e : HItem E K V}

/-- The first map has the entries `ls` and the second one `ld`, and none of them is in both. -/
structure Holding (ctx : HashMapContext H K) (t : Maps E P H K V) (ls ld : List (HItem E K V)) :
    Prop where
  src : ∃ g l, l.Perm ls ∧ Linked ctx t.srcMap g l
  dst : ∃ g l, l.Perm ld ∧ Linked ctx t.dstMap g l
  apart : ∀ x ∈ ls, ∀ y ∈ ld, x.addr ≠ y.addr

variable [DecidableEq E]

/-- The entry `e` goes from the first map to the second, or an error leaves both as they were. -/
def Migrates (ctx : HashMapContext H K) (ls ld : List (HItem E K V)) (e : HItem E K V)
    (run : Except Fault (Ret × Maps E P H K V)) : Prop :=
  ∃ ret t', run = .ok (ret, t') ∧
    (ret = .ok → Holding ctx t' (without ls e) (ld ++ [e])) ∧ (ret ≠ .ok → Holding ctx t' ls ld)

/-- The entry `e` is the last one of its chain; and where there is no room for it in the second map
and it is alone in its chain, it gets a tree node of the first map again. -/
structure Movable (ctx : HashMapContext H K) (t : Maps E P H K V)
    (gs : BinaryTree (Item P H E)) (ls ld : List (HItem E K V)) (e : HItem E K V)
    (node back : Option P) : Prop where
  last : (bucket ctx.hash ls (ctx.hash e.key)).getLast? = some e
  back : ¬ Room ctx t.dstMap ld e node → bucket ctx.hash ls (ctx.hash e.key) = [e] →
    ∃ p, back = some p ∧ ∀ j ∈ inorder gs, j.addr = p → j.key = ctx.hash e.key

omit [LinearOrder H] in
theorem mem_without {x : HItem E K V} : x ∈ without l e ↔ x ∈ l ∧ x.addr ≠ e.addr := by
  simp [without]

theorem Linked.perm_without (h : Linked ctx s g l) (he : e ∈ l) :
    (without l e ++ [e]).Perm l := by
  rcases List.append_of_mem he with ⟨l₁, l₂, hl⟩
  have hrest : ∀ a ∈ l, a ≠ e → decide (a.addr ≠ e.addr) = true := fun a ha hae =>
    decide_eq_true fun haddr => hae (h.eq_of_addr ha he haddr)
  rw [without, filter_split hl h.nodup (by simp) hrest, hl]
  exact (List.perm_append_singleton e _).trans List.perm_middle.symm

theorem Detached.free_iff {g' : BinaryTree (Item P H E)} (h : Detached ctx s s' gs g' ls e [])
    (p : P) :
    s'.bucketTree.live p = false ↔ ∀ j ∈ inorder gs, j.addr = p → j.key = ctx.hash e.key := by
  rw [← Bool.not_eq_true, h.linked.tree.live, List.mem_map]
  constructor
  · intro hfree j hj hp
    by_contra hne
    exact hfree ⟨j, (h.nodes j hne).2 hj, hp⟩
  · rintro hnone ⟨j, hj, hp⟩
    by_cases hkey : j.key = ctx.hash e.key
    · exact h.node.1 (hkey ▸ List.mem_map_of_mem hj) rfl
    · exact hkey (hnone j ((h.nodes j hkey).1 hj) hp)

omit [DecidableEq E] in
theorem Linked.last_iff (h : Linked ctx s g l) {b₁ b₂ : List (HItem E K V)}
    (hb : bucket ctx.hash l (ctx.hash e.key) = b₁ ++ e :: b₂) :
    (bucket ctx.hash l (ctx.hash e.key)).getLast? = some e ↔ b₂ = [] := by
  have hnd : (b₁ ++ e :: b₂).Nodup := hb ▸ h.nodup.filter _
  rw [hb]
  constructor
  · intro hlast
    rcases List.eq_nil_or_concat b₂ with hnil | ⟨bs, x, rfl⟩
    · exact hnil
    · have hsnoc : b₁ ++ e :: (bs ++ [x]) = (b₁ ++ e :: bs) ++ [x] := by simp
      rw [List.concat_eq_append, hsnoc, List.getLast?_concat] at hlast
      obtain rfl : x = e := Option.some.inj hlast
      have hne := (List.nodup_cons.1 (List.nodup_append.1 hnd).2.1).1
      simp at hne
  · rintro rfl
    simp

omit [DecidableEq E] in
theorem Linked.beside (hd : Linked ctx t.dstMap gd ld)
    (hapart : ∀ x ∈ ls, ∀ y ∈ ld, x.addr ≠ y.addr) (hentries :
      ∀ a, (∀ x ∈ ls, x.addr ≠ a) → s'.entry a = t.entry a) (hlive : s'.live = t.live) :
    Linked ctx (t.setSrc s').dstMap gd ld :=
  hd.congr rfl rfl fun y hy => ⟨hentries y.addr fun x hx => hapart x hx y hy, congrFun hlive _⟩

section Moves

variable {b₁ b₂ : List (HItem E K V)} {g' : BinaryTree (Item P H E)}
  (hs : Linked ctx t.srcMap gs ls)
  (hb : bucket ctx.hash ls (ctx.hash e.key) = b₁ ++ e :: b₂)
  (hout : Detached ctx t.srcMap s' gs g' ls e (b₁ ++ b₂))

include hb

omit [DecidableEq E] in
theorem mem_of_chain {x : HItem E K V} (hx : x ∈ b₁ ++ e :: b₂) : x ∈ ls :=
  (mem_bucket.1 (hb.symm ▸ hx)).1

include hs hout

theorem detached_entry : s'.entry e.addr = ⟨e.key, first b₂, e.value⟩ := by
  have hel : e ∈ ls := mem_of_chain hb (by simp)
  rw [hout.entries e.addr fun x hx hxe haddr => hxe (hs.eq_of_addr hx hel haddr)]
  exact hs.next_eq hb

theorem detached_next_iff : (s'.entry e.addr).next = none ↔ b₂ = [] := by
  rw [detached_entry hs hb hout]
  cases b₂ <;> simp [first]

theorem moved_iff {d' : HMap E P H K V} (hapart : ∀ x ∈ ls, ∀ y ∈ ld, x.addr ≠ y.addr)
    (hins : Inserted ctx (t.setSrc s').dstMap d' ld e) :
    Holding ctx ((t.setSrc s').setDst d') (without ls e) (ld ++ [e]) ↔ b₂ = [] := by
  have hel : e ∈ ls := mem_of_chain hb (by simp)
  have hentries : ∀ x ∈ ls, d'.entry x.addr = s'.entry x.addr := fun x hx =>
    hins.entries x.addr fun y hy heq => hapart x hx y hy heq.symm
  constructor
  · intro hold
    rcases hold.dst with ⟨g, l, hperm, hlinked⟩
    cases hb2 : b₂ with
    | nil => rfl
    | cons a rest =>
      have ha : a ∈ ls := mem_of_chain hb (by simp [hb2])
      have hnext : (d'.entry e.addr).next = some a.addr := by
        rw [hentries e hel, detached_entry hs hb hout, hb2]
        rfl
      -- what it points to would have to be in the second map
      rcases hlinked.next_mem (hperm.mem_iff.2 (by simp)) hnext with ⟨x, hx, hxa⟩
      rcases List.mem_append.1 (hperm.mem_iff.1 hx) with hxd | hxe
      · exact absurd hxa.symm (hapart a ha x hxd)
      · obtain rfl : x = e := List.mem_singleton.1 hxe
        have hax := hs.eq_of_addr hel ha hxa
        have hnd : (b₁ ++ x :: b₂).Nodup := hb ▸ hs.nodup.filter _
        rw [hb2, ← hax] at hnd
        exact absurd (List.mem_cons_self ..)
          (List.nodup_cons.1 (List.nodup_append.1 hnd).2.1).1
  · intro hb2
    rcases hins.linked ((detached_next_iff hs hb hout).2 hb2) with ⟨gd', hlinked⟩
    refine ⟨⟨g', without ls e, List.Perm.refl _, ?_⟩, ⟨gd', ld ++ [e], List.Perm.refl _, hlinked⟩,
      ?_⟩
    · refine hout.linked.congr rfl rfl fun x hx => ⟨hentries x (mem_without.1 hx).1, ?_⟩
      exact congrFun hins.live _
    · intro x hx y hy
      rcases mem_without.1 hx with ⟨hxl, hxe⟩
      rcases List.mem_append.1 hy with hyd | hye
      · exact hapart x hxl y hyd
      · rw [List.mem_singleton.1 hye]
        exact hxe

theorem putBack_iff {s'' : HMap E P H K V} (hd : Linked ctx t.dstMap gd ld)
    (hapart : ∀ x ∈ ls, ∀ y ∈ ld, x.addr ≠ y.addr)
    (hins : Inserted ctx s' s'' (without ls e) e) :
    Holding ctx ((t.setSrc s').setSrc s'') ls ld ↔ b₂ = [] := by
  have hel : e ∈ ls := mem_of_chain hb (by simp)
  have hentry : s''.entry e.addr = s'.entry e.addr :=
    hins.entries e.addr fun x hx => (mem_without.1 hx).2
  constructor
  · intro hold
    rcases hold.src with ⟨g, l, hperm, hlinked⟩
    by_contra hb2
    -- no entry of the chain is its end
    have hloop : ∀ x ∈ b₁ ++ e :: b₂, (s''.entry x.addr).next ≠ none := by
      intro x hx
      by_cases hxe : x = e
      · rw [hxe, hentry]
        exact fun hnone => hb2 ((detached_next_iff hs hb hout).1 hnone)
      · refine hins.chain x ?_
        rw [hout.chain]
        rcases List.mem_append.1 hx with hx | hx
        · exact List.mem_append_left _ hx
        · exact List.mem_append_right _ ((List.mem_cons.1 hx).resolve_left hxe)
    have hmem : e ∈ bucket ctx.hash l (ctx.hash e.key) :=
      mem_bucket.2 ⟨hperm.mem_iff.2 hel, rfl⟩
    rcases hlinked.exists_last (List.ne_nil_of_mem hmem) with ⟨x, hx, hnone⟩
    rcases mem_bucket.1 hx with ⟨hxl, hxk⟩
    refine hloop x ?_ hnone
    rw [← hb]
    exact mem_bucket.2 ⟨hperm.mem_iff.1 hxl, hxk⟩
  · intro hb2
    rcases hins.linked ((detached_next_iff hs hb hout).2 hb2) with ⟨g'', hlinked⟩
    refine ⟨⟨g'', _, hs.perm_without hel, hlinked⟩, ⟨gd, ld, List.Perm.refl _, ?_⟩, hapart⟩
    refine hd.beside hapart (fun a ha => ?_) (hins.live.trans hout.live)
    rw [hins.entries a fun x hx => ha x (mem_without.1 hx).1]
    exact hout.entries a fun x hx _ => ha x hx

theorem not_holding_detached : ¬ Holding ctx (t.setSrc s') ls ld := by
  have hel : e ∈ ls := mem_of_chain hb (by simp)
  intro hold
  rcases hold.src with ⟨g, l, hperm, hlinked⟩
  have hsize : (without ls e).length = ls.length := by
    rw [← hout.linked.size, ← hperm.length_eq, ← hlinked.size]
    rfl
  have hlen := (hs.perm_without hel).length_eq
  rw [List.length_append, List.length_singleton] at hlen
  omega

end Moves

variable [DecidableEq P] [Fintype E] [Fintype P] [DecidableEq K]

/-- The entry has been found and taken out of the first map, and is nowhere. -/
structure Taken (ctx : HashMapContext H K) (t : Maps E P H K V) (gs gd : BinaryTree (Item P H E))
    (ls ld : List (HItem E K V)) (e : HItem E K V) (b₁ b₂ : List (HItem E K V))
    (s' : HMap E P H K V) (g' : BinaryTree (Item P H E)) : Prop where
  chain : bucket ctx.hash ls (ctx.hash e.key) = b₁ ++ e :: b₂
  lookup : hashMapLookupEntry ctx t.srcMap e.key = .ok (some e.addr)
  detach : hashMapDetachEntry ctx t.srcMap e.addr = .ok (.ok, s')
  out : Detached ctx t.srcMap s' gs g' ls e (b₁ ++ b₂)
  dst : Linked ctx (t.setSrc s').dstMap gd ld
  outDst : Outside (t.setSrc s').dstMap ld e
  outSrc : Outside s' (without ls e) e
  value : (s'.entry e.addr).value = e.value

section Migrate

variable (hcompare : ∀ a b, ctx.compare a b = true ↔ a = b) (hs : Linked ctx t.srcMap gs ls)
  (hd : Linked ctx t.dstMap gd ld) (hapart : ∀ x ∈ ls, ∀ y ∈ ld, x.addr ≠ y.addr) {key : K}
  (hfind : ls.find? (fun a => decide (a.key = key)) = some e)

include hcompare hs hd hapart hfind

theorem exists_taken :
    e.key = key ∧ ∃ b₁ b₂ s' g', Taken ctx t gs gd ls ld e b₁ b₂ s' g' := by
  rcases List.find?_eq_some_iff_append.1 hfind with ⟨hkey, l₁, l₂, hl, hfirst⟩
  obtain rfl : e.key = key := of_decide_eq_true hkey
  have hel : e ∈ ls := by simp [hl]
  obtain ⟨b₁, b₂, hb⟩ : ∃ b₁ b₂, bucket ctx.hash ls (ctx.hash e.key) = b₁ ++ e :: b₂ :=
    List.append_of_mem (mem_bucket.2 ⟨hel, rfl⟩)
  rcases hs.detach hb with ⟨s', g', hdetach, hout⟩
  have hentry := detached_entry hs hb hout
  have hkept : (s'.entry e.addr).key = e.key := congrArg HashEntry.key hentry
  have hlive : s'.live e.addr = true := by
    rw [hout.live]
    exact (hs.stored hel).1
  exact ⟨rfl, b₁, b₂, s', g', hb,
    hs.lookupEntry_some hcompare hl fun a ha => by simpa using hfirst a ha, hdetach, hout,
    hd.beside hapart (fun a ha => hout.entries a fun x hx _ => ha x hx) hout.live,
    ⟨hlive, hkept, fun y hy heq => hapart e hel y hy heq.symm⟩,
    ⟨hlive, hkept, fun x hx => (mem_without.1 hx).2⟩, congrArg HashEntry.value hentry⟩

theorem migrate_room_iff {node : Option P} (hroom : Room ctx t.dstMap ld e node)
    (back : Option P) :
    Migrates ctx ls ld e (hashMapMigrateEntry ctx t key node back) ↔
      (bucket ctx.hash ls (ctx.hash e.key)).getLast? = some e := by
  rcases exists_taken hcompare hs hd hapart hfind with ⟨rfl, b₁, b₂, s', g', h⟩
  rcases h.dst.inserts h.outDst h.value hroom with ⟨d', hinsert, hins⟩
  have hrun : hashMapMigrateEntry ctx t e.key node back =
      .ok (.ok, (t.setSrc s').setDst d') := by
    simp only [hashMapMigrateEntry, h.lookup, ok_bind, h.detach, hinsert]
    rfl
  rw [hrun, hs.last_iff h.chain, ← moved_iff hs h.chain h.out hapart hins]
  constructor
  · rintro ⟨ret, t', hrun', hok, -⟩
    cases hrun'
    exact hok rfl
  · exact fun hold => ⟨_, _, rfl, fun _ => hold, fun hne => absurd rfl hne⟩

theorem migrate_back_iff {node : Option P} (hroom : ¬ Room ctx t.dstMap ld e node)
    (back : Option P) :
    Migrates ctx ls ld e (hashMapMigrateEntry ctx t key node back) ↔
      (bucket ctx.hash ls (ctx.hash e.key)).getLast? = some e ∧
        (bucket ctx.hash ls (ctx.hash e.key) = [e] →
          ∃ p, back = some p ∧ ∀ j ∈ inorder gs, j.addr = p → j.key = ctx.hash e.key) := by
  rcases exists_taken hcompare hs hd hapart hfind with ⟨rfl, b₁, b₂, s', g', h⟩
  have hrefuse := h.dst.refuses h.outDst hroom
  have herr : (Ret.err .ENOMEM) ≠ .ok := by simp
  -- what is left to do on the first map
  have hrun {err : Ret} {s'' : HMap E P H K V}
      (hback : hashMapInsertEntry ctx s' e.addr back = .ok (err, s'')) :
      hashMapMigrateEntry ctx t e.key node back =
        .ok (.err .ENOMEM, (t.setSrc s').setSrc s'') := by
    have hback' : hashMapInsertEntry ctx
        ((t.setSrc s').setDst (t.setSrc s').dstMap).srcMap e.addr back = .ok (err, s'') := hback
    simp only [hashMapMigrateEntry, h.lookup, ok_bind, h.detach, hrefuse, hback']
    rfl
  by_cases hroom' : Room ctx s' (without ls e) e back
  · rcases h.out.linked.inserts h.outSrc h.value hroom' with ⟨s'', hinsert, hins⟩
    have hput := putBack_iff hs h.chain h.out hd hapart hins
    rw [hrun hinsert, hs.last_iff h.chain]
    constructor
    · rintro ⟨ret, t', hrun', -, hfail⟩
      cases hrun'
      have hb2 := hput.1 (hfail herr)
      refine ⟨hb2, fun halone => ?_⟩
      have hnil : b₁ ++ b₂ = [] := by
        rw [h.chain, hb2] at halone
        have hb1 : b₁ = [] := by simpa using halone
        rw [hb1, hb2]
        rfl
      have hout := h.out
      rw [hnil] at hout
      rcases hroom'.resolve_left fun hne => hne hout.chain with ⟨p, hp, hfree⟩
      exact ⟨p, hp, (hout.free_iff p).1 hfree⟩
    · rintro ⟨hb2, -⟩
      exact ⟨_, _, rfl, fun hok => absurd hok herr, fun _ => hput.2 hb2⟩
  · have hnil : b₁ ++ b₂ = [] := by
      by_contra hne
      exact hroom' (Or.inl (by rw [h.out.chain]; exact hne))
    rw [hrun (h.out.linked.refuses h.outSrc hroom')]
    constructor
    · rintro ⟨ret, t', hrun', -, hfail⟩
      cases hrun'
      have hlost : ¬ Holding ctx (t.setSrc s') ls ld := not_holding_detached hs h.chain h.out
      exact absurd (hfail herr) hlost
    · rintro ⟨-, hback⟩
      rcases List.append_eq_nil_iff.1 hnil with ⟨rfl, rfl⟩
      rcases hback h.chain with ⟨p, hp, hfree⟩
      exact absurd (Or.inr ⟨p, hp, (h.out.free_iff p).2 hfree⟩) hroom'

/-- `hashMap_migrate_entry` moves the entry, or leaves both maps as they were, exactly if the entry
is the last one of its chain and can be put back. -/
theorem migrate_iff (node back : Option P) :
    Migrates ctx ls ld e (hashMapMigrateEntry ctx t key node back) ↔
      Movable ctx t gs ls ld e node back := by
  by_cases hroom : Room ctx t.dstMap ld e node
  · rw [migrate_room_iff hcompare hs hd hapart hfind hroom back]
    exact ⟨fun hlast => ⟨hlast, fun hno => absurd hroom hno⟩, Movable.last⟩
  · rw [migrate_back_iff hcompare hs hd hapart hfind hroom back]
    exact ⟨fun h => ⟨h.1, fun _ => h.2⟩, fun h => ⟨h.last, h.back hroom⟩⟩

end Migrate

/-! ## Two keys with one hash -/

def besideEmpty (s : HMap E P H K V) (nodes : P → BtreeNode P Unit H E) : Maps E P H K V :=
  ⟨s.entry, s.live, ⟨s.size, s.bucketTree⟩, ⟨0, btreeInit nodes⟩⟩

omit [DecidableEq E] [DecidableEq P] [Fintype E] [Fintype P] [DecidableEq K] in
theorem linked_empty (s : HMap E P H K V) (nodes : P → BtreeNode P Unit H E) :
    Linked ctx (besideEmpty s nodes).dstMap .nil [] :=
  (holds_init s.entry nodes).toLinked.congr rfl rfl fun _ ha => absurd ha (by simp)

end Guarantee

theorem migrate_second :
    let ctx : HashMapContext Nat Nat := ⟨fun k => k % 2, fun a b => decide (a = b)⟩
    let nodes : Fin 1 → BtreeNode (Fin 1) Unit Nat (Fin 2) :=
      fun _ => ⟨0, 0, none, none, none, none⟩
    let s₀ : HMap (Fin 2) (Fin 1) Nat Nat Bool := hashMapInit (fun _ => ⟨0, none, none⟩) nodes
    let ls : List (HItem (Fin 2) Nat Bool) := [⟨0, 1, some true⟩, ⟨1, 3, some false⟩]
    ∃ s₁ s₂, hashMapInsert ctx s₀ 1 (some true) (some 0) .ok (some 0) = .ok (.ok, s₁) ∧
      hashMapInsert ctx s₁ 3 (some false) (some 1) .ok none = .ok (.ok, s₂) ∧
      Migrates ctx ls [] ⟨1, 3, some false⟩
        (hashMapMigrateEntry ctx (besideEmpty s₂ nodes) 3 (some 0) none) := by
  intro ctx nodes s₀ ls
  have hcompare : ∀ a b, ctx.compare a b = true ↔ a = b := by simp [ctx]
  have hkeeps : Keeps ctx s₀ .nil ⟨[], []⟩ := ⟨(holds_init _ _).toStored, by simp [nodesOf]⟩
  rcases hkeeps.insert 1 (some true) (some 0) .ok (some 0) with ⟨s₁, g₁, hrun₁, hkeeps₁⟩
  rcases hkeeps₁.insert 3 (some false) (some 1) .ok none with ⟨s₂, g₂, hrun₂, hkeeps₂⟩
  have hs : Linked ctx (besideEmpty s₂ nodes).srcMap g₂ ls := hkeeps₂.stored.toLinked
  refine ⟨s₁, s₂, hrun₁, hrun₂, ?_⟩
  exact (migrate_iff hcompare hs (linked_empty s₂ nodes) (by simp) (by decide) _ _).2
    ⟨by decide, fun hno => absurd (Or.inr ⟨0, rfl, rfl⟩) hno⟩

/-- When the first one moves, the other map leads on to the second one. -/
theorem migrate_first_shared :
    let ctx : HashMapContext Nat Nat := ⟨fun k => k % 2, fun a b => decide (a = b)⟩
    let nodes : Fin 1 → BtreeNode (Fin 1) Unit Nat (Fin 2) :=
      fun _ => ⟨0, 0, none, none, none, none⟩
    let s₀ : HMap (Fin 2) (Fin 1) Nat Nat Bool := hashMapInit (fun _ => ⟨0, none, none⟩) nodes
    let ls : List (HItem (Fin 2) Nat Bool) := [⟨0, 1, some true⟩, ⟨1, 3, some false⟩]
    ∃ s₁ s₂, hashMapInsert ctx s₀ 1 (some true) (some 0) .ok (some 0) = .ok (.ok, s₁) ∧
      hashMapInsert ctx s₁ 3 (some false) (some 1) .ok none = .ok (.ok, s₂) ∧
      ¬ Migrates ctx ls [] ⟨0, 1, some true⟩
        (hashMapMigrateEntry ctx (besideEmpty s₂ nodes) 1 (some 0) none) := by
  intro ctx nodes s₀ ls
  have hcompare : ∀ a b, ctx.compare a b = true ↔ a = b := by simp [ctx]
  have hkeeps : Keeps ctx s₀ .nil ⟨[], []⟩ := ⟨(holds_init _ _).toStored, by simp [nodesOf]⟩
  rcases hkeeps.insert 1 (some true) (some 0) .ok (some 0) with ⟨s₁, g₁, hrun₁, hkeeps₁⟩
  rcases hkeeps₁.insert 3 (some false) (some 1) .ok none with ⟨s₂, g₂, hrun₂, hkeeps₂⟩
  have hs : Linked ctx (besideEmpty s₂ nodes).srcMap g₂ ls := hkeeps₂.stored.toLinked
  refine ⟨s₁, s₂, hrun₁, hrun₂, fun hmig => ?_⟩
  have hlast := (migrate_room_iff hcompare hs (linked_empty s₂ nodes) (by simp) (by decide)
    (Or.inr ⟨0, rfl, rfl⟩) none).1 hmig
  exact absurd hlast (by decide)

end HashMap
end Ds
end XytherOS
