import Mathlib.Data.List.Find
import XytherOS.Ds.BtreeRefine
import XytherOS.Ds.HashMap

/-!
# HashMapChain — the chains of a hash map

The entries of the map are a list, in the order in which they came in; the chain of a hash is the
part of the list with that hash.  `Holds ctx s g l` says that the memory holds the entries `l` with
the bucket tree `g`: one tree node for every hash that occurs, and at it the head of the chain.
-/

namespace XytherOS
namespace Ds
namespace HashMap

open Btree SearchTree

variable {E P H K V : Type}

/-! ## Chains -/

structure HItem (E K V : Type) where
  addr : E
  key : K
  value : Option V
  deriving DecidableEq

def first (es : List (HItem E K V)) : Option E := es.head?.map HItem.addr

def Chained (s : HMap E P H K V) : List (HItem E K V) → Option E → Prop
  | [], _ => True
  | e :: es, rest =>
    s.live e.addr = true ∧ s.entry e.addr = ⟨e.key, (first es).or rest, e.value⟩ ∧
      Chained s es rest

theorem first_append (es es' : List (HItem E K V)) :
    first (es ++ es') = (first es).or (first es') := by
  cases es <;> simp [first]

variable {es : List (HItem E K V)} {rest : Option E} {s' : HMap E P H K V}

theorem chained_append {s : HMap E P H K V} {es' : List (HItem E K V)} :
    Chained s (es ++ es') rest ↔ Chained s es ((first es').or rest) ∧ Chained s es' rest := by
  induction es with
  | nil => simp [Chained]
  | cons e es ih =>
    simp only [List.cons_append, Chained, ih, first_append, Option.or_assoc]
    tauto

theorem Chained.congr {s : HMap E P H K V}
    (h : Chained s es rest)
    (hs : ∀ e ∈ es, s'.entry e.addr = s.entry e.addr ∧ s'.live e.addr = s.live e.addr) :
    Chained s' es rest := by
  induction es with
  | nil => trivial
  | cons e es ih =>
    rcases h with ⟨hlive, hentry, hrest⟩
    have he := hs e (by simp)
    refine ⟨he.2.trans hlive, he.1.trans hentry, ih hrest ?_⟩
    intro a ha
    exact hs a (List.mem_cons_of_mem _ ha)

theorem Chained.stored {s : HMap E P H K V}
    (h : Chained s es rest) {e : HItem E K V} (he : e ∈ es) :
    s.live e.addr = true ∧ (s.entry e.addr).key = e.key ∧ (s.entry e.addr).value = e.value := by
  induction es with
  | nil => simp at he
  | cons a es ih =>
    rcases h with ⟨hlive, hentry, hrest⟩
    rcases List.mem_cons.1 he with rfl | he
    · exact ⟨hlive, by rw [hentry], by rw [hentry]⟩
    · exact ih hrest he

theorem Chained.retail {s : HMap E P H K V} {x : HItem E K V}
    {rest' : Option E} (h : Chained s (es ++ [x]) rest)
    (hx : s'.entry x.addr = { s.entry x.addr with next := rest' })
    (hlive : ∀ e ∈ es ++ [x], s'.live e.addr = s.live e.addr)
    (hs : ∀ e ∈ es, s'.entry e.addr = s.entry e.addr) : Chained s' (es ++ [x]) rest' := by
  rcases chained_append.1 h with ⟨hes, hlx, hex, _⟩
  refine chained_append.2 ⟨?_, ?_, ?_, trivial⟩
  · have hfirst : (first [x]).or rest = (first [x]).or rest' := by simp [first]
    rw [hfirst] at hes
    refine hes.congr ?_
    intro e he
    exact ⟨hs e he, hlive e (List.mem_append_left _ he)⟩
  · rw [hlive x (by simp)]
    exact hlx
  · rw [hx, hex]
    simp [first]

theorem Chained.map {s : HMap E P H K V}
    (f : HItem E K V → HItem E K V) (hf : ∀ e, (f e).addr = e.addr ∧ (f e).key = e.key)
    (h : Chained s es rest)
    (hs : ∀ e ∈ es, s'.live e.addr = s.live e.addr ∧
      s'.entry e.addr = { s.entry e.addr with value := (f e).value }) :
    Chained s' (es.map f) rest := by
  induction es with
  | nil => trivial
  | cons e es ih =>
    rcases h with ⟨hlive, hentry, hrest⟩
    have he := hs e (by simp)
    have hfirst : first (es.map f) = first es := by
      cases es with
      | nil => rfl
      | cons a as => simp [first, (hf a).1]
    refine ⟨?_, ?_, ih hrest fun a ha => hs a (List.mem_cons_of_mem _ ha)⟩
    · rw [(hf e).1, he.1, hlive]
    · rw [(hf e).1, (hf e).2, he.2, hentry, hfirst]

section Seek

variable {s : HMap E P H K V} (test : E → HashEntry E K V → Bool)

theorem seek_none {es : List (HItem E K V)} (h : Chained s es none)
    (hes : ∀ e ∈ es, test e.addr (s.entry e.addr) = false) (last : Option E) {n : Nat}
    (hn : es.length ≤ n) :
    s.seek test n last (first es) = .ok ((es.getLast?.map HItem.addr).or last, none) := by
  induction es generalizing last n with
  | nil => cases n <;> rfl
  | cons e es ih =>
    cases n with
    | zero => simp at hn
    | succ n =>
      rcases h with ⟨hlive, hentry, hrest⟩
      have hpass := hes e (by simp)
      have hnext : (s.entry e.addr).next = first es := by
        rw [hentry, Option.or_none]
      have hloop := ih hrest (fun a ha => hes a (List.mem_cons_of_mem _ ha)) (some e.addr)
        (by simpa using hn)
      have hstep : s.seek test (n + 1) last (first (e :: es)) =
          s.seek test n (some e.addr) (first es) := by
        simp [first, HMap.seek, HMap.read, hlive, hpass, hnext]
      rw [hstep, hloop]
      cases es with
      | nil => simp
      | cons a as => simp [List.getLast?_cons]

theorem seek_some {es es' : List (HItem E K V)} {e : HItem E K V}
    (h : Chained s (es ++ e :: es') none)
    (hes : ∀ a ∈ es, test a.addr (s.entry a.addr) = false)
    (he : test e.addr (s.entry e.addr) = true) (last : Option E) {n : Nat}
    (hn : (es ++ e :: es').length ≤ n) :
    s.seek test n last (first (es ++ e :: es')) =
      .ok ((es.getLast?.map HItem.addr).or last, some e.addr) := by
  induction es generalizing last n with
  | nil =>
    cases n with
    | zero => simp at hn
    | succ n =>
      rcases h with ⟨hlive, _, _⟩
      simp [first, HMap.seek, HMap.read, hlive, he]
  | cons a es ih =>
    cases n with
    | zero => simp at hn
    | succ n =>
      rcases h with ⟨hlive, hentry, hrest⟩
      have hpass := hes a (by simp)
      have hnext : (s.entry a.addr).next = first (es ++ e :: es') := by
        rw [hentry, Option.or_none]
        rfl
      have hloop := ih hrest (fun b hb => hes b (List.mem_cons_of_mem _ hb)) (some a.addr)
        (by simpa using hn)
      have hstep : s.seek test (n + 1) last (first (a :: es ++ e :: es')) =
          s.seek test n (some a.addr) (first (es ++ e :: es')) := by
        simp [first, HMap.seek, HMap.read, hlive, hpass, hnext]
      rw [hstep, hloop]
      cases es with
      | nil => simp
      | cons b bs => simp [List.getLast?_cons]

end Seek

/-! ## Buckets -/

section Bucket

variable [DecidableEq H] {hash : K → H}

def bucket (hash : K → H) (l : List (HItem E K V)) (h : H) : List (HItem E K V) :=
  l.filter fun e => decide (hash e.key = h)

theorem mem_bucket {l : List (HItem E K V)} {h : H} {e : HItem E K V} :
    e ∈ bucket hash l h ↔ e ∈ l ∧ hash e.key = h := by
  simp [bucket]

theorem bucket_append (l l' : List (HItem E K V)) (h : H) :
    bucket hash (l ++ l') h = bucket hash l h ++ bucket hash l' h := by
  simp [bucket]

theorem bucket_filter (l : List (HItem E K V)) (keep : HItem E K V → Bool) (h : H) :
    bucket hash (l.filter keep) h = (bucket hash l h).filter keep := by
  simp [bucket, Bool.and_comm]

theorem bucket_map (l : List (HItem E K V)) (f : HItem E K V → HItem E K V)
    (hf : ∀ e, (f e).key = e.key) (h : H) :
    bucket hash (l.map f) h = (bucket hash l h).map f := by
  induction l with
  | nil => rfl
  | cons e l ih =>
    simp only [bucket] at ih
    by_cases he : hash e.key = h <;> simp [bucket, hf, he, ih]

end Bucket

/-- The memory holds the entries `l`, and `g` is the bucket tree. -/
structure Holds [LinearOrder H] (ctx : HashMapContext H K) (s : HMap E P H K V)
    (g : BinaryTree (Item P H E)) (l : List (HItem E K V)) : Prop where
  tree : Btree.Holds s.bucketTree () g (inorder g)
  buckets : ∀ h, h ∈ (inorder g).map Item.key ↔ bucket ctx.hash l h ≠ []
  heads : ∀ i ∈ inorder g, some i.data = first (bucket ctx.hash l i.key)
  chains : ∀ h, Chained s (bucket ctx.hash l h) none
  size : s.size = l.length
  keys : (l.map HItem.key).Nodup
  live : ∀ e, s.live e = true ↔ e ∈ l.map HItem.addr

/-- The same without a word about the keys: several entries may have one key. -/
structure Stored [LinearOrder H] (ctx : HashMapContext H K) (s : HMap E P H K V)
    (g : BinaryTree (Item P H E)) (l : List (HItem E K V)) : Prop where
  tree : Btree.Holds s.bucketTree () g (inorder g)
  buckets : ∀ h, h ∈ (inorder g).map Item.key ↔ bucket ctx.hash l h ≠ []
  heads : ∀ i ∈ inorder g, some i.data = first (bucket ctx.hash l i.key)
  chains : ∀ h, Chained s (bucket ctx.hash l h) none
  size : s.size = l.length
  addrs : (l.map HItem.addr).Nodup
  live : ∀ e, s.live e = true ↔ e ∈ l.map HItem.addr

structure Linked [LinearOrder H] (ctx : HashMapContext H K) (s : HMap E P H K V)
    (g : BinaryTree (Item P H E)) (l : List (HItem E K V)) : Prop where
  tree : Btree.Holds s.bucketTree () g (inorder g)
  buckets : ∀ h, h ∈ (inorder g).map Item.key ↔ bucket ctx.hash l h ≠ []
  heads : ∀ i ∈ inorder g, some i.data = first (bucket ctx.hash l i.key)
  chains : ∀ h, Chained s (bucket ctx.hash l h) none
  size : s.size = l.length
  addrs : (l.map HItem.addr).Nodup

section Holds

variable [LinearOrder H] {ctx : HashMapContext H K} {s : HMap E P H K V}
  {g : BinaryTree (Item P H E)} {l : List (HItem E K V)}

theorem holds_init (entries : E → HashEntry E K V) (nodes : P → BtreeNode P Unit H E) :
    Holds ctx (hashMapInit entries nodes) .nil [] where
  tree := Btree.holds_init nodes ()
  buckets _ := by simp [bucket]
  heads _ hi := by simp at hi
  chains _ := trivial
  size := rfl
  keys := List.nodup_nil
  live _ := by simp [hashMapInit]

theorem Holds.stored (h : Holds ctx s g l) {e : HItem E K V} (he : e ∈ l) :
    s.live e.addr = true ∧ (s.entry e.addr).key = e.key ∧ (s.entry e.addr).value = e.value :=
  (h.chains (ctx.hash e.key)).stored (mem_bucket.2 ⟨he, rfl⟩)

variable {k : H} {a b : HItem E K V}

theorem Holds.eq_of_key (h : Holds ctx s g l) (ha : a ∈ l) (hb : b ∈ l)
    (hab : a.key = b.key) : a = b :=
  List.inj_on_of_nodup_map h.keys ha hb hab

theorem Holds.toStored (h : Holds ctx s g l) : Stored ctx s g l where
  tree := h.tree
  buckets := h.buckets
  heads := h.heads
  chains := h.chains
  size := h.size
  addrs := by
    refine List.pairwise_map.2 (List.Pairwise.imp_of_mem ?_ (List.pairwise_map.1 h.keys))
    intro a b ha hb hne hab
    exact hne (by rw [← (h.stored ha).2.1, ← (h.stored hb).2.1, hab])
  live := h.live

theorem Stored.toHolds (h : Stored ctx s g l) (hkeys : (l.map HItem.key).Nodup) :
    Holds ctx s g l :=
  ⟨h.tree, h.buckets, h.heads, h.chains, h.size, hkeys, h.live⟩

theorem Stored.toLinked (h : Stored ctx s g l) : Linked ctx s g l :=
  ⟨h.tree, h.buckets, h.heads, h.chains, h.size, h.addrs⟩

theorem Holds.toLinked (h : Holds ctx s g l) : Linked ctx s g l :=
  h.toStored.toLinked

theorem Linked.stored (h : Linked ctx s g l) {e : HItem E K V} (he : e ∈ l) :
    s.live e.addr = true ∧ (s.entry e.addr).key = e.key ∧ (s.entry e.addr).value = e.value :=
  (h.chains (ctx.hash e.key)).stored (mem_bucket.2 ⟨he, rfl⟩)

theorem Linked.eq_of_addr (h : Linked ctx s g l) (ha : a ∈ l) (hb : b ∈ l)
    (hab : a.addr = b.addr) : a = b :=
  List.inj_on_of_nodup_map h.addrs ha hb hab

theorem Holds.eq_of_addr (h : Holds ctx s g l) (ha : a ∈ l) (hb : b ∈ l)
    (hab : a.addr = b.addr) : a = b :=
  h.toLinked.eq_of_addr ha hb hab

theorem Linked.nodup (h : Linked ctx s g l) : l.Nodup :=
  List.Nodup.of_map _ h.addrs

theorem Linked.length_le [Fintype E] (h : Linked ctx s g l) : l.length ≤ Fintype.card E := by
  simpa using h.addrs.length_le_card

theorem Linked.bucket_length_le [Fintype E] (h : Linked ctx s g l) (k : H) :
    (bucket ctx.hash l k).length ≤ Fintype.card E :=
  (List.length_filter_le _ _).trans h.length_le

theorem Holds.bucket_length_le [Fintype E] (h : Holds ctx s g l) (k : H) :
    (bucket ctx.hash l k).length ≤ Fintype.card E :=
  h.toLinked.bucket_length_le k

theorem Linked.node_of (h : Linked ctx s g l) (hk : bucket ctx.hash l k ≠ []) :
    ∃ i ∈ inorder g, i.key = k :=
  List.mem_map.1 ((h.buckets k).2 hk)

theorem Holds.node_of (h : Holds ctx s g l) (hk : bucket ctx.hash l k ≠ []) :
    ∃ i ∈ inorder g, i.key = k :=
  h.toLinked.node_of hk

theorem Linked.no_node (h : Linked ctx s g l) (hk : bucket ctx.hash l k = []) :
    ∀ i ∈ inorder g, i.key ≠ k := by
  rintro i hi rfl
  exact (h.buckets i.key).1 (List.mem_map_of_mem hi) hk

theorem Holds.no_node (h : Holds ctx s g l) (hk : bucket ctx.hash l k = []) :
    ∀ i ∈ inorder g, i.key ≠ k :=
  h.toLinked.no_node hk

/-! ## Searching -/

section Search

variable [DecidableEq P] [Fintype P]

variable {e : HItem E K V}

omit [DecidableEq P] in
theorem Linked.search_some (h : Linked ctx s g l) {k : H}
    {es : List (HItem E K V)} (hk : bucket ctx.hash l k = e :: es) :
    btreeSearch s.bucketTree () k = .ok (.ok, some e.addr) := by
  rcases h.node_of (k := k) (by simp [hk]) with ⟨i, hi, rfl⟩
  have hhead := h.heads i hi
  rw [hk] at hhead
  have hdata : i.data = e.addr := by simpa [first] using hhead
  rw [Btree.search_some h.tree.tree h.tree.ordered hi, hdata]

omit [DecidableEq P] in
theorem Linked.search_none (h : Linked ctx s g l) {k : H} (hk : bucket ctx.hash l k = []) :
    btreeSearch s.bucketTree () k = .ok (.err .ENOENT, none) :=
  Btree.search_none h.tree.tree h.tree.ordered (h.no_node hk)

variable [Fintype E] (hcompare : ∀ a b, ctx.compare a b = true ↔ a = b)

include hcompare

omit [DecidableEq P] in
theorem Linked.lookupEntry_some (h : Linked ctx s g l)
    {l₁ l₂ : List (HItem E K V)} (hl : l = l₁ ++ e :: l₂) (hfirst : ∀ a ∈ l₁, a.key ≠ e.key) :
    hashMapLookupEntry ctx s e.key = .ok (some e.addr) := by
  have he : e ∈ l := by simp [hl]
  have hsplit : bucket ctx.hash l (ctx.hash e.key) =
      bucket ctx.hash l₁ (ctx.hash e.key) ++ e :: bucket ctx.hash l₂ (ctx.hash e.key) := by
    simp [hl, bucket]
  have hchain := h.chains (ctx.hash e.key)
  have hlen := h.bucket_length_le (ctx.hash e.key)
  rw [hsplit] at hchain hlen
  -- No entry before it in the chain has its key.
  have hbefore : ∀ a ∈ bucket ctx.hash l₁ (ctx.hash e.key),
      ctx.compare (s.entry a.addr).key e.key = false := by
    intro a ha
    have hal : a ∈ l₁ := (mem_bucket.1 ha).1
    refine Bool.eq_false_iff.2 ?_
    intro hc
    rw [(h.stored (e := a) (by simp [hl, hal])).2.1] at hc
    exact hfirst a hal ((hcompare _ _).1 hc)
  have hat : ctx.compare (s.entry e.addr).key e.key = true := by
    rw [(h.stored he).2.1]
    exact (hcompare _ _).2 rfl
  have hseek := seek_some (fun _ n => ctx.compare n.key e.key) hchain hbefore hat none hlen
  cases hes : bucket ctx.hash l₁ (ctx.hash e.key) ++ e :: bucket ctx.hash l₂ (ctx.hash e.key) with
  | nil => simp at hes
  | cons a as =>
    rw [hes] at hsplit hseek
    have hhead : HashMap.first (a :: as) = some a.addr := rfl
    rw [hhead] at hseek
    simp only [hashMapLookupEntry, h.search_some hsplit, ok_bind, hseek]
    rfl

omit [DecidableEq P] in
theorem Linked.lookupEntry_none (h : Linked ctx s g l) {key : K} (hno : ∀ e ∈ l, e.key ≠ key) :
    hashMapLookupEntry ctx s key = .ok none := by
  cases hb : bucket ctx.hash l (ctx.hash key) with
  | nil => simp [hashMapLookupEntry, h.search_none hb]
  | cons e es =>
    have hpass : ∀ a ∈ bucket ctx.hash l (ctx.hash key),
        ctx.compare (s.entry a.addr).key key = false := by
      intro a ha
      have hal := (mem_bucket.1 ha).1
      refine Bool.eq_false_iff.2 ?_
      intro hc
      refine hno a hal ?_
      rw [← (h.stored hal).2.1]
      exact (hcompare _ _).1 hc
    have hseek := seek_none (fun _ n => ctx.compare n.key key) (h.chains (ctx.hash key))
      hpass none (h.bucket_length_le _)
    rw [hb] at hseek
    have hfirst : first (e :: es) = some e.addr := rfl
    rw [hfirst] at hseek
    simp only [hashMapLookupEntry, h.search_some hb, ok_bind, hseek]
    rfl

omit [DecidableEq P] in
theorem Holds.lookupEntry_some (h : Holds ctx s g l) (he : e ∈ l) :
    hashMapLookupEntry ctx s e.key = .ok (some e.addr) := by
  rcases List.append_of_mem he with ⟨l₁, l₂, hl⟩
  refine h.toLinked.lookupEntry_some hcompare hl fun a ha hkey => ?_
  have hnd := h.keys
  rw [hl, List.map_append, List.nodup_append] at hnd
  exact hnd.2.2 a.key (List.mem_map_of_mem ha) e.key (by simp) hkey

end Search

end Holds

end HashMap
end Ds
end XytherOS
