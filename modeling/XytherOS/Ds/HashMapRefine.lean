import XytherOS.Ds.HashMapOps

/-!
# HashMapRefine — hash maps are finite maps

`mapCall` says what each call does to the entries of a finite map.  The addresses that the calls
offer for entries and tree nodes may be in use already, so the abstract map also lists the tree
nodes; which node a hash has does not matter otherwise.
-/

namespace XytherOS
namespace Ds
namespace HashMap

open Btree SearchTree

variable {E P H K V : Type} [DecidableEq E] [DecidableEq P] [LinearOrder H] [DecidableEq K]

/-! ## The finite map -/

structure MapState (E P H K V : Type) where
  entries : List (HItem E K V)
  nodes : List (P × H)

def MapState.restrict (hash : K → H) (m : MapState E P H K V) (keep : HItem E K V → Bool) :
    MapState E P H K V :=
  { entries := m.entries.filter keep
    nodes := m.nodes.filter fun n => !(bucket hash (m.entries.filter keep) n.2).isEmpty }

def mapInsert (hash : K → H) (m : MapState E P H K V) (key : K) (value : Option V)
    (place : Option E) (copy : Ret) (node : Option P) : Ret × MapState E P H K V :=
  match place.filter fun e => decide (e ∉ m.entries.map HItem.addr) with
  | none => (.err .ENOMEM, m)
  | some e =>
    if copy ≠ .ok then (copy, m)
    else if (bucket hash m.entries (hash key)).isEmpty then
      match node.filter fun p => decide (p ∉ m.nodes.map Prod.fst) with
      | none => (.err .ENOMEM, m)
      | some p => (.ok, ⟨m.entries ++ [⟨e, key, value⟩], (p, hash key) :: m.nodes⟩)
    else (.ok, { m with entries := m.entries ++ [⟨e, key, value⟩] })

def MapState.find (m : MapState E P H K V) (key : K) : Option (HItem E K V) :=
  m.entries.find? fun e => decide (e.key = key)

def mapLookup (m : MapState E P H K V) (key : K) : Reply V :=
  match m.find key with
  | none => ⟨.err .ENOENT, none⟩
  | some e => ⟨.ok, e.value⟩

def mapCall (hash : K → H) (m : MapState E P H K V) :
    HCall E P K V → Reply V × MapState E P H K V
  | .insert key value place copy node =>
    (⟨(mapInsert hash m key value place copy node).1, none⟩,
      (mapInsert hash m key value place copy node).2)
  | .update key newValue =>
    if newValue.isNone then (⟨.err .EINVAL, none⟩, m)
    else
      match m.find key with
      | none => (⟨.err .ENOENT, none⟩, m)
      | some _ =>
        (⟨.ok, none⟩, { m with entries := m.entries.map (setValue key newValue) })
  | .remove key =>
    match m.find key with
    | none => (⟨.err .ENOENT, none⟩, m)
    | some _ => (⟨.ok, none⟩, m.restrict hash fun e => decide (e.key ≠ key))
  | .removeEntry entry => (⟨.ok, none⟩, m.restrict hash fun e => decide (e.addr ≠ entry))
  | .lookup key => (mapLookup m key, m)
  | .flush => (⟨.ok, none⟩, ⟨[], []⟩)

def mapRun (hash : K → H) (m : MapState E P H K V) :
    List (HCall E P K V) → List (Reply V) × MapState E P H K V
  | [] => ([], m)
  | c :: cs =>
    ((mapCall hash m c).1 :: (mapRun hash (mapCall hash m c).2 cs).1,
      (mapRun hash (mapCall hash m c).2 cs).2)

/-- The keys that are inserted are not present, the entries that are removed are. -/
def Allowed (m : MapState E P H K V) : HCall E P K V → Prop
  | .insert key _ _ _ _ => key ∉ m.entries.map HItem.key
  | .removeEntry entry => entry ∈ m.entries.map HItem.addr
  | _ => True

def AllowedRun (hash : K → H) (m : MapState E P H K V) : List (HCall E P K V) → Prop
  | [] => True
  | c :: cs => Allowed m c ∧ AllowedRun hash (mapCall hash m c).2 cs

instance (m : MapState E P H K V) : (c : HCall E P K V) → Decidable (Allowed m c)
  | .insert key _ _ _ _ => inferInstanceAs (Decidable (key ∉ m.entries.map HItem.key))
  | .removeEntry entry => inferInstanceAs (Decidable (entry ∈ m.entries.map HItem.addr))
  | .update _ _ => isTrue trivial
  | .remove _ => isTrue trivial
  | .lookup _ => isTrue trivial
  | .flush => isTrue trivial

instance decidableAllowedRun (hash : K → H) :
    (m : MapState E P H K V) → (cs : List (HCall E P K V)) → Decidable (AllowedRun hash m cs)
  | _, [] => isTrue trivial
  | m, c :: cs =>
    have := decidableAllowedRun hash (mapCall hash m c).2 cs
    inferInstanceAs (Decidable (Allowed m c ∧ AllowedRun hash (mapCall hash m c).2 cs))

def nodesOf (g : BinaryTree (Item P H E)) : List (P × H) :=
  (inorder g).map fun i => (i.addr, i.key)

structure Refines (ctx : HashMapContext H K) (s : HMap E P H K V) (g : BinaryTree (Item P H E))
    (m : MapState E P H K V) : Prop where
  holds : Holds ctx s g m.entries
  nodes : ∀ n, n ∈ m.nodes ↔ n ∈ nodesOf g

structure Keeps (ctx : HashMapContext H K) (s : HMap E P H K V) (g : BinaryTree (Item P H E))
    (m : MapState E P H K V) : Prop where
  stored : Stored ctx s g m.entries
  nodes : ∀ n, n ∈ m.nodes ↔ n ∈ nodesOf g

variable {ctx : HashMapContext H K} {s : HMap E P H K V} {g : BinaryTree (Item P H E)}
  {m : MapState E P H K V}

omit [DecidableEq E] [DecidableEq P] [LinearOrder H] in
theorem MapState.find_some {key : K} {e : HItem E K V} (h : m.find key = some e) :
    e ∈ m.entries ∧ e.key = key :=
  ⟨List.mem_of_find?_eq_some h, by simpa using List.find?_some h⟩

omit [DecidableEq E] [DecidableEq P] [LinearOrder H] in
theorem MapState.find_none {key : K} (h : m.find key = none) : ∀ e ∈ m.entries, e.key ≠ key := by
  intro e he hek
  exact absurd (List.find?_eq_none.1 h e he) (by simp [hek])

omit [DecidableEq E] [DecidableEq P] [DecidableEq K] in
theorem Refines.toKeeps (h : Refines ctx s g m) : Keeps ctx s g m :=
  ⟨h.holds.toStored, h.nodes⟩

omit [DecidableEq E] [DecidableEq P] [DecidableEq K] in
theorem Keeps.node_live (h : Keeps ctx s g m) (p : P) :
    p ∈ m.nodes.map Prod.fst ↔ s.bucketTree.live p = true := by
  rw [h.stored.tree.live]
  simp only [List.mem_map]
  constructor
  · rintro ⟨n, hn, rfl⟩
    rcases List.mem_map.1 ((h.nodes n).1 hn) with ⟨i, hi, rfl⟩
    exact ⟨i, hi, rfl⟩
  · rintro ⟨i, hi, rfl⟩
    exact ⟨(i.addr, i.key), (h.nodes _).2 (List.mem_map.2 ⟨i, hi, rfl⟩), rfl⟩

omit [DecidableEq E] [DecidableEq P] [DecidableEq K] in
theorem Refines.restrict {s' : HMap E P H K V} {g' : BinaryTree (Item P H E)}
    (h : Refines ctx s g m) {keep : HItem E K V → Bool}
    (h' : Holds ctx s' g' (m.entries.filter keep))
    (hold : ∀ j ∈ inorder g', ∃ j' ∈ inorder g, j'.addr = j.addr ∧ j'.key = j.key) :
    Refines ctx s' g' (m.restrict ctx.hash keep) := by
  refine ⟨h', ?_⟩
  rintro ⟨p, k⟩
  simp only [MapState.restrict, List.mem_filter, h.nodes, nodesOf, List.mem_map, Prod.mk.injEq]
  constructor
  · rintro ⟨⟨i, hi, rfl, rfl⟩, hne⟩
    have hb : bucket ctx.hash (m.entries.filter keep) i.key ≠ [] := by simpa using hne
    rcases h'.node_of hb with ⟨j, hj, hjk⟩
    rcases hold j hj with ⟨j', hj', haddr, hkey⟩
    have hij : j' = i := Btree.eq_of_key h.holds.tree.ordered hj' hi (hkey.trans hjk)
    exact ⟨j, hj, by rw [← haddr, hij], hjk⟩
  · rintro ⟨j, hj, rfl, rfl⟩
    rcases hold j hj with ⟨j', hj', haddr, hkey⟩
    have hb := (h'.buckets j.key).1 (List.mem_map_of_mem hj)
    exact ⟨⟨j', hj', haddr, hkey⟩, by simpa using hb⟩

variable [Fintype E] [Fintype P]

omit [DecidableEq K] in
theorem Refines.remove (h : Refines ctx s g m) {e : HItem E K V} (he : e ∈ m.entries)
    (test : E → HashEntry E K V → Bool)
    (hpass : ∀ a ∈ m.entries, a ≠ e → test a.addr (s.entry a.addr) = false)
    (hat : test e.addr (s.entry e.addr) = true) {keep : HItem E K V → Bool}
    (hke : keep e = false) (hrest : ∀ a ∈ m.entries, a ≠ e → keep a = true) :
    ∃ s' g', hashMapRemoveInternalEntry s (ctx.hash e.key) test = .ok (.ok, s') ∧
      Refines ctx s' g' (m.restrict ctx.hash keep) := by
  have hmem : e ∈ bucket ctx.hash m.entries (ctx.hash e.key) := mem_bucket.2 ⟨he, rfl⟩
  rcases List.append_of_mem hmem with ⟨b₁, b₂, hb⟩
  have hne : bucket ctx.hash m.entries (ctx.hash e.key) ≠ [] := by simp [hb]
  rcases h.holds.node_of hne with ⟨i, hi, hik⟩
  rcases exists_place hi with ⟨cs, lt, rt, rfl⟩
  rw [← hik] at hb
  have hnd : (bucket ctx.hash m.entries i.key).Nodup :=
    (List.Nodup.of_map _ h.holds.keys).filter _
  have hbefore : ∀ a ∈ b₁, test a.addr (s.entry a.addr) = false := by
    intro a ha
    refine hpass a (mem_bucket.1 (show a ∈ bucket ctx.hash m.entries i.key by
      rw [hb]; simp [ha])).1 ?_
    rw [hb] at hnd
    exact (List.nodup_append.1 hnd).2.2 a ha e (by simp)
  rcases h.holds.removeInternal hb test hbefore hat hke hrest with
    ⟨s', g', hrun, hholds, hold, -⟩
  rw [hik] at hrun
  exact ⟨s', plug cs g', hrun, h.restrict hholds hold⟩

omit [DecidableEq K] in
theorem Refines.remove_none (h : Refines ctx s g m) (k : H) (test : E → HashEntry E K V → Bool)
    (hpass : ∀ a ∈ m.entries, test a.addr (s.entry a.addr) = false) :
    hashMapRemoveInternalEntry s k test = .ok (.err .ENOENT, s) := by
  have hholds := h.holds
  cases hb : bucket ctx.hash m.entries k with
  | nil =>
    have hlookup := lookup_none hholds.tree.tree hholds.tree.ordered (hholds.no_node hb)
    simp [hashMapRemoveInternalEntry, hlookup]
  | cons a as =>
    rcases hholds.node_of (k := k) (by simp [hb]) with ⟨i, hi, rfl⟩
    have hlookup := lookup_some hholds.tree.tree hholds.tree.ordered hi
    rcases hholds.tree.tree.shape.stored hi with ⟨hnlive, _, hndata⟩
    have hdata : i.data = a.addr := by
      have hhead := hholds.heads i hi
      rw [hb] at hhead
      simpa [first] using hhead
    have hchain := hholds.chains i.key
    have hlen := hholds.bucket_length_le i.key
    have hmem : ∀ b ∈ a :: as, b ∈ m.entries := fun b hbm =>
      (mem_bucket.1 (show b ∈ bucket ctx.hash m.entries i.key by rw [hb]; exact hbm)).1
    rw [hb] at hchain hlen
    rcases hchain with ⟨hlive, hentry, hrest⟩
    have hnext : (s.entry a.addr).next = first as := by
      rw [hentry, Option.or_none]
    have hseek := seek_none test hrest
      (fun b hbm => hpass b (hmem b (List.mem_cons_of_mem _ hbm))) (some a.addr)
      (n := Fintype.card E) (by
        simp only [List.length_cons] at hlen
        omega)
    have hpassa := hpass a (hmem a (by simp))
    have hunchain : unchain s i.addr test = .ok (none, s) := by
      simp only [unchain, Btrees.read_live hnlive, hndata, hdata, ok_bind, HMap.read, hlive,
        if_true, hpassa, Bool.false_eq_true, if_false, hnext, hseek]
      rfl
    simp [hashMapRemoveInternalEntry, hlookup, hunchain]

omit [DecidableEq P] [DecidableEq K] [Fintype E] [Fintype P] in
theorem Keeps.filter_place (h : Keeps ctx s g m) (place : Option E) :
    (place.filter fun e => decide (e ∉ m.entries.map HItem.addr)) =
      place.filter fun e => !s.live e := by
  cases place with
  | none => rfl
  | some p =>
    by_cases hp : p ∈ m.entries.map HItem.addr
    · simp [Option.filter, (h.stored.live p).2 hp, hp]
    · have hfree : s.live p = false := by
        simpa using fun hp' => hp ((h.stored.live p).1 hp')
      simp [Option.filter, hfree, hp]

omit [Fintype E] [Fintype P] [DecidableEq K] in
theorem mapInsert_ok_iff {hash : K → H} {m : MapState E P H K V} {key : K}
    (hb : bucket hash m.entries (hash key) ≠ []) (value : Option V) (place : Option E) (copy : Ret)
    (node : Option P) :
    (mapInsert hash m key value place copy node).1 = .ok ↔
      (place.filter fun e => decide (e ∉ m.entries.map HItem.addr)).isSome = true ∧
        copy = .ok := by
  unfold mapInsert
  cases place.filter fun e => decide (e ∉ m.entries.map HItem.addr) with
  | none => simp
  | some p => by_cases hcopy : copy = .ok <;> simp [hcopy, hb]

omit [DecidableEq K] in
theorem Keeps.insert (h : Keeps ctx s g m) (key : K) (value : Option V) (place : Option E)
    (copy : Ret) (node : Option P) :
    ∃ s' g', hashMapInsert ctx s key value place copy node =
        .ok ((mapInsert ctx.hash m key value place copy node).1, s') ∧
      Keeps ctx s' g' (mapInsert ctx.hash m key value place copy node).2 := by
  have hplace := h.filter_place place
  have hnode : (node.filter fun p => decide (p ∉ m.nodes.map Prod.fst)) =
      node.filter fun p => !s.bucketTree.live p := by
    cases node with
    | none => rfl
    | some p =>
      by_cases hp : p ∈ m.nodes.map Prod.fst
      · simp [Option.filter, (h.node_live p).1 hp, hp]
      · have hfree : s.bucketTree.live p = false := by
          simpa using fun hp' => hp ((h.node_live p).2 hp')
        simp [Option.filter, hfree, hp]
  unfold mapInsert hashMapInsert hashEntryAlloc
  rw [hplace, hnode]
  cases hfilter : place.filter fun e => !s.live e with
  | none => exact ⟨s, g, rfl, h⟩
  | some p =>
    have hfree : s.live p = false := by simpa using (Option.filter_eq_some_iff.1 hfilter).2
    let e : HItem E K V := ⟨p, key, value⟩
    by_cases hcopy : copy ≠ .ok
    · exact ⟨s, g, by simp [hcopy], by simpa [hcopy] using h⟩
    · simp only [if_neg hcopy]
      by_cases hb : bucket ctx.hash m.entries (ctx.hash key) = []
      · simp only [hb, List.isEmpty_nil, if_true]
        cases hn : node.filter fun p => !s.bucketTree.live p with
        | none =>
          -- No tree node: the new entry is destroyed again.
          have hused : ∀ q, node = some q → s.bucketTree.live q = true := by
            rintro q rfl
            simpa [Option.filter] using hn
          have hrun := h.stored.insert_fails (e := e) hfree hb hused
          refine ⟨hashEntryDestroy (filled s e) p, g, ?_, h.stored.destroyed hfree, h.nodes⟩
          simp only [filled, e] at hrun ⊢
          rw [hrun]
          rfl
        | some q =>
          have hq := Option.filter_eq_some_iff.1 hn
          have hqfree : s.bucketTree.live q = false := by simpa using hq.2
          rcases h.stored.insert_node (e := e) hfree hb hqfree with
            ⟨s', g', hrun, hholds, hperm⟩
          refine ⟨s', g', ?_, hholds, ?_⟩
          · simp only [filled, e] at hrun ⊢
            rw [hq.1, hrun]
            rfl
          · intro n
            have hmem := (hperm.map fun i => (i.addr, i.key)).mem_iff (a := n)
            rw [List.mem_cons, h.nodes]
            exact ((hmem.trans (by simp [nodesOf, e]))).symm
      · simp only [List.isEmpty_iff, hb, if_false]
        rcases h.stored.insert_tail (e := e) hfree hb node with ⟨s', hrun, hholds⟩
        refine ⟨s', g, ?_, hholds, h.nodes⟩
        simp only [filled, e] at hrun ⊢
        rw [hrun]
        rfl

omit [Fintype E] [Fintype P] [DecidableEq K] in
theorem mapInsert_entries (hash : K → H) (m : MapState E P H K V) (key : K) (value : Option V)
    (place : Option E) (copy : Ret) (node : Option P) :
    ((mapInsert hash m key value place copy node).1 = .ok ∧
      ∃ p, place = some p ∧ p ∉ m.entries.map HItem.addr ∧
        (mapInsert hash m key value place copy node).2.entries = m.entries ++ [⟨p, key, value⟩]) ∨
    ((mapInsert hash m key value place copy node).1 ≠ .ok ∧
      (mapInsert hash m key value place copy node).2.entries = m.entries) := by
  unfold mapInsert
  cases hfilter : place.filter fun e => decide (e ∉ m.entries.map HItem.addr) with
  | none => exact .inr ⟨by simp, rfl⟩
  | some p =>
    have hp := Option.filter_eq_some_iff.1 hfilter
    have hnew : p ∉ m.entries.map HItem.addr := by simpa using hp.2
    by_cases hcopy : copy ≠ .ok
    · exact .inr ⟨by simp [hcopy], by simp [hcopy]⟩
    · simp only [if_neg hcopy]
      by_cases hb : (bucket hash m.entries (hash key)).isEmpty = true
      · rw [if_pos hb]
        cases node.filter fun p => decide (p ∉ m.nodes.map Prod.fst) with
        | none => exact .inr ⟨by simp, rfl⟩
        | some q => exact .inl ⟨rfl, p, hp.1, hnew, rfl⟩
      · rw [if_neg hb]
        exact .inl ⟨rfl, p, hp.1, hnew, rfl⟩

omit [DecidableEq K] in
theorem Refines.insert (h : Refines ctx s g m) {key : K} (hkey : key ∉ m.entries.map HItem.key)
    (value : Option V) (place : Option E) (copy : Ret) (node : Option P) :
    ∃ s' g', hashMapInsert ctx s key value place copy node =
        .ok ((mapInsert ctx.hash m key value place copy node).1, s') ∧
      Refines ctx s' g' (mapInsert ctx.hash m key value place copy node).2 := by
  rcases h.toKeeps.insert key value place copy node with ⟨s', g', hrun, hkeeps⟩
  refine ⟨s', g', hrun, hkeeps.stored.toHolds ?_, hkeeps.nodes⟩
  rcases mapInsert_entries ctx.hash m key value place copy node with
    ⟨-, p, -, -, hentries⟩ | ⟨-, hentries⟩
  · rw [hentries, List.map_append]
    refine List.nodup_append.2 ⟨h.holds.keys, by simp, ?_⟩
    rintro a ha b hb rfl
    rw [List.map_singleton, List.mem_singleton] at hb
    rw [hb] at ha
    exact hkey ha
  · rw [hentries]
    exact h.holds.keys

section Calls

variable (hcompare : ∀ a b, ctx.compare a b = true ↔ a = b)

include hcompare

omit [DecidableEq E] [DecidableEq P] in
theorem Keeps.lookupEntry (h : Keeps ctx s g m) (key : K) :
    hashMapLookupEntry ctx s key = .ok ((m.find key).map HItem.addr) := by
  cases hf : m.find key with
  | none => exact h.stored.toLinked.lookupEntry_none hcompare (MapState.find_none hf)
  | some e =>
    have hkey : e.key = key := (MapState.find_some hf).2
    rcases List.find?_eq_some_iff_append.1 hf with ⟨-, l₁, l₂, hl, hfirst⟩
    subst hkey
    refine h.stored.toLinked.lookupEntry_some hcompare hl fun a ha => ?_
    simpa using hfirst a ha

omit [DecidableEq E] [DecidableEq P] in
theorem Keeps.lookup (h : Keeps ctx s g m) (key : K) :
    hashMapLookup ctx s key = .ok ((mapLookup m key).ret, (mapLookup m key).value) := by
  rw [hashMapLookup, h.lookupEntry hcompare key]
  cases hf : m.find key with
  | none => simp [mapLookup, hf]
  | some e =>
    rcases h.stored.toLinked.stored (MapState.find_some hf).1 with ⟨hlive, _, hvalue⟩
    simp [HMap.read, hlive, hvalue, mapLookup, hf]

omit [DecidableEq E] [DecidableEq P] in
theorem Refines.lookup (h : Refines ctx s g m) (key : K) :
    hashMapLookup ctx s key = .ok ((mapLookup m key).ret, (mapLookup m key).value) :=
  h.toKeeps.lookup hcompare key

theorem call_refines (h : Refines ctx s g m) (c : HCall E P K V) (hc : Allowed m c) :
    ∃ s' g', call ctx s c = .ok ((mapCall ctx.hash m c).1, s') ∧
      Refines ctx s' g' (mapCall ctx.hash m c).2 := by
  cases c with
  | insert key value place copy node =>
    rcases h.insert hc value place copy node with ⟨s', g', hrun, h'⟩
    refine ⟨s', g', ?_, h'⟩
    simp only [call, hrun, ok_bind, mapCall]
    rfl
  | update key newValue =>
    by_cases hv : newValue.isNone = true
    · refine ⟨s, g, ?_, ?_⟩
      · simp [call, hashMapUpdate, hv, mapCall]
      · simpa [mapCall, hv] using h
    · cases hf : m.find key with
      | none =>
        have hno := h.holds.toLinked.lookupEntry_none hcompare (MapState.find_none hf)
        refine ⟨s, g, ?_, ?_⟩
        · simp [call, hashMapUpdate, hv, hno, mapCall, hf]
        · simpa [mapCall, hv, hf] using h
      | some e =>
        rcases MapState.find_some hf with ⟨he, rfl⟩
        have hsome := h.holds.lookupEntry_some hcompare he
        have hlive := (h.holds.stored he).1
        let entry := s.entry e.addr
        let s' : HMap E P H K V :=
          { s with entry := Function.update s.entry e.addr { entry with value := newValue } }
        refine ⟨s', g, ?_, ?_⟩
        · simp only [call, hashMapUpdate, hv, Bool.false_eq_true, if_false, hsome, ok_bind,
            HMap.modify, HMap.read, hlive, if_true, mapCall, hf]
          rfl
        · simp only [mapCall, hv, Bool.false_eq_true, if_false, hf]
          exact ⟨h.holds.setValue he newValue, h.nodes⟩
  | remove key =>
    have hkey : ∀ a ∈ m.entries, a.key ≠ key →
        ctx.compare (s.entry a.addr).key key = false := by
      intro a ha hne
      refine Bool.eq_false_iff.2 fun hc' => hne ?_
      rw [← (h.holds.stored ha).2.1]
      exact (hcompare _ _).1 hc'
    cases hf : m.find key with
    | none =>
      have hno := h.remove_none (ctx.hash key) (fun _ n => ctx.compare n.key key)
        fun a ha => hkey a ha (MapState.find_none hf a ha)
      refine ⟨s, g, ?_, ?_⟩
      · simp only [call, hashMapRemove, hno, ok_bind, mapCall, hf]
        rfl
      · simpa [mapCall, hf] using h
    | some e =>
      rcases MapState.find_some hf with ⟨he, rfl⟩
      have hne : ∀ a ∈ m.entries, a ≠ e → a.key ≠ e.key :=
        fun a ha hae heq => hae (h.holds.eq_of_key ha he heq)
      have hat : ctx.compare (s.entry e.addr).key e.key = true := by
        rw [(h.holds.stored he).2.1]
        exact (hcompare _ _).2 rfl
      rcases h.remove he (fun _ n => ctx.compare n.key e.key)
        (fun a ha hae => hkey a ha (hne a ha hae)) hat (by simp)
        (fun a ha hae => decide_eq_true (hne a ha hae)) with ⟨s', g', hrun, h'⟩
      refine ⟨s', g', ?_, ?_⟩
      · simp only [call, hashMapRemove, hrun, ok_bind, mapCall, hf]
        rfl
      · simpa only [mapCall, hf] using h'
  | removeEntry entry =>
    rcases List.mem_map.1 (show entry ∈ m.entries.map HItem.addr from hc) with ⟨e, he, rfl⟩
    rcases h.holds.stored he with ⟨hlive, hkey, _⟩
    have hne : ∀ a ∈ m.entries, a ≠ e → a.addr ≠ e.addr :=
      fun a ha hae heq => hae (h.holds.eq_of_addr ha he heq)
    rcases h.remove he (fun entry _ => decide (entry = e.addr))
      (fun a ha hae => decide_eq_false (hne a ha hae)) (by simp) (by simp)
      (fun a ha hae => decide_eq_true (hne a ha hae)) with ⟨s', g', hrun, h'⟩
    refine ⟨s', g', ?_, h'⟩
    simp only [call, hashMapRemoveEntry, HMap.read, hlive, if_true, ok_bind, hkey, hrun, mapCall]
    rfl
  | lookup key =>
    refine ⟨s, g, ?_, h⟩
    simp [call, h.lookup hcompare key, mapCall]
  | flush =>
    rcases h.holds.flush with ⟨s', hrun, h'⟩
    refine ⟨s', .nil, ?_, h', by simp [nodesOf, mapCall]⟩
    simp only [call, hrun, ok_bind, mapCall]
    rfl

theorem run_refines (h : Refines ctx s g m) {cs : List (HCall E P K V)}
    (hcs : AllowedRun ctx.hash m cs) :
    ∃ s' g', run ctx s cs = .ok ((mapRun ctx.hash m cs).1, s') ∧
      Refines ctx s' g' (mapRun ctx.hash m cs).2 := by
  induction cs generalizing s g m with
  | nil => exact ⟨s, g, rfl, h⟩
  | cons c cs ih =>
    rcases call_refines hcompare h c hcs.1 with ⟨s₁, g1, hcall, h₁⟩
    rcases ih h₁ hcs.2 with ⟨s₂, g2, hrun, h₂⟩
    refine ⟨s₂, g2, ?_, h₂⟩
    simp [run, hcall, hrun, mapRun]

end Calls

/-- Whatever is in memory and whatever the hash function is, every allowed sequence of calls on an
initialised map returns the replies of the finite map.  Afterwards every lookup finds what the map
holds, the size is the number of entries, the bucket tree is a search tree with one node for every
hash that occurs, and the chain at the node is the NULL-terminated list of the entries with its
hash. -/
theorem hash_map_refines_map (ctx : HashMapContext H K)
    (hcompare : ∀ a b, ctx.compare a b = true ↔ a = b) (entries : E → HashEntry E K V)
    (nodes : P → BtreeNode P Unit H E) (cs : List (HCall E P K V))
    (hcs : AllowedRun ctx.hash ⟨[], []⟩ cs) :
    ∃ s g, run ctx (hashMapInit entries nodes) cs =
        .ok ((mapRun ctx.hash ⟨[], []⟩ cs).1, s) ∧
      (∀ key, hashMapLookup ctx s key =
        .ok ((mapLookup (mapRun ctx.hash ⟨[], []⟩ cs).2 key).ret,
          (mapLookup (mapRun ctx.hash ⟨[], []⟩ cs).2 key).value)) ∧
      Holds ctx s g (mapRun ctx.hash ⟨[], []⟩ cs).2.entries := by
  have hinit : Refines ctx (hashMapInit entries nodes) .nil (⟨[], []⟩ : MapState E P H K V) :=
    ⟨holds_init entries nodes, by simp [nodesOf]⟩
  rcases run_refines hcompare hinit hcs with ⟨s, g, hrun, h⟩
  exact ⟨s, g, hrun, h.lookup hcompare, h.holds⟩

theorem hash_map_refines_map_parity :
    let ctx : HashMapContext Nat Nat := ⟨fun k => k % 2, fun a b => decide (a = b)⟩
    let cs : List (HCall (Fin 5) (Fin 3) Nat Bool) :=
      [.insert 1 (some true) (some 0) .ok (some 0), .insert 3 none (some 1) .ok none,
        .insert 5 (some false) (some 2) .ok none, .insert 2 (some true) (some 3) .ok (some 0),
        .insert 2 (some true) (some 3) .ok (some 1), .update 5 (some true), .update 1 none,
        .remove 3, .lookup 3, .lookup 5, .removeEntry 0, .remove 2, .lookup 5, .flush, .lookup 5]
    ∃ s g, run ctx (hashMapInit (fun _ => ⟨0, some 1, none⟩)
        fun _ => ⟨0, 1, some 1, none, some 2, none⟩) cs =
        .ok
          ([⟨.ok, none⟩, ⟨.ok, none⟩, ⟨.ok, none⟩, ⟨.err .ENOMEM, none⟩, ⟨.ok, none⟩, ⟨.ok, none⟩,
            ⟨.err .EINVAL, none⟩, ⟨.ok, none⟩, ⟨.err .ENOENT, none⟩, ⟨.ok, some true⟩, ⟨.ok, none⟩,
            ⟨.ok, none⟩, ⟨.ok, some true⟩, ⟨.ok, none⟩, ⟨.err .ENOENT, none⟩], s) ∧
      Holds ctx s g [] := by
  intro ctx cs
  have hcs : AllowedRun ctx.hash ⟨[], []⟩ cs := by decide +kernel
  have hend : (mapRun ctx.hash ⟨[], []⟩ cs).2.entries = [] := by decide +kernel
  rcases hash_map_refines_map ctx (by simp [ctx]) (fun _ => ⟨0, some 1, none⟩)
    (fun _ => ⟨0, 1, some 1, none, some 2, none⟩) cs hcs with ⟨s, g, hrun, _, hholds⟩
  rw [hend] at hholds
  refine ⟨s, g, ?_, hholds⟩
  rw [hrun]
  exact congrArg (fun replies => Except.ok (replies, s)) (by decide +kernel)

end HashMap
end Ds
end XytherOS
