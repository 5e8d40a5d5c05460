import Mathlib.Data.Set.Card
import XytherOS.Ds.HashMapRefine

/-!
# HashMapUpsert — insertion as the header describes it

`hashMap.h` says that `hashMap_insert` inserts or updates a pair.  The function does not look the
key up: the new entry goes to the end of the chain, where a lookup finds an older entry with the
same key first, and the size counts both of them.
-/

namespace XytherOS
namespace Ds
namespace HashMap

open Btree SearchTree

def hashMapSize {E P H K V : Type} (s : HMap E P H K V) : Nat := s.size

variable {E P H K V : Type} [DecidableEq E] [DecidableEq P] [LinearOrder H] [DecidableEq K]
  [Fintype E] [Fintype P] {ctx : HashMapContext H K} {s : HMap E P H K V}
  {g : BinaryTree (Item P H E)} {m : MapState E P H K V} {l : List (HItem E K V)}

/-! ## What is asked for -/

def keysFound (ctx : HashMapContext H K) (s : HMap E P H K V) : Set K :=
  { key | ∃ value, hashMapLookup ctx s key = .ok (.ok, value) }

/-- An insertion that returns 0 has inserted or updated: the key has the value, every other key has
what it had, and the size is the number of keys. -/
def Upserts (ctx : HashMapContext H K) (s : HMap E P H K V) (key : K) (value : Option V)
    (run : Except Fault (Ret × HMap E P H K V)) : Prop :=
  ∃ ret s', run = .ok (ret, s') ∧
    (ret = .ok →
      hashMapLookup ctx s' key = .ok (.ok, value) ∧
        (∀ other, other ≠ key → hashMapLookup ctx s' other = hashMapLookup ctx s other) ∧
        hashMapSize s' = (keysFound ctx s').ncard)

/-- There is memory for an insertion: an entry, a copy of the key and, for the first key of its
hash, a tree node. -/
def Affords (ctx : HashMapContext H K) (s : HMap E P H K V) (l : List (HItem E K V)) (key : K)
    (place : Option E) (copy : Ret) (node : Option P) : Prop :=
  (∃ e, place = some e ∧ s.live e = false) ∧ copy = .ok ∧
    (bucket ctx.hash l (ctx.hash key) = [] → ∃ p, node = some p ∧ s.bucketTree.live p = false)

/-! ## The entries with a key -/

omit [DecidableEq E] [DecidableEq P] [LinearOrder H] [Fintype E] [Fintype P] in
theorem length_eq_keys_iff :
    l.length = (l.map HItem.key).toFinset.card ↔ (l.map HItem.key).Nodup := by
  have hcard := Multiset.toFinset_card_eq_card_iff_nodup (m := (↑(l.map HItem.key) : Multiset K))
  rw [Multiset.coe_card, List.length_map, Multiset.coe_nodup] at hcard
  rw [← hcard]
  exact eq_comm

omit [DecidableEq E] [DecidableEq P] [LinearOrder H] [Fintype E] [Fintype P] in
theorem find_added_self {m' : MapState E P H K V} {e : HItem E K V}
    (hentries : m'.entries = m.entries ++ [e]) (hkey : e.key ∉ m.entries.map HItem.key) :
    m'.find e.key = some e := by
  have hnone : m.entries.find? (fun a => decide (a.key = e.key)) = none := by
    refine List.find?_eq_none.2 fun a ha heq => hkey ?_
    rw [← of_decide_eq_true heq]
    exact List.mem_map_of_mem ha
  simp [MapState.find, hentries, List.find?_append, hnone]

omit [DecidableEq E] [DecidableEq P] [LinearOrder H] [Fintype E] [Fintype P] in
theorem find_added_other {m' : MapState E P H K V} {e : HItem E K V} {key : K}
    (hentries : m'.entries = m.entries ++ [e]) (hne : key ≠ e.key) : m'.find key = m.find key := by
  have hdec : decide (e.key = key) = false := decide_eq_false hne.symm
  simp [MapState.find, hentries, List.find?_append, hdec]

section Lookup

variable (hcompare : ∀ a b, ctx.compare a b = true ↔ a = b)

include hcompare

omit [DecidableEq E] [DecidableEq P] in
theorem Keeps.keysFound_eq (h : Keeps ctx s g m) :
    keysFound ctx s = ↑(m.entries.map HItem.key).toFinset := by
  ext key
  rw [keysFound, Set.mem_ofPred_eq, h.lookup hcompare, Finset.mem_coe, List.mem_toFinset]
  cases hf : m.find key with
  | none =>
    have hno := MapState.find_none hf
    simpa [mapLookup, hf] using hno
  | some e =>
    rcases MapState.find_some hf with ⟨he, rfl⟩
    simpa [mapLookup, hf] using ⟨e, he, rfl⟩

omit [DecidableEq E] [DecidableEq P] in
theorem Keeps.size_eq_iff (h : Keeps ctx s g m) :
    hashMapSize s = (keysFound ctx s).ncard ↔ (m.entries.map HItem.key).Nodup := by
  rw [h.keysFound_eq hcompare, Set.ncard_coe_finset, hashMapSize, h.stored.size]
  exact length_eq_keys_iff

end Lookup

omit [DecidableEq K] [Fintype E] [Fintype P] in
theorem mapInsert_of_affords (h : Keeps ctx s g m) {key : K} {place : Option E}
    {copy : Ret} {node : Option P} (hmem : Affords ctx s m.entries key place copy node)
    (value : Option V) :
    (mapInsert ctx.hash m key value place copy node).1 = .ok := by
  rcases hmem with ⟨⟨e, rfl, hfree⟩, rfl, hnode⟩
  have hplace := h.filter_place (some e)
  have hnew : (some e).filter (fun e => !s.live e) = some e := by simp [Option.filter, hfree]
  rw [hnew] at hplace
  unfold mapInsert
  rw [hplace]
  by_cases hb : bucket ctx.hash m.entries (ctx.hash key) = []
  · rcases hnode hb with ⟨p, rfl, hp⟩
    have hpnew : p ∉ m.nodes.map Prod.fst := by
      rw [h.node_live, hp]
      simp
    simp [hb, Option.filter, hpnew]
  · simp [hb]

omit [DecidableEq K] [Fintype E] [Fintype P] in
theorem mapInsert_of_not_affords (h : Keeps ctx s g m) {key : K} {place : Option E}
    {copy : Ret} {node : Option P} (hmem : ¬ Affords ctx s m.entries key place copy node)
    (value : Option V) :
    (mapInsert ctx.hash m key value place copy node).1 ≠ .ok := by
  intro hok
  refine hmem ?_
  unfold mapInsert at hok
  rw [h.filter_place place] at hok
  cases hplace : place.filter (fun e => !s.live e) with
  | none => simp [hplace] at hok
  | some e =>
    rw [hplace] at hok
    have he := Option.filter_eq_some_iff.1 hplace
    by_cases hcopy : copy = .ok
    · refine ⟨⟨e, he.1, by simpa using he.2⟩, hcopy, fun hb => ?_⟩
      simp only [hcopy, hb, ne_eq, not_true, if_false, List.isEmpty_nil, if_true] at hok
      cases hnode : node.filter (fun p => decide (p ∉ m.nodes.map Prod.fst)) with
      | none =>
        rw [hnode] at hok
        exact absurd hok (by simp)
      | some p =>
        have hp := Option.filter_eq_some_iff.1 hnode
        have hpnew : p ∉ m.nodes.map Prod.fst := by simpa using hp.2
        refine ⟨p, hp.1, Bool.eq_false_iff.2 fun hlive => hpnew ?_⟩
        exact (h.node_live p).2 hlive
    · simp [hcopy] at hok

/-- `hashMap_insert` inserts or updates exactly when there is no memory for it, or the map has one
entry a key and none with this one. -/
theorem upserts_iff (hcompare : ∀ a b, ctx.compare a b = true ↔ a = b) (h : Stored ctx s g l)
    (key : K) (value : Option V) (place : Option E) (copy : Ret) (node : Option P) :
    Upserts ctx s key value (hashMapInsert ctx s key value place copy node) ↔
      (Affords ctx s l key place copy node →
        (l.map HItem.key).Nodup ∧ key ∉ l.map HItem.key) := by
  have hkeeps : Keeps ctx s g (⟨l, nodesOf g⟩ : MapState E P H K V) := ⟨h, fun _ => Iff.rfl⟩
  rcases hkeeps.insert key value place copy node with ⟨s', g', hrun, hkeeps'⟩
  by_cases hmem : Affords ctx s l key place copy node
  · have hok := mapInsert_of_affords hkeeps hmem value
    rcases mapInsert_entries ctx.hash ⟨l, nodesOf g⟩ key value place copy node with
      ⟨-, e, -, -, hentries⟩ | ⟨hfail, -⟩
    · have hsize := hkeeps'.size_eq_iff hcompare
      rw [hentries] at hsize
      have hnd : ((l ++ [(⟨e, key, value⟩ : HItem E K V)]).map HItem.key).Nodup ↔
          (l.map HItem.key).Nodup ∧ key ∉ l.map HItem.key := by
        rw [List.map_append, List.map_singleton, ← List.concat_eq_append, List.nodup_concat]
        exact and_comm
      rw [hrun, hok]
      constructor
      · rintro ⟨ret, s'', hrun', hup⟩ -
        cases hrun'
        exact hnd.1 (hsize.1 (hup rfl).2.2)
      · intro hcond
        have hkeys := hcond hmem
        refine ⟨.ok, s', rfl, fun _ => ⟨?_, fun other hne => ?_, hsize.2 (hnd.2 hkeys)⟩⟩
        · have hfind := find_added_self hentries hkeys.2
          rw [hkeeps'.lookup hcompare, mapLookup, hfind]
        · have hfind := find_added_other hentries hne
          rw [hkeeps'.lookup hcompare, hkeeps.lookup hcompare, mapLookup, hfind]
          rfl
    · exact absurd hok hfail
  · refine iff_of_true ⟨_, s', hrun, fun hok => ?_⟩ fun hafford => absurd hafford hmem
    exact absurd hok (mapInsert_of_not_affords hkeeps hmem value)

theorem upserts_two_keys :
    let ctx : HashMapContext Nat Nat := ⟨fun k => k % 2, fun a b => decide (a = b)⟩
    let s₀ : HMap (Fin 2) (Fin 1) Nat Nat Bool :=
      hashMapInit (fun _ => ⟨0, none, none⟩) fun _ => ⟨0, 0, none, none, none, none⟩
    ∃ s₁, hashMapInsert ctx s₀ 1 (some true) (some 0) .ok (some 0) = .ok (.ok, s₁) ∧
      Upserts ctx s₁ 3 (some false) (hashMapInsert ctx s₁ 3 (some false) (some 1) .ok none) := by
  intro ctx s₀
  have hcompare : ∀ a b, ctx.compare a b = true ↔ a = b := by simp [ctx]
  have hkeeps : Keeps ctx s₀ .nil ⟨[], []⟩ := ⟨(holds_init _ _).toStored, by simp [nodesOf]⟩
  rcases hkeeps.insert 1 (some true) (some 0) .ok (some 0) with ⟨s₁, g₁, hrun, hkeeps₁⟩
  refine ⟨s₁, hrun, (upserts_iff hcompare hkeeps₁.stored 3 _ _ _ _).2 fun _ => ?_⟩
  decide

/-- The key `1` is inserted twice: it keeps its first value, and the size counts it twice. -/
theorem insert_twice_shadowed :
    let ctx : HashMapContext Nat Nat := ⟨fun k => k % 2, fun a b => decide (a = b)⟩
    let s₀ : HMap (Fin 2) (Fin 1) Nat Nat Bool :=
      hashMapInit (fun _ => ⟨0, none, none⟩) fun _ => ⟨0, 0, none, none, none, none⟩
    ∃ s₁ s₂, hashMapInsert ctx s₀ 1 (some true) (some 0) .ok (some 0) = .ok (.ok, s₁) ∧
      hashMapInsert ctx s₁ 1 (some false) (some 1) .ok none = .ok (.ok, s₂) ∧
      hashMapLookup ctx s₂ 1 = .ok (.ok, some true) ∧ hashMapSize s₂ = 2 ∧
      ¬ Upserts ctx s₁ 1 (some false) (hashMapInsert ctx s₁ 1 (some false) (some 1) .ok none) := by
  intro ctx s₀
  have hcompare : ∀ a b, ctx.compare a b = true ↔ a = b := by simp [ctx]
  have hkeeps : Keeps ctx s₀ .nil ⟨[], []⟩ := ⟨(holds_init _ _).toStored, by simp [nodesOf]⟩
  rcases hkeeps.insert 1 (some true) (some 0) .ok (some 0) with ⟨s₁, g₁, hrun₁, hkeeps₁⟩
  rcases hkeeps₁.insert 1 (some false) (some 1) .ok none with ⟨s₂, g₂, hrun₂, hkeeps₂⟩
  have hlookup : hashMapLookup ctx s₂ 1 = .ok (.ok, some true) := hkeeps₂.lookup hcompare 1
  refine ⟨s₁, s₂, hrun₁, hrun₂, hlookup, hkeeps₂.stored.size, ?_⟩
  rintro ⟨ret, s', hrun, hup⟩
  rw [hrun₂] at hrun
  cases hrun
  have hnew := (hup rfl).1
  rw [hlookup] at hnew
  exact absurd hnew (by decide)

end HashMap
end Ds
end XytherOS
