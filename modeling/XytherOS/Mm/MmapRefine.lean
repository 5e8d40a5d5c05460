import Mathlib.Data.List.Perm.Subperm
import Mathlib.Data.BitVec
import XytherOS.Lib.Spans
import XytherOS.Mm.Mmap

/-!
# MmapRefine — an address space is an ascending list of regions

The abstract picture of an address space is its `View`: the regions with their pointers, in list
order.  `Listed s v` says that the linked list of `s` is exactly `v`: links, head and tail agree
with it, the bounds ascend without overlap and stay below the limit.  The searching functions are
then functions of the view, and the list operations are insertions, removals and replacements.
-/

namespace XytherOS
namespace Mm
namespace Mmap

open Links Spans

variable {π : Type}

/-! ## Fields of updated states -/

namespace State

@[simp] theorem modify_toAccount (s : State π) (p : Nat) (f : Vmr → Vmr) :
    (s.modify p f).toAccount = s.toAccount := rfl

@[simp] theorem modify_allocs (s : State π) (p : Nat) (f : Vmr → Vmr) :
    (s.modify p f).allocs = s.allocs := rfl

@[simp] theorem modify_head (s : State π) (p : Nat) (f : Vmr → Vmr) :
    (s.modify p f).head = s.head := rfl

@[simp] theorem modify_tail (s : State π) (p : Nat) (f : Vmr → Vmr) :
    (s.modify p f).tail = s.tail := rfl

theorem modify_mem (s : State π) (p : Nat) (f : Vmr → Vmr) (q : Nat) :
    (s.modify p f).mem q = if q = p then f (s.mem p) else s.mem q := by
  simp [modify, Function.update_apply]

theorem modify_field {α : Type} (g : Vmr → α) (s : State π) (p : Nat) {f : Vmr → Vmr}
    (hf : ∀ v, g (f v) = g v) (q : Nat) : g ((s.modify p f).mem q) = g (s.mem q) := by
  rw [modify_mem]
  by_cases hq : q = p
  · subst hq
    simp [hf]
  · simp [hq]

theorem modify_nexts (s : State π) (p : Nat) {f : Vmr → Vmr} (hf : ∀ v, (f v).next = v.next) :
    nexts (s.modify p f).mem = nexts s.mem :=
  funext fun q => modify_field Vmr.next s p hf q

theorem modify_prevs (s : State π) (p : Nat) {f : Vmr → Vmr} (hf : ∀ v, (f v).prev = v.prev) :
    prevs (s.modify p f).mem = prevs s.mem :=
  funext fun q => modify_field Vmr.prev s p hf q

@[simp] theorem setRegion_toAccount (s : State π) (p : Nat) (r : Region) :
    (s.setRegion p r).toAccount = s.toAccount := rfl

@[simp] theorem setRegion_allocs (s : State π) (p : Nat) (r : Region) :
    (s.setRegion p r).allocs = s.allocs := rfl

@[simp] theorem setRegion_head (s : State π) (p : Nat) (r : Region) :
    (s.setRegion p r).head = s.head := rfl

@[simp] theorem setRegion_tail (s : State π) (p : Nat) (r : Region) :
    (s.setRegion p r).tail = s.tail := rfl

@[simp] theorem setRegion_nexts (s : State π) (p : Nat) (r : Region) :
    nexts (s.setRegion p r).mem = nexts s.mem := s.modify_nexts p fun _ => rfl

@[simp] theorem setRegion_prevs (s : State π) (p : Nat) (r : Region) :
    prevs (s.setRegion p r).mem = prevs s.mem := s.modify_prevs p fun _ => rfl

@[simp] theorem setRegion_mapped (s : State π) (p : Nat) (r : Region) (q : Nat) :
    ((s.setRegion p r).mem q).mapped = (s.mem q).mapped :=
  modify_field Vmr.mapped s p (f := (·.setRegion r)) (fun _ => rfl) q

theorem setRegion_region (s : State π) (p : Nat) (r : Region) (q : Nat) :
    (s.setRegion p r).region q = if q = p then r else s.region q := by
  rw [region, setRegion, modify_mem]
  by_cases hq : q = p <;> simp [hq, Vmr.setRegion, region]

@[simp] theorem setRegion_region_self (s : State π) (p : Nat) (r : Region) :
    (s.setRegion p r).region p = r := by
  simp [setRegion_region]

end State

/-! ## Views -/

abbrev View := List (Nat × Region)

def lo (e : Nat × Region) : Nat := e.2.start.toNat

def hi (e : Nat × Region) : Nat := e.2.endAddr.toNat

def ids (v : View) : List Nat := v.map Prod.fst

@[simp] theorem ids_nil : ids [] = [] := rfl

@[simp] theorem ids_cons (e : Nat × Region) (v : View) : ids (e :: v) = e.1 :: ids v := rfl

@[simp] theorem ids_append (v w : View) : ids (v ++ w) = ids v ++ ids w := List.map_append

theorem mem_ids_of_mem {v : View} {e : Nat × Region} (h : e ∈ v) : e.1 ∈ ids v :=
  List.mem_map_of_mem h

theorem exists_of_mem_ids {v : View} {p : Nat} (h : p ∈ ids v) : ∃ r, (p, r) ∈ v := by
  rcases List.mem_map.1 h with ⟨⟨q, r⟩, hmem, rfl⟩
  exact ⟨r, hmem⟩

structure Listed (s : State π) (v : View) : Prop where
  chain : Chain (nexts s.mem) (prevs s.mem) none (ids v) none
  head : s.head = (ids v).head?
  tail : s.tail = (ids v).getLast?
  alloc : ∀ e ∈ v, e.1 < s.allocs
  region : ∀ e ∈ v, s.region e.1 = e.2
  ascending : Ascending lo hi v
  limit : ∀ e ∈ v, e.2.endAddr ≤ mmapLimit

/-- The linked list of `s` is `v`, and it holds exactly the regions that point to `s`. -/
structure Rel (s : State π) (v : View) : Prop extends Listed s v where
  mapped : ∀ p, (s.mem p).mapped = true ↔ p ∈ ids v

namespace Listed

variable {s s' : State π} {v v₁ v₂ : View} {p : Nat} {r r' : Region}

theorem nodup (h : Listed s v) : (ids v).Nodup := h.chain.nodup

theorem length_le (h : Listed s v) : (ids v).length ≤ s.allocs := by
  have hsub : (ids v).Subperm (List.range s.allocs) := by
    refine List.subperm_of_subset h.nodup ?_
    intro q hq
    rcases exists_of_mem_ids hq with ⟨r, hr⟩
    simpa using h.alloc _ hr
  simpa using hsub.length_le

theorem congr (h : Listed s v) (hhead : s'.head = s.head) (htail : s'.tail = s.tail)
    (halloc : s.allocs ≤ s'.allocs)
    (hmem : ∀ p ∈ ids v, nexts s'.mem p = nexts s.mem p ∧ prevs s'.mem p = prevs s.mem p ∧
      s'.region p = s.region p) : Listed s' v where
  chain := h.chain.congr fun p hp => ⟨(hmem p hp).1, (hmem p hp).2.1⟩
  head := hhead.trans h.head
  tail := htail.trans h.tail
  alloc := fun e he => (h.alloc e he).trans_le halloc
  region := fun e he => (hmem e.1 (mem_ids_of_mem he)).2.2.trans (h.region e he)
  ascending := h.ascending
  limit := h.limit

theorem not_mem_of_split (h : Listed s (v₁ ++ (p, r) :: v₂)) : p ∉ ids v₁ ∧ p ∉ ids v₂ := by
  have hnd := h.nodup
  simp only [ids_append, ids_cons, List.nodup_append, List.nodup_cons] at hnd
  exact ⟨fun hp => hnd.2.2 p hp p (by simp) rfl, hnd.2.1.1⟩

theorem bounds (h : Listed s v) {e : Nat × Region} (he : e ∈ v) :
    e.2.start ≤ e.2.endAddr ∧ e.2.endAddr ≤ mmapLimit :=
  ⟨h.ascending.nonempty e he, h.limit e he⟩

theorem links_at {e : Nat × Region} (h : Listed s (v₁ ++ e :: v₂)) :
    (s.mem e.1).next = (ids v₂).head? ∧ (s.mem e.1).prev = (ids v₁).getLast? := by
  have hchain := h.chain
  rw [ids_append, ids_cons] at hchain
  exact ⟨hchain.mid.2.trans Option.or_none, hchain.mid.1.trans Option.or_none⟩

theorem around (h : Listed s (v₁ ++ (p, r) :: v₂)) :
    r.start ≤ r.endAddr ∧ (∀ e ∈ v₁, e.2.endAddr < r.start) ∧ ∀ e ∈ v₂, r.endAddr < e.2.start :=
  h.ascending.around

theorem setRegion (h : Listed s (v₁ ++ (p, r) :: v₂)) (hle : r'.start ≤ r'.endAddr)
    (hlim : r'.endAddr ≤ mmapLimit) (h₁ : ∀ e ∈ v₁, e.2.endAddr < r'.start)
    (h₂ : ∀ e ∈ v₂, r'.endAddr < e.2.start) :
    Listed (s.setRegion p r') (v₁ ++ (p, r') :: v₂) where
  chain := by simpa using h.chain
  head := by simpa using h.head
  tail := by simpa using h.tail
  alloc := forall_replace h.alloc (h.alloc (p, r) (by simp))
  region := by
    have hp := h.not_mem_of_split
    intro e he
    simp only [List.mem_append, List.mem_cons] at he
    rcases he with he | rfl | he
    · have hne : e.1 ≠ p := fun heq => hp.1 (heq ▸ mem_ids_of_mem he)
      simpa [State.setRegion_region, hne] using h.region e (by simp [he])
    · simp
    · have hne : e.1 ≠ p := fun heq => hp.2 (heq ▸ mem_ids_of_mem he)
      simpa [State.setRegion_region, hne] using h.region e (by simp [he])
  ascending := h.ascending.replace hle h₁ h₂
  limit := forall_replace h.limit hlim

end Listed

/-! ## Searching a listed address space -/

theorem find?_ids {v : View} {stop : Nat → Bool} {test : Nat × Region → Bool}
    (h : ∀ e ∈ v, stop e.1 = test e) : (ids v).find? stop = (v.find? test).map Prod.fst := by
  induction v with
  | nil => rfl
  | cons e v ih =>
    rw [ids_cons, List.find?_cons, List.find?_cons, h e (by simp),
      ih fun e' he' => h e' (by simp [he'])]
    cases test e <;> rfl

/-- The first address behind a gap that is followed by the regions `v`. -/
def ceiling (v : View) : BitVec 64 :=
  match v with
  | [] => mmapLimit + 1
  | e :: _ => e.2.start

namespace Listed

variable {s s' : State π} {v v₁ v₂ : View} {p : Nat} {r r' : Region} {a : BitVec 64}

theorem forlinked_eq (h : Listed s v) (stop : Nat → Bool) :
    forlinked s stop = .ok ((ids v).find? stop) := by
  rcases scan_chain_find stop none h.chain h.length_le with ⟨last, hscan⟩
  rw [← h.head] at hscan
  simp [forlinked, hscan]

theorem contains_eq (h : Listed s v) (p : Nat) :
    mmapContains s p = .ok (decide (p ∈ ids v)) := by
  simp only [mmapContains, h.forlinked_eq, ok_bind, pure_eq_ok, Except.ok.injEq]
  by_cases hp : p ∈ ids v
  · simp [hp]
  · have hnone : (ids v).find? (fun q => decide (q = p)) = none := by
      refine List.find?_eq_none.2 fun q hq => ?_
      simpa using fun heq : q = p => hp (heq ▸ hq)
    simp [hp, hnone]

theorem find_eq (h : Listed s v) (a : BitVec 64) :
    mmapFind s a =
      .ok ((v.find? fun e => lo e ≤ a.toNat ∧ a.toNat ≤ hi e).map Prod.fst) := by
  rw [mmapFind, h.forlinked_eq]
  refine congrArg Except.ok (find?_ids ?_)
  intro e he
  rw [h.region e he, Region.contains, lo, hi, Bool.decide_and]
  rfl

theorem find_at (h : Listed s (v₁ ++ (p, r) :: v₂)) (hlo : r.start ≤ a) (hhi : a ≤ r.endAddr) :
    mmapFind s a = .ok (some p) := by
  rw [h.find_eq, h.ascending.find?_at hlo hhi]
  rfl

theorem find_gap (h : Listed s (v₁ ++ v₂)) (hgap : Gap lo hi a.toNat v₁ v₂) :
    mmapFind s a = .ok none := by
  rw [h.find_eq, hgap.find?_eq_none]
  rfl

theorem locate (h : Listed s v) (a : BitVec 64) :
    (∃ v₁ p r v₂, v = v₁ ++ (p, r) :: v₂ ∧ r.start ≤ a ∧ a ≤ r.endAddr) ∨
      ∃ v₁ v₂, v = v₁ ++ v₂ ∧ Gap lo hi a.toNat v₁ v₂ := by
  rcases h.ascending.locate a.toNat with ⟨v₁, ⟨p, r⟩, v₂, hv, hlo, hhi⟩ | ⟨v₁, v₂, hv, hgap⟩
  · exact .inl ⟨v₁, p, r, v₂, hv, hlo, hhi⟩
  · exact .inr ⟨v₁, v₂, hv, hgap⟩

theorem findVmrNext_gap (h : Listed s (v₁ ++ v₂)) (hgap : Gap lo hi a.toNat v₁ v₂) :
    mmapFindVmrNext s a = .ok (ids v₂).head? := by
  have hne : ∀ e ∈ v₁, ¬ a < e.2.start := by
    intro e he
    have hlt := hgap.below e he
    have hle := (h.bounds (e := e) (by simp [he])).1
    simp only [hi] at hlt
    bv_omega
  rw [mmapFindVmrNext, h.find_gap hgap, ok_bind]
  simp only
  rw [h.forlinked_eq, ids_append, List.find?_append]
  have hfind1 : (ids v₁).find? (fun p => decide (a < (s.region p).start)) = none := by
    refine List.find?_eq_none.2 fun q hq => ?_
    rcases exists_of_mem_ids hq with ⟨r, hr⟩
    simpa [h.region (q, r) (by simp [hr])] using hne (q, r) hr
  rw [hfind1, Option.none_or]
  cases v₂ with
  | nil => rfl
  | cons e v₂ =>
    have hlt : a < e.2.start := hgap.above e (by simp)
    simp [h.region e (by simp), hlt]

/-! ### Sizes of holes -/

theorem lt_ceiling (h : Listed s (v₁ ++ v₂)) (hgap : Gap lo hi a.toNat v₁ v₂)
    (ha : a ≤ mmapLimit) : a < ceiling v₂ ∧ ceiling v₂ ≤ mmapLimit + 1 := by
  cases v₂ with
  | nil =>
    simp only [ceiling, mmapLimit] at ha ⊢
    bv_omega
  | cons e v₂ =>
    have hlt : a < e.2.start := hgap.above e (by simp)
    have hle := h.bounds (e := e) (by simp)
    simp only [ceiling, mmapLimit] at hle ⊢
    bv_omega

theorem getholesize_gap (h : Listed s (v₁ ++ v₂)) (hgap : Gap lo hi a.toNat v₁ v₂)
    (ha : a ≤ mmapLimit) : mmapGetholesize s a = .ok (.ok, ceiling v₂ - a) := by
  have hlim : ¬ mmapLimit < a := by bv_omega
  rw [mmapGetholesize, if_neg hlim, h.find_gap hgap, ok_bind]
  simp only
  rw [h.findVmrNext_gap hgap, ok_bind]
  cases v₂ with
  | nil => rfl
  | cons e v₂ => simp [h.region e (by simp), ceiling]

theorem getholesize_at (h : Listed s (v₁ ++ (p, r) :: v₂)) (hlo : r.start ≤ a)
    (hhi : a ≤ r.endAddr) : mmapGetholesize s a = .ok (.err .EINVAL, 0) := by
  by_cases hlim : mmapLimit < a
  · rw [mmapGetholesize, if_pos hlim]
    rfl
  · rw [mmapGetholesize, if_neg hlim, h.find_at hlo hhi]
    rfl

theorem getholesize_beyond (ha : mmapLimit < a) :
    mmapGetholesize s a = .ok (.err .EINVAL, 0) := by
  rw [mmapGetholesize, if_pos ha]
  rfl

theorem getholesize_cases (h : Listed s v) (a : BitVec 64) :
    mmapGetholesize s a = .ok (.err .EINVAL, 0) ∨
      ∃ v₁ v₂, v = v₁ ++ v₂ ∧ a ≤ mmapLimit ∧ Gap lo hi a.toNat v₁ v₂ ∧
        mmapGetholesize s a = .ok (.ok, ceiling v₂ - a) := by
  by_cases ha : mmapLimit < a
  · exact .inl (getholesize_beyond ha)
  rcases h.locate a with ⟨v₁, p, r, v₂, rfl, hlo, hhi⟩ | ⟨v₁, v₂, rfl, hgap⟩
  · exact .inl (h.getholesize_at hlo hhi)
  · have hle : a ≤ mmapLimit := by bv_omega
    exact .inr ⟨v₁, v₂, rfl, hle, hgap, h.getholesize_gap hgap hle⟩

end Listed

/-! ## Mapping in -/

section Mapin

variable {s s' : State π} {v v₁ v₂ : View} {p : Nat} {r : Region}

def Account.grown (a : Account π) (r : Region) : Account π :=
  { a with refs := a.refs + 1, usedSpace := a.usedSpace + r.size }

@[simp] theorem adopt_nexts (s : State π) (p : Nat) : nexts (adopt s p).mem = nexts s.mem :=
  s.modify_nexts p (f := (·.setMapped true)) fun _ => rfl

@[simp] theorem adopt_prevs (s : State π) (p : Nat) : prevs (adopt s p).mem = prevs s.mem :=
  s.modify_prevs p (f := (·.setMapped true)) fun _ => rfl

@[simp] theorem adopt_region (s : State π) (p q : Nat) : (adopt s p).region q = s.region q :=
  s.modify_field Vmr.toRegion p (f := (·.setMapped true)) (fun _ => rfl) q

theorem adopt_mapped (s : State π) (p q : Nat) :
    ((adopt s p).mem q).mapped = if q = p then true else (s.mem q).mapped := by
  have hmem : (adopt s p).mem q = if q = p then (s.mem p).setMapped true else s.mem q :=
    s.modify_mem p (·.setMapped true) q
  rw [hmem]
  by_cases hq : q = p <;> simp [hq, Vmr.setMapped]

theorem adopt_account (s : State π) (p : Nat) :
    (adopt s p).toAccount = s.toAccount.grown (s.region p) := by
  have hreg : (s.modify p (·.setMapped true)).region p = s.region p :=
    s.modify_field Vmr.toRegion p (f := (·.setMapped true)) (fun _ => rfl) p
  simp only [adopt, State.withAccount, Account.grown, hreg]
  rfl

@[simp] theorem addRefs_nexts (s : State π) (p : Nat) (k : Int) :
    nexts (s.modify p (·.addRefs k)).mem = nexts s.mem :=
  s.modify_nexts p (f := (·.addRefs k)) fun _ => rfl

@[simp] theorem addRefs_prevs (s : State π) (p : Nat) (k : Int) :
    prevs (s.modify p (·.addRefs k)).mem = prevs s.mem :=
  s.modify_prevs p (f := (·.addRefs k)) fun _ => rfl

@[simp] theorem addRefs_region (s : State π) (p : Nat) (k : Int) (q : Nat) :
    (s.modify p (·.addRefs k)).region q = s.region q :=
  s.modify_field Vmr.toRegion p (f := (·.addRefs k)) (fun _ => rfl) q

@[simp] theorem addRefs_mapped (s : State π) (p : Nat) (k : Int) (q : Nat) :
    ((s.modify p (·.addRefs k)).mem q).mapped = (s.mem q).mapped :=
  s.modify_field Vmr.mapped p (f := (·.addRefs k)) (fun _ => rfl) q

@[simp] theorem storeNext_region (m : Nat → Vmr) (l : Option Nat) (x : Option Nat) (q : Nat) :
    (storeNext m l x q).toRegion = (m q).toRegion :=
  storeNext_field Vmr.toRegion (fun _ _ => rfl) m l x q

@[simp] theorem storePrev_region (m : Nat → Vmr) (l : Option Nat) (x : Option Nat) (q : Nat) :
    (storePrev m l x q).toRegion = (m q).toRegion :=
  storePrev_field Vmr.toRegion (fun _ _ => rfl) m l x q

@[simp] theorem storeNext_mapped (m : Nat → Vmr) (l : Option Nat) (x : Option Nat) (q : Nat) :
    (storeNext m l x q).mapped = (m q).mapped :=
  storeNext_field Vmr.mapped (fun _ _ => rfl) m l x q

@[simp] theorem storePrev_mapped (m : Nat → Vmr) (l : Option Nat) (x : Option Nat) (q : Nat) :
    (storePrev m l x q).mapped = (m q).mapped :=
  storePrev_field Vmr.mapped (fun _ _ => rfl) m l x q

@[simp] theorem storeNext_refs (m : Nat → Vmr) (l : Option Nat) (x : Option Nat) (q : Nat) :
    (storeNext m l x q).refs = (m q).refs :=
  storeNext_field Vmr.refs (fun _ _ => rfl) m l x q

@[simp] theorem storePrev_refs (m : Nat → Vmr) (l : Option Nat) (x : Option Nat) (q : Nat) :
    (storePrev m l x q).refs = (m q).refs :=
  storePrev_field Vmr.refs (fun _ _ => rfl) m l x q

theorem addRefs_refs (s : State π) (p : Nat) (k : Int) (q : Nat) :
    ((s.modify p (·.addRefs k)).mem q).refs = (s.mem q).refs + if q = p then k else 0 := by
  rw [State.modify_mem]
  by_cases hq : q = p
  · simp [hq, Vmr.addRefs]
  · simp [hq]

/-- `s'` is `s` with the object `p` of contents `r` linked in between `v₁` and `v₂`. -/
structure Inserted (s s' : State π) (p : Nat) (r : Region) (v₁ v₂ : View) : Prop where
  listed : Listed s' (v₁ ++ (p, r) :: v₂)
  account : s'.toAccount = s.toAccount.grown r
  allocs : s'.allocs = s.allocs
  region : ∀ q, s'.region q = s.region q
  mapped : ∀ q, (s'.mem q).mapped = if q = p then true else (s.mem q).mapped

structure Fits (s : State π) (p : Nat) (r : Region) (v₁ v₂ : View) : Prop where
  fresh : p ∉ ids (v₁ ++ v₂)
  alloc : p < s.allocs
  region : s.region p = r
  le : r.start ≤ r.endAddr
  limit : r.endAddr ≤ mmapLimit
  below : ∀ e ∈ v₁, e.2.endAddr < r.start
  above : ∀ e ∈ v₂, r.endAddr < e.2.start

theorem Listed.insert (h : Listed s (v₁ ++ v₂)) (hfit : Fits s p r v₁ v₂)
    (hn : nexts s'.mem =
      setLink (setLink (nexts s.mem) (some p) (ids v₂).head?) (ids v₁).getLast? (some p))
    (hp : prevs s'.mem =
      setLink (setLink (prevs s.mem) (some p) (ids v₁).getLast?) (ids v₂).head? (some p))
    (hhead : s'.head = (ids v₁ ++ p :: ids v₂).head?)
    (htail : s'.tail = (ids v₁ ++ p :: ids v₂).getLast?)
    (halloc : s'.allocs = s.allocs) (hreg : ∀ q, s'.region q = s.region q) :
    Listed s' (v₁ ++ (p, r) :: v₂) where
  chain := by
    have hfresh := hfit.fresh
    have hchain := h.chain
    rw [ids_append] at hfresh hchain
    simpa using hchain.insert hfresh hn hp
  head := by simpa using hhead
  tail := by simpa using htail
  alloc := by
    rw [halloc]
    exact forall_insert h.alloc hfit.alloc
  region := by
    simp only [hreg]
    exact forall_insert h.region hfit.region
  ascending := h.ascending.insert hfit.le hfit.below hfit.above
  limit := forall_insert h.limit hfit.limit

theorem Listed.mapinFirst (h : Listed s []) (hfit : Fits s p r [] [])
    (hn : (s.mem p).next = none) (hp : (s.mem p).prev = none) :
    Inserted s (mapinFirst s p) p r [] [] := by
  refine ⟨?_, ?_, rfl, ?_, ?_⟩
  · refine h.insert hfit ?_ ?_ rfl rfl rfl ?_
    · rw [Mmap.mapinFirst, adopt_nexts, addRefs_nexts]
      simp only [ids_nil, List.head?_nil, List.getLast?_nil, setLink_none]
      exact (setLink_self fun q hq => by cases hq; exact hn).symm
    · rw [Mmap.mapinFirst, adopt_prevs, addRefs_prevs]
      simp only [ids_nil, List.head?_nil, List.getLast?_nil, setLink_none]
      exact (setLink_self fun q hq => by cases hq; exact hp).symm
    · intro q
      rw [Mmap.mapinFirst, adopt_region]
      exact addRefs_region s p 2 q
  · rw [Mmap.mapinFirst, adopt_account]
    exact congrArg _ ((addRefs_region s p 2 p).trans hfit.region)
  · intro q
    rw [Mmap.mapinFirst, adopt_region]
    exact addRefs_region s p 2 q
  · intro q
    rw [Mmap.mapinFirst, adopt_mapped]
    simp only [addRefs_mapped]

theorem Listed.mapinBefore {e : Nat × Region} (h : Listed s (v₁ ++ e :: v₂))
    (hfit : Fits s p r v₁ (e :: v₂)) (hv1 : v₁ ≠ []) :
    Inserted s (mapinBefore s p e.1) p r v₁ (e :: v₂) := by
  have hchain := h.chain
  rw [ids_append, ids_cons] at hchain
  have hprev : (s.mem e.1).prev = (ids v₁).getLast? := hchain.mid.1.trans Option.or_none
  obtain ⟨q, hq⟩ : ∃ q, (ids v₁).getLast? = some q := by
    rw [← Option.isSome_iff_exists, List.getLast?_isSome]
    simpa [ids] using hv1
  have heq : Mmap.mapinBefore s p e.1 =
      adopt ((s.withMem (storePrev (storeNext (storePrev (storeNext s.mem (some p) (some e.1))
        (some p) (some q)) (some q) (some p)) (some e.1) (some p))).modify p (·.addRefs 2)) p := by
    rw [Mmap.mapinBefore, hprev, hq]
  have hreg : ∀ q, (Mmap.mapinBefore s p e.1).region q = s.region q := by
    intro q
    rw [heq, adopt_region, addRefs_region]
    simp [State.region, State.withMem]
  refine ⟨h.insert hfit ?_ ?_ ?_ ?_ ?_ hreg, ?_, by rw [heq]; rfl, hreg, ?_⟩
  · rw [heq, adopt_nexts, addRefs_nexts]
    simp [State.withMem, hq]
  · rw [heq, adopt_prevs, addRefs_prevs]
    simp [State.withMem, hq]
  · -- the head is that of the non-empty `v₁`
    rw [heq]
    change s.head = _
    rw [h.head]
    cases v₁ with
    | nil => exact absurd rfl hv1
    | cons e' v₁ => simp
  · rw [heq]
    change s.tail = _
    rw [h.tail]
    simp [List.getLast?_append, List.getLast?_cons_cons]
  · rw [heq]
    rfl
  · rw [heq, adopt_account, addRefs_region]
    change s.toAccount.grown _ = _
    rw [← hfit.region]
    simp [State.region, State.withMem]
  · intro q
    rw [heq, adopt_mapped, addRefs_mapped]
    simp [State.withMem]

theorem Listed.mapinLast (h : Listed s v₁) (hfit : Fits s p r v₁ []) (hv1 : v₁ ≠ []) :
    Inserted s (mapinLast s p) p r v₁ [] := by
  obtain ⟨q, hq⟩ : ∃ q, (ids v₁).getLast? = some q := by
    rw [← Option.isSome_iff_exists, List.getLast?_isSome]
    simpa [ids] using hv1
  have htail : s.tail = some q := h.tail.trans hq
  have hreg : ∀ q, (Mmap.mapinLast s p).region q = s.region q := by
    intro q
    rw [Mmap.mapinLast, adopt_region]
    refine (addRefs_region _ p 2 q).trans ?_
    simp [State.region, State.withMem]
  refine ⟨?_, ?_, rfl, hreg, ?_⟩
  · refine (show Listed s (v₁ ++ []) by simpa using h).insert hfit ?_ ?_ ?_ ?_ rfl hreg
    · rw [Mmap.mapinLast, adopt_nexts, addRefs_nexts]
      simp [State.withMem, hq, htail]
    · rw [Mmap.mapinLast, adopt_prevs, addRefs_prevs]
      simp [State.withMem, hq, htail]
    · change (if s.tail = none then some p else s.head) = _
      rw [htail, if_neg (by simp), h.head]
      cases v₁ with
      | nil => exact absurd rfl hv1
      | cons e' v₁ => simp
    · change some p = _
      simp
  · rw [Mmap.mapinLast, adopt_account]
    change s.toAccount.grown _ = _
    rw [← hfit.region]
    exact congrArg _ ((addRefs_region _ p 2 p).trans (by simp [State.region, State.withMem]))
  · intro q
    rw [Mmap.mapinLast, adopt_mapped]
    simp only [addRefs_mapped]
    simp [State.withMem]

theorem Listed.mapinInsert (h : Listed s (v₁ ++ v₂)) (hfit : Fits s p r v₁ v₂)
    (hfirst : v₁ = [] → v₂ = [])
    (hlinks : v₁ = [] → (s.mem p).next = none ∧ (s.mem p).prev = none) :
    ∃ s', mapinInsert s p = .ok s' ∧ Inserted s s' p r v₁ v₂ := by
  cases v₁ with
  | nil =>
    cases hfirst rfl
    have hhead : s.head = none := h.head
    rcases hlinks rfl with ⟨hn, hp⟩
    refine ⟨_, ?_, h.mapinFirst hfit hn hp⟩
    simp [Mmap.mapinInsert, hhead]
  | cons e1 v₁ =>
    have hhead : s.head = some e1.1 := h.head
    have hfind1 : (ids (e1 :: v₁)).find?
        (fun q => decide ((s.region p).start < (s.region q).start)) = none := by
      refine List.find?_eq_none.2 fun q hq => ?_
      rcases exists_of_mem_ids hq with ⟨r', hr'⟩
      have hlt := hfit.below _ hr'
      have hle := (h.bounds (e := (q, r')) (List.mem_append_left _ hr')).1
      rw [h.region (q, r') (List.mem_append_left _ hr'), hfit.region]
      simp only [decide_eq_true_eq] at hlt hle ⊢
      bv_omega
    have hscan := h.forlinked_eq fun q => decide ((s.region p).start < (s.region q).start)
    rw [ids_append, List.find?_append, hfind1, Option.none_or] at hscan
    rw [Mmap.mapinInsert, if_neg (by simp [hhead]), hscan, ok_bind]
    cases v₂ with
    | nil =>
      refine ⟨_, rfl, ?_⟩
      rw [List.append_nil] at h
      exact h.mapinLast hfit (by simp)
    | cons e v₂ =>
      have hlt : (s.region p).start < (s.region e.1).start := by
        have hab := hfit.above e (by simp)
        have hle := hfit.le
        rw [h.region e (by simp), hfit.region]
        bv_omega
      refine ⟨_, ?_, h.mapinBefore hfit (by simp)⟩
      rw [ids_cons, List.find?_cons_of_pos (by simpa using hlt)]
      rfl

theorem Fits.gap (hfit : Fits s p r v₁ v₂) : Gap lo hi r.start.toNat v₁ v₂ := by
  refine ⟨hfit.below, ?_⟩
  intro e he
  exact hfit.le.trans_lt (hfit.above e he)

theorem Fits.lt_ceiling (hfit : Fits s p r v₁ v₂) : r.endAddr < ceiling v₂ := by
  cases v₂ with
  | nil =>
    have hlim := hfit.limit
    simp only [ceiling, mmapLimit] at hlim ⊢
    bv_omega
  | cons e v₂ => exact hfit.above e (by simp)

theorem Fits.size_ne_zero (hfit : Fits s p r v₁ v₂) : ¬ r.size = 0 := by
  have hle := hfit.le
  have hlim := hfit.limit
  simp only [Region.size, mmapLimit] at hlim ⊢
  bv_omega

theorem Listed.mapinLoop_fits (h : Listed s (v₁ ++ v₂)) (hfit : Fits s p r v₁ v₂) (n : Nat) :
    mapinLoop s r.endAddr (n + 2) r.start = .ok .ok := by
  have hlim : r.start ≤ mmapLimit := BitVec.le_trans hfit.le hfit.limit
  have hceil := h.lt_ceiling hfit.gap hlim
  have hlt := hfit.lt_ceiling
  have hhole : ceiling v₂ - r.start ≠ 0 := by bv_omega
  have hsum : r.start + (ceiling v₂ - r.start) = ceiling v₂ := by bv_omega
  have hle := hfit.le
  rw [mapinLoop, if_neg (by bv_omega), h.find_gap hfit.gap, ok_bind]
  simp only
  rw [h.getholesize_gap hfit.gap hlim, ok_bind]
  simp only [assert, if_pos hhole, ok_bind, hsum]
  rw [mapinLoop, if_pos hlt]
  rfl

theorem Listed.mapinLoop_cases (h : Listed s v) (hp : p ∉ ids v) (halloc : p < s.allocs)
    (hle : (s.region p).start ≤ (s.region p).endAddr)
    (hlim : (s.region p).endAddr ≤ mmapLimit) (n : Nat) :
    mapinLoop s (s.region p).endAddr (n + 2) (s.region p).start = .ok (.err .EEXIST) ∨
      ∃ v₁ v₂, v = v₁ ++ v₂ ∧ Fits s p (s.region p) v₁ v₂ := by
  rcases h.locate (s.region p).start with
    ⟨v₁, q, r, v₂, rfl, hlo, hhi⟩ | ⟨v₁, v₂, rfl, hgap⟩
  · refine .inl ?_
    rw [mapinLoop, if_neg (by bv_omega), h.find_at hlo hhi]
    rfl
  have hstart : (s.region p).start ≤ mmapLimit := BitVec.le_trans hle hlim
  have hceil := h.lt_ceiling hgap hstart
  by_cases hend : (s.region p).endAddr < ceiling v₂
  · refine .inr ⟨v₁, v₂, rfl, hp, halloc, rfl, hle, hlim, hgap.below, ?_⟩
    cases v₂ with
    | nil => exact fun e he => absurd he (by simp)
    | cons e v₂ =>
      intro e' he'
      have hhead := (ascending_append.1 h.ascending).2.1.head_le he'
      exact lt_of_lt_of_le hend hhead
  · -- the gap ends at a region that starts within the new one
    refine .inl ?_
    cases v₂ with
    | nil =>
      simp only [ceiling, mmapLimit] at hend hlim
      exact absurd hlim (by bv_omega)
    | cons e v₂ =>
      have hbe := (h.bounds (e := e) (by simp)).1
      have hfind : mmapFind s (ceiling (e :: v₂)) = .ok (some e.1) :=
        Listed.find_at (p := e.1) (r := e.2) h (BitVec.le_refl _) hbe
      have hhole : ceiling (e :: v₂) - (s.region p).start ≠ 0 := by bv_omega
      have hsum : (s.region p).start + (ceiling (e :: v₂) - (s.region p).start) =
        ceiling (e :: v₂) := by bv_omega
      rw [mapinLoop, if_neg (by bv_omega), h.find_gap hgap, ok_bind]
      simp only
      rw [h.getholesize_gap hgap hstart, ok_bind]
      simp only [assert, if_pos hhole, ok_bind, hsum]
      rw [mapinLoop, if_neg hend, hfind]
      rfl

theorem Listed.mapin_fits (h : Listed s (v₁ ++ v₂)) (hfit : Fits s p r v₁ v₂)
    (hfirst : v₁ = [] → v₂ = [])
    (hlinks : v₁ = [] → (s.mem p).next = none ∧ (s.mem p).prev = none) :
    ∃ s', mmapMapin s p = .ok (.ok, s') ∧ Inserted s s' p r v₁ v₂ := by
  rcases h.mapinInsert hfit hfirst hlinks with ⟨s', hins, hs'⟩
  refine ⟨s', ?_, hs'⟩
  have hlim : ¬ mmapLimit < r.endAddr := BitVec.not_lt.2 hfit.limit
  have hcond : ¬ (r.size = 0 ∨ mmapLimit < r.endAddr) := by
    rintro (hsize | hlt)
    · exact hfit.size_ne_zero hsize
    · exact hlim hlt
  rw [mmapMapin, h.contains_eq, ok_bind, hfit.region, if_neg (by simpa using hfit.fresh),
    if_neg hcond, h.mapinLoop_fits hfit, ok_bind]
  simp only
  rw [hins]
  rfl

theorem Listed.mapin_cases (h : Listed s v) (halloc : p < s.allocs)
    (horder : (s.region p).start ≤ (s.region p).endAddr ∨ (s.region p).size = 0 ∨
      mmapLimit < (s.region p).endAddr) :
    (∃ e, mmapMapin s p = .ok (.err e, s)) ∨
      ∃ v₁ v₂, v = v₁ ++ v₂ ∧ Fits s p (s.region p) v₁ v₂ := by
  by_cases hp : p ∈ ids v
  · refine .inl ⟨.EEXIST, ?_⟩
    rw [mmapMapin, h.contains_eq, ok_bind, if_pos (by simpa using hp)]
    rfl
  by_cases hcond : (s.region p).size = 0 ∨ mmapLimit < (s.region p).endAddr
  · refine .inl ⟨.EINVAL, ?_⟩
    rw [mmapMapin, h.contains_eq, ok_bind, if_neg (by simpa using hp), if_pos hcond]
    rfl
  have hle : (s.region p).start ≤ (s.region p).endAddr := by
    rcases horder with hle | hrest
    · exact hle
    · exact absurd hrest hcond
  have hlim : (s.region p).endAddr ≤ mmapLimit := BitVec.not_lt.1 fun hlt => hcond (.inr hlt)
  rcases h.mapinLoop_cases hp halloc hle hlim s.allocs with hloop | hfit
  · refine .inl ⟨.EEXIST, ?_⟩
    rw [mmapMapin, h.contains_eq, ok_bind, if_neg (by simpa using hp), if_neg hcond, hloop]
    rfl
  · exact .inr hfit

end Mapin

/-! ## Removing -/

section Remove

variable {env : Env π} {s s' u : State π} {v v₁ v₂ : View} {p : Nat} {r : Region}

/-- Two states differ at most in reference counts of regions and in their head and tail. -/
structure Agree (s s' : State π) : Prop where
  nexts : Links.nexts s'.mem = Links.nexts s.mem
  prevs : Links.prevs s'.mem = Links.prevs s.mem
  region : ∀ q, s'.region q = s.region q
  mapped : ∀ q, (s'.mem q).mapped = (s.mem q).mapped
  account : s'.toAccount = s.toAccount
  allocs : s'.allocs = s.allocs

theorem Agree.refl (s : State π) : Agree s s := ⟨rfl, rfl, fun _ => rfl, fun _ => rfl, rfl, rfl⟩

theorem Agree.trans (h : Agree s s') (h' : Agree s' u) : Agree s u :=
  ⟨h'.nexts.trans h.nexts, h'.prevs.trans h.prevs, fun q => (h'.region q).trans (h.region q),
    fun q => (h'.mapped q).trans (h.mapped q), h'.account.trans h.account,
    h'.allocs.trans h.allocs⟩

theorem agree_addRefs (s : State π) (p : Nat) (k : Int) : Agree s (s.modify p (·.addRefs k)) :=
  ⟨addRefs_nexts s p k, addRefs_prevs s p k, addRefs_region s p k, addRefs_mapped s p k, rfl, rfl⟩

theorem unlinkHead_agree (hprev : u.head = some p → ∀ h, (u.mem p).next = some h →
    (u.mem h).prev = none) : Agree u (unlinkHead u p) := by
  rw [unlinkHead]
  by_cases hhead : u.head = some p
  · rw [if_pos hhead]
    cases hnext : (u.mem p).next with
    | none => exact ⟨rfl, rfl, fun _ => rfl, fun _ => rfl, rfl, rfl⟩
    | some h =>
      have hself : Links.prevs (storePrev u.mem (some h) none) = Links.prevs u.mem := by
        rw [prevs_storePrev]
        exact setLink_self fun q hq => by cases hq; exact hprev hhead h hnext
      have hagree : Agree u { u with
          head := some h, mem := storePrev u.mem (some h) none } :=
        ⟨nexts_storePrev u.mem (some h) none, hself, fun q => storePrev_region _ _ _ q,
          fun q => storePrev_mapped _ _ _ q, rfl, rfl⟩
      simp only
      split
      · exact hagree.trans (agree_addRefs _ h (-1))
      · exact hagree
  · rw [if_neg hhead]
    exact Agree.refl u

theorem unlinkHead_ends :
    (unlinkHead u p).head = (if u.head = some p then (u.mem p).next else u.head) ∧
      (unlinkHead u p).tail = u.tail := by
  rw [unlinkHead]
  by_cases hhead : u.head = some p
  · simp only [if_pos hhead]
    cases (u.mem p).next with
    | none => exact ⟨rfl, rfl⟩
    | some h =>
      simp only
      split <;> exact ⟨rfl, rfl⟩
  · simp only [if_neg hhead, and_self]

theorem unlinkTail_agree (hnext : u.tail = some p → ∀ t, (u.mem p).prev = some t →
    (u.mem t).next = none) : Agree u (unlinkTail u p) := by
  rw [unlinkTail]
  by_cases htail : u.tail = some p
  · rw [if_pos htail]
    cases hprev : (u.mem p).prev with
    | none => exact ⟨rfl, rfl, fun _ => rfl, fun _ => rfl, rfl, rfl⟩
    | some t =>
      have hself : Links.nexts (storeNext u.mem (some t) none) = Links.nexts u.mem := by
        rw [nexts_storeNext]
        exact setLink_self fun q hq => by cases hq; exact hnext htail t hprev
      have hagree : Agree u { u with
          tail := some t, mem := storeNext u.mem (some t) none } :=
        ⟨hself, prevs_storeNext u.mem (some t) none, fun q => storeNext_region _ _ _ q,
          fun q => storeNext_mapped _ _ _ q, rfl, rfl⟩
      simp only
      split
      · exact hagree.trans (agree_addRefs _ t (-1))
      · exact hagree
  · rw [if_neg htail]
    exact Agree.refl u

theorem unlinkTail_ends :
    (unlinkTail u p).head = u.head ∧
      (unlinkTail u p).tail = if u.tail = some p then (u.mem p).prev else u.tail := by
  rw [unlinkTail]
  by_cases htail : u.tail = some p
  · simp only [if_pos htail]
    cases (u.mem p).prev with
    | none => exact ⟨rfl, rfl⟩
    | some t =>
      simp only
      split <;> exact ⟨rfl, rfl⟩
  · simp only [if_neg htail, and_self]

/-- `s'` is `s` without the region `p`, whose pages were unmapped. -/
structure Removed (env : Env π) (s s' : State π) (p : Nat) (r : Region) (v₁ v₂ : View) : Prop where
  listed : Listed s' (v₁ ++ v₂)
  account : ∃ pt, env.unmapN s.pt r.start r.size = .ok pt ∧
    s'.toAccount = (forget s.toAccount p).withPt pt
  allocs : s'.allocs = s.allocs
  region : ∀ q, s'.region q = s.region q
  mapped : ∀ q, (s'.mem q).mapped = if q = p then false else (s.mem q).mapped
  links : ∀ q, q ∉ ids (v₁ ++ (p, r) :: v₂) →
    (s'.mem q).next = (s.mem q).next ∧ (s'.mem q).prev = (s.mem q).prev
  refs : ∀ q, q ≠ p →
    (s'.mem q).refs = (s.mem q).refs - if ids (v₁ ++ v₂) = [q] then 1 else 0
  freed : (s'.mem p).refs = (s.mem p).refs - 2 - (if ids v₁ = [] then 0 else 1) -
    (if ids v₂ = [] then 0 else 1)

theorem forget_pt (a : Account π) (p : Nat) : (forget a p).pt = a.pt := by
  simp only [forget]
  split_ifs <;> rfl

theorem Listed.unlinkNeighbours_links (h : Listed s (v₁ ++ (p, r) :: v₂)) :
    nexts (unlinkNeighbours s p).mem = setLink (nexts s.mem) (ids v₁).getLast? (ids v₂).head? ∧
    prevs (unlinkNeighbours s p).mem = setLink (prevs s.mem) (ids v₂).head? (ids v₁).getLast? ∧
    ((unlinkNeighbours s p).mem p).next = (ids v₂).head? ∧
    ((unlinkNeighbours s p).mem p).prev = (ids v₁).getLast? := by
  rcases h.links_at with ⟨hnext, hprev⟩
  simp only at hnext hprev
  rcases h.not_mem_of_split with ⟨hp1, hp2⟩
  have hprevp : (ids v₁).getLast? ≠ some p := fun heq => hp1 (List.mem_of_getLast? heq)
  have hnextp : (ids v₂).head? ≠ some p := fun heq => hp2 (List.mem_of_head? heq)
  have hn : nexts (unlinkNeighbours s p).mem =
      setLink (nexts s.mem) (ids v₁).getLast? (ids v₂).head? := by
    rw [unlinkNeighbours, addRefs_nexts]
    simp [State.withMem, hprev, hnext]
  have hp : prevs (unlinkNeighbours s p).mem =
      setLink (prevs s.mem) (ids v₂).head? (ids v₁).getLast? := by
    rw [unlinkNeighbours, addRefs_prevs]
    simp [State.withMem, hprev, hnext]
  refine ⟨hn, hp, ?_, ?_⟩
  · have happ := congrFun hn p
    rw [setLink_apply, if_neg hprevp] at happ
    exact happ.trans hnext
  · have happ := congrFun hp p
    rw [setLink_apply, if_neg hnextp] at happ
    exact happ.trans hprev

theorem Listed.head_eq_iff (h : Listed s (v₁ ++ (p, r) :: v₂)) : s.head = some p ↔ v₁ = [] := by
  rw [h.head]
  cases v₁ with
  | nil => simp
  | cons e v₁ =>
    have hp := h.not_mem_of_split.1
    simp only [ids_cons, List.mem_cons, not_or] at hp
    simp [Ne.symm hp.1]

theorem Listed.tail_eq_iff (h : Listed s (v₁ ++ (p, r) :: v₂)) : s.tail = some p ↔ v₂ = [] := by
  rw [h.tail]
  rcases List.eq_nil_or_concat v₂ with rfl | ⟨w, e, rfl⟩
  · simp
  · have hp := h.not_mem_of_split.2
    rw [List.concat_eq_append] at hp ⊢
    simp only [ids_append, ids_cons, ids_nil, List.mem_append, List.mem_singleton, not_or] at hp
    simp [List.getLast?_append, List.getLast?_cons, Ne.symm hp.2]

theorem Listed.unlinkNeighbours_agree (h : Listed s (v₁ ++ (p, r) :: v₂)) :
    Agree (unlinkNeighbours s p) (unlinkHead (unlinkNeighbours s p) p) := by
  rcases h.unlinkNeighbours_links with ⟨-, hp, hnext, -⟩
  refine unlinkHead_agree fun hhd q hq => ?_
  have happ := congrFun hp q
  rw [setLink_apply, if_pos (hnext.symm.trans hq)] at happ
  cases h.head_eq_iff.1 hhd
  exact happ

theorem Listed.unlink_links (h : Listed s (v₁ ++ (p, r) :: v₂)) :
    let u := unlinkTail (unlinkHead (unlinkNeighbours s p) p) p
    (∀ y, y ≠ p → nexts u.mem y =
      setLink (nexts s.mem) (ids v₁).getLast? (ids v₂).head? y) ∧
    (∀ y, y ≠ p → prevs u.mem y =
      setLink (prevs s.mem) (ids v₂).head? (ids v₁).getLast? y) ∧
    u.head = (ids v₁ ++ ids v₂).head? ∧ u.tail = (ids v₁ ++ ids v₂).getLast? ∧
    (∀ q, u.region q = s.region q) ∧ (∀ q, (u.mem q).mapped = (s.mem q).mapped) ∧
    u.toAccount = s.toAccount ∧ u.allocs = s.allocs := by
  intro u
  have hnd := h.nodup
  have hhead := h.head
  have htail := h.tail
  rw [ids_append, ids_cons] at hnd hhead htail
  rcases h.unlinkNeighbours_links with ⟨hn1, hp1', hnextp1, hprevp1⟩
  have hr1 : ∀ q, (unlinkNeighbours s p).region q = s.region q := by
    intro q
    rw [unlinkNeighbours, addRefs_region]
    simp [State.region, State.withMem]
  have hm1 : ∀ q, ((unlinkNeighbours s p).mem q).mapped = (s.mem q).mapped := by
    intro q
    rw [unlinkNeighbours, addRefs_mapped]
    simp [State.withMem]
  have hagree2 := h.unlinkNeighbours_agree
  have hagree3 : Agree (unlinkHead (unlinkNeighbours s p) p) u := by
    refine unlinkTail_agree fun htl q hq => ?_
    rw [unlinkHead_ends.2] at htl
    have hq' : (ids v₁).getLast? = some q := by
      have happ := congrFun hagree2.prevs p
      exact hprevp1.symm.trans (happ.symm.trans hq)
    have happ := congrFun (hagree2.nexts.trans hn1) q
    rw [setLink_apply, if_pos hq'] at happ
    cases h.tail_eq_iff.1 htl
    exact happ
  have hagree : Agree (unlinkNeighbours s p) u := hagree2.trans hagree3
  refine ⟨?_, ?_, ?_, ?_, ?_, ?_, hagree.account, hagree.allocs⟩
  · intro y _
    exact congrFun (hagree.nexts.trans hn1) y
  · intro y _
    exact congrFun (hagree.prevs.trans hp1') y
  · rw [unlinkTail_ends.1, unlinkHead_ends.1, hnextp1]
    change (if s.head = some p then _ else s.head) = _
    rw [hhead]
    exact head?_unlink hnd
  · have hprevp2 : ((unlinkHead (unlinkNeighbours s p) p).mem p).prev = (ids v₁).getLast? :=
      (congrFun hagree2.prevs p).trans hprevp1
    rw [unlinkTail_ends.2, unlinkHead_ends.2, hprevp2]
    change (if s.tail = some p then _ else s.tail) = _
    rw [htail]
    exact getLast?_unlink hnd
  · exact fun q => (hagree.region q).trans (hr1 q)
  · exact fun q => (hagree.mapped q).trans (hm1 q)

/-! ## Reference counts -/

theorem unlinkNeighbours_refs (q : Nat) :
    ((unlinkNeighbours s p).mem q).refs = (s.mem q).refs +
      if q = p then
        (if (s.mem p).prev = none then 0 else -1) + (if (s.mem p).next = none then 0 else -1)
      else 0 := by
  rw [unlinkNeighbours, addRefs_refs]
  simp [State.withMem]

theorem unlinkHead_refs (q : Nat) :
    ((unlinkHead u p).mem q).refs = (u.mem q).refs -
      if u.head = some p ∧ (u.mem p).next = some q ∧ (u.mem q).next = none then 1 else 0 := by
  rw [unlinkHead]
  by_cases hhead : u.head = some p
  · rw [if_pos hhead]
    cases hnext : (u.mem p).next with
    | none => simp
    | some h =>
      have hkept : (storePrev u.mem (some h) none h).next = (u.mem h).next :=
        storePrev_field Vmr.next (fun _ _ => rfl) u.mem (some h) none h
      simp only [hkept]
      by_cases hq : h = q
      · subst hq
        by_cases halone : (u.mem h).next = none
        · rw [if_pos halone, addRefs_refs]
          simp [hhead, halone]
          omega
        · rw [if_neg halone]
          simp [halone]
      · by_cases halone : (u.mem h).next = none
        · rw [if_pos halone, addRefs_refs]
          simp [hq, Ne.symm hq]
        · rw [if_neg halone]
          simp [hq]
  · rw [if_neg hhead]
    simp [hhead]

theorem unlinkTail_refs (q : Nat) :
    ((unlinkTail u p).mem q).refs = (u.mem q).refs -
      if u.tail = some p ∧ (u.mem p).prev = some q ∧ (u.mem q).prev = none then 1 else 0 := by
  rw [unlinkTail]
  by_cases htail : u.tail = some p
  · rw [if_pos htail]
    cases hprev : (u.mem p).prev with
    | none => simp
    | some t =>
      have hkept : (storeNext u.mem (some t) none t).prev = (u.mem t).prev :=
        storeNext_field Vmr.prev (fun _ _ => rfl) u.mem (some t) none t
      simp only [hkept]
      by_cases hq : t = q
      · subst hq
        by_cases halone : (u.mem t).prev = none
        · rw [if_pos halone, addRefs_refs]
          simp [htail, halone]
          omega
        · rw [if_neg halone]
          simp [halone]
      · by_cases halone : (u.mem t).prev = none
        · rw [if_pos halone, addRefs_refs]
          simp [hq, Ne.symm hq]
        · rw [if_neg halone]
          simp [hq]
  · rw [if_neg htail]
    simp [htail]

theorem Listed.unlink_refs (h : Listed s (v₁ ++ (p, r) :: v₂)) {q : Nat} (hq : q ≠ p) :
    ((unlinkTail (unlinkHead (unlinkNeighbours s p) p) p).mem q).refs =
      (s.mem q).refs - if ids (v₁ ++ v₂) = [q] then 1 else 0 := by
  rcases h.unlinkNeighbours_links with ⟨hn, hp, hnext, hprev⟩
  have hagree := h.unlinkNeighbours_agree
  have hprev2 : ((unlinkHead (unlinkNeighbours s p) p).mem p).prev = (ids v₁).getLast? :=
    (congrFun hagree.prevs p).trans hprev
  have hhead : (unlinkNeighbours s p).head = s.head := rfl
  have htail : (unlinkHead (unlinkNeighbours s p) p).tail = s.tail := unlinkHead_ends.2
  rw [unlinkTail_refs, unlinkHead_refs, unlinkNeighbours_refs, if_neg hq, add_zero, hnext, hprev2,
    hhead, htail]
  simp only [h.head_eq_iff, h.tail_eq_iff]
  cases v₁ with
  | nil =>
    -- the first region is removed
    have hnq : ((unlinkNeighbours s p).mem q).next = (s.mem q).next := congrFun hn q
    cases v₂ with
    | nil => simp
    | cons e v₂ =>
      rw [hnq]
      have hlinks : (s.mem e.1).next = (ids v₂).head? := by
        have h' : Listed s ([(p, r)] ++ e :: v₂) := h
        exact h'.links_at.1
      by_cases heq : e.1 = q
      · subst heq
        simp [hlinks, ids]
      · simp [heq]
  | cons e v₁ =>
    cases v₂ with
    | cons e' v₂ => simp
    | nil =>
      -- the last region is removed
      have hpq : ((unlinkHead (unlinkNeighbours s p) p).mem q).prev = (s.mem q).prev :=
        (congrFun hagree.prevs q).trans (congrFun hp q)
      obtain ⟨w, e', hw⟩ : ∃ w e', e :: v₁ = w ++ [e'] := by
        rcases List.eq_nil_or_concat (e :: v₁) with hnil | ⟨w, e', hw⟩
        · exact absurd hnil (by simp)
        · exact ⟨w, e', by rw [hw, List.concat_eq_append]⟩
      rw [hw, List.append_assoc] at h
      have hlinks : (s.mem e'.1).prev = (ids w).getLast? := h.links_at.2
      have hlast : (ids (w ++ [e'])).getLast? = some e'.1 := by simp
      rw [hpq, hw, hlast]
      by_cases heq : e'.1 = q
      · subst heq
        rw [hlinks]
        cases w <;> simp
      · cases w <;> simp [heq]

theorem Listed.unlink_refs_self (h : Listed s (v₁ ++ (p, r) :: v₂)) :
    ((unlinkTail (unlinkHead (unlinkNeighbours s p) p) p).mem p).refs =
      (s.mem p).refs - (if ids v₁ = [] then 0 else 1) - (if ids v₂ = [] then 0 else 1) := by
  rcases h.unlinkNeighbours_links with ⟨-, -, hnext, hprev⟩
  rcases h.links_at with ⟨hnext0, hprev0⟩
  rcases h.not_mem_of_split with ⟨hp1, hp2⟩
  have hagree := h.unlinkNeighbours_agree
  have hprev2 : ((unlinkHead (unlinkNeighbours s p) p).mem p).prev = (ids v₁).getLast? :=
    (congrFun hagree.prevs p).trans hprev
  have hnextp : (ids v₂).head? ≠ some p := fun heq => hp2 (List.mem_of_head? heq)
  have hprevp : (ids v₁).getLast? ≠ some p := fun heq => hp1 (List.mem_of_getLast? heq)
  simp only at hnext0 hprev0
  rw [unlinkTail_refs, unlinkHead_refs, unlinkNeighbours_refs, if_pos rfl, hnext, hprev2, hnext0,
    hprev0]
  simp only [hnextp, hprevp, false_and, and_false, if_false, sub_zero, List.getLast?_eq_none_iff,
    List.head?_eq_none_iff]
  split_ifs <;> omega

def Env.Fault (env : Env π) (e : XytherOS.Fault) : Prop :=
  (∃ pt start size, env.unmapN pt start size = .error e) ∨
    ∃ pt start size vflags, env.mprotect pt start size vflags = .error e

theorem unlinkVmr_fields {u : State π}
    (hu : u = unlinkTail (unlinkHead (unlinkNeighbours s p) p) p) :
    nexts (unlinkVmr s p).mem = nexts u.mem ∧ prevs (unlinkVmr s p).mem = prevs u.mem ∧
    (unlinkVmr s p).head = u.head ∧ (unlinkVmr s p).tail = u.tail ∧
    (∀ q, (unlinkVmr s p).region q = u.region q) ∧
    (∀ q, ((unlinkVmr s p).mem q).mapped = if q = p then false else (u.mem q).mapped) ∧
    (unlinkVmr s p).toAccount = forget u.toAccount p ∧ (unlinkVmr s p).allocs = u.allocs := by
  subst hu
  refine ⟨State.modify_nexts _ p (f := fun v => (v.addRefs (-1)).setMapped false) fun _ => rfl,
    State.modify_prevs _ p (f := fun v => (v.addRefs (-1)).setMapped false) fun _ => rfl,
    rfl, rfl, ?_, ?_, rfl, rfl⟩
  · exact State.modify_field Vmr.toRegion _ p
      (f := fun v => (v.addRefs (-1)).setMapped false) fun _ => rfl
  · intro q
    have hmem := State.modify_mem (unlinkTail (unlinkHead (unlinkNeighbours s p) p) p) p
      (fun v => (v.addRefs (-1)).setMapped false) q
    refine (congrArg Vmr.mapped hmem).trans ?_
    by_cases hq : q = p <;> simp [hq, Vmr.setMapped]

theorem unlinkVmr_refs (q : Nat) :
    ((unlinkVmr s p).mem q).refs =
      ((unlinkTail (unlinkHead (unlinkNeighbours s p) p) p).mem q).refs + if q = p then -1 else 0 := by
  have hmem := State.modify_mem (unlinkTail (unlinkHead (unlinkNeighbours s p) p) p) p
    (fun v => (v.addRefs (-1)).setMapped false) q
  refine (congrArg Vmr.refs hmem).trans ?_
  by_cases hq : q = p <;> simp [hq, Vmr.setMapped, Vmr.addRefs]

theorem Listed.unlinkVmr (h : Listed s (v₁ ++ (p, r) :: v₂)) :
    Listed (unlinkVmr s p) (v₁ ++ v₂) := by
  rcases h.unlink_links with ⟨hn, hp, hhead, htail, hreg, -, -, halloc⟩
  rcases unlinkVmr_fields (s := s) (p := p) rfl with ⟨hn', hp', hhead', htail', hreg', -, -, halloc'⟩
  have hchain := h.chain
  rw [ids_append, ids_cons] at hchain
  refine ⟨?_, ?_, ?_, ?_, ?_, h.ascending.remove, forall_remove h.limit⟩
  · rw [ids_append, hn', hp']
    exact hchain.remove hn hp
  · rw [hhead', hhead, ids_append]
  · rw [htail', htail, ids_append]
  · rw [halloc', halloc]
    exact forall_remove h.alloc
  · simp only [hreg', hreg]
    exact forall_remove h.region

theorem Listed.remove_within {F : XytherOS.Fault → Prop} (h : Listed s (v₁ ++ (p, r) :: v₂))
    (hunmap : Safe F (env.unmapN s.pt r.start r.size) fun _ => True) :
    Safe F (mmapRemove env s p) fun x => x.1 = .ok ∧ Removed env s x.2 p r v₁ v₂ := by
  have hmem : p ∈ ids (v₁ ++ (p, r) :: v₂) := by simp
  rcases h.unlink_links with ⟨hn, hp, -, -, hreg, hmap, hacc, halloc⟩
  rcases unlinkVmr_fields (s := s) (p := p) rfl with
    ⟨hn', hp', -, -, hreg', hmap', hacc', halloc'⟩
  have hregp : (Mmap.unlinkVmr s p).region p = r := by
    rw [hreg', hreg]
    exact h.region (p, r) (by simp)
  have hpt : (Mmap.unlinkVmr s p).pt = s.pt := by
    rw [show (Mmap.unlinkVmr s p).pt = (Mmap.unlinkVmr s p).toAccount.pt from rfl, hacc',
      forget_pt, hacc]
  rw [mmapRemove, h.contains_eq, ok_bind, if_pos (decide_eq_true hmem)]
  simp only [hregp, hpt]
  cases heq : env.unmapN s.pt r.start r.size with
  | error e =>
    rw [heq] at hunmap
    exact hunmap
  | ok pt =>
    have hagree := agree_addRefs
      ((Mmap.unlinkVmr s p).withAccount ((Mmap.unlinkVmr s p).toAccount.withPt pt)) p (-1)
    have hrefs := addRefs_refs
      ((Mmap.unlinkVmr s p).withAccount ((Mmap.unlinkVmr s p).toAccount.withPt pt)) p (-1)
    refine ⟨rfl, ?_, ⟨pt, heq, ?_⟩, ?_, ?_, ?_, ?_, ?_, ?_⟩
    · refine h.unlinkVmr.congr rfl rfl (le_of_eq rfl) ?_
      intro q _
      exact ⟨congrFun hagree.nexts q, congrFun hagree.prevs q, hagree.region q⟩
    · refine hagree.account.trans ?_
      change (Mmap.unlinkVmr s p).toAccount.withPt pt = _
      rw [hacc', hacc]
    · exact halloc'.trans halloc
    · exact fun q => (hagree.region q).trans ((hreg' q).trans (hreg q))
    · intro q
      rw [← hmap q]
      exact (hagree.mapped q).trans (hmap' q)
    · intro q hq
      simp only [ids_append, ids_cons, List.mem_append, List.mem_cons, not_or] at hq
      have hlast : (ids v₁).getLast? ≠ some q := fun heq => hq.1 (List.mem_of_getLast? heq)
      have hhead : (ids v₂).head? ≠ some q := fun heq => hq.2.2 (List.mem_of_head? heq)
      have hnq := hn q hq.2.1
      have hpq := hp q hq.2.1
      rw [setLink_apply, if_neg hlast] at hnq
      rw [setLink_apply, if_neg hhead] at hpq
      exact ⟨(congrFun hagree.nexts q).trans ((congrFun hn' q).trans hnq),
        (congrFun hagree.prevs q).trans ((congrFun hp' q).trans hpq)⟩
    · intro q hq
      refine (hrefs q).trans ?_
      change ((Mmap.unlinkVmr s p).mem q).refs + _ = _
      rw [if_neg hq, add_zero, unlinkVmr_refs, if_neg hq, add_zero]
      exact h.unlink_refs hq
    · refine (hrefs p).trans ?_
      change ((Mmap.unlinkVmr s p).mem p).refs + _ = _
      rw [if_pos rfl, unlinkVmr_refs, if_pos rfl, h.unlink_refs_self]
      omega

theorem Env.unmapN_safe (env : Env π) (pt : π) (start size : BitVec 64) :
    Safe env.Fault (env.unmapN pt start size) fun _ => True := by
  cases heq : env.unmapN pt start size with
  | error e => exact .inl ⟨_, _, _, heq⟩
  | ok pt' => trivial

theorem Listed.remove_safe (h : Listed s (v₁ ++ (p, r) :: v₂)) :
    Safe env.Fault (mmapRemove env s p) fun x => x.1 = .ok ∧ Removed env s x.2 p r v₁ v₂ :=
  h.remove_within (env.unmapN_safe _ _ _)

theorem Listed.remove_not_mem (h : Listed s v) (hp : p ∉ ids v) :
    mmapRemove env s p = .ok (.err .ENOENT, s) := by
  rw [mmapRemove, h.contains_eq, ok_bind, if_neg (by simpa using hp)]
  rfl

end Remove

end Mmap
end Mm
end XytherOS
