import Mathlib.Order.Defs.LinearOrder
import XytherOS.Ds.EmbeddedBeside
import XytherOS.Ds.EmbeddedSorted

/-!
# EmbeddedOrder — what sorted insertion guarantees

A queue that is sorted by a total preorder stays sorted when `embedded_enqueue_sorted` takes a node
in, and a refused node leaves it as it was.  There are two exceptions.

* Without a `compare` the nodes are compared by address, and the requested order is not looked at.
* The links of a node are cleared before it is known whether the node is in the queue already.
-/

namespace XytherOS
namespace Ds

open Links
open Std (OrientedCmp TransCmp)

variable {Q N : Type}

section Model

variable [DecidableEq Q] [LinearOrder N]

/-- The comparison of `queue_cmp_nodes` for nodes without a `compare`. -/
def compareAddresses (node0 node1 : N) : Ordering :=
  if node0 = node1 then .eq else if node0 < node1 then .lt else .gt

/-- `embedded_enqueue_sorted` with a `compare` that may be NULL. -/
def embeddedEnqueueSortedOr [Fintype N] (s : Queues Q N) (q : Q) (qnode : N)
    (uniqueness : Uniqueness) (order : SortOrder) (compare : Option (N → N → Ordering)) :
    Except Fault (Ret × Queues Q N) :=
  match compare with
  | some compare => embeddedEnqueueSorted s q qnode uniqueness order compare
  | none => embeddedEnqueueSorted s q qnode uniqueness .ascending compareAddresses

end Model

/-! ## Sorted lists -/

section Lists

variable {cmp : N → N → Ordering} {u : Uniqueness} {x y : N} {l l' : List N}

def SortedBy (cmp : N → N → Ordering) (l : List N) : Prop :=
  l.Pairwise fun y z => (cmp y z).isLE = true

theorem sortedBy_cons : SortedBy cmp (y :: l) ↔ (∀ z ∈ l, (cmp y z).isLE = true) ∧ SortedBy cmp l :=
  List.pairwise_cons

theorem exists_eq_of_refused (h : listInsertSorted (cmp x) u x l = none) :
    u = .unique ∧ ∃ y ∈ l, cmp x y = .eq := by
  induction l with
  | nil => simp [listInsertSorted] at h
  | cons y ys ih =>
    rw [listInsertSorted] at h
    cases hcmp : cmp x y with
    | eq =>
      by_cases hu : u = .unique
      · exact ⟨hu, y, by simp, hcmp⟩
      · simp [hcmp, hu] at h
    | lt => simp [hcmp] at h
    | gt =>
      simp only [hcmp, Option.map_eq_none_iff] at h
      rcases ih h with ⟨hu, z, hz, heq⟩
      exact ⟨hu, z, List.mem_cons_of_mem _ hz, heq⟩

theorem listInsertSorted_none [TransCmp cmp] (hsorted : SortedBy cmp l) :
    listInsertSorted (cmp x) u x l = none ↔ u = .unique ∧ ∃ y ∈ l, cmp x y = .eq := by
  refine ⟨exists_eq_of_refused, ?_⟩
  rintro ⟨hu, z, hz, heq⟩
  induction l with
  | nil => simp at hz
  | cons y ys ih =>
    rcases sortedBy_cons.1 hsorted with ⟨hhead, htail⟩
    rw [listInsertSorted]
    cases hcmp : cmp x y with
    | eq => simp [hu]
    | lt =>
      -- nothing behind a larger node is equal
      have hlt : cmp x z = .lt := by
        rcases List.mem_cons.1 hz with rfl | hz
        · exact hcmp
        · exact TransCmp.lt_of_lt_of_isLE hcmp (hhead z hz)
      simp [hlt] at heq
    | gt =>
      have hzs : z ∈ ys := by
        rcases List.mem_cons.1 hz with rfl | hz
        · simp [hcmp] at heq
        · exact hz
      simp [ih htail hzs]

theorem perm_listInsertSorted (h : listInsertSorted (cmp x) u x l = some l') :
    l'.Perm (x :: l) := by
  induction l generalizing l' with
  | nil =>
    obtain rfl := Option.some.inj h
    exact List.Perm.refl _
  | cons y ys ih =>
    rw [listInsertSorted] at h
    cases hcmp : cmp x y with
    | eq =>
      simp only [hcmp] at h
      split_ifs at h
      obtain rfl := Option.some.inj h
      exact List.Perm.swap x y ys
    | lt =>
      simp only [hcmp, Option.some.injEq] at h
      subst h
      exact List.Perm.refl _
    | gt =>
      simp only [hcmp, Option.map_eq_some_iff] at h
      rcases h with ⟨ys', hys, rfl⟩
      exact ((ih hys).cons y).trans (List.Perm.swap x y ys)

theorem sortedBy_listInsertSorted [TransCmp cmp] (hsorted : SortedBy cmp l)
    (h : listInsertSorted (cmp x) u x l = some l') : SortedBy cmp l' := by
  induction l generalizing l' with
  | nil =>
    obtain rfl := Option.some.inj h
    exact List.pairwise_singleton _ _
  | cons y ys ih =>
    rcases sortedBy_cons.1 hsorted with ⟨hhead, htail⟩
    rw [listInsertSorted] at h
    cases hcmp : cmp x y with
    | eq =>
      -- the node comes behind one that is as large as it is
      simp only [hcmp] at h
      split_ifs at h
      obtain rfl := Option.some.inj h
      have hxy : (cmp x y).isLE = true := by simp [hcmp]
      have hyx : (cmp y x).isLE = true := by
        rw [@OrientedCmp.eq_swap _ cmp, hcmp]
        rfl
      refine sortedBy_cons.2 ⟨?_, sortedBy_cons.2 ⟨?_, htail⟩⟩
      · intro z hz
        rcases List.mem_cons.1 hz with rfl | hz
        · exact hyx
        · exact hhead z hz
      · exact fun z hz => TransCmp.isLE_trans hxy (hhead z hz)
    | lt =>
      simp only [hcmp, Option.some.injEq] at h
      subst h
      have hxy : (cmp x y).isLE = true := by simp [hcmp]
      refine sortedBy_cons.2 ⟨?_, hsorted⟩
      intro z hz
      rcases List.mem_cons.1 hz with rfl | hz
      · exact hxy
      · exact TransCmp.isLE_trans hxy (hhead z hz)
    | gt =>
      simp only [hcmp, Option.map_eq_some_iff] at h
      rcases h with ⟨ys', hys, rfl⟩
      have hyx : (cmp y x).isLE = true := by
        rw [@OrientedCmp.eq_swap _ cmp, hcmp]
        rfl
      refine sortedBy_cons.2 ⟨?_, ih htail hys⟩
      intro z hz
      rcases List.mem_cons.1 ((perm_listInsertSorted hys).mem_iff.1 hz) with rfl | hz
      · exact hyx
      · exact hhead z hz

end Lists

/-! ## Links that are cleared -/

section Cleared

variable [DecidableEq Q] [DecidableEq N] {s s' : Queues Q N} {q : Q} {l l' l₁ l₂ : List N} {x y : N}

theorem Holds.node_eq (h : Holds s q l) (h' : Holds s' q l) (hy : y ∈ l) :
    s'.node y = s.node y := by
  rcases List.append_of_mem hy with ⟨l₁, l₂, rfl⟩
  have hmid : (s.node y).prev = _ ∧ (s.node y).next = _ := h.chain.mid
  have hmid' : (s'.node y).prev = _ ∧ (s'.node y).next = _ := h'.chain.mid
  cases hold : s.node y with
  | mk prev next =>
    cases hnew : s'.node y with
    | mk prev' next' =>
      rw [hold] at hmid
      rw [hnew] at hmid'
      have hprev : prev' = prev := hmid'.1.trans hmid.1.symm
      have hnext : next' = next := hmid'.2.trans hmid.2.symm
      rw [hprev, hnext]

theorem Holds.queue_eq (h : Holds s q l) (h' : Holds s' q l) : s'.queue q = s.queue q := by
  cases hold : s.queue q with
  | mk head tail qCount =>
    cases hnew : s'.queue q with
    | mk head' tail' qCount' =>
      have hh := h'.head.trans h.head.symm
      have ht := h'.tail.trans h.tail.symm
      have hc := h'.count.trans h.count.symm
      simp only [hold, hnew] at hh ht hc
      rw [hh, ht, hc]

theorem Holds.unique (h : Holds s q l) (h' : Holds s q l') : l = l' :=
  h.chain.unique h'.chain (h.head.symm.trans h'.head)

@[simp] theorem clearLinks_node_self : (clearLinks s x).node x = ⟨none, none⟩ := by
  simp [clearLinks, storeNext, storePrev, LinkNode.setNext, LinkNode.setPrev]

theorem clearLinks_node_of_ne (h : y ≠ x) : (clearLinks s x).node y = s.node y := by
  have hxy : some x ≠ some y := fun hxy => h (Option.some.inj hxy).symm
  simp only [clearLinks]
  rw [storeNext_of_ne _ hxy, storePrev_of_ne _ hxy]

theorem contains_clearLinks [Fintype N] (h : Holds s q l) (hx : x ∈ l) :
    embeddedQueueContains (clearLinks s x) q x = .ok .ok := by
  rcases List.append_of_mem hx with ⟨l₁, l₂, rfl⟩
  have hnd := h.chain.nodup
  have hx1 : x ∉ l₁ := fun hmem => (List.nodup_append.1 hnd).2.2 x hmem x (by simp) rfl
  rcases chain_append.1 h.chain with ⟨hl1, hrest⟩
  -- the links back play no part in the walk
  have hcut : Chain (nexts (clearLinks s x).node) (prevs s.node) none (l₁ ++ [x]) none := by
    refine chain_append.2 ⟨hl1.congr fun y hy => ⟨?_, rfl⟩, hrest.1, ?_, trivial⟩
    · have hyx : y ≠ x := fun hyx => hx1 (hyx ▸ hy)
      simp only [nexts, clearLinks_node_of_ne hyx]
    · simp [nexts, LinkNode.next]
  have hfirst : ∀ y ∈ l₁, decide (y = x) = false :=
    fun y hy => decide_eq_false fun hyx => hx1 (hyx ▸ hy)
  have hscan : scan (nexts (clearLinks s x).node) (fun y => decide (y = x)) (Fintype.card N) none
      (l₁ ++ [x]).head? = some (l₁.getLast?.or none, [x].head?) :=
    scan_chain_split hcut hcut.nodup.length_le_card hfirst fun y hy => by simpa using hy
  have hhead : ((clearLinks s x).queue q).head = (l₁ ++ [x]).head? := by
    rw [show (clearLinks s x).queue q = s.queue q from rfl, h.head]
    cases l₁ <;> rfl
  rw [embeddedQueueContains, hhead, hscan]
  rfl

end Cleared

section Guarantee

variable [DecidableEq Q] [LinearOrder N] [Fintype N] {s : Queues Q N} {a : Q → List N} {q : Q}
  {l : List N} {x : N} {u : Uniqueness} {order : SortOrder} {compare : Option (N → N → Ordering)}

omit [Fintype N] in
def requested (compare : Option (N → N → Ordering)) (order : SortOrder) : N → N → Ordering :=
  queueCmpNodes (compare.getD compareAddresses) order

/-- What a sorted insertion is for: a unique node with an equal in the queue is refused, with the
queue as it was, and any other node comes into the sorted queue. -/
def InsertsSorted (s : Queues Q N) (a : Q → List N) (q : Q) (x : N) (u : Uniqueness)
    (cmp : N → N → Ordering) (run : Except Fault (Ret × Queues Q N)) : Prop :=
  ∃ ret s', run = .ok (ret, s') ∧ (ret ≠ .ok ↔ u = .unique ∧ ∃ y ∈ a q, cmp x y = .eq) ∧
    (ret = .ok → ∃ l, Inv s' (Function.update a q l) ∧ l.Perm (x :: a q) ∧ SortedBy cmp l) ∧
    (ret ≠ .ok → s'.queue q = s.queue q ∧ ∀ y ∈ a q, s'.node y = s.node y)

theorem compareAddresses_isLE {y z : N} : (compareAddresses y z).isLE = true ↔ y ≤ z := by
  rw [compareAddresses]
  split_ifs with heq hlt
  · simp [heq]
  · simp [hlt.le]
  · have hzy : z < y := lt_of_le_of_ne (not_lt.1 hlt) (Ne.symm heq)
    simp [hzy]

theorem eq_of_compareAddresses {y z : N} (h : compareAddresses y z = .eq) : y = z := by
  rw [compareAddresses] at h
  split_ifs at h with heq
  exact heq

theorem compareAddresses_swap (y z : N) : compareAddresses y z = (compareAddresses z y).swap := by
  rcases lt_trichotomy y z with h | h | h
  · simp [compareAddresses, h, h.ne, h.ne', h.not_gt]
  · simp [compareAddresses, h]
  · simp [compareAddresses, h, h.ne, h.ne', h.not_gt]

instance : TransCmp (compareAddresses (N := N)) where
  eq_swap := compareAddresses_swap _ _
  isLE_trans h h' := by
    rw [compareAddresses_isLE] at h h' ⊢
    exact h.trans h'

theorem transCmp_requested (htrans : ∀ c, compare = some c → TransCmp c) :
    TransCmp (requested compare order) := by
  have hcmp : TransCmp (compare.getD compareAddresses) := by
    cases compare with
    | none => exact inferInstanceAs (TransCmp compareAddresses)
    | some c => exact htrans c rfl
  cases order with
  | ascending => exact hcmp
  | descending => exact @TransCmp.opposite _ _ hcmp

theorem enqueueSortedOr_member (h : Holds s q l) (hx : x ∈ l) :
    embeddedEnqueueSortedOr s q x .unique order compare =
      .ok (.err .EEXIST, clearLinks s x) := by
  have hhead : ((clearLinks s x).queue q).head ≠ none := by
    rw [show (clearLinks s x).queue q = s.queue q from rfl, h.head]
    simpa using List.ne_nil_of_mem hx
  have hrun : ∀ order c, embeddedEnqueueSorted s q x .unique order c =
      .ok (.err .EEXIST, clearLinks s x) := by
    intro order c
    rw [embeddedEnqueueSorted, if_neg hhead, contains_clearLinks h hx]
    rfl
  cases compare with
  | none => exact hrun .ascending compareAddresses
  | some c => exact hrun order c

theorem clearLinks_member_iff (h : Holds s q l) (hx : x ∈ l) :
    (∀ y ∈ l, (clearLinks s x).node y = s.node y) ↔ l = [x] := by
  constructor
  · intro hall
    have hclear := (hall x hx).symm.trans clearLinks_node_self
    rcases List.append_of_mem hx with ⟨l₁, l₂, hl⟩
    rw [hl] at h ⊢
    have hmid : (s.node x).prev = _ ∧ (s.node x).next = _ := h.chain.mid
    rw [hclear] at hmid
    have h₁ : l₁ = [] := by simpa using hmid.1.symm
    have h₂ : l₂ = [] := by simpa using hmid.2.symm
    rw [h₁, h₂]
    rfl
  · intro hl y hy
    rw [hl] at h hy
    obtain rfl := List.mem_singleton.1 hy
    have hnode : s.node y = ⟨none, none⟩ := by
      have hmid : (s.node y).prev = none ∧ (s.node y).next = none := ⟨h.chain.1, h.chain.2.1⟩
      cases hy' : s.node y with
      | mk prev next =>
        rw [hy'] at hmid
        rw [show prev = none from hmid.1, show next = none from hmid.2]
    rw [clearLinks_node_self, hnode]

theorem insertsSorted_of_cmp {cmp : N → N → Ordering} [TransCmp cmp] {order : SortOrder}
    {c : N → N → Ordering} (hc : queueCmpNodes c order = cmp) (hinv : Inv s a) (hx : ∀ q, x ∉ a q)
    (hsorted : SortedBy cmp (a q)) :
    InsertsSorted s a q x u cmp (embeddedEnqueueSorted s q x u order c) := by
  subst hc
  have hrun := enqueueSorted_refines hinv hx q u order c
  have hnone := listInsertSorted_none (u := u) (x := x) hsorted
  cases hl : listInsertSorted (queueCmpNodes c order x) u x (a q) with
  | none =>
    rw [hl] at hrun hnone
    rcases hrun with ⟨s', hrun, hinv'⟩
    refine ⟨.err .EEXIST, s', hrun, iff_of_true (by simp) (hnone.1 rfl), by simp, fun _ => ?_⟩
    exact ⟨(hinv.holds q).queue_eq (hinv'.holds q),
      fun y hy => (hinv.holds q).node_eq (hinv'.holds q) hy⟩
  | some l =>
    rw [hl] at hrun hnone
    rcases hrun with ⟨s', hrun, hinv'⟩
    refine ⟨.ok, s', hrun, iff_of_false (by simp) fun heq => absurd (hnone.2 heq) (by simp),
      fun _ => ?_, by simp⟩
    exact ⟨l, hinv', perm_listInsertSorted hl, sortedBy_listInsertSorted hsorted hl⟩

theorem insertsSorted_empty (hinv : Inv s a) (hx : ∀ q, x ∉ a q) (hl : a q = [])
    (cmp c : N → N → Ordering) (order : SortOrder) :
    InsertsSorted s a q x u cmp (embeddedEnqueueSorted s q x u order c) := by
  have hrun := enqueueSorted_refines hinv hx q u order c
  rw [hl, listInsertSorted] at hrun
  rcases hrun with ⟨s', hrun, hinv'⟩
  refine ⟨.ok, s', hrun, by simp [hl], fun _ => ?_, by simp⟩
  exact ⟨[x], hinv', by simp [hl], List.pairwise_singleton _ _⟩

theorem not_insertsSorted_descending (hinv : Inv s a) (hx : ∀ q, x ∉ a q) (hne : a q ≠ []) :
    ¬ InsertsSorted s a q x u (requested none .descending)
      (embeddedEnqueueSorted s q x u .ascending compareAddresses) := by
  rintro ⟨ret, s', hrun, hret, hok, -⟩
  rcases List.exists_cons_of_ne_nil hne with ⟨y, ys, hl⟩
  have hxq := hx q
  rw [hl] at hxq
  have hcode := enqueueSorted_refines hinv hx q u .ascending compareAddresses
  have hcmp : queueCmpNodes compareAddresses .ascending x = compareAddresses x := rfl
  rw [hcmp] at hcode
  -- no address is equal to that of the node, so it comes in somewhere
  cases hins : listInsertSorted (compareAddresses x) u x (a q) with
  | none =>
    rcases exists_eq_of_refused hins with ⟨-, z, hz, heq⟩
    rw [eq_of_compareAddresses heq] at hx
    exact hx q hz
  | some l =>
    rw [hins] at hcode
    rcases hcode with ⟨s'', hcode, hinv''⟩
    rw [hcode] at hrun
    cases hrun
    rcases hok rfl with ⟨l', hinv', -, hsorted⟩
    have hholds := hinv''.holds q
    have hholds' := hinv'.holds q
    rw [Function.update_self] at hholds hholds'
    obtain rfl := hholds.unique hholds'
    rw [hl, listInsertSorted] at hins
    cases hxy : compareAddresses x y with
    | eq => exact hxq (by simp [eq_of_compareAddresses hxy])
    | lt =>
      -- in front of a larger address
      simp only [hxy, Option.some.injEq] at hins
      subst hins
      have hyx : y ≤ x := compareAddresses_isLE.1 ((sortedBy_cons.1 hsorted).1 y (by simp))
      have hle : x ≤ y := compareAddresses_isLE.1 (by simp [hxy])
      exact hxq (by simp [le_antisymm hle hyx])
    | gt =>
      -- behind a smaller one
      simp only [hxy, Option.map_eq_some_iff] at hins
      rcases hins with ⟨ys', hys, rfl⟩
      have hmem : x ∈ ys' := (perm_listInsertSorted hys).mem_iff.2 (by simp)
      have hle : x ≤ y := compareAddresses_isLE.1 ((sortedBy_cons.1 hsorted).1 x hmem)
      have hnle : ¬ x ≤ y := by
        rw [← compareAddresses_isLE, hxy]
        decide
      exact hnle hle

/-- Sorted insertion does what it is for exactly when the node is not one of several in the queue,
and, without a `compare`, the order is the ascending one or there is nothing to insert it into. -/
theorem insertsSorted_iff (htrans : ∀ c, compare = some c → TransCmp c) (hinv : Inv s a)
    (hx : (∀ q, x ∉ a q) ∨ u = .unique ∧ x ∈ a q)
    (hsorted : SortedBy (requested compare order) (a q)) :
    InsertsSorted s a q x u (requested compare order)
        (embeddedEnqueueSortedOr s q x u order compare) ↔
      (x ∈ a q → a q = [x]) ∧
        (compare = none → order = .descending → a q ≠ [] → x ∈ a q) := by
  have hcmp : TransCmp (requested compare order) := transCmp_requested htrans
  by_cases hmem : x ∈ a q
  · obtain rfl : u = .unique := by
      rcases hx with hout | ⟨hu, -⟩
      · exact absurd hmem (hout q)
      · exact hu
    rw [enqueueSortedOr_member (hinv.holds q) hmem]
    have heq : ∃ y ∈ a q, requested compare order x y = .eq := by
      refine ⟨x, hmem, ?_⟩
      exact Std.ReflCmp.compare_self
    rw [show (x ∈ a q → a q = [x]) ↔ a q = [x] from ⟨fun h => h hmem, fun h _ => h⟩,
      ← clearLinks_member_iff (hinv.holds q) hmem]
    constructor
    · rintro ⟨ret, s', hrun, -, -, hkeep⟩
      cases hrun
      exact ⟨(hkeep (by simp)).2, fun _ _ _ => hmem⟩
    · rintro ⟨hkeep, -⟩
      exact ⟨.err .EEXIST, clearLinks s x, rfl, iff_of_true (by simp) ⟨rfl, heq⟩, by simp,
        fun _ => ⟨rfl, hkeep⟩⟩
  · have hout : ∀ q, x ∉ a q := hx.resolve_right fun h => hmem h.2
    by_cases hbad : compare = none ∧ order = .descending ∧ a q ≠ []
    · rcases hbad with ⟨rfl, rfl, hne⟩
      exact iff_of_false (not_insertsSorted_descending hinv hout hne)
        fun hcond => hmem (hcond.2 rfl rfl hne)
    · refine iff_of_true ?_ ⟨fun hin => absurd hin hmem,
        fun hc ho hne => absurd ⟨hc, ho, hne⟩ hbad⟩
      cases compare with
      | some c => exact insertsSorted_of_cmp rfl hinv hout hsorted
      | none =>
        cases order with
        | ascending => exact insertsSorted_of_cmp rfl hinv hout hsorted
        | descending =>
          have hnil : a q = [] := by
            by_contra hne
            exact hbad ⟨rfl, rfl, hne⟩
          exact insertsSorted_empty hinv hout hnil _ _ _

end Guarantee

/-! ## Small queues -/

def loneQueue : Queues Unit (Fin 3) where
  node _ := { prev := none, next := none }
  queue _ := { head := some 0, tail := some 0, qCount := 1 }

theorem inv_loneQueue : Inv loneQueue fun _ => [0] :=
  ⟨fun _ => ⟨⟨rfl, rfl, trivial⟩, rfl, rfl, rfl⟩, fun _ _ _ _ _ => rfl⟩

theorem insertsSorted_small :
    InsertsSorted pairQueue (fun _ => [0, 1]) () 2 .unique
        (requested (some compareAddresses) .ascending)
        (embeddedEnqueueSortedOr pairQueue () 2 .unique .ascending (some compareAddresses)) ∧
      InsertsSorted loneQueue (fun _ => [0]) () 0 .unique
        (requested (some compareAddresses) .descending)
        (embeddedEnqueueSortedOr loneQueue () 0 .unique .descending (some compareAddresses)) := by
  have htrans : ∀ c, some (compareAddresses (N := Fin 3)) = some c → TransCmp c := by
    intro c hc
    obtain rfl := Option.some.inj hc
    exact inferInstance
  constructor
  · refine (insertsSorted_iff htrans inv_pairQueue (.inl (by decide)) ?_).2 (by decide)
    exact List.pairwise_pair.2 (by decide)
  · refine (insertsSorted_iff htrans inv_loneQueue (.inr (by decide)) ?_).2 (by decide)
    exact List.pairwise_singleton _ _

/-- The first of two nodes is refused, but it has lost its link to the second; and without a
`compare` the address `1` comes behind the address `0` in a descending queue. -/
theorem insertsSorted_fails :
    (SortedBy (requested (some compareAddresses) .ascending) ([0, 1] : List (Fin 3)) ∧
      ¬ InsertsSorted pairQueue (fun _ => [0, 1]) () 0 .unique
        (requested (some compareAddresses) .ascending)
        (embeddedEnqueueSortedOr pairQueue () 0 .unique .ascending (some compareAddresses))) ∧
    ¬ InsertsSorted loneQueue (fun _ => [0]) () 1 .unique (requested none .descending)
      (embeddedEnqueueSortedOr loneQueue () 1 .unique .descending none) := by
  refine ⟨⟨List.pairwise_pair.2 (by decide), ?_⟩, ?_⟩
  · rintro ⟨ret, s', hrun, -, -, hkeep⟩
    have hmem : (0 : Fin 3) ∈ [0, 1] := by decide
    rw [enqueueSortedOr_member (inv_pairQueue.holds ()) hmem] at hrun
    cases hrun
    have hnode := (hkeep (by simp)).2 0 (by decide)
    exact absurd hnode (by decide)
  · exact not_insertsSorted_descending inv_loneQueue (by decide) (by decide)

end Ds
end XytherOS
