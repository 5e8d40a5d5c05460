import XytherOS.Lib.Tiling
import XytherOS.Mm.Vmm

/-!
# VmmRefine — the lists of `vmm.c` tile the kernel heap

The three lists of the allocator are disjoint chains in one memory (`Linked`), and the records on
the free and the used list describe a coalesced tiling of the heap (`Rep`).  Each function of
`vmm.c` has one specification lemma in these terms; `alloc` carves a tile and `free` releases one.
-/

namespace XytherOS
namespace Mm
namespace Vmm

open Function Links Tiling

/-! ## Linked states -/

inductive Which
  | free
  | used
  | pool
  deriving DecidableEq

def State.head (s : State) : Which → Option Nat
  | .free => s.freevmrList
  | .used => s.usedvmrList
  | .pool => s.freeNodeList

/-- The three lists hold the records `L`, all of them elements of the node array. -/
structure Linked (s : State) (L : Which → List Nat) : Prop where
  chains : Chains (nexts s.mem) (prevs s.mem) L
  head : ∀ w, s.head w = (L w).head?
  bound : ∀ w, ∀ x ∈ L w, x < s.nnodes

/-- `s'` differs from `s` in links and in the ranges of the records in `changed`. -/
structure Keeps (s s' : State) (changed : List Nat) : Prop where
  kheapSize : s'.kheapSize = s.kheapSize
  usedMemsz : s'.usedMemsz = s.usedMemsz
  base : ∀ q, q ∉ changed → (s'.mem q).base = (s.mem q).base
  size : ∀ q, q ∉ changed → (s'.mem q).size = (s.mem q).size

variable {L : Which → List Nat} {s' : State} {p : Nat} {w : Which}

theorem Keeps.trans {s s'' : State} {c c' : List Nat} (h : Keeps s s' c)
    (h' : Keeps s' s'' c') : Keeps s s'' (c ++ c') where
  kheapSize := h'.kheapSize.trans h.kheapSize
  usedMemsz := h'.usedMemsz.trans h.usedMemsz
  base q hq := by
    have hq' : q ∉ c ∧ q ∉ c' := by simpa using hq
    exact (h'.base q hq'.2).trans (h.base q hq'.1)
  size q hq := by
    have hq' : q ∉ c ∧ q ∉ c' := by simpa using hq
    exact (h'.size q hq'.2).trans (h.size q hq'.1)

theorem Keeps.mono {s : State} {c c' : List Nat} (h : Keeps s s' c) (hc : c ⊆ c') :
    Keeps s s' c' where
  kheapSize := h.kheapSize
  usedMemsz := h.usedMemsz
  base q hq := h.base q fun hmem => hq (hc hmem)
  size q hq := h.size q fun hmem => hq (hc hmem)

theorem Keeps.nnodes {s : State} {c : List Nat} (h : Keeps s s' c) : s'.nnodes = s.nnodes := by
  simp [State.nnodes, h.kheapSize]

theorem Linked.length_le {s : State} (h : Linked s L) (w : Which) :
    (L w).length ≤ s.nnodes := by
  have hsub : (L w).Subperm (List.range s.nnodes) :=
    List.subperm_of_subset (h.chains.chain w).nodup fun x hx => by simpa using h.bound w x hx
  simpa using hsub.length_le

@[simp] theorem storeNext_base (m : Nat → Node) (p v : Option Nat) (q : Nat) :
    (storeNext m p v q).base = (m q).base :=
  storeNext_field Node.base (fun _ _ => rfl) m p v q

@[simp] theorem storeNext_size (m : Nat → Node) (p v : Option Nat) (q : Nat) :
    (storeNext m p v q).size = (m q).size :=
  storeNext_field Node.size (fun _ _ => rfl) m p v q

@[simp] theorem storePrev_base (m : Nat → Node) (p v : Option Nat) (q : Nat) :
    (storePrev m p v q).base = (m q).base :=
  storePrev_field Node.base (fun _ _ => rfl) m p v q

@[simp] theorem storePrev_size (m : Nat → Node) (p v : Option Nat) (q : Nat) :
    (storePrev m p v q).size = (m q).size :=
  storePrev_field Node.size (fun _ _ => rfl) m p v q

@[simp] theorem storeNext_prev (m : Nat → Node) (p v : Option Nat) (q : Nat) :
    (storeNext m p v q).prev = (m q).prev :=
  storeNext_field Node.prev (fun _ _ => rfl) m p v q

@[simp] theorem storePrev_next (m : Nat → Node) (p v : Option Nat) (q : Nat) :
    (storePrev m p v q).next = (m q).next :=
  storePrev_field Node.next (fun _ _ => rfl) m p v q

theorem keeps_links {s : State} {m : Nat → Node} (fn uv fv : Option Nat)
    (hb : ∀ q, (m q).base = (s.mem q).base) (hs : ∀ q, (m q).size = (s.mem q).size) :
    Keeps s { s with freeNodeList := fn, usedvmrList := uv, freevmrList := fv, mem := m } [] where
  kheapSize := rfl
  usedMemsz := rfl
  base q _ := hb q
  size q _ := hs q

/-! ## Moving a record -/

theorem Linked.insert {s : State} {l₁ l₂ : List Nat}
    {x : Nat} (h : Linked s L) (hw : L w = l₁ ++ l₂) (hx : ∀ v, x ∉ L v) (hb : x < s.nnodes)
    (hnn : s'.nnodes = s.nnodes)
    (hn : nexts s'.mem = setLink (setLink (nexts s.mem) (some x) l₂.head?) l₁.getLast? (some x))
    (hp : prevs s'.mem = setLink (setLink (prevs s.mem) (some x) l₁.getLast?) l₂.head? (some x))
    (hhead : s'.head w = (l₁ ++ x :: l₂).head?) (hother : ∀ v, v ≠ w → s'.head v = s.head v) :
    Linked s' (update L w (l₁ ++ x :: l₂)) := by
  refine ⟨h.chains.insert hw hx hn hp, fun v => ?_, fun v y hy => ?_⟩
  · by_cases hv : v = w
    · subst hv
      simpa using hhead
    · simpa [hv] using (hother v hv).trans (h.head v)
  · rw [hnn]
    by_cases hv : v = w
    · subst hv
      have hy' : y ∈ l₁ ∨ y = x ∨ y ∈ l₂ := by simpa using hy
      rcases hy' with hy | rfl | hy
      · exact h.bound v y (by simp [hw, hy])
      · exact hb
      · exact h.bound v y (by simp [hw, hy])
    · exact h.bound v y (by simpa [hv] using hy)

theorem Linked.remove {s : State} {l₁ l₂ : List Nat}
    {x : Nat} (h : Linked s L) (hw : L w = l₁ ++ x :: l₂) (hnn : s'.nnodes = s.nnodes)
    (hn : ∀ y, y ≠ x → nexts s'.mem y = setLink (nexts s.mem) l₁.getLast? l₂.head? y)
    (hp : ∀ y, y ≠ x → prevs s'.mem y = setLink (prevs s.mem) l₂.head? l₁.getLast? y)
    (hhead : s'.head w = (l₁ ++ l₂).head?) (hother : ∀ v, v ≠ w → s'.head v = s.head v) :
    Linked s' (update L w (l₁ ++ l₂)) := by
  refine ⟨h.chains.remove hw hn hp, fun v => ?_, fun v y hy => ?_⟩
  · by_cases hv : v = w
    · subst hv
      simpa using hhead
    · simpa [hv] using (hother v hv).trans (h.head v)
  · rw [hnn]
    by_cases hv : v = w
    · subst hv
      have hy' : y ∈ l₁ ∨ y ∈ l₂ := by simpa using hy
      rcases hy' with hy | hy
      · exact h.bound v y (by simp [hw, hy])
      · exact h.bound v y (by simp [hw, hy])
    · exact h.bound v y (by simpa [hv] using hy)

theorem Linked.links {s : State} {l₁ l₂ : List Nat} {x : Nat}
    (h : Linked s L) (hw : L w = l₁ ++ x :: l₂) :
    (s.mem x).prev = l₁.getLast? ∧ (s.mem x).next = l₂.head? := by
  have hchain := h.chains.chain w
  rw [hw] at hchain
  simpa [nexts, prevs, LinkNode.next, LinkNode.prev] using hchain.mid

/-! ## Writing a range -/

theorem Linked.modify {s : State} (h : Linked s L) (i : Nat)
    (f : Node → Node) (hn : ∀ n, (f n).next = n.next) (hp : ∀ n, (f n).prev = n.prev) :
    Linked (s.modify i f) L := by
  have hnext : nexts (s.modify i f).mem = nexts s.mem := by
    funext q
    by_cases hq : q = i
    · subst hq
      simp [nexts, State.modify, LinkNode.next, hn]
    · simp [nexts, State.modify, hq]
  have hprev : prevs (s.modify i f).mem = prevs s.mem := by
    funext q
    by_cases hq : q = i
    · subst hq
      simp [prevs, State.modify, LinkNode.prev, hp]
    · simp [prevs, State.modify, hq]
  refine ⟨?_, fun w => ?_, h.bound⟩
  · rw [hnext, hprev]
    exact h.chains
  · have hw := h.head w
    cases w <;> exact hw

theorem keeps_modify (s : State) (i : Nat) (f : Node → Node) : Keeps s (s.modify i f) [i] where
  kheapSize := rfl
  usedMemsz := rfl
  base q hq := by
    have hq' : q ≠ i := by simpa using hq
    simp [State.modify, hq']
  size q hq := by
    have hq' : q ≠ i := by simpa using hq
    simp [State.modify, hq']

@[simp] theorem modify_mem_self (s : State) (i : Nat) (f : Node → Node) :
    (s.modify i f).mem i = f (s.mem i) := by
  simp [State.modify]

theorem modify_mem_of_ne (s : State) {i q : Nat} (h : q ≠ i) (f : Node → Node) :
    (s.modify i f).mem q = s.mem q := by
  simp [State.modify, h]

/-! ## The pool -/

theorem nexts_update_zero (m : Nat → Node) (x : Nat) :
    nexts (update m x Node.zero) = setLink (nexts m) (some x) none := by
  funext q
  by_cases hq : q = x
  · subst hq
    simp [nexts, setLink, LinkNode.next, Node.zero]
  · simp [nexts, setLink, hq]

theorem prevs_update_zero (m : Nat → Node) (x : Nat) :
    prevs (update m x Node.zero) = setLink (prevs m) (some x) none := by
  funext q
  by_cases hq : q = x
  · subst hq
    simp [prevs, setLink, LinkNode.prev, Node.zero]
  · simp [prevs, setLink, hq]

theorem freeNodeGet_spec {s : State} {pl : List Nat}
    (h : Linked s L) (hpool : L .pool = p :: pl) :
    ∃ s', freeNodeGet s = (some p, s') ∧ Linked s' (update L .pool pl) ∧
      Keeps s s' [p] := by
  have hpool' : L .pool = [] ++ p :: pl := hpool
  have hhead : s.freeNodeList = some p := by simpa [State.head, hpool] using h.head .pool
  have hnext : (s.mem p).next = pl.head? := (h.links hpool').2
  refine ⟨_, by simp only [freeNodeGet, hhead]; rfl, ?_, ?_⟩
  · refine h.remove hpool' rfl ?_ ?_ hnext ?_
    · intro y hy
      have hyp : ¬ p = y := fun h => hy h.symm
      simp [nexts_update_zero, setLink_apply, hyp]
    · intro y hy
      have hyp : ¬ p = y := fun h => hy h.symm
      simp [prevs_update_zero, setLink_apply, hyp, hnext]
    · intro v hv
      cases v with
      | pool => exact absurd rfl hv
      | free => rfl
      | used => rfl
  · refine ⟨rfl, rfl, fun q hq => ?_, fun q hq => ?_⟩
    · have hq' : q ≠ p := by simpa using hq
      simp [hq']
    · have hq' : q ≠ p := by simpa using hq
      simp [hq']

theorem freeNodePut_spec {s : State} {x : Nat} (h : Linked s L)
    (hx : ∀ v, x ∉ L v) (hb : x < s.nnodes) :
    Linked (freeNodePut s x) (update L .pool (x :: L .pool)) ∧
      Keeps s (freeNodePut s x) [x] := by
  have hpool : L .pool = [] ++ L .pool := rfl
  have hhead : s.freeNodeList = (L .pool).head? := h.head .pool
  refine ⟨h.insert hpool hx hb rfl ?_ ?_ rfl ?_, ?_⟩
  · simp [freeNodePut, nexts_update_zero, hhead]
  · simp [freeNodePut, prevs_update_zero, hhead]
  · intro v hv
    cases v with
    | pool => exact absurd rfl hv
    | free => rfl
    | used => rfl
  · refine ⟨rfl, rfl, fun q hq => ?_, fun q hq => ?_⟩
    · have hq' : q ≠ x := by simpa using hq
      simp [freeNodePut, hq']
    · have hq' : q ≠ x := by simpa using hq
      simp [freeNodePut, hq']

/-! ## The used list -/

theorem Linked.clear {s : State} {x : Nat} (h : Linked s L)
    (hx : ∀ v, x ∉ L v) : Linked (clearLinks s x) L := by
  refine ⟨?_, fun w => ?_, h.bound⟩
  · refine h.chains.congr fun w y hy => ?_
    have hxy : ¬ x = y := fun hxy => hx w (hxy ▸ hy)
    simp [clearLinks, setLink_apply, hxy]
  · have hw := h.head w
    cases w <;> exact hw

theorem keeps_clearLinks (s : State) (x : Nat) : Keeps s (clearLinks s x) [] := by
  refine keeps_links _ _ _ ?_ ?_ <;> simp

theorem usedvmrPut_spec {s : State} {x : Nat} {l₁ l₂ : List Nat}
    (h : Linked s L) (hx : ∀ v, x ∉ L v) (hb : x < s.nnodes) (hw : L .used = l₁ ++ l₂)
    (h₁ : ∀ y ∈ l₁, ¬ (s.mem x).base < (s.mem y).base)
    (h₂ : ∀ y ∈ l₂, (s.mem x).base < (s.mem y).base) :
    ∃ s', usedvmrPut s x = .ok s' ∧ Linked s' (update L .used (l₁ ++ x :: l₂)) ∧
      Keeps s s' [] := by
  have hk := keeps_clearLinks s x
  have hhead : s.usedvmrList = (l₁ ++ l₂).head? := hw ▸ h.head .used
  have hlen : (l₁ ++ l₂).length ≤ s.nnodes := hw ▸ h.length_le .used
  have hchain := (h.clear hx).chains.chain .used
  rw [hw] at hchain
  have hbase : ∀ q, ((clearLinks s x).mem q).base = (s.mem q).base := fun q => hk.base q (by simp)
  have hsize : ∀ q, ((clearLinks s x).mem q).size = (s.mem q).size := fun q => hk.size q (by simp)
  have hother : ∀ (m : Nat → Node) (list : Option Nat) v, v ≠ .used →
      State.head { s with usedvmrList := list, mem := m } v = s.head v := by
    intro m list v hv
    cases v with
    | used => exact absurd rfl hv
    | free => rfl
    | pool => rfl
  unfold usedvmrPut
  simp only [hhead, hbase]
  rw [scan_chain_split hchain hlen (fun y hy => by simpa using h₁ y hy)
    (fun y hy => by simpa using h₂ y hy)]
  cases l₂ with
  | nil =>
    simp only [List.head?_nil, Option.or_none]
    refine ⟨_, rfl, h.insert hw hx hb rfl ?_ ?_ ?_ (hother _ _), keeps_links _ _ _ ?_ ?_⟩
    · split_ifs <;> simp [clearLinks]
    · split_ifs with hl
      · simp [clearLinks, hl]
      · simp [clearLinks]
    · cases l₁ <;> simp [State.head]
    · intro q
      split_ifs <;> simp [hbase]
    · intro q
      split_ifs <;> simp [hsize]
  | cons n k =>
    have hxl : x ∉ l₁ ++ n :: k := hw ▸ hx .used
    have hxn : ¬ x = n := by
      rintro rfl
      simp at hxl
    -- The `prev` link of `next` that the code reads is not the one it has just cleared.
    have hread : ((clearLinks s x).mem n).prev = l₁.getLast? := by
      simp only [clearLinks]
      rw [storePrev_of_ne _ (by simpa using hxn), storeNext_prev, (h.links hw).1]
    simp only [List.head?_cons, storeNext_prev, hread]
    refine ⟨_, rfl, h.insert hw hx hb rfl ?_ ?_ ?_ (hother _ _), keeps_links _ _ _ ?_ ?_⟩
    · simp [clearLinks]
    · simp [clearLinks]
    · cases l₁ <;> simp [State.head]
    · intro q
      simp [hbase]
    · intro q
      simp [hsize]

theorem usedvmrFind_spec {s : State} (h : Linked s L) {base : BitVec 64}
    (hbase : base ≠ 0) :
    ∃ e, usedvmrFind s base = .ok (e, (L .used).find? fun p => base = (s.mem p).base) := by
  have hhead : s.usedvmrList = (L .used).head? := h.head .used
  rcases scan_chain_find (fun p => decide (base = (s.mem p).base)) none (h.chains.chain .used)
    (h.length_le .used) with ⟨last, hscan⟩
  simp only [usedvmrFind, hbase, if_false, hhead, hscan]
  cases (L .used).find? fun p => decide (base = (s.mem p).base) with
  | none => exact ⟨_, rfl⟩
  | some p => exact ⟨_, rfl⟩

/-! ## The free list -/

theorem freevmrGet_spec {s : State} (h : Linked s L) {size : BitVec 64}
    (hsize : size ≠ 0) :
    ∃ e, freevmrGet s size = .ok (e, (L .free).find? fun p => size ≤ (s.mem p).size) := by
  have hhead : s.freevmrList = (L .free).head? := h.head .free
  rcases scan_chain_find (fun p => decide (size ≤ (s.mem p).size)) none (h.chains.chain .free)
    (h.length_le .free) with ⟨last, hscan⟩
  simp only [freevmrGet, hsize, if_false, hhead, hscan]
  cases (L .free).find? fun p => decide (size ≤ (s.mem p).size) with
  | none => exact ⟨_, rfl⟩
  | some p => exact ⟨_, rfl⟩

theorem linkFree_spec {s : State} {x : Nat} {l₁ l₂ : List Nat}
    (h : Linked s L) (hx : ∀ v, x ∉ L v) (hb : x < s.nnodes) (hw : L .free = l₁ ++ l₂) :
    Linked (linkFree s x l₁.getLast? l₂.head?) (update L .free (l₁ ++ x :: l₂)) ∧
      Keeps s (linkFree s x l₁.getLast? l₂.head?) [] := by
  have hhead : s.freevmrList = (l₁ ++ l₂).head? := hw ▸ h.head .free
  refine ⟨h.insert hw hx hb rfl ?_ ?_ ?_ ?_, keeps_links _ _ _ ?_ ?_⟩
  · simp [linkFree]
  · simp [linkFree]
  · cases l₁ <;> simp [linkFree, State.head, hhead]
  · intro v hv
    cases v with
    | free => exact absurd rfl hv
    | used => rfl
    | pool => rfl
  · intro q
    simp
  · intro q
    simp

theorem mergeNext_spec {s : State} {x n : Nat} {l₁ l₂ : List Nat}
    (h : Linked s L) (hx : ∀ v, x ∉ L v) (hb : x < s.nnodes) (hw : L .free = l₁ ++ n :: l₂) :
    Linked (mergeNext s x l₁.getLast? n) (update L .pool (x :: L .pool)) ∧
      Keeps s (mergeNext s x l₁.getLast? n) [n, x] ∧
      ((mergeNext s x l₁.getLast? n).mem n).base = (s.mem n).base - (s.mem x).size ∧
      ((mergeNext s x l₁.getLast? n).mem n).size = (s.mem n).size + (s.mem x).size := by
  have hxn : x ≠ n := by
    rintro rfl
    exact hx .free (by simp [hw])
  have hhead : s.freevmrList = (l₁ ++ n :: l₂).head? := hw ▸ h.head .free
  unfold mergeNext
  extract_lets s₁ s₂ list m1 m2
  have h₁ : Linked s₁ L := by
    apply h.modify <;> exact fun _ => rfl
  have h₂ : Linked s₂ L := by
    apply h₁.modify <;> exact fun _ => rfl
  have hk2 : Keeps s s₂ [n, n] := (keeps_modify s n _).trans (keeps_modify s₁ n _)
  -- The two link stores write what is there already: `next` stays where it is.
  have h3 : Linked { s₂ with freevmrList := list, mem := m2 } L := by
    have hprev := (h₂.links hw).1
    have hnext : ∀ q, l₁.getLast? = some q → nexts s₂.mem q = some n := by
      intro q hq
      rcases List.eq_nil_or_concat l₁ with rfl | ⟨k, y, rfl⟩
      · simp at hq
      · have hyq : y = q := by simpa using hq
        subst hyq
        have hw' : L .free = k ++ y :: n :: l₂ := by simpa using hw
        exact (h₂.links hw').2
    have hsn : nexts m2 = nexts s₂.mem := by
      simp only [m2, m1, nexts_storePrev, nexts_storeNext]
      exact setLink_self hnext
    have hsp : prevs m2 = prevs s₂.mem := by
      simp only [m2, m1, prevs_storePrev, prevs_storeNext]
      refine setLink_self fun q hq => ?_
      rw [← Option.some.inj hq]
      exact hprev
    refine ⟨by rw [hsn, hsp]; exact h₂.chains, fun w => ?_, h₂.bound⟩
    have hwh := h₂.head w
    cases w with
    | used => exact hwh
    | pool => exact hwh
    | free =>
      have hlist : list = (l₁ ++ n :: l₂).head? := by
        cases l₁ <;> simp [list, s₂, s₁, State.modify, hhead]
      simp [State.head, hlist, hw]
  have hk3 : Keeps s₂ { s₂ with freevmrList := list, mem := m2 } [] := by
    refine keeps_links _ _ _ ?_ ?_ <;> simp [m2, m1]
  rcases freeNodePut_spec h3 hx hb with ⟨h4, hk4⟩
  refine ⟨h4, ((hk2.trans hk3).trans hk4).mono (by simp), ?_, ?_⟩
  · rw [hk4.base n (by simpa using hxn.symm), hk3.base n (by simp)]
    simp [s₂, s₁, modify_mem_of_ne _ hxn]
  · rw [hk4.size n (by simpa using hxn.symm), hk3.size n (by simp)]
    simp [s₂, s₁]

theorem mergePrev_spec_single {s : State} {x : Nat} {next : Option Nat}
    (h : Linked s L) (hx : ∀ v, x ∉ L v) (hb : x < s.nnodes) (hp : p ∈ L .free)
    (hmerge : canMergeNext (s.modify p fun n => { n with size := n.size + (s.mem x).size }) p next
      = false) :
    Linked (mergePrev s x p next) (update L .pool (x :: L .pool)) ∧
      Keeps s (mergePrev s x p next) [p, x] ∧
      ((mergePrev s x p next).mem p).base = (s.mem p).base ∧
      ((mergePrev s x p next).mem p).size = (s.mem p).size + (s.mem x).size := by
  have hpx : p ≠ x := by
    rintro rfl
    exact hx .free hp
  have heq : mergePrev s x p next =
      freeNodePut (s.modify p fun n => { n with size := n.size + (s.mem x).size }) x := by
    unfold mergePrev
    cases next with
    | none => rfl
    | some n => simp [hmerge]
  have h₁ : Linked (s.modify p fun n => { n with size := n.size + (s.mem x).size }) L := by
    apply h.modify <;> exact fun _ => rfl
  rcases freeNodePut_spec h₁ hx hb with ⟨h₂, hk2⟩
  rw [heq]
  refine ⟨h₂, (keeps_modify s p _).trans hk2, ?_, ?_⟩
  · rw [hk2.base p (by simpa using hpx)]
    simp
  · rw [hk2.size p (by simpa using hpx)]
    simp

theorem absorbNext_spec {s : State} {n : Nat} {l₁ l₂ : List Nat}
    (h : Linked s L) (hw : L .free = l₁ ++ p :: n :: l₂) :
    Linked (absorbNext s p n)
        (update (update L .free (l₁ ++ p :: l₂)) .pool (n :: L .pool)) ∧
      Keeps s (absorbNext s p n) [p, n] ∧
      ((absorbNext s p n).mem p).base = (s.mem p).base ∧
      ((absorbNext s p n).mem p).size = (s.mem p).size + (s.mem n).size := by
  have hw' : L .free = (l₁ ++ [p]) ++ n :: l₂ := by simpa using hw
  have hnd := (h.chains.chain .free).nodup
  rw [hw] at hnd
  have hpn : p ≠ n := by
    rintro rfl
    simp [List.nodup_append] at hnd
  unfold absorbNext
  extract_lets s₁ after m1 m2
  have h₁ : Linked s₁ L := by
    apply h.modify <;> exact fun _ => rfl
  have hafter : after = l₂.head? := (h₁.links hw').2
  have h₂ : Linked { s₁ with mem := m2 } (update L .free (l₁ ++ p :: l₂)) := by
    have h2' : Linked { s₁ with mem := m2 } (update L .free ((l₁ ++ [p]) ++ l₂)) := by
      refine h₁.remove hw' rfl ?_ ?_ ?_ ?_
      · intro y _
        simp [m2, m1, hafter]
      · intro y _
        simp [m2, m1, hafter]
      · have hhead := h₁.head .free
        rw [hw'] at hhead
        cases l₁ <;> simpa [State.head] using hhead
      · intro v _
        cases v <;> rfl
    simpa using h2'
  have hk2 : Keeps s₁ { s₁ with mem := m2 } [] := by
    refine keeps_links _ _ _ ?_ ?_ <;> simp [m2, m1]
  have hn2 : ∀ v, n ∉ update L .free (l₁ ++ p :: l₂) v := by
    have := h.chains.not_mem_remove hw'
    simpa using this
  rcases freeNodePut_spec h₂ hn2 (h.bound .free n (by simp [hw])) with ⟨h3, hk3⟩
  refine ⟨by simpa using h3, (((keeps_modify s p _).trans hk2).trans hk3).mono (by simp), ?_, ?_⟩
  · rw [hk3.base p (by simpa using hpn), hk2.base p (by simp)]
    simp [s₁]
  · rw [hk3.size p (by simpa using hpn), hk2.size p (by simp)]
    simp [s₁]

theorem mergePrev_spec_both {s : State} {x n : Nat} {l₁ l₂ : List Nat}
    (h : Linked s L) (hx : ∀ v, x ∉ L v) (hb : x < s.nnodes) (hw : L .free = l₁ ++ p :: n :: l₂)
    (hmerge : canMergeNext (s.modify p fun n => { n with size := n.size + (s.mem x).size }) p
      (some n) = true) :
    Linked (mergePrev s x p (some n))
        (update (update L .free (l₁ ++ p :: l₂)) .pool (x :: n :: L .pool)) ∧
      Keeps s (mergePrev s x p (some n)) [p, n, x] ∧
      ((mergePrev s x p (some n)).mem p).base = (s.mem p).base ∧
      ((mergePrev s x p (some n)).mem p).size =
        (s.mem p).size + (s.mem x).size + (s.mem n).size := by
  have hfree : ∀ y ∈ L .free, y ≠ x := by
    rintro y hy rfl
    exact hx .free hy
  have hpx := hfree p (by simp [hw])
  have hnx := hfree n (by simp [hw])
  have hpn : n ≠ p := by
    have hnd := (h.chains.chain .free).nodup
    rw [hw] at hnd
    rintro rfl
    simp [List.nodup_append] at hnd
  set s₁ := s.modify p fun n => { n with size := n.size + (s.mem x).size } with hs1
  have heq : mergePrev s x p (some n) = freeNodePut (absorbNext s₁ p n) x := by
    simp [mergePrev, ← hs1, hmerge]
  have h₁ : Linked s₁ L := by
    apply h.modify <;> exact fun _ => rfl
  rcases absorbNext_spec h₁ hw with ⟨h₂, hk2, hbase, hsize⟩
  have hx2 : ∀ v, x ∉ update (update L .free (l₁ ++ p :: l₂)) .pool
      (n :: L .pool) v := by
    intro v
    have hxv := hx v
    cases v with
    | free =>
      rw [hw] at hxv
      simp only [List.mem_append, List.mem_cons, not_or] at hxv
      simp [hxv.1, hxv.2.1, hxv.2.2.2]
    | used => simpa using hxv
    | pool => simpa [hnx.symm] using hxv
  have hb2 : x < (absorbNext s₁ p n).nnodes := by
    rw [hk2.nnodes]
    exact hb
  rcases freeNodePut_spec h₂ hx2 hb2 with ⟨h3, hk3⟩
  rw [heq]
  refine ⟨by simpa using h3, (((keeps_modify s p _).trans hk2).trans hk3).mono (by simp), ?_, ?_⟩
  · rw [hk3.base p (by simpa using hpx), hbase]
    simp [s₁]
  · rw [hk3.size p (by simpa using hpx), hsize]
    simp [s₁, modify_mem_of_ne _ hpn]

/-! ## Taking a record off a list -/

theorem unlinkFree_spec {s : State} {x : Nat} {l₁ l₂ : List Nat}
    (h : Linked s L) (hw : L .free = l₁ ++ x :: l₂) :
    Linked (unlinkFree s x) (update L .free (l₁ ++ l₂)) ∧ Keeps s (unlinkFree s x) [] := by
  rcases h.links hw with ⟨hprev, hnext⟩
  have hhead : s.freevmrList = (l₁ ++ x :: l₂).head? := hw ▸ h.head .free
  refine ⟨h.remove hw rfl ?_ ?_ ?_ ?_, keeps_links _ _ _ ?_ ?_⟩
  · intro y _
    simp [unlinkFree, hprev, hnext]
  · intro y _
    simp [unlinkFree, hprev, hnext]
  · cases l₁ <;> simp [unlinkFree, State.head, hprev, hnext, hhead]
  · intro v hv
    cases v with
    | free => exact absurd rfl hv
    | used => rfl
    | pool => rfl
  · intro q
    simp
  · intro q
    simp

theorem unlinkUsed_spec {s : State} {x : Nat} {l₁ l₂ : List Nat}
    (h : Linked s L) (hw : L .used = l₁ ++ x :: l₂) :
    Linked (unlinkUsed s x) (update L .used (l₁ ++ l₂)) ∧ Keeps s (unlinkUsed s x) [] := by
  rcases h.links hw with ⟨hprev, hnext⟩
  have hhead : s.usedvmrList = (l₁ ++ x :: l₂).head? := hw ▸ h.head .used
  refine ⟨h.remove hw rfl ?_ ?_ ?_ ?_, keeps_links _ _ _ ?_ ?_⟩
  · intro y _
    simp [unlinkUsed, hprev, hnext]
  · intro y _
    simp [unlinkUsed, hprev, hnext]
  · cases l₁ <;> simp [unlinkUsed, State.head, hprev, hnext, hhead]
  · intro v hv
    cases v with
    | used => exact absurd rfl hv
    | free => rfl
    | pool => rfl
  · intro q
    simp
  · intro q
    simp

theorem splitFront_spec {s : State} {x y : Nat} (h : Linked s L)
    (hxy : x ≠ y) (size : BitVec 64) :
    Linked (splitFront s x y size) L ∧ Keeps s (splitFront s x y size) [x, y] ∧
      ((splitFront s x y size).mem x).base = (s.mem y).base ∧
      ((splitFront s x y size).mem x).size = size ∧
      ((splitFront s x y size).mem y).base = (s.mem y).base + size ∧
      ((splitFront s x y size).mem y).size = (s.mem y).size - size := by
  unfold splitFront
  extract_lets s₁ s₂ s3
  have h₁ : Linked s₁ L := by
    apply h.modify <;> exact fun _ => rfl
  have h₂ : Linked s₂ L := by
    apply h₁.modify <;> exact fun _ => rfl
  have h3 : Linked s3 L := by
    apply h₂.modify <;> exact fun _ => rfl
  have hk3 : Keeps s s3 [x, y, y] :=
    ((keeps_modify s x _).trans (keeps_modify s₁ y _)).trans (keeps_modify s₂ y _)
  refine ⟨?_, ?_, ?_, ?_, ?_, ?_⟩
  · apply h3.modify <;> exact fun _ => rfl
  · refine Keeps.mono (hk3.trans (keeps_modify s3 x _)) ?_
    simp
  · simp [s3, s₂, s₁, modify_mem_of_ne _ hxy]
  · simp
  · simp [s3, s₂, s₁, modify_mem_of_ne _ hxy.symm]
  · simp [s3, s₂, s₁, modify_mem_of_ne _ hxy.symm]

/-! ## Records that describe tiles -/

/-- The three lists of a state whose records describe the tiles `l`, with spare records `pl`. -/
def lists (l : List (Tile Nat)) (pl : List Nat) : Which → List Nat
  | .free => slots false l
  | .used => slots true l
  | .pool => pl

def Describes (s : State) (t : Tile Nat) : Prop :=
  (s.mem t.slot).base.toNat = t.base ∧ (s.mem t.slot).size.toNat = t.size

theorem Describes.keeps {s : State} {c : List Nat} {t : Tile Nat} (h : Describes s t)
    (hk : Keeps s s' c) (ht : t.slot ∉ c) : Describes s' t := by
  simpa only [Describes, hk.base _ ht, hk.size _ ht] using h

theorem Linked.nodup {s : State} {l : List (Tile Nat)} {pl : List Nat}
    (h : Linked s (lists l pl)) : (l.map Tile.slot).Nodup := by
  refine (slots_perm l).nodup_iff.1 (List.nodup_append.2 ⟨?_, ?_, ?_⟩)
  · exact (h.chains.chain .used).nodup
  · exact (h.chains.chain .free).nodup
  · rintro x hx y hy rfl
    exact absurd (h.chains.disjoint .used .free x hx hy) (by decide)

theorem mem_lists_of_mem {l : List (Tile Nat)} {t : Tile Nat} (pl : List Nat) (ht : t ∈ l) :
    ∃ w, t.slot ∈ lists l pl w := by
  cases hu : t.used with
  | true => exact ⟨.used, mem_slots.2 ⟨t, ht, hu, rfl⟩⟩
  | false => exact ⟨.free, mem_slots.2 ⟨t, ht, hu, rfl⟩⟩

/-- A record that describes a tile between `l₁` and `l₂`, and is on no list. -/
structure Loose (s : State) (a e : Nat) (l₁ : List (Tile Nat)) (t : Tile Nat)
    (l₂ : List (Tile Nat)) (pl : List Nat) : Prop where
  linked : Linked s (lists (l₁ ++ l₂) pl)
  fresh : ∀ v, t.slot ∉ lists (l₁ ++ l₂) pl v
  bound : t.slot < s.nnodes
  describes : ∀ u ∈ l₁ ++ t :: l₂, Describes s u
  tiles : Tiles a (l₁ ++ t :: l₂) e
  small : e < a + 2 ^ 64

section Loose

variable {s : State} {a e : Nat} {l₁ l₂ : List (Tile Nat)} {t : Tile Nat} {pl : List Nat}

theorem Loose.nodup (h : Loose s a e l₁ t l₂ pl) : ((l₁ ++ t :: l₂).map Tile.slot).Nodup := by
  have hperm : ((l₁ ++ t :: l₂).map Tile.slot).Perm (t.slot :: (l₁ ++ l₂).map Tile.slot) := by
    simp
  refine hperm.nodup_iff.2 (List.nodup_cons.2 ⟨fun hmem => ?_, h.linked.nodup⟩)
  rcases List.mem_map.1 hmem with ⟨u, hu, hut⟩
  rcases mem_lists_of_mem pl hu with ⟨w, hw⟩
  exact h.fresh w (hut ▸ hw)

theorem Loose.clear (h : Loose s a e l₁ t l₂ pl) : Loose (clearLinks s t.slot) a e l₁ t l₂ pl where
  linked := h.linked.clear h.fresh
  fresh := h.fresh
  bound := h.bound
  describes u hu := (h.describes u hu).keeps (keeps_clearLinks s t.slot) (by simp)
  tiles := h.tiles
  small := h.small

theorem Loose.stop_le (h : Loose s a e l₁ t l₂ pl) {u : Tile Nat} (hu : u ∈ l₁) :
    u.stop ≤ t.base ∧ 0 < u.size := by
  rcases tiles_append.1 h.tiles with ⟨m, ht1, hb, _⟩
  exact ⟨hb ▸ (ht1.bounds hu).2.1, (ht1.bounds hu).2.2⟩

theorem Loose.le_base (h : Loose s a e l₁ t l₂ pl) {u : Tile Nat} (hu : u ∈ l₂) :
    t.stop ≤ u.base := by
  rcases tiles_append.1 h.tiles with ⟨m, _, _, _, ht2⟩
  exact (ht2.bounds hu).1

theorem Loose.freevmrPut_eq (h : Loose s a e l₁ t l₂ pl) :
    freevmrPut s t.slot = .ok (coalesce (clearLinks s t.slot) t.slot (slots false l₁).getLast?
      (slots false l₂).head?) := by
  have h0 := h.clear
  unfold freevmrPut
  generalize clearLinks s t.slot = s₀ at h0 ⊢
  have hchain : Chain (nexts s₀.mem) (prevs s₀.mem) none (slots false l₁ ++ slots false l₂)
      none := by
    simpa [lists] using h0.linked.chains.chain .free
  have hlen : (slots false l₁ ++ slots false l₂).length ≤ s₀.nnodes := by
    simpa [lists] using h0.linked.length_le .free
  have hhead : s₀.freevmrList = (slots false l₁ ++ slots false l₂).head? := by
    simpa [lists, State.head] using h0.linked.head .free
  have hdt := h0.describes t (by simp)
  simp only [hhead]
  rw [scan_chain_split hchain hlen]
  · simp
  · intro x hx
    rcases mem_slots.1 hx with ⟨u, hu, _, rfl⟩
    have hdu := h0.describes u (by simp [hu])
    have hle := h0.stop_le hu
    simp only [Describes, Tile.stop] at hdt hdu hle
    simp only [Bool.not_eq_false', decide_eq_true_eq, BitVec.lt_def]
    omega
  · intro x hx
    rcases mem_slots.1 hx with ⟨u, hu, _, rfl⟩
    have hdu := h0.describes u (by simp [hu])
    have hle := h0.le_base hu
    simp only [Describes, Tile.stop] at hdt hdu hle
    simp only [Bool.not_eq_true', decide_eq_false_iff_not, BitVec.lt_def]
    omega

theorem describes_exchange {s' : State} (mid : List (Tile Nat)) {v : Tile Nat} {c : List Nat}
    (hnd : ((l₁ ++ (mid ++ l₂)).map Tile.slot).Nodup)
    (hd : ∀ u ∈ l₁ ++ (mid ++ l₂), Describes s u) (hk : Keeps s s' c)
    (hc : c ⊆ mid.map Tile.slot) (hv : Describes s' v) : ∀ u ∈ l₁ ++ v :: l₂, Describes s' u := by
  intro u hu
  have hcase : u ∈ l₁ ++ l₂ ∨ u = v := by
    simp only [List.mem_append, List.mem_cons] at hu ⊢
    tauto
  rcases hcase with hu | rfl
  · have hu' : u ∈ l₁ ++ (mid ++ l₂) := by
      simp only [List.mem_append] at hu ⊢
      tauto
    exact (hd u hu').keeps hk fun hmem => slot_notMem_mid hnd hu (hc hmem)
  · exact hv

/-- What `freevmr_put` leaves behind when it releases a tile. -/
structure Settled (s s' : State) (l : List (Tile Nat)) (pl : List Nat) : Prop where
  linked : Linked s' (lists l pl)
  describes : ∀ u ∈ l, Describes s' u
  kheapSize : s'.kheapSize = s.kheapSize
  usedMemsz : s'.usedMemsz = s.usedMemsz

theorem Loose.linkFree (h : Loose s a e l₁ t l₂ pl) :
    Settled s (Vmm.linkFree s t.slot (slots false l₁).getLast? (slots false l₂).head?)
      (l₁ ++ { t with used := false } :: l₂) pl := by
  have hw : lists (l₁ ++ l₂) pl .free = slots false l₁ ++ slots false l₂ := by simp [lists]
  rcases linkFree_spec h.linked h.fresh h.bound hw with ⟨hl, hk⟩
  refine ⟨?_, ?_, hk.kheapSize, hk.usedMemsz⟩
  · convert hl using 1
    funext w
    cases w <;> simp [lists]
  · refine describes_exchange [t] h.nodup h.describes hk (by simp) ?_
    exact (h.describes t (by simp)).keeps hk (by simp)

theorem Loose.mergeNext {n : Tile Nat} (h : Loose s a e l₁ t (n :: l₂) pl) (hn : n.used = false) :
    Settled s (Vmm.mergeNext s t.slot (slots false l₁).getLast? n.slot)
      (l₁ ++ { n with base := t.base, size := t.size + n.size } :: l₂) (t.slot :: pl) := by
  have hw : lists (l₁ ++ n :: l₂) pl .free = slots false l₁ ++ n.slot :: slots false l₂ := by
    simp [lists, hn]
  rcases mergeNext_spec h.linked h.fresh h.bound hw with ⟨hl, hk, hbase, hsize⟩
  have hdt := h.describes t (by simp)
  have hdn := h.describes n (by simp)
  have hadj : t.base + t.size = n.base := by
    rcases tiles_append.1 h.tiles with ⟨m, _, _, _, hb, _⟩
    exact hb.symm
  have hnb := (h.tiles.bounds (t := n) (by simp)).2.1
  have htb := (h.tiles.bounds (t := t) (by simp)).1
  have hsmall := h.small
  refine ⟨?_, ?_, hk.kheapSize, hk.usedMemsz⟩
  · convert hl using 1
    funext w
    cases w <;> simp [lists, hn]
  · refine describes_exchange [t, n] h.nodup h.describes hk (by simp) ?_
    simp only [Describes, Tile.stop, hbase, hsize] at hdt hdn hnb ⊢
    exact ⟨by bv_omega, by bv_omega⟩

variable {p : Tile Nat}

theorem Loose.adjacent (h : Loose s a e (l₁ ++ [p]) t l₂ pl) :
    p.base + p.size = t.base := by
  rcases tiles_append.1 h.tiles with ⟨m, hp, hb, _⟩
  rcases tiles_append.1 hp with ⟨m', _, _, _, hm⟩
  exact hm.trans hb.symm

theorem Loose.mergePrev (h : Loose s a e (l₁ ++ [p]) t l₂ pl) (hp : p.used = false)
    (h₂ : ∀ u ∈ l₂, u.used = false → t.stop < u.base) :
    Settled s (Vmm.mergePrev s t.slot p.slot (slots false l₂).head?)
      (l₁ ++ { p with size := p.size + t.size } :: l₂) (t.slot :: pl) := by
  have hmem : p.slot ∈ lists (l₁ ++ [p] ++ l₂) pl .free := by simp [lists, hp]
  have hdt := h.describes t (by simp)
  have hdp := h.describes p (by simp)
  have hadj := h.adjacent
  have hnd : ((l₁ ++ ([p, t] ++ l₂)).map Tile.slot).Nodup := by simpa using h.nodup
  have hd : ∀ u ∈ l₁ ++ ([p, t] ++ l₂), Describes s u := by simpa using h.describes
  have hmerge : canMergeNext (s.modify p.slot fun n => { n with size := n.size + (s.mem t.slot).size })
      p.slot (slots false l₂).head? = false := by
    cases hy : (slots false l₂).head? with
    | none => rfl
    | some y =>
      rcases mem_slots.1 (List.mem_of_head? hy) with ⟨u, hu, huf, rfl⟩
      have hdu := hd u (by simp [hu])
      have hup := slot_notMem_mid hnd (List.mem_append_right l₁ hu)
      have hne : u.slot ≠ p.slot := fun heq => hup (by simp [heq])
      have hlt := h₂ u hu huf
      simp only [canMergeNext, modify_mem_self, modify_mem_of_ne _ hne, decide_eq_false_iff_not]
      simp only [Describes, Tile.stop] at hdt hdp hdu hlt
      bv_omega
  rcases mergePrev_spec_single h.linked h.fresh h.bound hmem hmerge with ⟨hl, hk, hbase, hsize⟩
  have hpb := (h.tiles.bounds (t := p) (by simp)).1
  have htb := (h.tiles.bounds (t := t) (by simp)).2.1
  have hsmall := h.small
  refine ⟨?_, ?_, hk.kheapSize, hk.usedMemsz⟩
  · convert hl using 1
    funext w
    cases w <;> simp [lists, hp]
  · refine describes_exchange [p, t] hnd hd hk (by simp) ?_
    simp only [Describes, Tile.stop, hbase, hsize] at hdt hdp htb ⊢
    exact ⟨by bv_omega, by bv_omega⟩

theorem Loose.mergeBoth {n : Tile Nat} (h : Loose s a e (l₁ ++ [p]) t (n :: l₂) pl)
    (hp : p.used = false) (hn : n.used = false) :
    Settled s (Vmm.mergePrev s t.slot p.slot (some n.slot))
      (l₁ ++ { p with size := p.size + t.size + n.size } :: l₂) (t.slot :: n.slot :: pl) := by
  have hw : lists (l₁ ++ [p] ++ n :: l₂) pl .free =
      slots false l₁ ++ p.slot :: n.slot :: slots false l₂ := by
    simp [lists, hp, hn]
  have hdt := h.describes t (by simp)
  have hdp := h.describes p (by simp)
  have hdn := h.describes n (by simp)
  have hadj := h.adjacent
  have hadj' : t.base + t.size = n.base := by
    rcases tiles_append.1 h.tiles with ⟨m, _, _, _, hb, _⟩
    exact hb.symm
  have hnd : ((l₁ ++ ([p, t, n] ++ l₂)).map Tile.slot).Nodup := by simpa using h.nodup
  have hd : ∀ u ∈ l₁ ++ ([p, t, n] ++ l₂), Describes s u := by simpa using h.describes
  have hne : n.slot ≠ p.slot := by
    intro heq
    simp [List.nodup_append, heq] at hnd
  have hmerge : canMergeNext (s.modify p.slot fun n => { n with size := n.size + (s.mem t.slot).size })
      p.slot (some n.slot) = true := by
    simp only [canMergeNext, modify_mem_self, modify_mem_of_ne _ hne, decide_eq_true_eq]
    simp only [Describes] at hdt hdp hdn
    bv_omega
  rcases mergePrev_spec_both h.linked h.fresh h.bound hw hmerge with ⟨hl, hk, hbase, hsize⟩
  have hpb := (h.tiles.bounds (t := p) (by simp)).1
  have hnb := (h.tiles.bounds (t := n) (by simp)).2.1
  have hsmall := h.small
  refine ⟨?_, ?_, hk.kheapSize, hk.usedMemsz⟩
  · convert hl using 1
    funext w
    cases w <;> simp [lists, hp, hn]
  · refine describes_exchange [p, t, n] hnd hd hk (by simp) ?_
    simp only [Describes, Tile.stop, hbase, hsize] at hdt hdp hdn hnb ⊢
    exact ⟨by bv_omega, by bv_omega⟩

theorem Loose.freevmrPut (h : Loose s a e l₁ t l₂ pl) :
    ∃ s' l gone, Vmm.freevmrPut s t.slot = .ok s' ∧ Released l₁ t l₂ l gone ∧
      Settled s s' l (gone ++ pl) := by
  rw [h.freevmrPut_eq]
  have h0 := h.clear
  have hkh : (clearLinks s t.slot).kheapSize = s.kheapSize := rfl
  have hum : (clearLinks s t.slot).usedMemsz = s.usedMemsz := rfl
  generalize clearLinks s t.slot = s₀ at h0 hkh hum ⊢
  -- It is enough to follow the merge from the cleared record on.
  suffices hco : ∃ l gone, Released l₁ t l₂ l gone ∧ Settled s₀ (coalesce s₀ t.slot
      (slots false l₁).getLast? (slots false l₂).head?) l (gone ++ pl) by
    rcases hco with ⟨l, gone, hr, hs⟩
    exact ⟨_, l, gone, rfl, hr, hs.linked, hs.describes, hs.kheapSize.trans hkh,
      hs.usedMemsz.trans hum⟩
  have hdt := h0.describes t (by simp)
  rcases tiles_append.1 h0.tiles with ⟨m, ht1, hbase, _, ht2⟩
  subst hbase
  rcases ht1.last_free with ⟨k, p, rfl, hp, hpe⟩ | ⟨hl, hlt⟩
  · have hdp := h0.describes p (by simp)
    have hmp : canMergePrev s₀ t.slot (some p.slot) = true := by
      simp only [canMergePrev, decide_eq_true_eq]
      simp only [Describes, Tile.stop] at hdt hdp hpe
      bv_omega
    have hlast : (slots false (k ++ [p])).getLast? = some p.slot := by simp [hp]
    rcases ht2.head_free with ⟨n, k2, rfl, hn, hnb⟩ | ⟨hr, hrt⟩
    · refine ⟨_, _, Released.both hp hn, ?_⟩
      rw [hlast]
      simpa [coalesce, hmp, hn] using h0.mergeBoth hp hn
    · refine ⟨_, _, Released.prev hp hr, ?_⟩
      rw [hlast]
      simpa [coalesce, hmp] using h0.mergePrev hp hrt
  · have hmp : canMergePrev s₀ t.slot (slots false l₁).getLast? = false := by
      cases hy : (slots false l₁).getLast? with
      | none => rfl
      | some y =>
        rcases mem_slots.1 (List.mem_of_getLast? hy) with ⟨u, hu, huf, rfl⟩
        have hdu := h0.describes u (by simp [hu])
        have hlt' := hlt u hu huf
        simp only [canMergePrev, decide_eq_false_iff_not]
        simp only [Describes, Tile.stop] at hdt hdu hlt'
        bv_omega
    have hco : coalesce s₀ t.slot (slots false l₁).getLast? (slots false l₂).head? =
        coalesceNext s₀ t.slot (slots false l₁).getLast? (slots false l₂).head? := by
      cases hy : (slots false l₁).getLast? with
      | none => rfl
      | some y =>
        rw [hy] at hmp
        simp [coalesce, hmp]
    rw [hco]
    rcases ht2.head_free with ⟨n, k2, rfl, hn, hnb⟩ | ⟨hr, hrt⟩
    · have hdn := h0.describes n (by simp)
      have hmn : canMergeNext s₀ t.slot (some n.slot) = true := by
        simp only [canMergeNext, decide_eq_true_eq]
        simp only [Describes, Tile.stop] at hdt hdn hnb
        bv_omega
      refine ⟨_, _, Released.next hl hn, ?_⟩
      simpa [coalesceNext, hn, hmn] using h0.mergeNext hn
    · have hmn : canMergeNext s₀ t.slot (slots false l₂).head? = false := by
        cases hy : (slots false l₂).head? with
        | none => rfl
        | some y =>
          rcases mem_slots.1 (List.mem_of_head? hy) with ⟨u, hu, huf, rfl⟩
          have hdu := h0.describes u (by simp [hu])
          have hlt' := hrt u hu huf
          simp only [canMergeNext, decide_eq_false_iff_not]
          simp only [Describes, Tile.stop] at hdt hdu hlt'
          bv_omega
      refine ⟨_, _, Released.alone hl hr, ?_⟩
      have hlink : coalesceNext s₀ t.slot (slots false l₁).getLast? (slots false l₂).head? =
          Vmm.linkFree s₀ t.slot (slots false l₁).getLast? (slots false l₂).head? := by
        cases hy : (slots false l₂).head? with
        | none => rfl
        | some y =>
          rw [hy] at hmn
          simp [coalesceNext, hmn]
      rw [hlink]
      exact h0.linkFree

end Loose

end Vmm
end Mm
end XytherOS
