import XytherOS.Ds.EmbeddedRefine

/-!
# EmbeddedSorted — insertion into a sorted intrusive queue

`embedded_enqueue_sorted` clears the links of the node it is given, looks for the place of the node in
the queue with a comparison of the caller, and links it in there.  A unique insertion is refused when
the node is in the queue already, and also when it compares equal to a node that it comes by.

The node must be in no queue: its links are cleared before the queue is looked at.
-/

namespace XytherOS
namespace Ds

open Function Links

inductive SortOrder
  | ascending
  | descending
  deriving DecidableEq, Repr

section Model

variable {Q N : Type} [DecidableEq Q] [DecidableEq N]

def linkBefore (s : Queues Q N) (q : Q) (qnode node : N) : Queues Q N :=
  let m := storePrev (storeNext s.node (some qnode) (some node)) (some qnode) (s.node node).prev
  let m := storePrev m (some node) (some qnode)
  let prev := (m qnode).prev
  let queue := s.queue q
  { node := storeNext m prev (some qnode)
    queue := update s.queue q
      { queue with
        head := if prev = none then some qnode else queue.head
        qCount := queue.qCount + 1 } }

def linkAfter (s : Queues Q N) (q : Q) (qnode node : N) : Queues Q N :=
  let m := storeNext (storePrev s.node (some qnode) (some node)) (some qnode) (s.node node).next
  let m := storeNext m (some node) (some qnode)
  let next := (m qnode).next
  let queue := s.queue q
  { node := storePrev m next (some qnode)
    queue := update s.queue q
      { queue with
        tail := if next = none then some qnode else queue.tail
        qCount := queue.qCount + 1 } }

def linkLast (s : Queues Q N) (q : Q) (qnode node : N) : Queues Q N :=
  let m := storePrev (storeNext s.node (some qnode) none) (some qnode) (some node)
  let queue := s.queue q
  { node := storeNext m (some node) (some qnode)
    queue := update s.queue q
      { queue with tail := some qnode, qCount := queue.qCount + 1 } }

/-- The loop of `embedded_enqueue_sorted`; `cmp` compares `qnode` with a node of the queue. -/
def sortedLoop (cmp : N → Ordering) (uniqueness : Uniqueness) (q : Q) (qnode : N) :
    Nat → Queues Q N → Option N → Except Fault (Ret × Queues Q N)
  | _, s, none =>
    let queue := s.queue q
    .ok (.ok, { s with
      queue := update s.queue q { queue with qCount := queue.qCount + 1 } })
  | 0, _, some _ => .error .hang
  | n + 1, s, some node =>
    match cmp node with
    | .eq =>
      if uniqueness = .unique then .ok (.err .EEXIST, s)
      else .ok (.ok, linkAfter s q qnode node)
    | .lt => .ok (.ok, linkBefore s q qnode node)
    | .gt =>
      if (s.node node).next = none then .ok (.ok, linkLast s q qnode node)
      else sortedLoop cmp uniqueness q qnode n s (s.node node).next

def clearLinks (s : Queues Q N) (qnode : N) : Queues Q N :=
  { s with node := storeNext (storePrev s.node (some qnode) none) (some qnode) none }

def queueCmpNodes (compare : N → N → Ordering) (order : SortOrder) (node0 node1 : N) : Ordering :=
  match order with
  | .ascending => compare node0 node1
  | .descending => compare node1 node0

variable [Fintype N]

def embeddedEnqueueSorted (s : Queues Q N) (q : Q) (qnode : N) (uniqueness : Uniqueness)
    (order : SortOrder) (compare : N → N → Ordering) : Except Fault (Ret × Queues Q N) := do
  let s := clearLinks s qnode
  let queue := s.queue q
  if queue.head = none then
    return (.ok, { s with
      queue := update s.queue q
        { head := some qnode, tail := some qnode, qCount := queue.qCount + 1 } })
  else
    if uniqueness = .unique then
      if (← embeddedQueueContains s q qnode) = .ok then
        return (.err .EEXIST, s)
    sortedLoop (queueCmpNodes compare order qnode) uniqueness q qnode (Fintype.card N) s queue.head

end Model

/-! ## Lists -/

section Lists

variable {N : Type}

/-- The list with `x` in its place, or `none` if it is refused. -/
def listInsertSorted (cmp : N → Ordering) (u : Uniqueness) (x : N) : List N → Option (List N)
  | [] => some [x]
  | y :: ys =>
    match cmp y with
    | .eq => if u = .unique then none else some (y :: x :: ys)
    | .lt => some (x :: y :: ys)
    | .gt => (listInsertSorted cmp u x ys).map (y :: ·)

theorem mem_listInsertSorted {cmp : N → Ordering} {u : Uniqueness} {x z : N} {l l' : List N}
    (h : listInsertSorted cmp u x l = some l') : z ∈ l' ↔ z = x ∨ z ∈ l := by
  induction l generalizing l' with
  | nil =>
    obtain rfl := Option.some.inj h
    simp
  | cons y ys ih =>
    rw [listInsertSorted] at h
    cases hcmp : cmp y with
    | eq =>
      simp only [hcmp] at h
      split_ifs at h
      obtain rfl := Option.some.inj h
      simp only [List.mem_cons]
      tauto
    | lt =>
      simp only [hcmp, Option.some.injEq] at h
      subst h
      simp
    | gt =>
      simp only [hcmp, Option.map_eq_some_iff] at h
      obtain ⟨ys', hys, rfl⟩ := h
      simp only [List.mem_cons, ih hys]
      tauto

theorem listInsertSorted_sorted {key : N → Nat} {x : N} {l : List N}
    (hsorted : l.Pairwise fun y z => key y < key z) (hne : ∀ y ∈ l, key y ≠ key x) :
    ∃ l', listInsertSorted (fun y => compare (key x) (key y)) .unique x l = some l' ∧
      l'.Perm (x :: l) ∧ l'.Pairwise fun y z => key y < key z := by
  induction l with
  | nil => exact ⟨[x], rfl, List.Perm.refl _, List.pairwise_singleton _ _⟩
  | cons y ys ih =>
    rw [List.pairwise_cons] at hsorted
    obtain ⟨hhead, htail⟩ := hsorted
    have hyx : key y ≠ key x := hne y (by simp)
    rcases Nat.lt_trichotomy (key x) (key y) with hlt | heq | hgt
    · have hcmp : compare (key x) (key y) = .lt := Nat.compare_eq_lt.mpr hlt
      refine ⟨x :: y :: ys, by simp [listInsertSorted, hcmp], List.Perm.refl _, ?_⟩
      refine List.pairwise_cons.mpr ⟨?_, List.pairwise_cons.mpr ⟨hhead, htail⟩⟩
      intro z hz
      rcases List.mem_cons.mp hz with rfl | hz
      · exact hlt
      · exact hlt.trans (hhead z hz)
    · exact absurd heq.symm hyx
    · have hcmp : compare (key x) (key y) = .gt := Nat.compare_eq_gt.mpr hgt
      obtain ⟨l', hl', hperm, hsorted'⟩ := ih htail fun z hz => hne z (by simp [hz])
      refine ⟨y :: l', by simp [listInsertSorted, hcmp, hl'], ?_, ?_⟩
      · exact (hperm.cons y).trans (List.Perm.swap x y ys)
      · refine List.pairwise_cons.mpr ⟨?_, hsorted'⟩
        intro z hz
        rcases List.mem_cons.mp (hperm.mem_iff.mp hz) with rfl | hz
        · exact hgt
        · exact hhead z hz

end Lists

/-! ## Specifications of the link edits -/

section Links

variable {Q N : Type} [DecidableEq Q] [DecidableEq N] {s : Queues Q N} {q : Q} {l₁ l₂ : List N}
  {x y : N}

theorem holds_clearLinks {l : List N} (h : Holds s q l) (hx : x ∉ l) :
    Holds (clearLinks s x) q l := by
  have hne : ∀ y ∈ l, some x ≠ some y := by
    intro y hy hxy
    rw [Option.some.inj hxy] at hx
    exact hx hy
  refine ⟨?_, h.head, h.tail, h.count⟩
  have hchain := (h.chain.setPrev_of_not_mem hne none).setNext_of_not_mem hne none
  simpa [clearLinks] using hchain

theorem linkBefore_eq (hyx : y ≠ x) (hprev : (s.node y).prev = l₁.getLast?) :
    linkBefore s q x y =
      { node := storeNext (storePrev (storePrev (storeNext s.node (some x) (some y)) (some x)
          l₁.getLast?) (some y) (some x)) l₁.getLast? (some x)
        queue := update s.queue q
          { s.queue q with
            head := if l₁.getLast? = none then some x else (s.queue q).head
            qCount := (s.queue q).qCount + 1 } } := by
  have hread : (storePrev (storePrev (storeNext s.node (some x) (some y)) (some x) l₁.getLast?)
      (some y) (some x) x).prev = l₁.getLast? := by
    rw [storePrev_of_ne _ (by simpa using hyx)]
    simp [storePrev, LinkNode.setPrev]
  rw [linkBefore, hprev, hread]

theorem linkAfter_eq (hyx : y ≠ x) (hnext : (s.node y).next = l₂.head?) :
    linkAfter s q x y =
      { node := storePrev (storeNext (storeNext (storePrev s.node (some x) (some y)) (some x)
          l₂.head?) (some y) (some x)) l₂.head? (some x)
        queue := update s.queue q
          { s.queue q with
            tail := if l₂.head? = none then some x else (s.queue q).tail
            qCount := (s.queue q).qCount + 1 } } := by
  have hread : (storeNext (storeNext (storePrev s.node (some x) (some y)) (some x) l₂.head?)
      (some y) (some x) x).next = l₂.head? := by
    rw [storeNext_of_ne _ (by simpa using hyx)]
    simp [storeNext, LinkNode.setNext]
  rw [linkAfter, hnext, hread]

theorem ne_of_not_mem {z : N} (hz : z ∉ x :: (l₁ ++ y :: l₂)) :
    some x ≠ some z ∧ some y ≠ some z ∧ l₁.getLast? ≠ some z ∧ l₂.head? ≠ some z := by
  refine ⟨?_, ?_, ?_, ?_⟩
  · intro h
    exact hz (by simp [Option.some.inj h])
  · intro h
    exact hz (by simp [Option.some.inj h])
  · intro h
    exact hz (by simp [List.mem_of_getLast? h])
  · intro h
    exact hz (by simp [List.mem_of_head? h])

theorem holds_linkBefore (h : Holds s q (l₁ ++ y :: l₂)) (hx : x ∉ l₁ ++ y :: l₂) :
    Holds (linkBefore s q x y) q (l₁ ++ x :: y :: l₂) ∧
      FrameOf s (linkBefore s q x y) q (x :: (l₁ ++ y :: l₂)) := by
  have hprev : prevs s.node y = l₁.getLast? := by simpa using h.chain.mid.1
  have hyx : y ≠ x := by
    rintro rfl
    exact hx (by simp)
  rw [linkBefore_eq hyx hprev]
  refine ⟨⟨?_, ?_, ?_, ?_⟩, ?_, ?_⟩
  · refine h.chain.insert hx ?_ ?_
    · simp
    · simp
  · cases l₁ with
    | nil => simp
    | cons z zs => simp [h.head]
  · simp [h.tail]
  · simp [h.count]
    omega
  · intro q' hq
    simp [hq]
  · intro z hz
    obtain ⟨hxz, hyz, hl, -⟩ := ne_of_not_mem hz
    simp only [storeNext_of_ne _ hl, storePrev_of_ne _ hyz, storePrev_of_ne _ hxz,
      storeNext_of_ne _ hxz]

theorem holds_linkAfter (h : Holds s q (l₁ ++ y :: l₂)) (hx : x ∉ l₁ ++ y :: l₂) :
    Holds (linkAfter s q x y) q (l₁ ++ y :: x :: l₂) ∧
      FrameOf s (linkAfter s q x y) q (x :: (l₁ ++ y :: l₂)) := by
  have hnext : nexts s.node y = l₂.head? := by simpa using h.chain.mid.2
  have hyx : y ≠ x := by
    rintro rfl
    exact hx (by simp)
  have hsplit : l₁ ++ y :: l₂ = l₁ ++ [y] ++ l₂ := by simp
  rw [linkAfter_eq hyx hnext]
  refine ⟨⟨?_, ?_, ?_, ?_⟩, ?_, ?_⟩
  · have hchain : Chain (nexts s.node) (prevs s.node) none (l₁ ++ [y] ++ l₂) none := by
      rw [← hsplit]
      exact h.chain
    have hinsert := hchain.insert (by rw [← hsplit]; exact hx) rfl rfl
    simpa using hinsert
  · simp [h.head, List.head?_append]
  · cases l₂ with
    | nil => simp
    | cons z zs => simp [h.tail]
  · simp [h.count]
    omega
  · intro q' hq
    simp [hq]
  · intro z hz
    obtain ⟨hxz, hyz, -, hr⟩ := ne_of_not_mem hz
    simp only [storePrev_of_ne _ hr, storeNext_of_ne _ hyz, storeNext_of_ne _ hxz,
      storePrev_of_ne _ hxz]

theorem holds_linkLast (h : Holds s q (l₁ ++ [y])) (hx : x ∉ l₁ ++ [y]) :
    Holds (linkLast s q x y) q (l₁ ++ [y, x]) ∧
      FrameOf s (linkLast s q x y) q (x :: (l₁ ++ [y])) := by
  have hyx : y ≠ x := by
    rintro rfl
    exact hx (by simp)
  refine ⟨⟨?_, ?_, ?_, ?_⟩, ?_, ?_⟩
  · have hchain : Chain (nexts s.node) (prevs s.node) none (l₁ ++ [y] ++ []) none := by
      simpa using h.chain
    have hinsert := hchain.insert (by simpa using hx) rfl rfl
    simpa [linkLast] using hinsert
  · simp [linkLast, h.head, List.head?_append]
  · simp [linkLast]
  · simp [linkLast, h.count]
  · intro q' hq
    simp [linkLast, hq]
  · intro z hz
    obtain ⟨hxz, hyz, -, -⟩ := ne_of_not_mem hz
    simp only [linkLast, storeNext_of_ne _ hyz, storePrev_of_ne _ hxz, storeNext_of_ne _ hxz]

/-! ## The insertion refines the list operation -/

theorem sortedLoop_spec {cmp : N → Ordering} {u : Uniqueness} {n : Nat}
    (h : Holds s q (l₁ ++ l₂)) (hx : x ∉ l₁ ++ l₂) (hl : l₂ ≠ []) (hn : l₂.length ≤ n) :
    match listInsertSorted cmp u x l₂ with
    | none => sortedLoop cmp u q x n s l₂.head? = .ok (.err .EEXIST, s)
    | some l' => ∃ s', sortedLoop cmp u q x n s l₂.head? = .ok (.ok, s') ∧
        Holds s' q (l₁ ++ l') ∧ FrameOf s s' q (x :: (l₁ ++ l₂)) := by
  induction l₂ generalizing l₁ n with
  | nil => exact absurd rfl hl
  | cons y ys ih =>
    obtain ⟨n, rfl⟩ : ∃ m, n = m + 1 := ⟨n - 1, by simp at hn; omega⟩
    have hnext : (s.node y).next = ys.head? := by
      have hmid : nexts s.node y = ys.head? := by simpa using h.chain.mid.2
      exact hmid
    rw [List.head?_cons]
    cases hcmp : cmp y with
    | eq =>
      by_cases hu : u = .unique
      · simp [listInsertSorted, sortedLoop, hcmp, hu]
      · simp only [listInsertSorted, sortedLoop, hcmp, hu, if_false]
        exact ⟨_, rfl, holds_linkAfter h hx⟩
    | lt =>
      simp only [listInsertSorted, sortedLoop, hcmp]
      exact ⟨_, rfl, holds_linkBefore h hx⟩
    | gt =>
      cases ys with
      | nil =>
        rw [List.head?_nil] at hnext
        simp only [listInsertSorted, sortedLoop, hcmp, hnext, if_true, Option.map_some]
        exact ⟨_, rfl, holds_linkLast h hx⟩
      | cons z zs =>
        -- the node is passed over, and the rest of the queue is next
        have hholds : Holds s q ((l₁ ++ [y]) ++ z :: zs) := by simpa using h
        have hlen : (z :: zs).length ≤ n := by simpa using hn
        have hrest := ih hholds (by simpa using hx) (by simp) hlen
        have hstep : sortedLoop cmp u q x (n + 1) s (some y) =
            sortedLoop cmp u q x n s (z :: zs).head? := by
          rw [sortedLoop, hcmp, hnext]
          simp
        have hlist : listInsertSorted cmp u x (y :: z :: zs) =
            (listInsertSorted cmp u x (z :: zs)).map (y :: ·) := by
          rw [listInsertSorted, hcmp]
        rw [hstep, hlist]
        cases hinsert : listInsertSorted cmp u x (z :: zs) with
        | none =>
          rw [hinsert] at hrest
          exact hrest
        | some l' =>
          rw [hinsert] at hrest
          simpa using hrest

variable [Fintype N]

theorem enqueueSorted_refines {a : Q → List N} (hinv : Inv s a) (hx : ∀ q, x ∉ a q) (q : Q)
    (u : Uniqueness) (order : SortOrder) (compare : N → N → Ordering) :
    match listInsertSorted (queueCmpNodes compare order x) u x (a q) with
    | none => ∃ s', embeddedEnqueueSorted s q x u order compare = .ok (.err .EEXIST, s') ∧ Inv s' a
    | some l' => ∃ s', embeddedEnqueueSorted s q x u order compare = .ok (.ok, s') ∧
        Inv s' (update a q l') := by
  have hclear : Inv (clearLinks s x) a :=
    ⟨fun q' => holds_clearLinks (hinv.holds q') (hx q'), hinv.apart⟩
  have hcontains := contains_spec (hclear.holds q) x
  rw [if_neg (hx q)] at hcontains
  have hapart : ∀ q', q' ≠ q → ∀ y ∈ a q', y ∉ x :: a q := by
    intro q' hq y hy hmem
    rcases List.mem_cons.mp hmem with rfl | hmem
    · exact hx q' hy
    · exact hinv.not_mem hq hy hmem
  by_cases hempty : a q = []
  · have hhead : ((clearLinks s x).queue q).head = none := by
      rw [(hclear.holds q).head, hempty]
      rfl
    have hcount : ((clearLinks s x).queue q).qCount = 0 := by
      rw [(hclear.holds q).count, hempty]
      rfl
    rw [hempty, listInsertSorted]
    refine ⟨_, by rw [embeddedEnqueueSorted, if_pos hhead]; rfl, ?_⟩
    refine hclear.update (l := x :: a q) ?_ ⟨?_, fun y _ => rfl⟩ hapart ?_
    · refine ⟨?_, by simp, by simp, by simp [hcount]⟩
      simp [Chain, clearLinks, setLink_apply]
    · intro q' hq
      simp [hq]
    · intro q' hq y hy hmem
      exact hapart q' hq y hy (by simp_all)
  · have hhead : ((clearLinks s x).queue q).head ≠ none := by
      rw [(hclear.holds q).head]
      simpa using hempty
    have hloop := @sortedLoop_spec Q N _ _ (clearLinks s x) q [] (a q) x
      (queueCmpNodes compare order x) u (Fintype.card N) (hclear.holds q) (hx q) hempty
      (hclear.holds q).length_le
    have hrun : embeddedEnqueueSorted s q x u order compare =
        sortedLoop (queueCmpNodes compare order x) u q x (Fintype.card N) (clearLinks s x)
          (a q).head? := by
      rw [embeddedEnqueueSorted, if_neg hhead, hcontains, ← (hclear.holds q).head]
      cases u <;> simp
    rw [hrun]
    cases hinsert : listInsertSorted (queueCmpNodes compare order x) u x (a q) with
    | none =>
      rw [hinsert] at hloop
      exact ⟨_, hloop, hclear⟩
    | some l' =>
      rw [hinsert] at hloop
      obtain ⟨s', hs', hholds, hframe⟩ := hloop
      refine ⟨s', hs', hclear.update hholds hframe hapart ?_⟩
      intro q' hq y hy hmem
      refine hapart q' hq y hy (List.mem_cons.mpr ?_)
      exact (mem_listInsertSorted hinsert).mp hmem

end Links

end Ds
end XytherOS
