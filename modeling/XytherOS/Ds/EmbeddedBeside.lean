import XytherOS.Ds.EmbeddedRefine

/-!
# EmbeddedBeside — insertion next to a node of an intrusive queue

`embedded_enqueue_after` stores three of the four links: the node that was behind `prev` keeps its
link back to `prev`.  `embedded_enqueue_before` leaves out the link forward in the same way.  At the
end of the queue where that neighbour is missing the insertion is complete.
-/

namespace XytherOS
namespace Ds

open Links

variable {Q N : Type} [DecidableEq Q] [DecidableEq N]

section Model

def putAfter (s : Queues Q N) (q : Q) (node prev : N) : Queues Q N :=
  let m := storePrev s.node (some node) (some prev)
  let m := storeNext m (some node) (m prev).next
  let queue := s.queue q
  { node := storeNext m (some prev) (some node)
    queue := Function.update s.queue q
      { queue with
        tail := if queue.tail = some prev then some node else queue.tail
        qCount := queue.qCount + 1 } }

def putBefore (s : Queues Q N) (q : Q) (node next : N) : Queues Q N :=
  let m := storeNext s.node (some node) (some next)
  let m := storePrev m (some node) (m next).prev
  let queue := s.queue q
  { node := storePrev m (some next) (some node)
    queue := Function.update s.queue q
      { queue with
        head := if queue.head = some next then some node else queue.head
        qCount := queue.qCount + 1 } }

variable [Fintype N]

def embeddedEnqueueAfter (s : Queues Q N) (q : Q) (node prev : N) (uniqueness : Uniqueness) :
    Except Fault (Ret × Queues Q N) := do
  if uniqueness = .unique then
    if (← embeddedQueueContains s q node) = .ok then
      return (.err .EEXIST, s)
  return (.ok, putAfter s q node prev)

def embeddedEnqueueBefore (s : Queues Q N) (q : Q) (node next : N) (uniqueness : Uniqueness) :
    Except Fault (Ret × Queues Q N) := do
  if uniqueness = .unique then
    if (← embeddedQueueContains s q node) = .ok then
      return (.err .EEXIST, s)
  return (.ok, putBefore s q node next)

end Model

/-! ## What the assignments leave -/

variable {s s' : Queues Q N} {q : Q} {a : Q → List N} {l₁ l₂ : List N} {m x : N}

theorem frame_putAfter (s : Queues Q N) (q : Q) (x m : N) :
    FrameOf s (putAfter s q x m) q [x, m] := by
  refine ⟨?_, ?_⟩
  · intro q' hq
    simp [putAfter, hq]
  · intro y hy
    have hxy : some x ≠ some y := fun hxy => hy (by simp [Option.some.inj hxy])
    have hmy : some m ≠ some y := fun hmy => hy (by simp [Option.some.inj hmy])
    simp only [putAfter, storeNext_of_ne _ hmy, storeNext_of_ne _ hxy, storePrev_of_ne _ hxy]

theorem frame_putBefore (s : Queues Q N) (q : Q) (x m : N) :
    FrameOf s (putBefore s q x m) q [x, m] := by
  refine ⟨?_, ?_⟩
  · intro q' hq
    simp [putBefore, hq]
  · intro y hy
    have hxy : some x ≠ some y := fun hxy => hy (by simp [Option.some.inj hxy])
    have hmy : some m ≠ some y := fun hmy => hy (by simp [Option.some.inj hmy])
    simp only [putBefore, storePrev_of_ne _ hmy, storePrev_of_ne _ hxy, storeNext_of_ne _ hxy]

theorem holds_putAfter (h : Holds s q (l₁ ++ [m])) (hx : x ∉ l₁ ++ [m]) :
    Holds (putAfter s q x m) q (l₁ ++ [m, x]) := by
  have hxm : some x ≠ some m := by
    intro hxm
    exact hx (by simp [Option.some.inj hxm])
  have hlast : nexts s.node m = none := by simpa using h.chain.mid.2
  have hnext : (storePrev s.node (some x) (some m) m).next = none := by
    rw [storePrev_of_ne _ hxm]
    exact hlast
  have htail : (s.queue q).tail = some m := by simp [h.tail]
  refine ⟨?_, ?_, ?_, ?_⟩
  · have hchain : Chain (nexts s.node) (prevs s.node) none (l₁ ++ [m] ++ []) none := by
      simpa using h.chain
    have hinsert := hchain.insert (by simpa using hx) rfl rfl
    simpa [putAfter, hnext] using hinsert
  · simp [putAfter, h.head, List.head?_append]
  · simp [putAfter, htail]
  · simp [putAfter, h.count]

theorem holds_putBefore (h : Holds s q (m :: l₂)) (hx : x ∉ m :: l₂) :
    Holds (putBefore s q x m) q (x :: m :: l₂) := by
  have hxm : some x ≠ some m := by
    intro hxm
    exact hx (by simp [Option.some.inj hxm])
  have hfirst : prevs s.node m = none := h.chain.1
  have hprev : (storeNext s.node (some x) (some m) m).prev = none := by
    rw [storeNext_of_ne _ hxm]
    exact hfirst
  have hhead : (s.queue q).head = some m := h.head
  refine ⟨?_, ?_, ?_, ?_⟩
  · have hchain : Chain (nexts s.node) (prevs s.node) none ([] ++ m :: l₂) none := h.chain
    have hinsert := hchain.insert (by simpa using hx) rfl rfl
    simpa [putBefore, hprev] using hinsert
  · simp [putBefore, hhead]
  · simp [putBefore, h.tail]
  · simp [putBefore, h.count]

theorem not_holds_putAfter {y : N} (h : Holds s q (l₁ ++ m :: y :: l₂))
    (hx : x ∉ l₁ ++ m :: y :: l₂) : ¬ Holds (putAfter s q x m) q (l₁ ++ m :: x :: y :: l₂) := by
  intro h'
  have hxy : some x ≠ some y := fun hxy => hx (by simp [Option.some.inj hxy])
  have hkept : prevs (putAfter s q x m).node y = prevs s.node y := by
    simp [putAfter, setLink_apply, hxy]
  have hsplit : l₁ ++ m :: y :: l₂ = (l₁ ++ [m]) ++ y :: l₂ := by simp
  have hsplit' : l₁ ++ m :: x :: y :: l₂ = (l₁ ++ [m, x]) ++ y :: l₂ := by simp
  rw [hsplit] at h
  rw [hsplit'] at h'
  have hold : prevs s.node y = some m := by simpa using h.chain.mid.1
  have hnew : prevs (putAfter s q x m).node y = some x := by simpa using h'.chain.mid.1
  rw [hkept, hold] at hnew
  exact hx (by simp [← Option.some.inj hnew])

theorem not_holds_putBefore {y : N} (h : Holds s q (l₁ ++ y :: m :: l₂))
    (hx : x ∉ l₁ ++ y :: m :: l₂) : ¬ Holds (putBefore s q x m) q (l₁ ++ y :: x :: m :: l₂) := by
  intro h'
  have hxy : some x ≠ some y := fun hxy => hx (by simp [Option.some.inj hxy])
  have hkept : nexts (putBefore s q x m).node y = nexts s.node y := by
    simp [putBefore, setLink_apply, hxy]
  have hold : nexts s.node y = some m := by simpa using h.chain.mid.2
  have hnew : nexts (putBefore s q x m).node y = some x := by simpa using h'.chain.mid.2
  rw [hkept, hold] at hnew
  exact hx (by simp [← Option.some.inj hnew])

theorem Inv.others (hinv : Inv s a) {l : List N} (hframe : FrameOf s s' q l)
    (hl : ∀ q', q' ≠ q → ∀ y ∈ a q', y ∉ l) {q' : Q} (hq : q' ≠ q) : Holds s' q' (a q') := by
  have h := hinv.holds q'
  refine ⟨h.chain.congr ?_, ?_, ?_, ?_⟩
  · intro y hy
    have hy' := hframe.node y (hl q' hq y hy)
    exact ⟨by simp [nexts, hy'], by simp [prevs, hy']⟩
  · rw [hframe.queue q' hq, h.head]
  · rw [hframe.queue q' hq, h.tail]
  · rw [hframe.queue q' hq, h.count]

/-! ## Positional insertion -/

variable [Fintype N]

theorem contains_unlinked (hinv : Inv s a) (hx : ∀ q, x ∉ a q) (q : Q) :
    embeddedQueueContains s q x = .ok (.err .ENOENT) := by
  rw [contains_spec (hinv.holds q) x, if_neg (hx q)]

/-- An unlinked node comes in behind or in front of a member.  The queue is well linked afterwards
exactly when the member was its last, respectively its first, node; the others stay. -/
theorem enqueue_beside_iff (hinv : Inv s a) (hx : ∀ q, x ∉ a q) (hm : a q = l₁ ++ m :: l₂)
    (u : Uniqueness) :
    (∃ s', embeddedEnqueueAfter s q x m u = .ok (.ok, s') ∧
      (∀ q', q' ≠ q → Holds s' q' (a q')) ∧ (Holds s' q (l₁ ++ m :: x :: l₂) ↔ l₂ = [])) ∧
    (∃ s', embeddedEnqueueBefore s q x m u = .ok (.ok, s') ∧
      (∀ q', q' ≠ q → Holds s' q' (a q')) ∧ (Holds s' q (l₁ ++ x :: m :: l₂) ↔ l₁ = [])) := by
  have hcontains := contains_unlinked hinv hx q
  have hapart : ∀ q', q' ≠ q → ∀ y ∈ a q', y ∉ [x, m] := by
    intro q' hq y hy hmem
    rcases List.mem_pair.1 hmem with rfl | rfl
    · exact hx q' hy
    · exact hinv.not_mem hq hy (by simp [hm])
  have hholds := hinv.holds q
  have hxq := hx q
  rw [hm] at hholds hxq
  refine ⟨⟨putAfter s q x m, ?_, fun q' => hinv.others (frame_putAfter s q x m) hapart, ?_⟩,
    putBefore s q x m, ?_, fun q' => hinv.others (frame_putBefore s q x m) hapart, ?_⟩
  · cases u <;> simp [embeddedEnqueueAfter, hcontains]
  · cases l₂ with
    | nil => simpa using holds_putAfter hholds hxq
    | cons y ys => simpa using not_holds_putAfter hholds hxq
  · cases u <;> simp [embeddedEnqueueBefore, hcontains]
  · rcases List.eq_nil_or_concat l₁ with rfl | ⟨ys, y, rfl⟩
    · simpa using holds_putBefore hholds hxq
    · simp only [List.concat_eq_append, List.append_assoc, List.singleton_append] at hholds hxq
      simpa using not_holds_putBefore hholds hxq

/-! ## Queues of two nodes -/

/-- A queue with the nodes `0` and `1`; the node `2` is in no queue. -/
def pairQueue : Queues Unit (Fin 3) where
  node p :=
    if p = 0 then { prev := none, next := some 1 }
    else if p = 1 then { prev := some 0, next := none }
    else { prev := none, next := none }
  queue _ := { head := some 0, tail := some 1, qCount := 2 }

theorem inv_pairQueue : Inv pairQueue fun _ => [0, 1] := by
  refine ⟨fun _ => ⟨?_, rfl, rfl, rfl⟩, fun _ _ _ _ _ => rfl⟩
  simp [Chain, nexts, prevs, LinkNode.next, LinkNode.prev, pairQueue]

theorem enqueue_beside_ends :
    (∃ s', embeddedEnqueueAfter pairQueue () 2 1 .unique = .ok (.ok, s') ∧
      Holds s' () [0, 1, 2]) ∧
    ∃ s', embeddedEnqueueBefore pairQueue () 2 0 .unique = .ok (.ok, s') ∧
      Holds s' () [2, 0, 1] := by
  have hout : ∀ q : Unit, (2 : Fin 3) ∉ (fun _ : Unit => ([0, 1] : List (Fin 3))) q := by decide
  have hlast : ([0, 1] : List (Fin 3)) = [0] ++ 1 :: [] := rfl
  have hfirst : ([0, 1] : List (Fin 3)) = [] ++ 0 :: [1] := rfl
  rcases (enqueue_beside_iff (q := ()) inv_pairQueue hout hlast .unique).1 with
    ⟨s', hrun, -, hiff⟩
  rcases (enqueue_beside_iff (q := ()) inv_pairQueue hout hfirst .unique).2 with
    ⟨s'', hrun', -, hiff'⟩
  exact ⟨⟨s', hrun, hiff.2 rfl⟩, s'', hrun', hiff'.2 rfl⟩

/-- Behind the first node, the last one still points back to the first; in front of the last node,
the first one still points to the last. -/
theorem enqueue_beside_middle :
    (∃ s', embeddedEnqueueAfter pairQueue () 2 0 .unique = .ok (.ok, s') ∧
      (s'.node 1).prev = some 0 ∧ ¬ Holds s' () [0, 2, 1]) ∧
    ∃ s', embeddedEnqueueBefore pairQueue () 2 1 .unique = .ok (.ok, s') ∧
      nodeSequence s' () = [0, 1] ∧ ¬ Holds s' () [0, 2, 1] := by
  refine ⟨⟨putAfter pairQueue () 2 0, rfl, rfl, fun hholds => ?_⟩,
    putBefore pairQueue () 2 1, rfl, rfl, fun hholds => ?_⟩
  · have hback : prevs (putAfter pairQueue () 2 0).node 1 = some 2 := hholds.chain.2.2.2.2.1
    exact absurd hback (by decide)
  · have hforth : nexts (putBefore pairQueue () 2 1).node 0 = some 2 := hholds.chain.2.1
    exact absurd hforth (by decide)

end Ds
end XytherOS
