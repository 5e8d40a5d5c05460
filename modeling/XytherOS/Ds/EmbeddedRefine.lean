import Mathlib.Data.List.Basic
import XytherOS.Ds.Embedded

/-!
# EmbeddedRefine — embedded queues are lists

The purpose of an embedded queue is to be a list of nodes.  `listCall` says what each call does to
the lists; `Inv s a` relates linked memory `s` to lists `a`: each queue is a null-terminated chain
through exactly its list, its two ends and its count are right, and no node is in two queues.

Every call allowed by the interface discipline (`Allowed`: a node is enqueued only while it is in no
queue, only members are detached) takes related states to related states with the same reply.
-/

namespace XytherOS
namespace Ds

open Function Links

variable {Q N : Type}

/-! ## The abstract queues -/

section Lists

variable [DecidableEq Q] [DecidableEq N]

def listPut (l : List N) (x : N) : Whence → List N
  | .head => x :: l
  | .tail => l ++ [x]

def listEnqueue (a : Q → List N) (q : Q) (x : N) (u : Uniqueness) (w : Whence) :
    Ret × (Q → List N) :=
  if u = .unique ∧ x ∈ a q then (.err .EEXIST, a)
  else (.ok, update a q (listPut (a q) x w))

def listCall (a : Q → List N) : Call Q N → Reply N × (Q → List N)
  | .enqueue q x u => (((listEnqueue a q x u .tail).1, none), (listEnqueue a q x u .tail).2)
  | .enqueueHead q x u => (((listEnqueue a q x u .head).1, none), (listEnqueue a q x u .head).2)
  | .dequeue q =>
    match (a q).head? with
    | some x => ((.ok, some x), update a q (a q).tail)
    | none => ((.err .ENOENT, none), a)
  | .dequeueTail q =>
    match (a q).getLast? with
    | some x => ((.ok, some x), update a q (a q).dropLast)
    | none => ((.err .ENOENT, none), a)
  | .detach q x => ((.ok, none), update a q ((a q).erase x))
  | .remove q x =>
    if x ∈ a q then ((.ok, none), update a q ((a q).erase x))
    else ((.err .ENOENT, none), a)
  | .replace q x y =>
    if x = y then ((.ok, none), a)
    else if x ∈ a q then ((.ok, none), update a q ((a q).replace x y))
    else ((.err .ENOENT, none), a)
  | .flush q => ((.ok, none), update a q [])
  | .relloc dst src x u w =>
    if x ∈ a src then
      let a' := update a src ((a src).erase x)
      (((listEnqueue a' dst x u w).1, none), (listEnqueue a' dst x u w).2)
    else ((.err .ENOENT, none), a)

def listRun (a : Q → List N) : List (Call Q N) → List (Reply N) × (Q → List N)
  | [] => ([], a)
  | c :: cs =>
    ((listCall a c).1 :: (listRun (listCall a c).2 cs).1, (listRun (listCall a c).2 cs).2)

/-- The discipline of the interface: enqueued and replacing nodes are in no queue, detached nodes
are members. -/
def Allowed (a : Q → List N) : Call Q N → Prop
  | .enqueue _ x _ => ∀ q, x ∉ a q
  | .enqueueHead _ x _ => ∀ q, x ∉ a q
  | .detach q x => x ∈ a q
  | .replace _ x y => x = y ∨ ∀ q, y ∉ a q
  | _ => True

def AllowedRun (a : Q → List N) : List (Call Q N) → Prop
  | [] => True
  | c :: cs => Allowed a c ∧ AllowedRun (listCall a c).2 cs

instance [Fintype Q] (a : Q → List N) : (c : Call Q N) → Decidable (Allowed a c)
  | .enqueue _ x _ => inferInstanceAs (Decidable (∀ q, x ∉ a q))
  | .enqueueHead _ x _ => inferInstanceAs (Decidable (∀ q, x ∉ a q))
  | .detach q x => inferInstanceAs (Decidable (x ∈ a q))
  | .replace _ x y => inferInstanceAs (Decidable (x = y ∨ ∀ q, y ∉ a q))
  | .dequeue _ => isTrue trivial
  | .dequeueTail _ => isTrue trivial
  | .remove _ _ => isTrue trivial
  | .flush _ => isTrue trivial
  | .relloc _ _ _ _ _ => isTrue trivial

instance decidableAllowedRun [Fintype Q] :
    (a : Q → List N) → (cs : List (Call Q N)) → Decidable (AllowedRun a cs)
  | _, [] => isTrue trivial
  | a, c :: cs =>
    have := decidableAllowedRun (listCall a c).2 cs
    inferInstanceAs (Decidable (Allowed a c ∧ AllowedRun (listCall a c).2 cs))

end Lists

/-! ## The refinement relation -/

/-- Queue `q` is the doubly linked list of exactly the nodes `l`. -/
structure Holds (s : Queues Q N) (q : Q) (l : List N) : Prop where
  chain : Chain (nexts s.node) (prevs s.node) none l none
  head : (s.queue q).head = l.head?
  tail : (s.queue q).tail = l.getLast?
  count : (s.queue q).qCount = l.length

structure Inv (s : Queues Q N) (a : Q → List N) : Prop where
  holds : ∀ q, Holds s q (a q)
  apart : ∀ q q' x, x ∈ a q → x ∈ a q' → q = q'

structure FrameOf (s s' : Queues Q N) (q : Q) (l : List N) : Prop where
  queue : ∀ q', q' ≠ q → s'.queue q' = s.queue q'
  node : ∀ y, y ∉ l → s'.node y = s.node y

theorem inv_init : Inv (Queues.init : Queues Q N) (fun _ => []) where
  holds _ := ⟨trivial, rfl, rfl, rfl⟩
  apart _ _ _ h := by simp at h

variable {q : Q} {l l₁ l₂ : List N} {a : Q → List N}

theorem Inv.not_mem {s : Queues Q N} (hinv : Inv s a) {q' : Q} (hq : q' ≠ q)
    {y : N} (hy : y ∈ a q') : y ∉ a q :=
  fun hmem => hq (hinv.apart q' q y hy hmem)

theorem Holds.length_le [Fintype N] {s : Queues Q N} (h : Holds s q l) :
    l.length ≤ Fintype.card N :=
  h.chain.nodup.length_le_card

variable [DecidableEq Q]

theorem Inv.update {s s' : Queues Q N} {l' : List N}
    (hinv : Inv s a) (hholds : Holds s' q l') (hframe : FrameOf s s' q l)
    (hl : ∀ q', q' ≠ q → ∀ y ∈ a q', y ∉ l) (hl' : ∀ q', q' ≠ q → ∀ y ∈ a q', y ∉ l') :
    Inv s' (update a q l') := by
  refine ⟨?_, ?_⟩
  · intro q'
    by_cases hq : q' = q
    · subst hq
      simpa using hholds
    · have h := hinv.holds q'
      rw [update_of_ne hq]
      refine ⟨h.chain.congr ?_, ?_, ?_, ?_⟩
      · intro y hy
        have hy' := hframe.node y (hl q' hq y hy)
        exact ⟨by simp [nexts, hy'], by simp [prevs, hy']⟩
      · rw [hframe.queue q' hq, h.head]
      · rw [hframe.queue q' hq, h.tail]
      · rw [hframe.queue q' hq, h.count]
  · intro q1 q2 x h₁ h₂
    by_cases hq1 : q1 = q <;> by_cases hq2 : q2 = q
    · rw [hq1, hq2]
    · subst hq1
      rw [update_of_ne hq2] at h₂
      exact absurd (by simpa using h₁) (hl' q2 hq2 x h₂)
    · subst hq2
      rw [update_of_ne hq1] at h₁
      exact absurd (by simpa using h₂) (hl' q1 hq1 x h₁)
    · rw [update_of_ne hq1] at h₁
      rw [update_of_ne hq2] at h₂
      exact hinv.apart q1 q2 x h₁ h₂

theorem Inv.update_node [DecidableEq N] {s : Queues Q N} (hinv : Inv s a) {x : N}
    (hx : ∀ q, x ∉ a q) (junk : QueueNode N) :
    Inv { s with node := Function.update s.node x junk } a := by
  refine ⟨fun q => ?_, hinv.apart⟩
  have hq := hinv.holds q
  refine ⟨hq.chain.congr ?_, hq.head, hq.tail, hq.count⟩
  intro y hy
  have hyx : y ≠ x := by
    rintro rfl
    exact hx q hy
  simp [nexts, prevs, hyx]

/-! ## Specifications of the link edits -/

variable [DecidableEq N]

theorem holds_insert {s : Queues Q N} {x : N}
    (h : Holds s q l) (hx : x ∉ l) :
    ∃ s', embeddedQueueInsert s q x = .ok s' ∧ Holds s' q (l ++ [x]) ∧
      FrameOf s s' q (x :: l) := by
  have hchain : Chain (nexts s.node) (prevs s.node) none (l ++ []) none := by
    simpa using h.chain
  rcases List.eq_nil_or_concat l with rfl | ⟨ys, y, rfl⟩
  · -- Empty queue: `x` becomes both ends.
    have hhead : (s.queue q).head = none := h.head
    refine ⟨_, by simp only [embeddedQueueInsert, hhead]; rfl, ⟨?_, ?_, ?_, ?_⟩, ?_, ?_⟩
    · refine hchain.insert (by simp) ?_ ?_ <;> simp
    · simp
    · simp
    · simp [h.count]
    · intro q' hq
      simp [hq]
    · intro z hz
      have hxz : ¬ x = z := fun hxz => hz (by simp [hxz])
      simp [storePrev_of_ne, storeNext_of_ne, hxz]
  · -- The old tail is followed by `x`.
    simp only [List.concat_eq_append] at h hx hchain ⊢
    have hhead : ∃ z, (s.queue q).head = some z := by
      rw [h.head]
      cases ys with
      | nil => exact ⟨y, by simp⟩
      | cons z zs => exact ⟨z, by simp⟩
    rcases hhead with ⟨z, hz⟩
    have htail : (s.queue q).tail = some y := by simp [h.tail]
    have hyx : ¬ y = x := fun hyx => hx (by simp [hyx])
    refine ⟨_, by simp only [embeddedQueueInsert, hz, htail]; rfl, ⟨?_, ?_, ?_, ?_⟩, ?_, ?_⟩
    · refine hchain.insert (by simpa using hx) ?_ ?_
      · simp
      · simp
    · simp [← hz, h.head, List.head?_append]
    · simp
    · simp [h.count]
    · intro q' hq
      simp [hq]
    · intro w hw
      have hxw : ¬ x = w := fun hxw => hw (by simp [hxw])
      have hyw : ¬ y = w := fun hyw => hw (by simp [hyw])
      simp [storePrev_of_ne, storeNext_of_ne, hxw, hyw]

theorem holds_insertHead {s : Queues Q N} {x : N}
    (h : Holds s q l) (hx : x ∉ l) :
    Holds (embeddedQueueInsertHead s q x) q (x :: l) ∧
      FrameOf s (embeddedQueueInsertHead s q x) q (x :: l) := by
  have hchain : Chain (nexts s.node) (prevs s.node) none ([] ++ l) none := by
    simpa using h.chain
  cases l with
  | nil =>
    have hhead : (s.queue q).head = none := h.head
    refine ⟨⟨?_, ?_, ?_, ?_⟩, ?_, ?_⟩
    · refine hchain.insert (by simp) ?_ ?_ <;> simp [embeddedQueueInsertHead, hhead]
    · simp [embeddedQueueInsertHead, hhead]
    · simp [embeddedQueueInsertHead, hhead]
    · simp [embeddedQueueInsertHead, hhead, h.count]
    · intro q' hq
      simp [embeddedQueueInsertHead, hhead, hq]
    · intro z hz
      have hxz : ¬ x = z := fun hxz => hz (by simp [hxz])
      simp [embeddedQueueInsertHead, hhead, storePrev_of_ne, storeNext_of_ne, hxz]
  | cons y ys =>
    have hhead : (s.queue q).head = some y := h.head
    have hyx : ¬ y = x := fun hyx => hx (by simp [hyx])
    refine ⟨⟨?_, ?_, ?_, ?_⟩, ?_, ?_⟩
    · refine hchain.insert (by simpa using hx) ?_ ?_
      · simp [embeddedQueueInsertHead, hhead]
      · simp [embeddedQueueInsertHead, hhead]
    · simp [embeddedQueueInsertHead, hhead]
    · simp [embeddedQueueInsertHead, hhead, h.tail]
    · simp [embeddedQueueInsertHead, hhead, h.count]
    · intro q' hq
      simp [embeddedQueueInsertHead, hhead, hq]
    · intro z hz
      have hxz : ¬ x = z := fun hxz => hz (by simp [hxz])
      have hyz : ¬ y = z := fun hyz => hz (by simp [hyz])
      simp [embeddedQueueInsertHead, hhead, storePrev_of_ne, storeNext_of_ne, hxz, hyz]

theorem holds_unlink {s : Queues Q N} {x : N}
    (h : Holds s q (l₁ ++ x :: l₂)) :
    Holds (unlinkNode s q x) q (l₁ ++ l₂) ∧
      FrameOf s (unlinkNode s q x) q (l₁ ++ x :: l₂) := by
  have hmid := h.chain.mid
  simp only [Option.or_none] at hmid
  have hprev : (s.node x).prev = l₁.getLast? := hmid.1
  have hnext : (s.node x).next = l₂.head? := hmid.2
  have hnd := h.chain.nodup
  refine ⟨⟨?_, ?_, ?_, ?_⟩, ?_, ?_⟩
  · refine h.chain.remove ?_ ?_
    · intro y hy
      have hxy : ¬ x = y := fun hxy => hy hxy.symm
      simp [unlinkNode, hprev, hnext, setLink_apply, hxy]
    · intro y hy
      have hxy : ¬ x = y := fun hxy => hy hxy.symm
      simp [unlinkNode, hprev, hnext, setLink_apply, hxy]
  · have hhead := head?_unlink hnd
    simpa [unlinkNode, h.head, hnext] using hhead
  · have htail := getLast?_unlink hnd
    simpa [unlinkNode, h.tail, hprev] using htail
  · simp [unlinkNode, h.count]
  · intro q' hq
    simp [unlinkNode, hq]
  · intro y hy
    have hxy : some x ≠ some y := by
      intro hxy
      exact hy (by simp [Option.some.inj hxy])
    have hp : l₁.getLast? ≠ some y := by
      intro hl
      exact hy (List.mem_append_left _ (List.mem_of_getLast? hl))
    have hn : l₂.head? ≠ some y := by
      intro hl
      exact hy (List.mem_append_right _ (List.mem_cons_of_mem _ (List.mem_of_head? hl)))
    simp only [unlinkNode, hprev, hnext]
    rw [storePrev_of_ne _ hxy, storeNext_of_ne _ hxy, storePrev_of_ne _ hn, storeNext_of_ne _ hp]

theorem head?_replace {x z : N} (hnd : (l₁ ++ x :: l₂).Nodup) :
    (if (l₁ ++ x :: l₂).head? = some x then some z else (l₁ ++ x :: l₂).head?) =
      (l₁ ++ z :: l₂).head? := by
  cases l₁ with
  | nil => simp
  | cons y ys =>
    have hyx : ¬ y = x := by
      rintro rfl
      exact (List.nodup_cons.1 hnd).1 (by simp)
    simp [hyx]

theorem getLast?_replace {x z : N} (hnd : (l₁ ++ x :: l₂).Nodup) :
    (if (l₁ ++ x :: l₂).getLast? = some x then some z else (l₁ ++ x :: l₂).getLast?) =
      (l₁ ++ z :: l₂).getLast? := by
  have hnd' : (l₂.reverse ++ x :: l₁.reverse).Nodup := by
    have hrev := List.nodup_reverse.2 hnd
    simpa using hrev
  have h := head?_replace (z := z) hnd'
  simpa [List.head?_append, List.getLast?_append, List.head?_reverse, List.getLast?_cons] using h

theorem flushLoop_spec :
    ∀ {s : Queues Q N} {n : Nat}, Holds s q l → l.length ≤ n →
      ∃ s', flushLoop q n s l.head? = .ok s' ∧ Holds s' q [] ∧ FrameOf s s' q l := by
  induction l with
  | nil =>
    intro s n h _
    refine ⟨s, ?_, h, ?_, ?_⟩
    · cases n <;> rfl
    · intro q' _
      rfl
    · intro y _
      rfl
  | cons x xs ih =>
    intro s n h hn
    cases n with
    | zero => simp at hn
    | succ n =>
      have hx : Holds s q ([] ++ x :: xs) := h
      rcases holds_unlink hx with ⟨hrest, hframe⟩
      rcases ih (s := unlinkNode s q x) hrest (by simpa using hn) with
        ⟨s', hloop, hempty, hframe'⟩
      have hnext : (s.node x).next = xs.head? := by
        have := hx.chain.mid.2
        simpa [nexts, LinkNode.next] using this
      refine ⟨s', ?_, hempty, ?_, ?_⟩
      · simpa [flushLoop, hnext] using hloop
      · intro q' hq
        rw [hframe'.queue q' hq, hframe.queue q' hq]
      · intro y hy
        have hy' : y ∉ xs := fun hmem => hy (List.mem_cons_of_mem _ hmem)
        rw [hframe'.node y hy', hframe.node y hy]

section Loops

variable [Fintype N]

variable {a : Q → List N} {q : Q} {l : List N}

theorem contains_spec {s : Queues Q N} (h : Holds s q l) (x : N) :
    embeddedQueueContains s q x = .ok (if x ∈ l then .ok else .err .ENOENT) := by
  rcases scan_chain_find (fun p => decide (p = x)) none h.chain h.length_le with
    ⟨last, hscan⟩
  rw [embeddedQueueContains, h.head, hscan]
  by_cases hx : x ∈ l
  · cases hfind : l.find? (fun p => decide (p = x)) with
    | none => simpa using List.find?_eq_none.1 hfind x hx
    | some y => simp [hx]
  · cases hfind : l.find? (fun p => decide (p = x)) with
    | none => simp [hx]
    | some y =>
      have hyx : y = x := by simpa using List.find?_some hfind
      exact absurd (hyx ▸ List.mem_of_find?_eq_some hfind) hx

theorem holds_replace {s : Queues Q N} {l₁ l₂ : List N} {x z : N}
    (h : Holds s q (l₁ ++ x :: l₂)) (hz : z ∉ l₁ ++ x :: l₂) :
    ∃ s', embeddedQueueReplace s q x z = .ok (.ok, s') ∧ Holds s' q (l₁ ++ z :: l₂) ∧
      FrameOf s s' q (z :: (l₁ ++ x :: l₂)) := by
  have hxz : ¬ x = z := fun hxz => hz (by simp [hxz])
  have hnd := h.chain.nodup
  have hmid := h.chain.mid
  simp only [Option.or_none] at hmid
  have hprev : (s.node x).prev = l₁.getLast? := hmid.1
  have hnext : (s.node x).next = l₂.head? := hmid.2
  -- The loop stops at `x` itself.
  have hfind : (l₁ ++ x :: l₂).find? (fun p => decide (p = x)) = some x := by
    cases hf : (l₁ ++ x :: l₂).find? (fun p => decide (p = x)) with
    | none => simpa using List.find?_eq_none.1 hf x (by simp)
    | some y => simpa using List.find?_some hf
  rcases scan_chain_find (fun p => decide (p = x)) none h.chain h.length_le with
    ⟨last, hscan⟩
  rw [hfind] at hscan
  refine ⟨_, by simp only [embeddedQueueReplace, if_neg hxz, h.head, hscan]; rfl,
    ⟨?_, ?_, ?_, ?_⟩, ?_, ?_⟩
  · refine h.chain.replace hz ?_ ?_
    · intro y hy
      have hxy : ¬ x = y := fun hxy => hy hxy.symm
      simp [hprev, hnext, setLink_apply, hxy]
    · intro y hy
      have hxy : ¬ x = y := fun hxy => hy hxy.symm
      simp [hprev, hnext, setLink_apply, hxy]
  · have hhead := head?_replace (z := z) hnd
    simpa [h.head] using hhead
  · have htail := getLast?_replace (z := z) hnd
    simpa [h.tail] using htail
  · simp [h.count]
  · intro q' hq
    simp [hq]
  · intro y hy
    have hxy : some x ≠ some y := by
      intro hxy
      exact hy (by simp [Option.some.inj hxy])
    have hzy : some z ≠ some y := by
      intro hzy
      exact hy (by simp [Option.some.inj hzy])
    have hp : l₁.getLast? ≠ some y := by
      intro hl
      exact hy (by simp [List.mem_of_getLast? hl])
    have hn : l₂.head? ≠ some y := by
      intro hl
      exact hy (by simp [List.mem_of_head? hl])
    simp only [hprev, hnext]
    rw [storePrev_of_ne _ hxy, storeNext_of_ne _ hxy, storeNext_of_ne _ hp, storePrev_of_ne _ hn,
      storePrev_of_ne _ hzy, storeNext_of_ne _ hzy]

theorem holds_flush {s : Queues Q N} (h : Holds s q l) :
    ∃ s', embeddedQueueFlush s q = .ok s' ∧ Holds s' q [] ∧ FrameOf s s' q l := by
  rcases flushLoop_spec h h.length_le with ⟨s', hloop, hempty, hframe⟩
  have hrun : embeddedQueueFlush s q =
      .ok
        { s' with
          queue := update s'.queue q { s'.queue q with head := none, tail := none } } := by
    rw [embeddedQueueFlush, h.head, hloop]
    rfl
  refine ⟨_, hrun, ⟨hempty.chain, ?_, ?_, ?_⟩, ?_, ?_⟩
  · simp
  · simp
  · simpa using hempty.count
  · intro q' hq
    simp [hq, hframe.queue q' hq]
  · intro y hy
    exact hframe.node y hy

/-! ## Each call refines its list operation -/

theorem enqueueWhence_refines {s : Queues Q N} (hinv : Inv s a) {x : N}
    (hx : ∀ q, x ∉ a q) (q : Q) (u : Uniqueness) (w : Whence) :
    ∃ s', embeddedEnqueueWhence s q x u w = .ok ((listEnqueue a q x u w).1, s') ∧
      Inv s' (listEnqueue a q x u w).2 := by
  have hnot : ¬ (u = .unique ∧ x ∈ a q) := fun h => hx q h.2
  have hcontains := contains_spec (hinv.holds q) x
  rw [if_neg (hx q)] at hcontains
  -- The uniqueness check passes: `x` is in no queue.
  have hapart : ∀ q', q' ≠ q → ∀ y ∈ a q', y ∉ x :: a q := by
    intro q' hq y hy hmem
    rcases List.mem_cons.1 hmem with rfl | hmem
    · exact hx q' hy
    · exact hinv.not_mem hq hy hmem
  cases w with
  | tail =>
    rcases holds_insert (hinv.holds q) (hx q) with ⟨s', hrun, hholds, hframe⟩
    refine ⟨s', ?_, ?_⟩
    · cases u <;>
        simp [embeddedEnqueueWhence, embeddedEnqueue, hcontains, hrun, listEnqueue, hx q,
          pure, Except.pure]
    · rw [listEnqueue, if_neg hnot]
      refine hinv.update hholds hframe hapart ?_
      intro q' hq y hy hmem
      exact hapart q' hq y hy (by simpa [listPut, or_comm] using hmem)
  | head =>
    rcases holds_insertHead (hinv.holds q) (hx q) with ⟨hholds, hframe⟩
    refine ⟨embeddedQueueInsertHead s q x, ?_, ?_⟩
    · cases u <;>
        simp [embeddedEnqueueWhence, embeddedEnqueueHead, hcontains, listEnqueue, hx q,
          pure, Except.pure]
    · rw [listEnqueue, if_neg hnot]
      exact hinv.update hholds hframe hapart hapart

theorem unlink_refines {s : Queues Q N} (hinv : Inv s a) {x : N}
    (hx : x ∈ a q) : Inv (unlinkNode s q x) (update a q ((a q).erase x)) := by
  rcases List.append_of_mem hx with ⟨l₁, l₂, hl⟩
  have hholds := hinv.holds q
  have hnd := hholds.chain.nodup
  rw [hl] at hholds hnd
  have hx1 : x ∉ l₁ := fun hmem => (List.nodup_append.1 hnd).2.2 x hmem x (by simp) rfl
  have herase : (a q).erase x = l₁ ++ l₂ := by
    rw [hl, List.erase_append_right _ hx1, List.erase_cons_head]
  rcases holds_unlink hholds with ⟨hholds', hframe⟩
  rw [herase]
  refine hinv.update hholds' hframe ?_ ?_
  · intro q' hq y hy
    rw [← hl]
    exact hinv.not_mem hq hy
  · intro q' hq y hy hmem
    refine hinv.not_mem hq hy ?_
    rw [hl]
    rcases List.mem_append.1 hmem with hmem | hmem
    · exact List.mem_append_left _ hmem
    · exact List.mem_append_right _ (List.mem_cons_of_mem _ hmem)

theorem remove_refines {s : Queues Q N} (hinv : Inv s a) (q : Q) (x : N) :
    ∃ s', embeddedQueueRemove s q x = .ok (if x ∈ a q then .ok else .err .ENOENT, s') ∧
      Inv s' (if x ∈ a q then update a q ((a q).erase x) else a) := by
  have hcontains := contains_spec (hinv.holds q) x
  by_cases hx : x ∈ a q
  · refine ⟨unlinkNode s q x, ?_, ?_⟩
    · simp [embeddedQueueRemove, hcontains, hx, embeddedQueueDetach, pure, Except.pure]
    · simpa [hx] using unlink_refines hinv hx
  · refine ⟨s, ?_, ?_⟩
    · simp [embeddedQueueRemove, hcontains, hx, pure, Except.pure]
    · simpa [hx] using hinv

theorem replace_refines {s : Queues Q N} (hinv : Inv s a) (q : Q) {x z : N}
    (hz : x = z ∨ ∀ q, z ∉ a q) :
    ∃ s', call s (.replace q x z) = .ok ((listCall a (.replace q x z)).1, s') ∧
      Inv s' (listCall a (.replace q x z)).2 := by
  by_cases hxz : x = z
  · refine ⟨s, ?_, ?_⟩
    · simp [call, embeddedQueueReplace, listCall, hxz, pure, Except.pure]
    · simpa [listCall, hxz] using hinv
  · have hz' : ∀ q, z ∉ a q := hz.resolve_left hxz
    by_cases hx : x ∈ a q
    · rcases List.append_of_mem hx with ⟨l₁, l₂, hl⟩
      have hholds := hinv.holds q
      have hnd := hholds.chain.nodup
      have hzq := hz' q
      rw [hl] at hholds hnd hzq
      have hx1 : x ∉ l₁ := fun hmem => (List.nodup_append.1 hnd).2.2 x hmem x (by simp) rfl
      have hreplace : (a q).replace x z = l₁ ++ z :: l₂ := by
        rw [hl, List.replace_append_right hx1]
        simp
      rcases holds_replace hholds hzq with ⟨s', hrun, hholds', hframe⟩
      refine ⟨s', ?_, ?_⟩
      · simp [call, hrun, listCall, hxz, hx, pure, Except.pure]
      · simp only [listCall, hxz, hx, if_false, if_true, hreplace]
        refine hinv.update hholds' hframe ?_ ?_
        · intro q' hq y hy hmem
          rcases List.mem_cons.1 hmem with rfl | hmem
          · exact hz' q' hy
          · exact hinv.not_mem hq hy (hl ▸ hmem)
        · intro q' hq y hy hmem
          rcases List.mem_append.1 hmem with hmem | hmem
          · exact hinv.not_mem hq hy (by simp [hl, hmem])
          · rcases List.mem_cons.1 hmem with rfl | hmem
            · exact hz' q' hy
            · exact hinv.not_mem hq hy (by simp [hl, hmem])
    · -- The loop reaches the end without meeting `x`.
      have hholds := hinv.holds q
      rcases scan_chain_find (fun p => decide (p = x)) none hholds.chain hholds.length_le with
        ⟨last, hscan⟩
      have hfind : (a q).find? (fun p => decide (p = x)) = none := by
        refine List.find?_eq_none.2 ?_
        intro y hy hyx
        have hyx' : y = x := by simpa using hyx
        exact hx (hyx' ▸ hy)
      rw [hfind] at hscan
      refine ⟨s, ?_, ?_⟩
      · simp [call, embeddedQueueReplace, hxz, hholds.head, hscan, listCall, hx, pure, Except.pure]
      · simpa [listCall, hxz, hx] using hinv

theorem relloc_refines {s : Queues Q N} (hinv : Inv s a) (dst src : Q) (x : N)
    (u : Uniqueness) (w : Whence) :
    ∃ s', call s (.relloc dst src x u w) = .ok ((listCall a (.relloc dst src x u w)).1, s') ∧
      Inv s' (listCall a (.relloc dst src x u w)).2 := by
  rcases remove_refines hinv src x with ⟨s₁, hremove, hinv1⟩
  by_cases hx : x ∈ a src
  · simp only [hx, if_true] at hremove hinv1
    -- Once removed from `src`, the node is in no queue at all.
    have hout : ∀ q, x ∉ update a src ((a src).erase x) q := by
      intro q hmem
      by_cases hq : q = src
      · subst hq
        rw [update_self] at hmem
        exact ((hinv.holds q).chain.nodup.mem_erase_iff.1 hmem).1 rfl
      · rw [update_of_ne hq] at hmem
        exact hq (hinv.apart q src x hmem hx)
    rcases enqueueWhence_refines hinv1 hout dst u w with ⟨s₂, henq, hinv2⟩
    have hret : (listEnqueue (update a src ((a src).erase x)) dst x u w).1 = .ok := by
      simp [listEnqueue, hout dst]
    refine ⟨s₂, ?_, ?_⟩
    · simp [call, embeddedQueueRelloc, hremove, henq, hret, listCall, hx, pure, Except.pure]
    · simpa [listCall, hx] using hinv2
  · simp only [hx, if_false] at hremove hinv1
    refine ⟨s₁, ?_, ?_⟩
    · simp [call, embeddedQueueRelloc, hremove, listCall, hx, pure, Except.pure]
    · simpa [listCall, hx] using hinv1

theorem call_refines {s : Queues Q N} (hinv : Inv s a) (c : Call Q N)
    (hc : Allowed a c) :
    ∃ s', call s c = .ok ((listCall a c).1, s') ∧ Inv s' (listCall a c).2 := by
  cases c with
  | enqueue q x u =>
    rcases enqueueWhence_refines hinv hc q u .tail with ⟨s', hrun, hinv'⟩
    simp only [embeddedEnqueueWhence] at hrun
    exact ⟨s', by simp [call, hrun, listCall, pure, Except.pure], hinv'⟩
  | enqueueHead q x u =>
    rcases enqueueWhence_refines hinv hc q u .head with ⟨s', hrun, hinv'⟩
    simp only [embeddedEnqueueWhence] at hrun
    exact ⟨s', by simp [call, hrun, listCall, pure, Except.pure], hinv'⟩
  | dequeue q =>
    have hhead := (hinv.holds q).head
    cases hl : a q with
    | nil =>
      rw [hl] at hhead
      refine ⟨s, ?_, ?_⟩
      · simp [call, embeddedDequeue, hhead, listCall, hl]
      · simpa [listCall, hl] using hinv
    | cons x xs =>
      rw [hl] at hhead
      have hunlink := unlink_refines hinv (q := q) (x := x) (by simp [hl])
      refine ⟨unlinkNode s q x, ?_, ?_⟩
      · simp [call, embeddedDequeue, hhead, listCall, hl]
      · simpa [listCall, hl] using hunlink
  | dequeueTail q =>
    have htail := (hinv.holds q).tail
    rcases List.eq_nil_or_concat (a q) with hl | ⟨ys, y, hl⟩
    · rw [hl] at htail
      refine ⟨s, ?_, ?_⟩
      · simp at htail
        simp [call, embeddedDequeueTail, htail, listCall, hl]
      · simpa [listCall, hl] using hinv
    · rw [List.concat_eq_append] at hl
      rw [hl] at htail
      have hnd := (hinv.holds q).chain.nodup
      rw [hl] at hnd
      have hy : y ∉ ys := fun hmem => (List.nodup_append.1 hnd).2.2 y hmem y (by simp) rfl
      have herase : (a q).erase y = ys := by
        rw [hl, List.erase_append_right _ hy]
        simp
      have hunlink := unlink_refines hinv (q := q) (x := y) (by simp [hl])
      rw [herase] at hunlink
      refine ⟨unlinkNode s q y, ?_, ?_⟩
      · simp at htail
        simp [call, embeddedDequeueTail, htail, listCall, hl]
      · simpa [listCall, hl] using hunlink
  | detach q x =>
    exact ⟨unlinkNode s q x, rfl, unlink_refines hinv hc⟩
  | remove q x =>
    rcases remove_refines hinv q x with ⟨s', hrun, hinv'⟩
    refine ⟨s', ?_, ?_⟩
    · by_cases hx : x ∈ a q <;> simp [call, hrun, listCall, hx, pure, Except.pure]
    · by_cases hx : x ∈ a q <;> simpa [listCall, hx] using hinv'
  | replace q x z => exact replace_refines hinv q hc
  | flush q =>
    rcases holds_flush (hinv.holds q) with ⟨s', hrun, hholds, hframe⟩
    refine ⟨s', by simp [call, hrun, listCall, pure, Except.pure], ?_⟩
    refine hinv.update hholds hframe ?_ ?_
    · intro q' hq y hy
      exact hinv.not_mem hq hy
    · intro q' hq y hy
      simp
  | relloc dst src x u w => exact relloc_refines hinv dst src x u w

theorem run_refines {s : Queues Q N} (hinv : Inv s a) {cs : List (Call Q N)}
    (hcs : AllowedRun a cs) :
    ∃ s', run s cs = .ok ((listRun a cs).1, s') ∧ Inv s' (listRun a cs).2 := by
  induction cs generalizing s a with
  | nil => exact ⟨s, rfl, hinv⟩
  | cons c cs ih =>
    rcases call_refines hinv c hcs.1 with ⟨s₁, hcall, hinv1⟩
    rcases ih hinv1 hcs.2 with ⟨s₂, hrun, hinv2⟩
    refine ⟨s₂, ?_, hinv2⟩
    simp [run, hcall, hrun, listRun, pure, Except.pure]

omit [DecidableEq Q] [DecidableEq N] in
def nodeSequence (s : Queues Q N) (q : Q) : List N :=
  collect (nexts s.node) (Fintype.card N) (s.queue q).head

omit [DecidableEq Q] [DecidableEq N] in
/-- The queue is a doubly linked list: nothing before the head, nothing after the tail, `next` and
`prev` inverse to each other along it. -/
structure WellLinked (s : Queues Q N) (q : Q) : Prop where
  head_prev : ∀ h, (s.queue q).head = some h → (s.node h).prev = none
  tail_next : ∀ t, (s.queue q).tail = some t → (s.node t).next = none
  head_none_iff : (s.queue q).head = none ↔ (s.queue q).tail = none
  tail_last : (s.queue q).tail = (nodeSequence s q).getLast?
  next_mem : ∀ x ∈ nodeSequence s q, ∀ y, (s.node x).next = some y → y ∈ nodeSequence s q
  inverse : ∀ x ∈ nodeSequence s q, ∀ y ∈ nodeSequence s q,
    (s.node x).next = some y ↔ (s.node y).prev = some x

theorem Holds.nodeSequence_eq {s : Queues Q N} (h : Holds s q l) :
    nodeSequence s q = l := by
  rw [nodeSequence, h.head]
  exact collect_chain h.chain h.length_le

theorem Holds.wellLinked {s : Queues Q N} (h : Holds s q l) :
    WellLinked s q := by
  have hseq := h.nodeSequence_eq
  have hd := h.chain.doublyLinked h.head h.tail
  refine ⟨hd.head_prev, hd.tail_next, ?_, ?_, ?_, ?_⟩
  · rw [h.head, h.tail, List.head?_eq_none_iff, List.getLast?_eq_none_iff]
  · rw [hseq, h.tail]
  · rw [hseq]
    exact hd.next_mem
  · rw [hseq]
    exact hd.inverse

/-- Starting from empty queues and unlinked nodes, every allowed sequence of calls returns the
replies of the list operations and leaves every queue well linked, with the right count and the
node sequence of its list. -/
theorem embedded_queues_refine_lists (cs : List (Call Q N)) (hcs : AllowedRun (fun _ => []) cs) :
    ∃ s, run Queues.init cs = .ok ((listRun (fun _ => []) cs).1, s) ∧
      ∀ q, WellLinked s q ∧ (s.queue q).qCount = (nodeSequence s q).length ∧
        nodeSequence s q = (listRun (fun _ => []) cs).2 q := by
  rcases run_refines inv_init hcs with ⟨s, hrun, hinv⟩
  refine ⟨s, hrun, ?_⟩
  intro q
  have h := hinv.holds q
  refine ⟨h.wellLinked, ?_, h.nodeSequence_eq⟩
  rw [h.nodeSequence_eq, h.count]

theorem embedded_queues_refine_lists_two_queues :
    ∃ s : Queues Bool (Fin 3),
      run Queues.init
          [.enqueue false 0 .unique, .enqueueHead false 1 .duplicates,
            .relloc true false 0 .unique .head, .replace true 0 2, .dequeueTail true,
            .remove false 2, .detach false 1, .flush true] =
        .ok
          ([(.ok, none), (.ok, none), (.ok, none), (.ok, none), (.ok, some 2),
            (.err .ENOENT, none), (.ok, none), (.ok, none)], s) ∧
        ∀ q, WellLinked s q ∧ (s.queue q).qCount = (nodeSequence s q).length ∧
          nodeSequence s q = [] := by
  have hcs : AllowedRun (fun _ : Bool => ([] : List (Fin 3)))
      [.enqueue false 0 .unique, .enqueueHead false 1 .duplicates,
        .relloc true false 0 .unique .head, .replace true 0 2, .dequeueTail true,
        .remove false 2, .detach false 1, .flush true] := by
    decide
  rcases embedded_queues_refine_lists _ hcs with ⟨s, hrun, hq⟩
  refine ⟨s, hrun, ?_⟩
  intro q
  rcases hq q with ⟨hlink, hcount, hseq⟩
  refine ⟨hlink, hcount, hseq.trans ?_⟩
  cases q <;> decide

end Loops

end Ds
end XytherOS
