import XytherOS.Sync.WaitQueue

/-!
# WakeupOrder — the order in which queues are walked and threads woken

`queue_foreach_entry` and `queue_foreach_entry_reverse` of `ds/queue.h` fetch the neighbour of a
node before the body of the loop runs, so that the body may detach the node.  The first one visits
the nodes of a queue in order.  The second one goes to `prev`, but it starts at the head as the
first one does, and ends there: a queue of two or more nodes is not walked backwards, and
`sched_wakeup_whence` from the tail wakes the thread at the head.
-/

namespace XytherOS
namespace Ds

open Function Links

variable {Q N : Type} [DecidableEq Q] [DecidableEq N] [Fintype N]

/-- The loop of both macros from the node `item` on, with the nodes it visits; `neighbour` reads
the link that is followed, before `body` is run. -/
def foreachLoop (neighbour : QueueNode N → Option N) (body : Queues Q N → N → Queues Q N) :
    Nat → Queues Q N → Option N → Except Fault (List N × Queues Q N)
  | _, s, none => .ok ([], s)
  | 0, _, some _ => .error .hang
  | n + 1, s, some item => do
      let (visited, s') ← foreachLoop neighbour body n (body s item) (neighbour (s.node item))
      return (item :: visited, s')

def queueForeachEntry (s : Queues Q N) (q : Q) (body : Queues Q N → N → Queues Q N) :
    Except Fault (List N × Queues Q N) :=
  foreachLoop QueueNode.next body (Fintype.card N) s (s.queue q).head

def queueForeachEntryReverse (s : Queues Q N) (q : Q) (body : Queues Q N → N → Queues Q N) :
    Except Fault (List N × Queues Q N) :=
  foreachLoop QueueNode.prev body (Fintype.card N) s (s.queue q).head

def foreachFrom (s : Queues Q N) (q : Q) (body : Queues Q N → N → Queues Q N) :
    Whence → Except Fault (List N × Queues Q N)
  | .head => queueForeachEntry s q body
  | .tail => queueForeachEntryReverse s q body

def detaching (q : Q) (picks : N → Bool) (s : Queues Q N) (item : N) : Queues Q N :=
  if picks item then (embeddedQueueDetach s q item).2 else s

def Whence.walk (l : List N) : Whence → List N
  | .head => l
  | .tail => l.reverse

def VisitsInOrder (s : Queues Q N) (q : Q) (picks : N → Bool) (whence : Whence) : Prop :=
  ∃ s', foreachFrom s q (detaching q picks) whence = .ok (whence.walk (nodeSequence s q), s')

variable {s : Queues Q N} {a : Q → List N} {q : Q} {picks : N → Bool}

theorem Inv.visit (h : Inv s a) {kept l : List N} {x : N} (hq : a q = kept ++ x :: l)
    (picks : N → Bool) :
    Inv (detaching q picks s x)
      (Function.update a q (if picks x then kept ++ l else kept ++ x :: l)) := by
  rw [detaching]
  by_cases hpick : picks x = true
  · have hnd := (h.holds q).chain.nodup
    rw [hq, List.nodup_middle, List.nodup_cons] at hnd
    have herase : (a q).erase x = kept ++ l := by
      rw [hq, List.erase_append_right _ fun hmem => hnd.1 (List.mem_append_left l hmem),
        List.erase_cons_head]
    rw [if_pos hpick, if_pos hpick, ← herase]
    exact unlink_refines h (by simp [hq])
  · rw [if_neg hpick, if_neg hpick, ← hq, update_eq_self]
    exact h

/-- The forward loop, from any node on: induction on the nodes that are left. -/
theorem Inv.foreachLoop_next (h : Inv s a) (picks : N → Bool) (kept : List N) {l : List N}
    (hq : a q = kept ++ l) {fuel : Nat} (hfuel : l.length ≤ fuel) :
    ∃ s', foreachLoop QueueNode.next (detaching q picks) fuel s l.head? = .ok (l, s') := by
  induction l generalizing s a kept fuel with
  | nil => exact ⟨s, by cases fuel <;> rfl⟩
  | cons x l ih =>
    cases fuel with
    | zero => simp at hfuel
    | succ fuel =>
      have hchain := (h.holds q).chain
      rw [hq, chain_append] at hchain
      have hnext : (s.node x).next = l.head? := by
        have hlink := hchain.2.2.1
        rwa [Option.or_none] at hlink
      have hvisit := h.visit hq picks
      obtain ⟨kept', hkept⟩ : ∃ kept', Function.update a q
          (if picks x then kept ++ l else kept ++ x :: l) q = kept' ++ l := by
        rw [update_self]
        by_cases hpick : picks x = true
        · exact ⟨kept, by rw [if_pos hpick]⟩
        · exact ⟨kept ++ [x], by simp [hpick]⟩
      rcases ih hvisit kept' hkept (by simpa using hfuel) with ⟨s', hloop⟩
      refine ⟨s', ?_⟩
      rw [List.head?_cons, foreachLoop, hnext, hloop]
      rfl

theorem Inv.foreachReverse (h : Inv s a) (q : Q) (picks : N → Bool) :
    ∃ s', queueForeachEntryReverse s q (detaching q picks) = .ok ((a q).head?.toList, s') := by
  have hholds := h.holds q
  have hlen := hholds.length_le
  rw [queueForeachEntryReverse, hholds.head]
  cases hq : a q with
  | nil => exact ⟨s, by cases Fintype.card N <;> rfl⟩
  | cons x l =>
    have hchain := hholds.chain
    rw [hq] at hchain hlen
    have hprev : (s.node x).prev = none := hchain.1
    obtain ⟨n, hcard⟩ : ∃ n, Fintype.card N = n + 1 :=
      Nat.exists_eq_add_one.2 (Nat.lt_of_lt_of_le (by simp) hlen)
    refine ⟨detaching q picks s x, ?_⟩
    rw [hcard, List.head?_cons, foreachLoop, hprev]
    cases n <;> rfl

theorem head?_eq_reverse_iff {l : List N} (hne : l ≠ []) :
    l.head?.toList = l.reverse ↔ l.length = 1 := by
  cases l with
  | nil => exact absurd rfl hne
  | cons x l =>
    constructor
    · intro heq
      have hlen := congrArg List.length heq
      simpa using hlen.symm
    · intro hlen
      have hnil : l = [] := List.eq_nil_of_length_eq_zero (by simpa using hlen)
      rw [hnil]
      rfl

theorem Inv.visitsInOrder_iff (h : Inv s a) (hne : a q ≠ []) (whence : Whence) :
    VisitsInOrder s q picks whence ↔ whence = .head ∨ (a q).length = 1 := by
  have hseq : nodeSequence s q = a q := (h.holds q).nodeSequence_eq
  rw [VisitsInOrder, hseq]
  cases whence with
  | head =>
    refine iff_of_true ?_ (.inl rfl)
    have hholds := h.holds q
    rcases h.foreachLoop_next picks [] rfl hholds.length_le with ⟨s', hloop⟩
    exact ⟨s', by rw [foreachFrom, queueForeachEntry, hholds.head, hloop]; rfl⟩
  | tail =>
    rcases h.foreachReverse q picks with ⟨s', hloop⟩
    rw [foreachFrom, hloop, or_iff_right (by simp), ← head?_eq_reverse_iff hne]
    constructor
    · rintro ⟨s'', heq⟩
      exact (Prod.mk.inj (Except.ok.inj heq)).1
    · intro heq
      exact ⟨s', by rw [heq]; rfl⟩

end Ds

namespace Sync
namespace WaitQueue

open Function Links Ds Sched

variable {ncpu : Nat} {T W : Type} [DecidableEq T] [Fintype T] [DecidableEq W]

/-! ## Directed wake-ups -/

def endOf (l : List T) (whence : Whence) : Option T := (whence.walk l).head?

/-- From `s` to `s'` the thread `t` has left the queue `q` and is ready, for the reason; the other
threads are where they were, in the same order. -/
structure WokenAlone (s s' : State ncpu T W) (q : W) (t : T) (reason : Wakeup) : Prop where
  queue : nodeSequence s'.wq q = (nodeSequence s.wq q).erase t
  others : ∀ q', q' ≠ q → nodeSequence s'.wq q' = nodeSequence s.wq q'
  ready : s'.tstate t = .ready ∧ s'.waitQueue t = none ∧ s'.wakeup t = reason
  rest : ∀ u, u ≠ t →
    s'.tstate u = s.tstate u ∧ s'.waitQueue u = s.waitQueue u ∧ s'.wakeup u = s.wakeup u

/-- `sched_wakeup_whence` wakes exactly the thread at the end that it is asked for. -/
def WakesEnd (s : State ncpu T W) (me : Fin ncpu) (q : W) (reason : Wakeup) (whence : Whence) :
    Prop :=
  ∃ t s', endOf (nodeSequence s.wq q) whence = some t ∧
    schedWakeupWhence s me q reason whence = .ok (.ok, s') ∧ WokenAlone s s' q t reason

variable {s s' : State ncpu T W} {b : W → List T} {a a' : RunQueue ncpu → List T} {t : T} {q : W}
  {reason : Wakeup}

theorem Inv.wokenAlone (h : Inv s b a) (h' : Inv s' (update b q ((b q).erase t)) a')
    (hd : Detached s s' t reason) : WokenAlone s s' q t reason := by
  have hstate : ∀ u, s'.tstate u = if u = t then .ready else s.tstate u := by
    intro u
    rw [State.tstate, hd.thread, setThread_thread]
    split_ifs
    · rw [scheduled_eq]
    · rfl
  refine ⟨?_, fun q' hq' => ?_, ⟨?_, ?_, ?_⟩, fun u hu => ⟨?_, ?_, ?_⟩⟩
  · rw [h'.sequence_eq, h.sequence_eq, update_self]
  · rw [h'.sequence_eq, h.sequence_eq, update_of_ne hq']
  · rw [hstate, if_pos rfl]
  · rw [hd.waitQueue, update_self]
  · rw [hd.wakeup, update_self]
  · rw [hstate, if_neg hu]
  · rw [hd.waitQueue, update_of_ne hu]
  · rw [hd.wakeup, update_of_ne hu]

theorem Inv.whence_wakes (h : Inv s b a) {l : List T} (hq : b q = t :: l)
    (hreason : validateWakeupReason reason = true) (me : Fin ncpu) (whence : Whence) :
    ∃ s', schedWakeupWhence s me q reason whence = .ok (.ok, s') ∧
      WokenAlone s s' q t reason := by
  rcases h.detach (q := q) (t := t) (by simp [hq]) hreason me with ⟨s', a', hrun, hinv, hd⟩
  refine ⟨s', ?_, h.wokenAlone hinv hd⟩
  rw [schedWakeupWhence_eq, (h.wq.holds q).head, hq]
  exact hrun

/-- In every consistent state, for every queue with a waiting thread and every valid reason, the
wake-up from the head and the forward walk keep to the order of the queue; the wake-up from the
tail and the reverse walk do if and only if the queue holds a single thread. -/
theorem directed_wakeup_iff {ncpu : Nat} {T W : Type} [DecidableEq T] [Fintype T] [DecidableEq W]
    {s : State ncpu T W} {b : W → List T} {a : RunQueue ncpu → List T} (h : Inv s b a)
    (me : Fin ncpu) {q : W} (hq : nodeSequence s.wq q ≠ []) {reason : Wakeup}
    (hreason : validateWakeupReason reason = true) (picks : T → Bool) (whence : Whence) :
    (WakesEnd s me q reason whence ↔ whence = .head ∨ (nodeSequence s.wq q).length = 1) ∧
    (VisitsInOrder s.wq q picks whence ↔
      whence = .head ∨ (nodeSequence s.wq q).length = 1) := by
  rw [h.sequence_eq] at hq ⊢
  refine ⟨?_, h.wq.visitsInOrder_iff hq whence⟩
  rw [WakesEnd, h.sequence_eq]
  cases hb : b q with
  | nil => exact absurd hb hq
  | cons x l =>
    rcases h.whence_wakes hb hreason me whence with ⟨s₁, hrun, halone⟩
    constructor
    · rintro ⟨t, s₂, hend, hrun', halone'⟩
      obtain rfl : s₁ = s₂ := (Prod.mk.inj (Except.ok.inj (hrun.symm.trans hrun'))).2
      -- the thread that is gone from the queue is its head
      have hxt : x = t := by
        by_contra hne
        have hgone := halone.queue.symm.trans halone'.queue
        rw [h.sequence_eq, hb, List.erase_cons_head] at hgone
        have hmem : x ∈ l := by
          rw [hgone, List.erase_cons_tail (by simpa using hne)]
          simp
        have hnd := (h.wq.holds q).chain.nodup
        rw [hb, List.nodup_cons] at hnd
        exact hnd.1 hmem
      subst hxt
      cases whence with
      | head => exact .inl rfl
      | tail =>
        refine .inr ?_
        have hlast : (x :: l).getLast? = some x := by
          rw [← List.head?_reverse]
          exact hend
        cases l with
        | nil => rfl
        | cons y l =>
          have hnd := (h.wq.holds q).chain.nodup
          rw [hb, List.nodup_cons] at hnd
          rw [List.getLast?_cons_cons] at hlast
          exact absurd (List.mem_of_getLast? hlast) hnd.1
    · intro hcond
      refine ⟨x, s₁, ?_, hrun, halone⟩
      rcases hcond with rfl | hlen
      · rfl
      · have hnil : l = [] := List.eq_nil_of_length_eq_zero (by simpa using hlen)
        subst hnil
        cases whence <;> rfl

def twoWaiting : State 1 (Fin 2) Bool :=
  outcome (runs step oneCpu
    [.start 0 0, .start 0 1, .next 0, .wait 0 (some true) .sleep .tail, .next 0,
      .wait 1 (some true) .sleep .tail]) oneCpu

theorem twoWaiting_inv : ∃ b a, Inv twoWaiting b a := by
  have hstep : ∀ (s : State 1 (Fin 2) Bool) (act : Act 1 (Fin 2) Bool), (∃ b a, Inv s b a) →
      fits s act = true → Safe (fun _ => False) (step s act) fun s' => ∃ b' a', Inv s' b' a' := by
    rintro s act ⟨b, a, h⟩ hok
    exact h.step_safe act hok
  have hinit : ∃ b a, Inv oneCpu b a := ⟨_, _, inv_init _ _ _ (by decide) (by decide)⟩
  exact (Safe.runs hstep hinit (by decide +kernel)).of_eq_ok (eq_ok_outcome (by decide +kernel))

theorem directed_wakeup_iff_head :
    nodeSequence twoWaiting.wq true = [0, 1] ∧
    WakesEnd twoWaiting 0 true .normal .head ∧
    VisitsInOrder twoWaiting.wq true (fun t => decide (t = 0)) .head := by
  have hq : nodeSequence twoWaiting.wq true ≠ [] := by decide +kernel
  rcases twoWaiting_inv with ⟨b, a, h⟩
  have hboth := directed_wakeup_iff h 0 hq (by rfl : validateWakeupReason .normal = true)
    (fun t => decide (t = 0)) .head
  exact ⟨by decide +kernel, hboth.1.2 (.inl rfl), hboth.2.2 (.inl rfl)⟩

/-- The wake-up from the tail finds it too, and the reverse walk ends at it. -/
theorem wakeup_from_tail_wakes_head :
    nodeSequence twoWaiting.wq true = [0, 1] ∧
    (schedWakeupWhence twoWaiting 0 true .normal .tail).toOption.map
      (fun r => (r.1, r.2.tstate 0, r.2.tstate 1)) = some (.ok, .ready, .sleep) ∧
    (queueForeachEntryReverse twoWaiting.wq true fun s _ => s).toOption.map (·.1) = some [0] ∧
    ¬ WakesEnd twoWaiting 0 true .normal .tail ∧
    ¬ VisitsInOrder twoWaiting.wq true (fun _ => false) .tail := by
  have hq : nodeSequence twoWaiting.wq true = [0, 1] := by decide +kernel
  have hrun : (schedWakeupWhence twoWaiting 0 true .normal .tail).toOption.map
      (fun r => (r.1, r.2.tstate 0, r.2.tstate 1)) = some (.ok, .ready, .sleep) := by decide +kernel
  have hvisit : (queueForeachEntryReverse twoWaiting.wq true
      (detaching true fun _ => false)).toOption.map (·.1) = some [0] := by decide +kernel
  refine ⟨hq, hrun, by decide +kernel, ?_, ?_⟩
  · rintro ⟨t, s', hend, heq, halone⟩
    rw [hq] at hend
    obtain rfl : (1 : Fin 2) = t := Option.some.inj hend
    rw [heq] at hrun
    have hasleep : s'.tstate 1 = .sleep := (Prod.mk.inj (Prod.mk.inj (Option.some.inj hrun)).2).2
    rw [halone.ready.1] at hasleep
    cases hasleep
  · rintro ⟨s', heq⟩
    change queueForeachEntryReverse _ _ _ = _ at heq
    rw [hq] at heq
    rw [heq] at hvisit
    cases hvisit

end WaitQueue
end Sync
end XytherOS
