import XytherOS.Ds.EmbeddedRefine

/-!
# ThreadFree — the queues of a freed thread (`sys/thread/thread_create.c`)

A thread has four queue nodes.  `thread_free` takes the first out of `global_thread_queue` and the
last out of the wait queue.  For the group and the run queue it passes a `queue` that is still null,
which `embedded_queue_remove` refuses.

* `Q` names the queues and `N` the nodes.
* The locks are free, and the stacks are given back after the queues; `unmap` is what `mmap_unmap`
  returns for that of a user thread.
-/

namespace XytherOS
namespace Process

open Ds

inductive TState
  | T_EMBRYO
  | T_READY
  | T_RUNNING
  | T_SLEEP
  | T_STOPPED
  | T_ZOMBIE
  | T_TERMINATED
  deriving DecidableEq, Repr

structure Thread (Q N I : Type) where
  t_global_qnode : N
  t_group_qnode : N
  t_run_qnode : N
  t_wait_qnode : N
  t_group : Option Q
  t_run_queue : Option Q
  t_wait_queue : Option Q
  isUser : Bool
  ti_state : TState
  t_sigqueue : Nat → List I

variable {Q N I : Type} [DecidableEq Q] [DecidableEq N] [Fintype N]

def queueRemove (s : Queues Q N) (queue : Option Q) (qnode : N) : Except Fault (Queues Q N) :=
  match queue with
  | none => return s
  | some q => do
      let (_, s) ← embeddedQueueRemove s q qnode
      return s

/-- The removal from `queue` that is made where `linked` is not null. -/
def removeWhere (s : Queues Q N) (linked queue : Option Q) (qnode : N) :
    Except Fault (Queues Q N) :=
  match linked with
  | some _ => queueRemove s queue qnode
  | none => return s

def threadFree (s : Queues Q N) (globalThreadQueue : Q) (thread : Thread Q N I) (unmap : Ret) :
    Except Fault (Queues Q N × Thread Q N I) := do
  let s ← queueRemove s (some globalThreadQueue) thread.t_global_qnode
  let s ← removeWhere s thread.t_group none thread.t_group_qnode
  let s ← removeWhere s thread.t_run_queue none thread.t_run_qnode
  let s ← removeWhere s thread.t_wait_queue thread.t_wait_queue thread.t_wait_qnode
  if thread.isUser then assert (unmap = .ok) "Error: Unmapping vmr."
  return (s, { thread with t_sigqueue := fun _ => [], ti_state := .T_TERMINATED })

/-! ## What freeing a thread should do -/

def Thread.qnodes (thread : Thread Q N I) : List N :=
  [thread.t_global_qnode, thread.t_group_qnode, thread.t_run_qnode, thread.t_wait_qnode]

/-- No queue has any of the nodes, and each has its other nodes in order. -/
def Detached (s s' : Queues Q N) (thread : Thread Q N I) : Prop :=
  ∀ q, WellLinked s' q ∧
    nodeSequence s' q = (nodeSequence s q).filter fun x => decide (x ∉ thread.qnodes)

/-! ## Removals -/

variable {s s' : Queues Q N} {a : Q → List N} {q : Q} {x : N}

theorem queueRemove_spec (hinv : Inv s a) (q : Q) (x : N) :
    ∃ s', queueRemove s (some q) x = .ok s' ∧
      Inv s' (fun q' => (a q').filter fun y => decide (¬(q' = q ∧ y = x))) := by
  rcases remove_refines hinv q x with ⟨s', hrun, hinv'⟩
  refine ⟨s', by rw [queueRemove, hrun]; rfl, ?_⟩
  convert hinv' using 1
  funext q'
  by_cases hq : q' = q
  · subst hq
    have hnd := (hinv.holds q').chain.nodup
    split_ifs with hx
    · rw [Function.update_self, hnd.erase_eq_filter]
      refine List.filter_congr fun y _ => ?_
      simp [bne, beq_eq_decide]
    · refine List.filter_eq_self.2 fun y hy => ?_
      have hne : y ≠ x := fun heq => hx (heq ▸ hy)
      simp [hne]
  · have hself : ((a q').filter fun y => decide (¬(q' = q ∧ y = x))) = a q' :=
      List.filter_eq_self.2 fun y _ => by simp [hq]
    rw [hself]
    split_ifs
    · rw [Function.update_of_ne hq]
    · rfl

def remains (a : Q → List N) (globalThreadQueue : Q) (thread : Thread Q N I) (q : Q) : List N :=
  (a q).filter fun x => decide (¬(q = globalThreadQueue ∧ x = thread.t_global_qnode) ∧
    ¬(thread.t_wait_queue = some q ∧ x = thread.t_wait_qnode))

theorem threadFree_spec (hinv : Inv s a) (globalThreadQueue : Q) (thread : Thread Q N I)
    (unmap : Ret) :
    ∃ s', Inv s' (remains a globalThreadQueue thread) ∧
      threadFree s globalThreadQueue thread unmap =
        if thread.isUser = true ∧ unmap ≠ .ok then .error (.assertion "Error: Unmapping vmr.")
        else .ok (s', { thread with t_sigqueue := fun _ => [], ti_state := .T_TERMINATED }) := by
  rcases queueRemove_spec hinv globalThreadQueue thread.t_global_qnode with ⟨s₁, hrun1, hinv1⟩
  obtain ⟨s₂, hrun2, hinv2⟩ : ∃ s₂, removeWhere s₁ thread.t_wait_queue thread.t_wait_queue
      thread.t_wait_qnode = .ok s₂ ∧ Inv s₂ (remains a globalThreadQueue thread) := by
    cases hwait : thread.t_wait_queue with
    | none =>
      refine ⟨s₁, rfl, ?_⟩
      convert hinv1 using 1
      funext q
      simp [remains, hwait]
    | some queue =>
      rcases queueRemove_spec hinv1 queue thread.t_wait_qnode with ⟨s₂, hrun2, hinv2⟩
      refine ⟨s₂, hrun2, ?_⟩
      convert hinv2 using 1
      funext q
      rw [remains, List.filter_filter]
      refine List.filter_congr fun x _ => ?_
      rw [Bool.eq_iff_iff]
      simp only [hwait, Option.some.injEq, Bool.and_eq_true, decide_eq_true_eq, eq_comm (a := queue)]
      tauto
  refine ⟨s₂, hinv2, ?_⟩
  -- the removals from a null queue do nothing
  have hnull (linked : Option Q) (x : N) : removeWhere s₁ linked none x = .ok s₁ := by
    cases linked <;> rfl
  simp only [threadFree, hrun1, ok_bind, hnull, hrun2, assert]
  by_cases huser : thread.isUser = true
  · by_cases hunmap : unmap = .ok
    · rw [if_pos huser, if_pos hunmap, if_neg (fun h => h.2 hunmap)]
      rfl
    · rw [if_pos huser, if_neg hunmap, if_pos ⟨huser, hunmap⟩]
      rfl
  · rw [if_neg huser, if_neg (fun h => huser h.1)]
    rfl

theorem filter_eq_iff {α : Type} {l : List α} {p p' : α → Bool} :
    l.filter p = l.filter p' ↔ ∀ x ∈ l, p x = p' x := by
  constructor
  · intro h x hx
    have hmem : x ∈ l.filter p ↔ x ∈ l.filter p' := by rw [h]
    rw [List.mem_filter, List.mem_filter] at hmem
    exact Bool.eq_iff_iff.2 ⟨fun hp => (hmem.1 ⟨hx, hp⟩).2, fun hp => (hmem.2 ⟨hx, hp⟩).2⟩
  · exact List.filter_congr

/-- A freed thread is in no queue any more, and every queue keeps its other nodes in order, exactly
when the thread was in no group and in no run queue. -/
theorem threadFree_detached_iff (hinv : Inv s a) (globalThreadQueue : Q) (thread : Thread Q N I)
    (hnodes : thread.qnodes.Nodup) (unmap : Ret) :
    (∀ s' thread', threadFree s globalThreadQueue thread unmap = .ok (s', thread') →
      Detached s s' thread) ↔
      ((thread.isUser = true → unmap = .ok) → ∀ q,
        thread.t_group_qnode ∉ a q ∧ thread.t_run_qnode ∉ a q ∧
          (thread.t_global_qnode ∈ a q → q = globalThreadQueue) ∧
          (thread.t_wait_qnode ∈ a q → thread.t_wait_queue = some q)) := by
  rcases threadFree_spec hinv globalThreadQueue thread unmap with ⟨s', hinv', hrun⟩
  rw [hrun]
  by_cases hpanic : thread.isUser = true ∧ unmap ≠ .ok
  · rw [if_pos hpanic]
    exact iff_of_true (by simp) fun hok => absurd (hok hpanic.1) hpanic.2
  have hok : thread.isUser = true → unmap = .ok := fun huser => by
    by_contra hne
    exact hpanic ⟨huser, hne⟩
  rw [if_neg hpanic]
  have hdetached : Detached s s' thread ↔ ∀ q, ∀ x ∈ a q,
      (¬(q = globalThreadQueue ∧ x = thread.t_global_qnode) ∧
        ¬(thread.t_wait_queue = some q ∧ x = thread.t_wait_qnode)) ↔ x ∉ thread.qnodes := by
    refine forall_congr' fun q => ?_
    rw [(hinv'.holds q).nodeSequence_eq, (hinv.holds q).nodeSequence_eq, remains, filter_eq_iff]
    simp only [(hinv'.holds q).wellLinked, true_and, decide_eq_decide]
  have hmem (x : N) : x ∉ thread.qnodes ↔ x ≠ thread.t_global_qnode ∧ x ≠ thread.t_group_qnode ∧
      x ≠ thread.t_run_qnode ∧ x ≠ thread.t_wait_qnode := by
    simp [Thread.qnodes]
  simp only [Thread.qnodes, List.nodup_cons, List.mem_cons, List.not_mem_nil, or_false, not_or,
    List.nodup_nil, and_true, not_false_eq_true] at hnodes
  rcases hnodes with ⟨⟨hgroup, hrunq, hwait⟩, ⟨-, hgw⟩, hrw⟩
  constructor
  · intro h _ q
    have hq := hdetached.1 (h s' _ rfl) q
    refine ⟨fun hx => ?_, fun hx => ?_, fun hx => ?_, fun hx => ?_⟩
    · have hout := (hq _ hx).1 ⟨fun heq => hgroup heq.2.symm, fun heq => hgw heq.2⟩
      exact ((hmem _).1 hout).2.1 rfl
    · have hout := (hq _ hx).1 ⟨fun heq => hrunq heq.2.symm, fun heq => hrw heq.2⟩
      exact ((hmem _).1 hout).2.2.1 rfl
    · by_contra hne
      have hout := (hq _ hx).1 ⟨fun heq => hne heq.1, fun heq => hwait heq.2⟩
      exact ((hmem _).1 hout).1 rfl
    · by_contra hne
      have hout := (hq _ hx).1 ⟨fun heq => hwait heq.2.symm, fun heq => hne heq.1⟩
      exact ((hmem _).1 hout).2.2.2 rfl
  · intro h s'' thread' hret
    have hs : s' = s'' := congrArg Prod.fst (Except.ok.inj hret)
    subst hs
    refine hdetached.2 fun q x hx => ?_
    rcases h hok q with ⟨hg, hr, hglobal, hw⟩
    rw [hmem]
    constructor
    · rintro ⟨hng, hnw⟩
      refine ⟨?_, ?_, ?_, ?_⟩
      · rintro rfl
        exact hng ⟨hglobal hx, rfl⟩
      · rintro rfl
        exact hg hx
      · rintro rfl
        exact hr hx
      · rintro rfl
        exact hnw ⟨hw hx, rfl⟩
    · rintro ⟨hng, -, -, hnw⟩
      exact ⟨fun heq => hng heq.2, fun heq => hnw heq.2⟩

/-- A thread of the queues `false`, the global one, and `true`; it sleeps in the latter. -/
def sleeper : Thread Bool (Fin 4) Unit :=
  ⟨0, 1, 2, 3, none, none, some true, false, .T_SLEEP, fun _ => []⟩

def twoQueues (l m : List (Fin 4)) : Bool → List (Fin 4) := fun q => if q then m else l

theorem sleeper_detached :
    ∃ s : Queues Bool (Fin 4), Inv s (twoQueues [0] [3]) ∧
      ∀ s' thread', threadFree s false sleeper .ok = .ok (s', thread') →
        Detached s s' sleeper := by
  have hcalls : AllowedRun (fun _ : Bool => ([] : List (Fin 4)))
      [.enqueue false 0 .unique, .enqueue true 3 .unique] := by
    decide
  rcases run_refines inv_init hcalls with ⟨s, -, hinv⟩
  have hlists : (listRun (fun _ : Bool => ([] : List (Fin 4)))
      [.enqueue false 0 .unique, .enqueue true 3 .unique]).2 = twoQueues [0] [3] := by
    decide
  rw [hlists] at hinv
  exact ⟨s, hinv, (threadFree_detached_iff hinv false sleeper (by decide) .ok).2
    fun _ => by decide⟩

def member : Thread Bool (Fin 4) Unit :=
  ⟨0, 1, 2, 3, some true, none, none, false, .T_ZOMBIE, fun _ => []⟩

/-- A thread stays in its group. -/
theorem member_not_detached :
    ¬∀ (s : Queues Bool (Fin 4)) (a : Bool → List (Fin 4)), Inv s a →
      ∀ s' thread', threadFree s false member .ok = .ok (s', thread') →
        Detached s s' member := by
  intro h
  have hcalls : AllowedRun (fun _ : Bool => ([] : List (Fin 4)))
      [.enqueue false 0 .unique, .enqueue true 1 .unique] := by
    decide
  rcases run_refines inv_init hcalls with ⟨s, -, hinv⟩
  have hlists : (listRun (fun _ : Bool => ([] : List (Fin 4)))
      [.enqueue false 0 .unique, .enqueue true 1 .unique]).2 = twoQueues [0] [1] := by
    decide
  rw [hlists] at hinv
  rcases threadFree_spec hinv false member .ok with ⟨s', hinv', hrun⟩
  have hleft := (h s _ hinv s' _ hrun true).2
  rw [(hinv'.holds true).nodeSequence_eq, (hinv.holds true).nodeSequence_eq] at hleft
  exact absurd hleft (by decide)

end Process
end XytherOS
