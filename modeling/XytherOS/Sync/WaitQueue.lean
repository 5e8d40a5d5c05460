import XytherOS.Sched.RunQueues
import XytherOS.Sync.Wait

/-!
# WaitQueue — waiting and waking over the links of the queues

The wait queues of `sys/sched/sched.c` once more, with everything a wake-up goes through: the
thread is detached from the links of its wait queue, the reason and the state are checked, and the
thread is put into a run queue.  Each of these may fail, and the detached thread is not put back.

* `W` names the wait queues and `T` the threads, which are nodes of both kinds of queues.
* `sched_wait_whence` ends at the context switch; the thread goes on when a CPU has taken it from
  its run queue.  `signal_check_pending` touches none of these fields and is left out.
* `foreach_thread_reverse` starts at the head of a queue, as `foreach_thread` does.
-/

namespace XytherOS
namespace Sync
namespace WaitQueue

open Function Links Ds Sched

/-- The wait queues, the run queues, and what else a thread has to do with waiting. -/
structure State (ncpu : Nat) (T W : Type) where
  wq : Queues W T
  sched : Sched.State ncpu T
  waitQueue : T → Option W
  wakeup : T → Wakeup
  canceled : T → Bool
  ktid : T → Int
  tid : T → Int
  globalSleepQueue : W

variable {ncpu : Nat} {T W : Type} [DecidableEq T] [Fintype T] [DecidableEq W]

def State.init (thread : T → Sched.Thread ncpu) (quantum : RunQueue ncpu → Nat) (tid : T → Int)
    (globalSleepQueue : W) : State ncpu T W :=
  { wq := .init
    sched := .init thread quantum
    waitQueue := fun _ => none
    wakeup := fun _ => .none
    canceled := fun _ => false
    ktid := fun _ => 0
    tid := tid
    globalSleepQueue := globalSleepQueue }

namespace State

def tstate (s : State ncpu T W) (t : T) : Sched.TState := (s.sched.thread t).state

def isBlocked (s : State ncpu T W) (t : T) : Bool := s.tstate t = .sleep || s.tstate t = .stopped

def setWakeup (s : State ncpu T W) (t : T) (reason : Wakeup) : State ncpu T W :=
  { s with wakeup := update s.wakeup t reason }

def setWaitQueue (s : State ncpu T W) (t : T) (q : Option W) : State ncpu T W :=
  { s with waitQueue := update s.waitQueue t q }

end State

def currentCheckInterrupted (s : State ncpu T W) (t : T) : Ret × State ncpu T W :=
  if s.canceled t || s.wakeup t = .signal || s.wakeup t = .timeout then
    (.err (if s.wakeup t = .timeout then .ETIMEDOUT else .EINTR), s.setWakeup t .none)
  else
    (.ok, s.setWakeup t .none)

/-- `sched_wait_whence` by the running thread `t`, up to the context switch; without a queue it is
the global sleep queue. -/
def schedWaitWhence (s : State ncpu T W) (t : T) (q : Option W) (state : Sched.TState)
    (whence : Whence) : Except Fault (Ret × State ncpu T W) :=
  let q := q.getD s.globalSleepQueue
  if state ≠ .sleep ∧ state ≠ .stopped then
    .ok (.err .EINVAL, s)
  else
    match currentCheckInterrupted s t with
    | (.err e, s) => .ok (.err e, s)
    | (.ok, s) => do
        let (err, wq) ← embeddedEnqueueWhence s.wq q t .unique whence
        let s := { s with wq := wq }
        if err = .ok then
          let th := schedLeave { s.sched.thread t with state := state }
          return (.ok, { s.setWaitQueue t (some q) with sched := s.sched.setThread t th })
        else
          return (err, s)

def validateWakeupReason (reason : Wakeup) : Bool :=
  reason = .normal || reason = .signal || reason = .timeout

def threadSchedule (s : State ncpu T W) (me : Fin ncpu) (t : T) :
    Except Fault (Ret × State ncpu T W) := do
  let (err, sched) ← schedEnqueue s.sched me t
  return (err, { s with sched := sched })

def schedWakeThread (s : State ncpu T W) (me : Fin ncpu) (t : T) (reason : Wakeup) :
    Except Fault (Ret × State ncpu T W) :=
  if !validateWakeupReason reason then
    .ok (.err .EINVAL, s)
  else if !s.isBlocked t then
    .ok (.err .EINVAL, s)
  else
    threadSchedule (s.setWakeup t reason) me t

def schedDetachAndWakeup (s : State ncpu T W) (me : Fin ncpu) (q : W) (t : T) (reason : Wakeup) :
    Except Fault (Ret × State ncpu T W) := do
  let (err, wq) := embeddedQueueDetach s.wq q t
  let s := { s with wq := wq }
  if err = .ok then
    let (err, s) ← schedWakeThread s me t reason
    if err = .ok then
      return (.ok, s.setWaitQueue t none)
    else
      return (err, s)
  else
    return (err, s)

def schedWakeupWhence (s : State ncpu T W) (me : Fin ncpu) (q : W) (reason : Wakeup) :
    Whence → Except Fault (Ret × State ncpu T W)
  | .tail =>
    match (s.wq.queue q).head with
    | none => .ok (.err .ESRCH, s)
    | some t => schedDetachAndWakeup s me q t reason
  | .head =>
    match (s.wq.queue q).head with
    | none => .ok (.err .ESRCH, s)
    | some t => schedDetachAndWakeup s me q t reason

def schedWakeupSpecific (s : State ncpu T W) (me : Fin ncpu) (q : W) (reason : Wakeup) (tid : Int) :
    Except Fault (Ret × State ncpu T W) :=
  if tid ≤ 0 then
    .ok (.err .EINVAL, s)
  else
    match scan (nexts s.wq.node) (fun t => decide (s.tid t = tid)) (Fintype.card T) none
        (s.wq.queue q).head with
    | none => .error .hang
    | some (_, none) => .ok (.err .ESRCH, s)
    | some (_, some t) => schedDetachAndWakeup s me q t reason

/-- The loop of `sched_wakeup_all`; the thread after this one is read before this one is
detached. -/
def wakeupLoop (me : Fin ncpu) (q : W) (reason : Wakeup) :
    Nat → State ncpu T W → Option T → Nat → Except Fault (Ret × Nat × State ncpu T W)
  | _, s, none, count => .ok (if 0 < count then .ok else .err .ESRCH, count, s)
  | 0, _, some _, _ => .error .hang
  | n + 1, s, some t, count => do
      let next := (s.wq.node t).next
      let (err, s) ← schedDetachAndWakeup s me q t reason
      if err = .ok then
        wakeupLoop me q reason n s next (count + 1)
      else
        return (err, count, s)

def schedWakeupAll (s : State ncpu T W) (me : Fin ncpu) (q : W) (reason : Wakeup) :
    Except Fault (Ret × Nat × State ncpu T W) :=
  wakeupLoop me q reason (Fintype.card T) s (s.wq.queue q).head 0

def threadWakeup (s : State ncpu T W) (me : Fin ncpu) (t : T) (reason : Wakeup) :
    Except Fault (Ret × State ncpu T W) :=
  if !validateWakeupReason reason then
    .ok (.err .EINVAL, s)
  else if s.isBlocked t then
    match s.waitQueue t with
    | some q => schedDetachAndWakeup s me q t reason
    | none => threadSchedule (s.setWakeup t reason) me t
  else
    .ok (.ok, s)

def threadCancel (s : State ncpu T W) (me : Fin ncpu) (current : T) (group : List T) (tid : Int) :
    Except Fault (Ret × State ncpu T W) :=
  if tid ≤ 0 then
    .ok (.err .EINVAL, s)
  else if s.tid current = tid then
    .ok (.err .EDEADLK, s)
  else
    match group.find? (fun t => decide (s.tid t = tid)) with
    | none => .ok (.err .ESRCH, s)
    | some t => do
        let (err, s) ← match s.waitQueue t with
          | some q => schedDetachAndWakeup s me q t .signal
          | none => .ok (.ok, s)
        if err = .ok then
          return (.ok,
            { s with
              canceled := update s.canceled t true
              ktid := update s.ktid t (s.tid current) })
        else
          return (err, s)

def awaitEventDestroy (s : State ncpu T W) (me : Fin ncpu) (q : W) :
    Except Fault (State ncpu T W) := do
  let (_, _, s) ← schedWakeupAll s me q .error
  return s

inductive Wake (T W : Type)
  | whence (q : W) (reason : Wakeup) (whence : Whence)
  | specific (q : W) (reason : Wakeup) (tid : Int)
  | all (q : W) (reason : Wakeup)
  | thread (t : T) (reason : Wakeup)
  | cancel (current : T) (group : List T) (tid : Int)
  | destroy (q : W)

/-- The call on the CPU `me`, with what it returns; `await_event_destroy` returns nothing. -/
def wake (s : State ncpu T W) (me : Fin ncpu) : Wake T W → Except Fault (Ret × State ncpu T W)
  | .whence q reason whence => schedWakeupWhence s me q reason whence
  | .specific q reason tid => schedWakeupSpecific s me q reason tid
  | .all q reason => do
      let (err, _, s) ← schedWakeupAll s me q reason
      return (err, s)
  | .thread t reason => threadWakeup s me t reason
  | .cancel current group tid => threadCancel s me current group tid
  | .destroy q => do
      let s ← awaitEventDestroy s me q
      return (.ok, s)

/-- The steps: a running thread waits, or looks for an interruption as it does when it comes back;
somebody wakes threads; a thread is created ready, or a CPU takes one from its run queues. -/
inductive Act (ncpu : Nat) (T W : Type)
  | wait (t : T) (q : Option W) (state : Sched.TState) (whence : Whence)
  | check (t : T)
  | wake (me : Fin ncpu) (call : Wake T W)
  | start (me : Fin ncpu) (t : T)
  | next (me : Fin ncpu)

def step (s : State ncpu T W) : Act ncpu T W → Except Fault (State ncpu T W)
  | .wait t q state whence =>
    if s.tstate t = .running then do
      let (_, s) ← schedWaitWhence s t q state whence
      return s
    else
      return s
  | .check t => return if s.tstate t = .running then (currentCheckInterrupted s t).2 else s
  | .wake me call => do
      let (_, s) ← wake s me call
      return s
  | .start me t =>
    if s.tstate t = .embryo then do
      let (_, s) ← threadSchedule s me t
      return s
    else
      return s
  | .next me => return { s with sched := (mlfqGetNextThread s.sched me).2 }

/-- A thread is blocked if and only if it is linked in the queue that its back pointer names, once;
every other thread that is able to run is in its run queue. -/
structure Consistent (s : State ncpu T W) : Prop where
  linked : ∀ q, WellLinked s.wq q
  counted : ∀ q, (s.wq.queue q).qCount = (nodeSequence s.wq q).length
  once : ∀ q, (nodeSequence s.wq q).Nodup
  member : ∀ t q, t ∈ nodeSequence s.wq q ↔ s.isBlocked t = true ∧ s.waitQueue t = some q
  blocked : ∀ t, s.isBlocked t = true ↔ ∃ q, t ∈ nodeSequence s.wq q
  runnable : Conserved s.sched

/-- The call has a reason that threads are woken for, or it finds no thread to wake. -/
def wakeFits (s : State ncpu T W) : Wake T W → Bool
  | .whence q reason _ => validateWakeupReason reason || (nodeSequence s.wq q).isEmpty
  | .specific q reason tid => validateWakeupReason reason || tid ≤ 0 ||
      (nodeSequence s.wq q).all fun t => s.tid t ≠ tid
  | .all q reason => validateWakeupReason reason || (nodeSequence s.wq q).isEmpty
  | .thread _ _ => true
  | .cancel _ _ _ => true
  | .destroy q => (nodeSequence s.wq q).isEmpty

def fits (s : State ncpu T W) : Act ncpu T W → Bool
  | .wake _ call => wakeFits s call
  | _ => true

def FailsClean (s : State ncpu T W) : Prop :=
  ∀ me call, wakeFits s call = true →
    Safe (fun _ => False) (wake s me call) fun r => r.1 ≠ .ok → r.2 = s

/-- The wait queues are the lists `b` and the run queues the lists `a`. -/
structure Inv (s : State ncpu T W) (b : W → List T) (a : RunQueue ncpu → List T) : Prop where
  wq : Ds.Inv s.wq b
  sched : Sched.Inv s.sched a
  member : ∀ t q, t ∈ b q ↔ s.waitQueue t = some q
  blocked : ∀ t, s.isBlocked t = (s.waitQueue t).isSome

variable {s s' : State ncpu T W} {b : W → List T} {a : RunQueue ncpu → List T} {t : T} {q : W}
  {reason : Wakeup}

theorem Inv.sequence_eq (h : Inv s b a) (q : W) : nodeSequence s.wq q = b q :=
  (h.wq.holds q).nodeSequence_eq

theorem Inv.consistent (h : Inv s b a) : Consistent s := by
  have hmem : ∀ t q, t ∈ nodeSequence s.wq q ↔ s.waitQueue t = some q := by
    intro t q
    rw [h.sequence_eq]
    exact h.member t q
  refine ⟨fun q => (h.wq.holds q).wellLinked, fun q => ?_, fun q => ?_, fun t q => ?_, fun t => ?_,
    h.sched.conserved⟩
  · rw [h.sequence_eq]
    exact (h.wq.holds q).count
  · rw [h.sequence_eq]
    exact (h.wq.holds q).chain.nodup
  · rw [hmem, h.blocked]
    refine ⟨fun hq => ⟨by rw [hq]; rfl, hq⟩, fun hq => hq.2⟩
  · simp only [hmem, h.blocked]
    exact Option.isSome_iff_exists

theorem inv_init {thread : T → Sched.Thread ncpu} (quantum : RunQueue ncpu → Nat) (tid : T → Int)
    (globalSleepQueue : W) (hstate : ∀ t, (thread t).state = .embryo)
    (hprio : ∀ t, 0 ≤ (thread t).priority ∧ (thread t).priority ≤ mlfqHigh) :
    Inv (State.init thread quantum tid globalSleepQueue) (fun _ => []) (fun _ => []) := by
  refine ⟨Ds.inv_init, Sched.inv_init quantum (fun t => ?_) hprio, fun t q => ?_, fun t => ?_⟩
  · rw [hstate]
    simp
  · simp [State.init]
  · change (decide ((thread t).state = .sleep) || decide ((thread t).state = .stopped)) = false
    rw [hstate]
    rfl

theorem Inv.isBlocked_of_mem (h : Inv s b a) (ht : t ∈ b q) : s.isBlocked t = true := by
  rw [h.blocked, (h.member t q).1 ht]
  rfl

theorem Inv.unlinked_of_blocked (h : Inv s b a) (ht : s.isBlocked t = true)
    (p : RunQueue ncpu) : t ∉ a p := by
  intro hmem
  have hready := (h.sched.level p t hmem).1
  simp [State.isBlocked, State.tstate, hready] at ht

theorem Inv.threadSchedule (h : Sched.Inv s.sched a) (ht : ∀ p, t ∉ a p) (me : Fin ncpu) :
    ∃ sched a', threadSchedule s me t = .ok (.ok, { s with sched := sched }) ∧
      Sched.Inv sched a' ∧
      sched.thread = (s.sched.setThread t (scheduled (s.sched.thread t))).thread := by
  rcases h.schedEnqueue ht me with ⟨sched, hrun, hinv, hthread⟩
  refine ⟨sched, _, ?_, hinv, hthread⟩
  rw [WaitQueue.threadSchedule, hrun]
  rfl

/-- Of the threads, `t` alone has changed: it has been woken for the reason. -/
structure Detached (s s' : State ncpu T W) (t : T) (reason : Wakeup) : Prop where
  wakeup : s'.wakeup = update s.wakeup t reason
  waitQueue : s'.waitQueue = update s.waitQueue t none
  thread : s'.sched.thread = (s.sched.setThread t (scheduled (s.sched.thread t))).thread

theorem Inv.detach (h : Inv s b a) (ht : t ∈ b q) (hreason : validateWakeupReason reason = true)
    (me : Fin ncpu) :
    ∃ s' a', schedDetachAndWakeup s me q t reason = .ok (.ok, s') ∧
      Inv s' (update b q ((b q).erase t)) a' ∧ Detached s s' t reason := by
  have hblocked := h.isBlocked_of_mem ht
  have hself := (h.member t q).1 ht
  generalize hs1 : ({ s with wq := unlinkNode s.wq q t } : State ncpu T W).setWakeup t reason = s₁
  have hsched : s₁.sched = s.sched := by
    rw [← hs1]
    rfl
  have hinv1 : Sched.Inv s₁.sched a := by
    rw [hsched]
    exact h.sched
  rcases Inv.threadSchedule hinv1 (h.unlinked_of_blocked hblocked) me with
    ⟨sched, a', hrun, hinv, hthread⟩
  refine ⟨({ s₁ with sched := sched } : State ncpu T W).setWaitQueue t none, a', ?_, ?_, ?_⟩
  · have hblocked' : ({ s with wq := unlinkNode s.wq q t } : State ncpu T W).isBlocked t = true :=
      hblocked
    simp only [schedDetachAndWakeup, embeddedQueueDetach, if_true, schedWakeThread, hreason,
      Bool.not_true, Bool.false_eq_true, if_false, hblocked', hs1, hrun, ok_bind]
    rfl
  · have hwq : s₁.wq = unlinkNode s.wq q t := by
      rw [← hs1]
      rfl
    have hwait : s₁.waitQueue = s.waitQueue := by
      rw [← hs1]
      rfl
    have hnd := (h.wq.holds q).chain.nodup
    refine ⟨?_, hinv, fun u q' => ?_, fun u => ?_⟩
    · change Ds.Inv s₁.wq _
      rw [hwq]
      exact unlink_refines h.wq ht
    · -- the thread is in no wait queue any more, the others are where they were
      change _ ↔ update s₁.waitQueue t none u = some q'
      rw [hwait]
      by_cases hut : u = t
      · subst hut
        rw [update_self]
        refine ⟨fun hmem => ?_, fun heq => absurd heq (by simp)⟩
        by_cases hq : q' = q
        · subst hq
          rw [update_self, hnd.mem_erase_iff] at hmem
          exact absurd rfl hmem.1
        · rw [update_of_ne hq] at hmem
          exact absurd (h.wq.apart q' q u hmem ht) hq
      · rw [update_of_ne hut, ← h.member]
        by_cases hq : q' = q
        · subst hq
          rw [update_self, List.mem_erase_of_ne hut]
        · rw [update_of_ne hq]
    · change (decide ((sched.thread u).state = .sleep) || decide ((sched.thread u).state = .stopped))
        = (update s₁.waitQueue t none u).isSome
      rw [hthread, setThread_thread, hwait, hsched]
      by_cases hut : u = t
      · subst hut
        rw [if_pos rfl, update_self, scheduled_eq]
        rfl
      · rw [if_neg hut, update_of_ne hut]
        exact h.blocked u
  · refine ⟨?_, ?_, hthread.trans (by rw [hsched])⟩
    · rw [← hs1]
      rfl
    · rw [← hs1]
      rfl

/-! ## Waiting -/

theorem Inv.setWakeup (h : Inv s b a) (t : T) (reason : Wakeup) : Inv (s.setWakeup t reason) b a :=
  ⟨h.wq, h.sched, h.member, h.blocked⟩

theorem currentCheckInterrupted_state (s : State ncpu T W) (t : T) :
    (currentCheckInterrupted s t).2 = s.setWakeup t .none := by
  rw [currentCheckInterrupted]
  split_ifs <;> rfl

theorem waitQueue_of_running (h : Inv s b a) (ht : s.tstate t = .running) :
    s.waitQueue t = none := by
  have hblocked := h.blocked t
  rw [State.isBlocked, ht] at hblocked
  simpa using hblocked.symm

theorem Inv.sleepOn (h : Inv s b a) (ht : s.tstate t = .running) {state : Sched.TState}
    (hstate : state = .sleep ∨ state = .stopped) {wq : Queues W T} {l : List T}
    (hwq : Ds.Inv wq (update b q l)) (hl : ∀ u, u ∈ l ↔ u ∈ b q ∨ u = t) :
    Inv { ({ s with wq := wq } : State ncpu T W).setWaitQueue t (some q) with
        sched := s.sched.setThread t (schedLeave { s.sched.thread t with state := state }) }
      (update b q l) a := by
  have hkeeps := schedLeave_keeps { s.sched.thread t with state := state }
  have hnone := waitQueue_of_running h ht
  have hout : ∀ p, t ∉ a p := by
    intro p hmem
    have hready := (h.sched.level p t hmem).1
    have hrunning : (s.sched.thread t).state = .running := ht
    rw [hrunning] at hready
    exact absurd hready (by simp)
  refine ⟨hwq, ?_, fun u q' => ?_, fun u => ?_⟩
  · refine h.sched.setUnlinked hout ?_ (schedLeave_priority (h.sched.priority t))
    rw [hkeeps.1]
    rcases hstate with hstate | hstate <;> simp [hstate]
  · change _ ↔ update s.waitQueue t (some q) u = some q'
    by_cases hut : u = t
    · subst hut
      rw [update_self]
      by_cases hq : q' = q
      · subst hq
        simp [hl]
      · have hnot : u ∉ b q' := by
          rw [h.member, hnone]
          simp
        simp [update_of_ne hq, hnot, Ne.symm hq]
    · rw [update_of_ne hut, ← h.member]
      by_cases hq : q' = q
      · subst hq
        rw [update_self, hl, or_iff_left hut]
      · rw [update_of_ne hq]
  · change (decide (((s.sched.setThread t (schedLeave
        { s.sched.thread t with state := state })).thread u).state = .sleep) ||
      decide (((s.sched.setThread t (schedLeave
        { s.sched.thread t with state := state })).thread u).state = .stopped)) =
      (update s.waitQueue t (some q) u).isSome
    rw [setThread_thread]
    by_cases hut : u = t
    · rw [if_pos hut, hut, update_self, hkeeps.1]
      rcases hstate with hstate | hstate <;> simp [hstate]
    · rw [if_neg hut, update_of_ne hut]
      exact h.blocked u

theorem Inv.wait_safe (h : Inv s b a) (ht : s.tstate t = .running) (q : Option W)
    (state : Sched.TState) (whence : Whence) :
    Safe (fun _ => False) (schedWaitWhence s t q state whence) fun r => ∃ b', Inv r.2 b' a := by
  rw [schedWaitWhence]
  split_ifs with hstate
  · exact ⟨b, h⟩
  have hstate' : state = .sleep ∨ state = .stopped := by tauto
  rcases hint : currentCheckInterrupted s t with ⟨err, s₁⟩
  have hs1 : s₁ = s.setWakeup t .none := by
    rw [← currentCheckInterrupted_state s t, hint]
  have hcheck : Inv s₁ b a := hs1 ▸ h.setWakeup t .none
  cases err with
  | err e => exact ⟨b, hcheck⟩
  | ok =>
    have ht1 : s₁.tstate t = .running := hs1 ▸ ht
    -- a running thread is in no wait queue
    have hout : ∀ q, t ∉ b q := by
      intro q hmem
      rw [h.member, waitQueue_of_running h ht] at hmem
      exact absurd hmem (by simp)
    generalize hq : q.getD s.globalSleepQueue = q'
    rcases enqueueWhence_refines hcheck.wq hout q' .unique whence with ⟨wq, hrun, hinv⟩
    have hlist : listEnqueue b q' t .unique whence =
        (.ok, update b q' (listPut (b q') t whence)) := by
      rw [listEnqueue, if_neg fun hmem => hout q' hmem.2]
    rw [hlist] at hrun hinv
    simp only
    rw [hrun]
    refine ⟨update b q' (listPut (b q') t whence), ?_⟩
    refine hcheck.sleepOn ht1 hstate' hinv fun u => ?_
    cases whence with
    | head => simp [listPut, or_comm]
    | tail => simp [listPut]

/-! ## Waking -/

theorem schedWakeupWhence_eq (s : State ncpu T W) (me : Fin ncpu) (q : W) (reason : Wakeup)
    (whence : Whence) :
    schedWakeupWhence s me q reason whence =
      match (s.wq.queue q).head with
      | none => .ok (.err .ESRCH, s)
      | some t => schedDetachAndWakeup s me q t reason := by
  cases whence <;> rfl

/-- What a wake-up call comes to: the invariant, and the state as it was if it fails. -/
def Woken (s : State ncpu T W) (r : Ret × State ncpu T W) : Prop :=
  (∃ b a, Inv r.2 b a) ∧ (r.1 ≠ .ok → r.2 = s)

theorem Inv.woken_fail (h : Inv s b a) (e : Errno) : Woken s (.err e, s) :=
  ⟨⟨b, a, h⟩, fun _ => rfl⟩

theorem Inv.detach_safe (h : Inv s b a) (ht : t ∈ b q)
    (hreason : validateWakeupReason reason = true) (me : Fin ncpu) :
    Safe (fun _ => False) (schedDetachAndWakeup s me q t reason) (Woken s) := by
  rcases h.detach ht hreason me with ⟨s', a', hrun, hinv, -⟩
  rw [hrun]
  exact ⟨⟨_, _, hinv⟩, fun hne => absurd rfl hne⟩

theorem Inv.whence_safe (h : Inv s b a) (me : Fin ncpu) (whence : Whence)
    (hok : wakeFits s (.whence q reason whence : Wake T W) = true) :
    Safe (fun _ => False) (schedWakeupWhence s me q reason whence) (Woken s) := by
  have hhead := (h.wq.holds q).head
  rw [schedWakeupWhence_eq, hhead]
  rw [wakeFits, h.sequence_eq] at hok
  cases hb : b q with
  | nil => exact h.woken_fail .ESRCH
  | cons t l =>
    rw [hb] at hok
    have hreason : validateWakeupReason reason = true := by simpa using hok
    exact h.detach_safe (by simp [hb]) hreason me

theorem Inv.specific_safe (h : Inv s b a) (me : Fin ncpu) {tid : Int}
    (hok : wakeFits s (.specific q reason tid : Wake T W) = true) :
    Safe (fun _ => False) (schedWakeupSpecific s me q reason tid) (Woken s) := by
  rw [schedWakeupSpecific]
  split_ifs with htid
  · exact h.woken_fail .EINVAL
  have hholds := h.wq.holds q
  rcases scan_chain_find (fun t => decide (s.tid t = tid)) none hholds.chain hholds.length_le with
    ⟨last, hscan⟩
  rw [hholds.head, hscan]
  rw [wakeFits, h.sequence_eq] at hok
  cases hfind : (b q).find? fun t => decide (s.tid t = tid) with
  | none => exact h.woken_fail .ESRCH
  | some t =>
    have hmem : t ∈ b q := List.mem_of_find?_eq_some hfind
    have hreason : validateWakeupReason reason = true := by
      have htid' : s.tid t = tid := by simpa using List.find?_some hfind
      simp only [Bool.or_eq_true, decide_eq_true_eq, htid, or_false, List.all_eq_true] at hok
      rcases hok with hok | hok
      · exact hok
      · exact absurd htid' (hok t hmem)
    exact h.detach_safe hmem hreason me

theorem Inv.wakeupLoop (h : Inv s b a) (hreason : validateWakeupReason reason = true)
    (me : Fin ncpu) {l : List T} (hq : b q = l) {fuel : Nat} (hfuel : l.length ≤ fuel)
    (count : Nat) :
    ∃ s' b' a', wakeupLoop me q reason fuel s l.head? count =
        .ok (if 0 < count + l.length then .ok else .err .ESRCH, count + l.length, s') ∧
      Inv s' b' a' := by
  -- induction on the threads that are left in the queue
  induction l generalizing s b a fuel count with
  | nil =>
    refine ⟨s, b, a, ?_, h⟩
    cases fuel <;> rfl
  | cons t l ih =>
    cases fuel with
    | zero => simp at hfuel
    | succ fuel =>
      have hmem : t ∈ b q := by simp [hq]
      have hchain := (h.wq.holds q).chain
      rw [hq] at hchain
      have hnext : (s.wq.node t).next = l.head? := by
        have hlink := hchain.2.1
        rwa [Option.or_none] at hlink
      rcases h.detach hmem hreason me with ⟨s₁, a1, hrun, hinv, -⟩
      have hq1 : update b q ((b q).erase t) q = l := by
        rw [update_self, hq, List.erase_cons_head]
      rcases ih hinv hq1 (by simpa using hfuel) (count + 1) with ⟨s', b', a', hloop, hinv'⟩
      refine ⟨s', b', a', ?_, hinv'⟩
      rw [List.head?_cons, WaitQueue.wakeupLoop, hrun]
      simp only [ok_bind, if_true, hnext, hloop, List.length_cons]
      rw [Nat.add_right_comm, Nat.add_assoc]

theorem Inv.all_safe (h : Inv s b a) (me : Fin ncpu)
    (hok : wakeFits s (.all q reason : Wake T W) = true) :
    Safe (fun _ => False) (schedWakeupAll s me q reason) fun r => Woken s (r.1, r.2.2) := by
  have hholds := h.wq.holds q
  rw [schedWakeupAll, hholds.head]
  rw [wakeFits, h.sequence_eq] at hok
  cases hb : b q with
  | nil =>
    have hloop : WaitQueue.wakeupLoop me q reason (Fintype.card T) s ([] : List T).head? 0 =
        .ok (.err .ESRCH, 0, s) := by
      cases Fintype.card T <;> rfl
    rw [hloop]
    exact h.woken_fail .ESRCH
  | cons t l =>
    rw [hb] at hok
    have hreason : validateWakeupReason reason = true := by simpa using hok
    have hlen := hholds.length_le
    rw [hb] at hlen
    rcases h.wakeupLoop hreason me hb hlen 0 with ⟨s', b', a', hloop, hinv⟩
    rw [hloop, if_pos (by simp)]
    exact ⟨⟨b', a', hinv⟩, fun hne => absurd rfl hne⟩

theorem Inv.thread_safe (h : Inv s b a) (me : Fin ncpu) (t : T) (reason : Wakeup) :
    Safe (fun _ => False) (threadWakeup s me t reason) (Woken s) := by
  rw [threadWakeup]
  split_ifs with hreason hblocked
  · exact h.woken_fail .EINVAL
  · have hsome := h.blocked t
    rw [hblocked] at hsome
    cases hq : s.waitQueue t with
    | some q =>
      exact h.detach_safe ((h.member t q).2 hq) (by simpa using hreason) me
    | none =>
      rw [hq] at hsome
      exact absurd hsome (by simp)
  · exact ⟨⟨b, a, h⟩, fun hne => absurd rfl hne⟩

theorem Inv.setCanceled (h : Inv s b a) (canceled : T → Bool) (ktid : T → Int) :
    Inv { s with canceled := canceled, ktid := ktid } b a :=
  ⟨h.wq, h.sched, h.member, h.blocked⟩

theorem Inv.cancel_safe (h : Inv s b a) (me : Fin ncpu) (current : T) (group : List T)
    (tid : Int) :
    Safe (fun _ => False) (threadCancel s me current group tid) (Woken s) := by
  rw [threadCancel]
  split_ifs with htid hself
  · exact h.woken_fail .EINVAL
  · exact h.woken_fail .EDEADLK
  cases hfind : group.find? fun t => decide (s.tid t = tid) with
  | none => exact h.woken_fail .ESRCH
  | some t =>
    simp only
    cases hq : s.waitQueue t with
    | none => exact ⟨⟨b, a, h.setCanceled _ _⟩, fun hne => absurd rfl hne⟩
    | some q =>
      have hmem : t ∈ b q := (h.member t q).2 hq
      rcases h.detach hmem (by rfl : validateWakeupReason .signal = true) me with
        ⟨s', a', hrun, hinv, -⟩
      simp only [hrun, ok_bind, if_true]
      exact ⟨⟨_, a', hinv.setCanceled _ _⟩, fun hne => absurd rfl hne⟩

theorem Inv.wake_safe (h : Inv s b a) (me : Fin ncpu) (call : Wake T W)
    (hok : wakeFits s call = true) : Safe (fun _ => False) (wake s me call) (Woken s) := by
  cases call with
  | whence q reason whence => exact h.whence_safe me whence hok
  | specific q reason tid => exact h.specific_safe me hok
  | all q reason =>
    refine Safe.bind (h.all_safe me hok) ?_
    rintro ⟨err, count, s'⟩ hs'
    exact hs'
  | thread t reason => exact h.thread_safe me t reason
  | cancel current group tid => exact h.cancel_safe me current group tid
  | destroy q =>
    -- the queue is empty
    have hall : wakeFits s (.all q .error : Wake T W) = true := by
      have hempty : (nodeSequence s.wq q).isEmpty = true := hok
      rw [wakeFits, hempty, Bool.or_true]
    have hdestroy : Safe (fun _ => False) (awaitEventDestroy s me q) fun s' =>
        ∃ b a, Inv s' b a := by
      refine Safe.bind (h.all_safe me hall) ?_
      rintro ⟨err, count, s'⟩ hs'
      exact hs'.1
    exact hdestroy.bind fun s' hs' => ⟨hs', fun hne => absurd rfl hne⟩

theorem Inv.start (h : Inv s b a) (ht : s.tstate t = .embryo) (me : Fin ncpu) :
    ∃ s' a', WaitQueue.threadSchedule s me t = .ok (.ok, s') ∧ Inv s' b a' := by
  have hembryo : (s.sched.thread t).state = .embryo := ht
  have hout : ∀ p, t ∉ a p := by
    intro p hmem
    have hready := (h.sched.level p t hmem).1
    rw [hembryo] at hready
    exact absurd hready (by simp)
  rcases Inv.threadSchedule h.sched hout me with ⟨sched, a', hrun, hinv, hthread⟩
  refine ⟨{ s with sched := sched }, a', hrun, h.wq, hinv, h.member, fun u => ?_⟩
  change (decide ((sched.thread u).state = .sleep) || decide ((sched.thread u).state = .stopped)) =
    (s.waitQueue u).isSome
  rw [hthread, setThread_thread, ← h.blocked]
  split_ifs with hut
  · -- the thread was not blocked before either
    rw [hut, scheduled_eq, State.isBlocked, ht]
    rfl
  · rfl

theorem Inv.next (h : Inv s b a) (me : Fin ncpu) :
    ∃ a', Inv { s with sched := (mlfqGetNextThread s.sched me).2 } b a' := by
  rcases h.sched.nextThread me foreachLevel with ⟨a', hinv, -, hstates⟩
  refine ⟨a', h.wq, hinv, h.member, fun u => ?_⟩
  rw [← h.blocked]
  change (decide (((nextThread s.sched me foreachLevel).2.thread u).state = .sleep) ||
    decide (((nextThread s.sched me foreachLevel).2.thread u).state = .stopped)) = s.isBlocked u
  rcases (hstates u).2 with hsame | ⟨hready, hrunning⟩
  · rw [hsame]
    rfl
  · rw [hrunning, State.isBlocked, State.tstate, hready]
    rfl

/-- The step lemma. -/
theorem Inv.step_safe (h : Inv s b a) (act : Act ncpu T W) (hok : fits s act = true) :
    Safe (fun _ => False) (step s act) fun s' => ∃ b' a', Inv s' b' a' := by
  cases act with
  | wait t q state whence =>
    rw [step]
    split_ifs with ht
    · refine Safe.bind (h.wait_safe ht q state whence) ?_
      rintro ⟨err, s'⟩ ⟨b', hinv⟩
      exact ⟨b', a, hinv⟩
    · exact ⟨b, a, h⟩
  | check t =>
    rw [step]
    split_ifs with ht
    · rw [currentCheckInterrupted_state]
      exact ⟨b, a, h.setWakeup t .none⟩
    · exact ⟨b, a, h⟩
  | wake me call =>
    refine Safe.bind (h.wake_safe me call hok) ?_
    rintro ⟨err, s'⟩ hs'
    exact hs'.1
  | start me t =>
    rw [step]
    split_ifs with ht
    · rcases h.start ht me with ⟨s', a', hrun, hinv⟩
      rw [hrun]
      exact ⟨b, a', hinv⟩
    · exact ⟨b, a, h⟩
  | next me =>
    rcases h.next me with ⟨a', hinv⟩
    exact ⟨b, a', hinv⟩

theorem Inv.failsClean (h : Inv s b a) : FailsClean s := by
  intro me call hok
  exact (h.wake_safe me call hok).mono fun r hr => hr.2

/-- In every run in which no wake-up call with an invalid reason finds a thread, a thread is blocked
if and only if it is linked in the queue that its back pointer names, and a wake-up call that fails
changes nothing. -/
theorem wait_queues_consistent {ncpu : Nat} {T W : Type} [DecidableEq T] [Fintype T]
    [DecidableEq W] (thread : T → Sched.Thread ncpu) (quantum : RunQueue ncpu → Nat)
    (tid : T → Int) (globalSleepQueue : W) (hstate : ∀ t, (thread t).state = .embryo)
    (hprio : ∀ t, 0 ≤ (thread t).priority ∧ (thread t).priority ≤ mlfqHigh)
    (acts : List (Act ncpu T W))
    (hrun : guarded step fits (State.init thread quantum tid globalSleepQueue) acts = true) :
    Safe (fun _ => False) (runs step (State.init thread quantum tid globalSleepQueue) acts)
      fun s => Consistent s ∧ FailsClean s := by
  have hstep : ∀ (s : State ncpu T W) (act : Act ncpu T W), (∃ b a, Inv s b a) →
      fits s act = true → Safe (fun _ => False) (step s act) fun s' => ∃ b' a', Inv s' b' a' := by
    rintro s act ⟨b, a, h⟩ hok
    exact h.step_safe act hok
  have hinit := inv_init quantum tid globalSleepQueue hstate hprio
  refine (Safe.runs hstep ⟨_, _, hinit⟩ hrun).mono ?_
  rintro s ⟨b, a, h⟩
  exact ⟨h.consistent, h.failsClean⟩

def oneCpu : State 1 (Fin 2) Bool :=
  State.init (fun _ => freshThread 1 { hard := false, cpuSet := -1 }) (fun _ => 10)
    (fun t => t.val + 1) false

/-- Both threads wait; one is woken from the queue, the other one canceled. -/
def wakingRun : List (Act 1 (Fin 2) Bool) :=
  [.start 0 0, .start 0 1, .next 0, .wait 0 (some true) .sleep .tail, .next 0,
    .wait 1 none .stopped .head, .wake 0 (.whence true .normal .tail), .next 0,
    .wake 0 (.destroy true), .wake 0 (.cancel 0 [0, 1] 2), .check 0]

theorem wait_queues_consistent_two_threads :
    (∀ t, (oneCpu.sched.thread t).state = .embryo) ∧
    (∀ t, 0 ≤ (oneCpu.sched.thread t).priority ∧
      (oneCpu.sched.thread t).priority ≤ mlfqHigh) ∧
    guarded step fits oneCpu wakingRun = true ∧
    Safe (fun _ => False) (runs step oneCpu wakingRun) fun s => Consistent s ∧ FailsClean s := by
  have hstate : ∀ t, (oneCpu.sched.thread t).state = .embryo := by decide
  have hprio : ∀ t, 0 ≤ (oneCpu.sched.thread t).priority ∧
      (oneCpu.sched.thread t).priority ≤ mlfqHigh := by decide
  have hrun : guarded step fits oneCpu wakingRun = true := by decide +kernel
  exact ⟨hstate, hprio, hrun, wait_queues_consistent _ _ _ _ hstate hprio wakingRun hrun⟩

def destroyedEvent : State 1 (Fin 2) Bool :=
  outcome (runs step oneCpu
    [.start 0 0, .next 0, .wait 0 (some true) .sleep .tail, .wake 0 (.destroy true)]) oneCpu

/-- The waiter is asleep, its back pointer names the queue, and it is in no queue. -/
theorem destroyed_event_strands_waiter :
    runs step oneCpu
      [.start 0 0, .next 0, .wait 0 (some true) .sleep .tail, .wake 0 (.destroy true)] =
        .ok destroyedEvent ∧
    destroyedEvent.tstate 0 = .sleep ∧ destroyedEvent.waitQueue 0 = some true ∧
    nodeSequence destroyedEvent.wq true = [] ∧ (∀ q, nodeSequence destroyedEvent.sched.rq q = []) ∧
    ¬ Consistent destroyedEvent := by
  have hsleep : destroyedEvent.tstate 0 = .sleep := by decide +kernel
  have hname : destroyedEvent.waitQueue 0 = some true := by decide +kernel
  have hempty : nodeSequence destroyedEvent.wq true = [] := by decide +kernel
  refine ⟨eq_ok_outcome (by decide +kernel), hsleep, hname, hempty, by decide +kernel, fun h => ?_⟩
  have hmem := (h.member 0 true).2 ⟨by rw [State.isBlocked, hsleep]; rfl, hname⟩
  rw [hempty] at hmem
  exact absurd hmem (by simp)

end WaitQueue
end Sync
end XytherOS
