import Mathlib.Data.List.Nodup
import Mathlib.Data.List.Perm.Basic
import XytherOS.Core.Status

/-!
# Wait — the wait queues of `sys/sched/sched.c`

A thread that waits is in one wait queue, asleep, with a pointer back to the queue.  It comes out
of the queue when it is woken, by the owner of the queue or by a signal, and runs again later.

* `T` names the threads and `Q` the wait queues of the object under study.
* `sched_wait_whence` is cut in two at `sched()`: `schedWaitEnter` runs up to the context switch and
  `schedWaitLeave` from the return of the thread on.  Its caller holds the lock of the object in
  both halves, and not in between.
* A wait queue is the list of its threads; that the links of `ds/queue/embedded.c` behave so is
  proved with them.
* `signal_check_pending` and the run queues touch none of these fields and are left out.
-/

namespace XytherOS
namespace Sync

open Function

inductive Wakeup
  | none
  | normal
  | signal
  | timeout
  | error
  deriving DecidableEq, Repr

inductive TState
  | ready
  | sleep
  | stopped
  deriving DecidableEq, Repr

structure Thread (Q : Type) where
  state : TState
  waitQueue : Option Q
  wakeup : Wakeup
  canceled : Bool

structure Waits (T Q : Type) where
  queue : Q → List T
  thread : T → Thread Q

variable {T Q : Type} [DecidableEq T] [DecidableEq Q]

namespace Waits

def init (wakeup : T → Wakeup) (canceled : T → Bool) : Waits T Q where
  queue _ := []
  thread t :=
    { state := .ready, waitQueue := .none, wakeup := wakeup t, canceled := canceled t }

def setQueue (w : Waits T Q) (q : Q) (l : List T) : Waits T Q :=
  { w with queue := update w.queue q l }

def setThread (w : Waits T Q) (t : T) (th : Thread Q) : Waits T Q :=
  { w with thread := update w.thread t th }

def setWakeup (w : Waits T Q) (t : T) (reason : Wakeup) : Waits T Q :=
  w.setThread t { w.thread t with wakeup := reason }

def cancel (w : Waits T Q) (t : T) : Waits T Q :=
  w.setThread t { w.thread t with canceled := true }

def interrupted (w : Waits T Q) (t : T) : Bool :=
  (w.thread t).canceled || (w.thread t).wakeup = .signal || (w.thread t).wakeup = .timeout

def ready (w : Waits T Q) (t : T) : Bool := (w.thread t).state = .ready

end Waits

open Waits

/-! ## Waiting -/

def currentCheckInterrupted (w : Waits T Q) (t : T) : Ret × Waits T Q :=
  if w.interrupted t then
    (.err (if (w.thread t).wakeup = .timeout then .ETIMEDOUT else .EINTR), w.setWakeup t .none)
  else
    (.ok, w.setWakeup t .none)

def Waits.sleepOn (w : Waits T Q) (t : T) (q : Q) : Waits T Q :=
  (w.setQueue q (w.queue q ++ [t])).setThread t
    { w.thread t with state := .sleep, waitQueue := some q }

/-- `sched_wait_whence(q, T_SLEEP, QUEUE_TAIL, ..)` up to the context switch; `ok` says that the
thread sleeps. -/
def schedWaitEnter (w : Waits T Q) (t : T) (q : Q) : Ret × Waits T Q :=
  match currentCheckInterrupted w t with
  | (.err e, w) => (.err e, w)
  | (.ok, w) => if t ∈ w.queue q then (.err .EEXIST, w) else (.ok, w.sleepOn t q)

def schedWaitLeave (w : Waits T Q) (t : T) : Ret × Waits T Q := currentCheckInterrupted w t

/-! ## Waking -/

def Waits.schedule (w : Waits T Q) (t : T) (reason : Wakeup) : Waits T Q :=
  w.setThread t { w.thread t with state := .ready, wakeup := reason }

def Waits.clearQueue (w : Waits T Q) (t : T) : Waits T Q :=
  w.setThread t { w.thread t with waitQueue := .none }

def schedWakeThread (w : Waits T Q) (t : T) (reason : Wakeup) : Ret × Waits T Q :=
  if reason ≠ .normal ∧ reason ≠ .signal ∧ reason ≠ .timeout then
    (.err .EINVAL, w)
  else if (w.thread t).state ≠ .stopped ∧ (w.thread t).state ≠ .sleep then
    (.err .EINVAL, w)
  else
    (.ok, w.schedule t reason)

def schedDetachAndWakeup (w : Waits T Q) (q : Q) (t : T) (reason : Wakeup) : Ret × Waits T Q :=
  if t ∈ w.queue q then
    match schedWakeThread (w.setQueue q ((w.queue q).erase t)) t reason with
    | (.err e, w) => (.err e, w)
    | (.ok, w) => (.ok, w.clearQueue t)
  else
    (.err .ENOENT, w)

def schedWakeupHead (w : Waits T Q) (q : Q) (reason : Wakeup) : Ret × Waits T Q :=
  match w.queue q with
  | [] => (.err .ESRCH, w)
  | t :: _ => schedDetachAndWakeup w q t reason

/-- The loop of `sched_wakeup_all` over the threads `l`; the first component is `*pnt`. -/
def wakeupLoop (w : Waits T Q) (q : Q) (reason : Wakeup) : List T → Nat → Nat × Waits T Q
  | [], count => (count, w)
  | t :: l, count =>
    match schedDetachAndWakeup w q t reason with
    | (.err _, w) => (count, w)
    | (.ok, w) => wakeupLoop w q reason l (count + 1)

def schedWakeupAll (w : Waits T Q) (q : Q) (reason : Wakeup) : Nat × Waits T Q :=
  wakeupLoop w q reason (w.queue q) 0

def threadWakeup (w : Waits T Q) (t : T) (reason : Wakeup) : Ret × Waits T Q :=
  if reason ≠ .normal ∧ reason ≠ .signal ∧ reason ≠ .timeout then
    (.err .EINVAL, w)
  else if (w.thread t).state = .sleep ∨ (w.thread t).state = .stopped then
    match (w.thread t).waitQueue with
    | some q => schedDetachAndWakeup w q t reason
    | none => (.ok, w.schedule t reason)
  else
    (.ok, w)

/-! ## Orderly queues -/

/-- A thread is in a queue if and only if it sleeps and points back to the queue, and it is there
once. -/
structure Orderly (w : Waits T Q) : Prop where
  nodup : ∀ q, (w.queue q).Nodup
  mem : ∀ t q, t ∈ w.queue q ↔
    (w.thread t).state = .sleep ∧ (w.thread t).waitQueue = some q

theorem orderly_init (wakeup : T → Wakeup) (canceled : T → Bool) :
    Orderly (Waits.init wakeup canceled : Waits T Q) := by
  refine ⟨fun q => List.nodup_nil, fun t q => ?_⟩
  simp [Waits.init]

namespace Waits

variable {w : Waits T Q} {t u : T} {q q' : Q} {reason : Wakeup}

@[simp] theorem setThread_queue (w : Waits T Q) (t : T) (th : Thread Q) :
    (w.setThread t th).queue = w.queue := rfl

@[simp] theorem setThread_self (w : Waits T Q) (t : T) (th : Thread Q) :
    (w.setThread t th).thread t = th := by
  simp [setThread]

theorem setThread_of_ne (w : Waits T Q) (th : Thread Q) (h : u ≠ t) :
    (w.setThread t th).thread u = w.thread u := by
  simp [setThread, h]

@[simp] theorem setQueue_thread (w : Waits T Q) (q : Q) (l : List T) :
    (w.setQueue q l).thread = w.thread := rfl

theorem setQueue_queue (w : Waits T Q) (q q' : Q) (l : List T) :
    (w.setQueue q l).queue q' = if q' = q then l else w.queue q' := by
  simp [setQueue, update_apply]

/-- The thread `t` has come out of the queue `q` and is ready. -/
def woken (w : Waits T Q) (q : Q) (t : T) (reason : Wakeup) : Waits T Q :=
  ((w.setQueue q ((w.queue q).erase t)).schedule t reason).clearQueue t

theorem woken_queue : (w.woken q t reason).queue q' =
    if q' = q then (w.queue q).erase t else w.queue q' :=
  w.setQueue_queue q q' _

theorem woken_thread : (w.woken q t reason).thread u = if u = t then
    { w.thread t with state := .ready, waitQueue := .none, wakeup := reason } else w.thread u := by
  by_cases hu : u = t
  · subst hu
    simp [woken, clearQueue, schedule]
  · simp [woken, clearQueue, schedule, setThread_of_ne, hu]

theorem sleepOn_queue : (w.sleepOn t q).queue q' =
    if q' = q then w.queue q ++ [t] else w.queue q' :=
  w.setQueue_queue q q' _

theorem sleepOn_thread : (w.sleepOn t q).thread u = if u = t then
    { w.thread t with state := .sleep, waitQueue := some q } else w.thread u := by
  by_cases hu : u = t
  · subst hu
    simp [sleepOn]
  · simp [sleepOn, setThread_of_ne, hu]

theorem setWakeup_thread : (w.setWakeup t reason).thread u = if u = t then
    { w.thread t with wakeup := reason } else w.thread u := by
  by_cases hu : u = t
  · subst hu
    simp [setWakeup]
  · simp [setWakeup, setThread_of_ne, hu]

@[simp] theorem setWakeup_queue : (w.setWakeup t reason).queue = w.queue := rfl

@[simp] theorem setWakeup_ready : (w.setWakeup t reason).ready u = w.ready u := by
  by_cases hu : u = t
  · subst hu
    simp [ready, setWakeup_thread]
  · simp [ready, setWakeup_thread, hu]

@[simp] theorem cancel_queue : (w.cancel t).queue = w.queue := rfl

@[simp] theorem cancel_ready : (w.cancel t).ready u = w.ready u := by
  by_cases hu : u = t
  · subst hu
    simp [ready, cancel]
  · simp [ready, cancel, setThread_of_ne, hu]

theorem woken_ready : (w.woken q t reason).ready u = (decide (u = t) || w.ready u) := by
  by_cases hu : u = t <;> simp [ready, woken_thread, hu]

theorem sleepOn_ready : (w.sleepOn t q).ready u = (!decide (u = t) && w.ready u) := by
  by_cases hu : u = t <;> simp [ready, sleepOn_thread, hu]

end Waits

namespace Orderly

variable {w : Waits T Q} {t u : T} {q q' : Q} {reason : Wakeup}

theorem not_mem_of_ready (h : Orderly w) (ht : w.ready t = true) (q : Q) : t ∉ w.queue q := by
  intro hmem
  have hsleep := ((h.mem t q).1 hmem).1
  simp [Waits.ready, hsleep] at ht

theorem queue_unique (h : Orderly w) (hq : t ∈ w.queue q) (hq' : t ∈ w.queue q') : q = q' := by
  have heq := ((h.mem t q).1 hq).2.symm.trans ((h.mem t q').1 hq').2
  simpa using heq

theorem setThread (h : Orderly w) {th : Thread Q} (hstate : th.state = (w.thread t).state)
    (hqueue : th.waitQueue = (w.thread t).waitQueue) : Orderly (w.setThread t th) := by
  refine ⟨h.nodup, fun u q => ?_⟩
  rw [setThread_queue, h.mem]
  by_cases hu : u = t
  · subst hu
    simp [hstate, hqueue]
  · rw [setThread_of_ne w th hu]

theorem setWakeup (h : Orderly w) : Orderly (w.setWakeup t reason) := h.setThread rfl rfl

theorem cancel (h : Orderly w) : Orderly (w.cancel t) := h.setThread rfl rfl

theorem sleepOn (h : Orderly w) (ht : w.ready t = true) : Orderly (w.sleepOn t q) := by
  refine ⟨fun q' => ?_, fun u q' => ?_⟩
  · rw [sleepOn_queue]
    by_cases hq : q' = q
    · rw [if_pos hq, List.nodup_append]
      refine ⟨h.nodup q, List.nodup_singleton t, ?_⟩
      intro a ha b hb hab
      rw [List.mem_singleton] at hb
      subst hab
      subst hb
      exact h.not_mem_of_ready ht q ha
    · rw [if_neg hq]
      exact h.nodup q'
  · rw [sleepOn_queue, sleepOn_thread]
    by_cases hu : u = t
    · subst hu
      have hnot := h.not_mem_of_ready ht
      by_cases hq : q' = q
      · simp [hq]
      · simp [hq, hnot q', Ne.symm hq]
    · by_cases hq : q' = q
      · subst hq
        simp [hu, h.mem]
      · simp [hq, hu, h.mem]

theorem of_perm {w' : Waits T Q} (h : Orderly w) (hthread : w'.thread = w.thread)
    (hqueue : ∀ q, (w'.queue q).Perm (w.queue q)) : Orderly w' := by
  refine ⟨fun q => (hqueue q).nodup_iff.2 (h.nodup q), fun t q => ?_⟩
  rw [(hqueue q).mem_iff, hthread]
  exact h.mem t q

theorem woken (h : Orderly w) (ht : t ∈ w.queue q) : Orderly (w.woken q t reason) := by
  refine ⟨fun q' => ?_, fun u q' => ?_⟩
  · rw [woken_queue]
    split
    · exact (h.nodup q).erase t
    · exact h.nodup q'
  · rw [woken_queue, woken_thread]
    by_cases hu : u = t
    · subst hu
      by_cases hq : q' = q
      · simp [hq, (h.nodup q).mem_erase_iff]
      · have hnot : u ∉ w.queue q' := fun hmem => hq (h.queue_unique hmem ht)
        simp [hq, hnot]
    · by_cases hq : q' = q
      · subst hq
        simp [hu, (h.nodup q').mem_erase_iff, h.mem]
      · simp [hq, hu, h.mem]

theorem enter_interrupted (ht : w.interrupted t = true) (q : Q) :
    ∃ e, schedWaitEnter w t q = (.err e, w.setWakeup t .none) := by
  rw [schedWaitEnter, currentCheckInterrupted, if_pos ht]
  exact ⟨_, rfl⟩

theorem enter_sleeps (h : Orderly w) (hready : w.ready t = true) (ht : w.interrupted t = false)
    (q : Q) : schedWaitEnter w t q = (.ok, (w.setWakeup t .none).sleepOn t q) := by
  have hmem : t ∉ (w.setWakeup t .none).queue q := h.not_mem_of_ready hready q
  rw [schedWaitEnter, currentCheckInterrupted, if_neg (by simp [ht])]
  simp only
  rw [if_neg hmem]

theorem leave_eq (w : Waits T Q) (t : T) : (schedWaitLeave w t).2 = w.setWakeup t .none := by
  rw [schedWaitLeave, currentCheckInterrupted]
  split <;> rfl

theorem detach_eq (h : Orderly w) (ht : t ∈ w.queue q)
    (hreason : reason = .normal ∨ reason = .signal ∨ reason = .timeout) :
    schedDetachAndWakeup w q t reason = (.ok, w.woken q t reason) := by
  have hsleep := ((h.mem t q).1 ht).1
  have hvalid : ¬ (reason ≠ .normal ∧ reason ≠ .signal ∧ reason ≠ .timeout) := by tauto
  rw [schedDetachAndWakeup, if_pos ht, schedWakeThread, if_neg hvalid,
    if_neg (by simp [hsleep])]
  rfl

theorem wakeupHead_nil (hq : w.queue q = []) :
    schedWakeupHead w q reason = (.err .ESRCH, w) := by
  rw [schedWakeupHead, hq]

theorem wakeupHead_cons (h : Orderly w) {l : List T} (hq : w.queue q = t :: l) :
    schedWakeupHead w q .normal = (.ok, w.woken q t .normal) := by
  rw [schedWakeupHead, hq]
  exact h.detach_eq (by simp [hq]) (.inl rfl)

theorem wakeupLoop_spec (h : Orderly w) {l : List T} (hq : w.queue q = l) (count : Nat) :
    ∃ w', wakeupLoop w q .normal l count = (count + l.length, w') ∧ Orderly w' ∧
      w'.queue q = [] ∧ (∀ q', q' ≠ q → w'.queue q' = w.queue q') ∧
      (∀ u, u ∈ l → w'.thread u =
        { w.thread u with state := .ready, waitQueue := .none, wakeup := .normal }) ∧
      ∀ u, u ∉ l → w'.thread u = w.thread u := by
  -- induction on the threads that are left
  induction l generalizing w count with
  | nil =>
    exact ⟨w, rfl, h, hq, fun _ _ => rfl, by simp, fun _ _ => rfl⟩
  | cons t l ih =>
    have hmem : t ∈ w.queue q := by simp [hq]
    have hnd := h.nodup q
    rw [hq, List.nodup_cons] at hnd
    have hq1 : (w.woken q t .normal).queue q = l := by
      rw [woken_queue, if_pos rfl, hq, List.erase_cons_head]
    have hwoken : Orderly (w.woken q t .normal) := h.woken hmem
    rcases ih hwoken hq1 (count + 1) with ⟨w', heq, horder, hempty, hother, hready, hsame⟩
    refine ⟨w', ?_, horder, hempty, ?_, ?_, ?_⟩
    · rw [wakeupLoop, h.detach_eq hmem (.inl rfl)]
      simp only
      rw [heq, List.length_cons]
      congr 1
      omega
    · intro q' hne
      rw [hother q' hne, woken_queue, if_neg hne]
    · intro u hu
      rcases List.mem_cons.1 hu with rfl | hu
      · rw [hsame u hnd.1, woken_thread, if_pos rfl]
      · have hne : u ≠ t := fun heq => hnd.1 (heq ▸ hu)
        rw [hready u hu, woken_thread, if_neg hne]
    · intro u hu
      rw [List.mem_cons, not_or] at hu
      rw [hsame u hu.2, woken_thread, if_neg hu.1]

theorem threadWakeup_queue (ht : ∀ q, t ∉ w.queue q) :
    (threadWakeup w t reason).2.queue = w.queue := by
  rw [Sync.threadWakeup]
  split_ifs with hinvalid hblocked
  · rfl
  · cases (w.thread t).waitQueue with
    | some q =>
      simp only
      rw [schedDetachAndWakeup, if_neg (ht q)]
    | none => rfl
  · rfl

theorem threadWakeup_mem (h : Orderly w) (ht : t ∈ w.queue q)
    (hreason : reason = .normal ∨ reason = .signal ∨ reason = .timeout) :
    threadWakeup w t reason = (.ok, w.woken q t reason) := by
  have hth := (h.mem t q).1 ht
  have hvalid : ¬ (reason ≠ .normal ∧ reason ≠ .signal ∧ reason ≠ .timeout) := by tauto
  rw [threadWakeup, if_neg hvalid, if_pos (.inl hth.1), hth.2]
  exact h.detach_eq ht hreason

theorem threadWakeup (h : Orderly w) (t : T) (reason : Wakeup) :
    Orderly (threadWakeup w t reason).2 := by
  by_cases hreason : reason = .normal ∨ reason = .signal ∨ reason = .timeout
  swap
  · have hinvalid : reason ≠ .normal ∧ reason ≠ .signal ∧ reason ≠ .timeout := by tauto
    rw [Sync.threadWakeup, if_pos hinvalid]
    exact h
  by_cases hmem : ∃ q, t ∈ w.queue q
  · rcases hmem with ⟨q, hq⟩
    rw [h.threadWakeup_mem hq hreason]
    exact h.woken hq
  · have hnot : ∀ q, t ∉ w.queue q := fun q hq => hmem ⟨q, hq⟩
    have hvalid : ¬ (reason ≠ .normal ∧ reason ≠ .signal ∧ reason ≠ .timeout) := by tauto
    rw [Sync.threadWakeup, if_neg hvalid]
    split_ifs with hblocked
    · cases hq : (w.thread t).waitQueue with
      | some q =>
        simp only
        rw [schedDetachAndWakeup, if_neg (hnot q)]
        exact h
      | none =>
        -- the thread sleeps elsewhere
        refine ⟨h.nodup, fun u q => ?_⟩
        by_cases hu : u = t
        · subst hu
          simp [Waits.schedule, hnot q]
        · simp [Waits.schedule, setThread_of_ne, hu, h.mem]
    · exact h

end Orderly

end Sync
end XytherOS
