import Mathlib.Data.BitVec
import XytherOS.Sync.Wait

/-!
# Cond — the condition variables of `sync/cond.c`

Every stretch that a thread executes under the lock of the condition variable is one step.  The
count of a condition variable is meant to be the number of its waiters, or, when negative, the
number of signals that nobody has waited for yet.

* `cond_wait` drops and takes a lock of its caller around the wait; that lock plays no part here.
* The count is a 64-bit word, and `cond_wait` looks at it as an `int`.
-/

namespace XytherOS
namespace Sync
namespace Cond

/-- Where a thread is: outside, or in the wait of `cond_wait`. -/
inductive Pc
  | idle
  | waiting
  deriving DecidableEq, Repr

structure State (T : Type) where
  count : BitVec 64
  waits : Waits T Unit
  pc : T → Pc

def condInit {T : Type} (wakeup : T → Wakeup) (canceled : T → Bool) : State T :=
  { count := 0
    waits := .init wakeup canceled
    pc := fun _ => .idle }

variable {T : Type} [DecidableEq T]

namespace State

def int (s : State T) : Int := (s.count.setWidth 32).toInt

def withCount (s : State T) (count : BitVec 64) : State T := { s with count := count }

def withWaits (s : State T) (w : Waits T Unit) : State T := { s with waits := w }

def setPc (s : State T) (t : T) (pc : Pc) : State T :=
  { s with pc := Function.update s.pc t pc }

def waiters (s : State T) : List T := s.waits.queue ()

def outside (s : State T) (t : T) : Bool := s.pc t = .idle && s.waits.ready t

end State

def condWait (s : State T) (t : T) : Option Ret × State T :=
  let s' := s.withCount (s.count + 1)
  if 0 ≤ s.int then
    match schedWaitEnter s'.waits t () with
    | (.ok, w) => (none, (s'.withWaits w).setPc t .waiting)
    | (.err e, w) => (some (.err e), s'.withWaits w)
  else
    (some .ok, s')

def resume (s : State T) (t : T) : Ret × State T :=
  let (ret, w) := schedWaitLeave s.waits t
  (ret, (s.withWaits w).setPc t .idle)

def condWake1 (s : State T) : State T :=
  (s.withWaits (schedWakeupHead s.waits () .normal).2).withCount (s.count - 1)

def condSignal (s : State T) : State T := condWake1 s

def condWakeall (s : State T) : State T :=
  let (waiters, w) := schedWakeupAll s.waits () .normal
  (s.withWaits w).withCount (if waiters = 0 then -1 else 0)

def condBroadcast (s : State T) : State T := condWakeall s

/-- The steps of the threads and of their surroundings: `wakeup` is `thread_wakeup`, `cancel` sets
the flag of a thread, and `pending` is a wake-up that a thread brings along from elsewhere. -/
inductive Act (T : Type)
  | wait (t : T)
  | resume (t : T)
  | signal
  | broadcast
  | wakeup (t : T) (reason : Wakeup)
  | cancel (t : T)
  | pending (t : T) (reason : Wakeup)

def step (s : State T) : Act T → Except Fault (State T)
  | .wait t => return if s.outside t then (condWait s t).2 else s
  | .resume t =>
    return if s.pc t = .waiting ∧ s.waits.ready t = true then (resume s t).2 else s
  | .signal => return condSignal s
  | .broadcast => return condBroadcast s
  | .wakeup t reason => return s.withWaits (threadWakeup s.waits t reason).2
  | .cancel t => return s.withWaits (s.waits.cancel t)
  | .pending t reason => return if s.outside t then s.withWaits (s.waits.setWakeup t reason) else s

/-! ## Accounts -/

/-- The count is the number of waiters, or is negative and there is none. -/
structure Counted (s : State T) : Prop where
  nonneg : 0 ≤ s.int → s.int = s.waiters.length
  neg : s.int < 0 → s.waiters = []

def Act.noWait : Act T → Bool
  | .wait _ => false
  | _ => true

/-- The step changes the count and the waiters together: no waiter is woken by a signal or a
timeout, no thread is turned away from the wait that its count announces, and the `int` does not
overflow. -/
def fits (s : State T) : Act T → Bool
  | .wait t => !s.outside t || s.int < 0 ||
      !s.waits.interrupted t && s.int ≠ 2147483647
  | .signal => s.int ≠ -2147483648
  | .wakeup t reason => t ∉ s.waiters ||
      reason ≠ .normal && reason ≠ .signal && reason ≠ .timeout
  | _ => true

/-- A signal that finds no waiter is remembered by the next wait, whatever the other threads do in
between: the wait returns at once. -/
def Remembers (s : State T) : Prop :=
  s.waiters = [] → fits s .signal = true → ∀ acts : List (Act T),
    acts.all Act.noWait = true → guarded step fits (condSignal s) acts = true →
    Safe (fun _ => False) (runs step (condSignal s) acts) fun s' =>
      ∀ t, condWait s' t = (some .ok, s'.withCount (s'.count + 1))

variable {s : State T} {t : T}

/-! ### The count as an `int` -/

theorem int_inc {x : BitVec 64} (h : (x.setWidth 32).toInt ≠ 2147483647) :
    ((x + 1).setWidth 32).toInt = (x.setWidth 32).toInt + 1 := by
  have hadd : (x + 1).setWidth 32 = x.setWidth 32 + 1 := BitVec.setWidth_add x 1 (by decide)
  rw [hadd]
  rw [BitVec.toInt_eq_toNat_cond] at h ⊢
  rw [BitVec.toInt_eq_toNat_cond]
  bv_omega

theorem int_dec {x : BitVec 64} (h : (x.setWidth 32).toInt ≠ -2147483648) :
    ((x - 1).setWidth 32).toInt = (x.setWidth 32).toInt - 1 := by
  have hsub : (x - 1).setWidth 32 = x.setWidth 32 - 1 := by bv_omega
  rw [hsub]
  rw [BitVec.toInt_eq_toNat_cond] at h ⊢
  rw [BitVec.toInt_eq_toNat_cond]
  bv_omega

structure Inv (s : State T) : Prop extends Counted s where
  waits : Orderly s.waits

theorem Inv.withWaits (h : Inv s) {w : Waits T Unit} (hw : Orderly w)
    (hqueue : w.queue () = s.waits.queue ()) : Inv (s.withWaits w) := by
  refine ⟨⟨?_, ?_⟩, hw⟩
  · intro hnonneg
    change s.int = (w.queue ()).length
    rw [hqueue]
    exact h.nonneg hnonneg
  · intro hneg
    exact hqueue.trans (h.neg hneg)

theorem Inv.setPc (h : Inv s) (t : T) (pc : Pc) : Inv (s.setPc t pc) :=
  ⟨⟨h.nonneg, h.neg⟩, h.waits⟩

theorem condWait_neg (hneg : s.int < 0) (t : T) :
    condWait s t = (some .ok, s.withCount (s.count + 1)) := by
  rw [condWait, if_neg (by omega)]

theorem Inv.wait_neg (h : Inv s) (hneg : s.int < 0) : Inv (s.withCount (s.count + 1)) := by
  have hint : (s.withCount (s.count + 1)).int = s.int + 1 := by
    refine int_inc (x := s.count) ?_
    change s.int ≠ 2147483647
    omega
  have hnil : (s.withCount (s.count + 1)).waiters = [] := h.neg hneg
  refine ⟨⟨fun hnonneg => ?_, fun _ => hnil⟩, h.waits⟩
  rw [hnil, List.length_nil]
  omega

theorem Inv.wait_sleeps (h : Inv s) (hready : s.waits.ready t = true) (hnonneg : 0 ≤ s.int)
    (hok : s.waits.interrupted t = false) (hmax : s.int ≠ 2147483647) :
    Inv (condWait s t).2 := by
  rw [condWait, if_pos hnonneg]
  have henter := h.waits.enter_sleeps hready hok ()
  simp only [State.withCount, henter]
  refine Inv.setPc ?_ t .waiting
  have hready' : (s.waits.setWakeup t .none).ready t = true := by simpa using hready
  have hint : ((s.count + 1).setWidth 32).toInt = s.int + 1 := int_inc hmax
  refine ⟨⟨fun _ => ?_, fun hneg => ?_⟩, h.waits.setWakeup.sleepOn hready'⟩
  · change ((s.count + 1).setWidth 32).toInt =
      ((((s.waits.setWakeup t .none).sleepOn t ()).queue ()).length : Int)
    rw [hint, Waits.sleepOn_queue, if_pos rfl, List.length_append, List.length_singleton]
    have hcount : s.int = ((s.waits.queue ()).length : Int) := h.nonneg hnonneg
    simpa using hcount
  · change ((s.count + 1).setWidth 32).toInt < 0 at hneg
    omega

theorem Inv.condWait (h : Inv s) (hok : fits s (.wait t) = true) (hout : s.outside t = true) :
    Inv (condWait s t).2 := by
  simp only [fits, hout, Bool.not_true, Bool.false_or, Bool.or_eq_true, decide_eq_true_eq,
    Bool.and_eq_true, Bool.not_eq_true', ne_eq] at hok
  by_cases hneg : s.int < 0
  · rw [condWait_neg hneg]
    exact h.wait_neg hneg
  · have hready : s.waits.ready t = true := by
      simp only [State.outside, Bool.and_eq_true] at hout
      exact hout.2
    rcases hok with hneg' | ⟨hint, hmax⟩
    · exact absurd hneg' hneg
    · exact h.wait_sleeps hready (by omega) hint hmax

theorem Inv.resume (h : Inv s) : Inv (resume s t).2 := by
  rw [Cond.resume]
  refine Inv.setPc ?_ t .idle
  rw [Orderly.leave_eq]
  exact h.withWaits h.waits.setWakeup rfl

theorem Inv.condSignal (h : Inv s) (hmin : s.int ≠ -2147483648) : Inv (condSignal s) := by
  have hint : (Cond.condSignal s).int = s.int - 1 := int_dec hmin
  cases hq : s.waits.queue () with
  | nil =>
    have hwaits : (Cond.condSignal s).waits = s.waits := by
      change (schedWakeupHead s.waits () .normal).2 = s.waits
      rw [Orderly.wakeupHead_nil hq]
    have hlen : 0 ≤ s.int → s.int = 0 := by
      intro hnonneg
      have hcount := h.nonneg hnonneg
      rwa [State.waiters, hq] at hcount
    refine ⟨⟨fun hnonneg => ?_, fun _ => ?_⟩, ?_⟩
    · omega
    · rw [State.waiters, hwaits]
      exact hq
    · rw [hwaits]
      exact h.waits
  | cons t l =>
    have hmem : t ∈ s.waits.queue () := by simp [hq]
    have hwaits : (Cond.condSignal s).waits = s.waits.woken () t .normal := by
      change (schedWakeupHead s.waits () .normal).2 = _
      rw [h.waits.wakeupHead_cons hq]
    have hqueue : (Cond.condSignal s).waiters = l := by
      rw [State.waiters, hwaits, Waits.woken_queue, if_pos rfl, hq, List.erase_cons_head]
    have hnonneg : 0 ≤ s.int := by
      by_contra hneg
      have hnil := h.neg (by omega)
      rw [State.waiters, hq] at hnil
      exact absurd hnil (by simp)
    have hlen : s.int = (l.length : Int) + 1 := by
      rw [h.nonneg hnonneg, State.waiters, hq, List.length_cons]
      rfl
    refine ⟨⟨fun _ => ?_, fun hneg => ?_⟩, ?_⟩
    · rw [hqueue]
      omega
    · omega
    · rw [hwaits]
      exact h.waits.woken hmem

theorem Inv.condBroadcast (h : Inv s) : Inv (condBroadcast s) := by
  rcases h.waits.wakeupLoop_spec rfl 0 with ⟨w', heq, horder, hempty, -, -, -⟩
  rw [Cond.condBroadcast, condWakeall, schedWakeupAll, heq]
  refine ⟨⟨fun hnonneg => ?_, fun _ => hempty⟩, horder⟩
  have hnil : (w'.queue ()).length = 0 := List.length_eq_zero_iff.2 hempty
  simp only [State.withCount, State.withWaits, State.int, State.waiters, hnil] at hnonneg ⊢
  split_ifs at hnonneg ⊢ with hzero
  · exact absurd hnonneg (by decide)
  · rfl

theorem Inv.wakeup (h : Inv s) {reason : Wakeup} (hok : fits s (.wakeup t reason) = true) :
    Inv (s.withWaits (threadWakeup s.waits t reason).2) := by
  by_cases hmem : t ∈ s.waiters
  · -- the reason is none that a thread is woken for
    have hinvalid : reason ≠ .normal ∧ reason ≠ .signal ∧ reason ≠ .timeout := by
      simpa [fits, hmem, and_assoc] using hok
    rw [threadWakeup, if_pos hinvalid]
    exact h
  · have hqueue : (threadWakeup s.waits t reason).2.queue = s.waits.queue :=
      Orderly.threadWakeup_queue fun _ => hmem
    exact h.withWaits (h.waits.threadWakeup t reason) (congrFun hqueue ())

/-- The step lemma. -/
theorem Inv.step_safe (h : Inv s) (a : Act T) (hok : fits s a = true) :
    Safe (fun _ => False) (step s a) Inv := by
  cases a with
  | wait t =>
    rw [step]
    split_ifs with hout
    · exact h.condWait hok hout
    · exact h
  | resume t =>
    rw [step]
    split_ifs
    · exact h.resume
    · exact h
  | signal => exact h.condSignal (by simpa [fits] using hok)
  | broadcast => exact h.condBroadcast
  | wakeup t reason => exact h.wakeup hok
  | cancel t => exact h.withWaits h.waits.cancel rfl
  | pending t reason =>
    rw [step]
    split_ifs
    · exact h.withWaits h.waits.setWakeup rfl
    · exact h

/-! ### Signals that nobody waits for -/

structure Pending (s : State T) : Prop extends Inv s where
  remembered : s.int < 0

theorem Pending.step_safe (h : Pending s) (a : Act T) (hwait : a.noWait = true)
    (hok : fits s a = true) : Safe (fun _ => False) (step s a) Pending := by
  have hinv := h.toInv.step_safe a hok
  have hint : Safe (fun _ => False) (step s a) fun s' => s'.int < 0 := by
    cases a with
    | wait t => exact absurd hwait (by simp [Act.noWait])
    | resume t =>
      rw [step]
      split_ifs
      · exact h.remembered
      · exact h.remembered
    | signal =>
      have hmin : s.int ≠ -2147483648 := by simpa [fits] using hok
      have hdec : (condSignal s).int = s.int - 1 := int_dec hmin
      have hneg := h.remembered
      change (condSignal s).int < 0
      omega
    | broadcast =>
      have hnil : s.waits.queue () = [] := h.neg h.remembered
      change (condBroadcast s).int < 0
      rw [condBroadcast, condWakeall, schedWakeupAll, hnil]
      exact (by decide : ((-1 : BitVec 64).setWidth 32).toInt < 0)
    | wakeup t reason => exact h.remembered
    | cancel t => exact h.remembered
    | pending t reason =>
      rw [step]
      split_ifs
      · exact h.remembered
      · exact h.remembered
  exact (hinv.and hint).mono fun s' hs => ⟨hs.1, hs.2⟩

theorem Inv.remembers (h : Inv s) : Remembers s := by
  intro hnil hok acts hacts hrun
  have hmin : s.int ≠ -2147483648 := by simpa [fits] using hok
  have hdec : (Cond.condSignal s).int = s.int - 1 := int_dec hmin
  have hpending : Pending (Cond.condSignal s) := by
    refine ⟨h.condSignal hmin, ?_⟩
    rw [hdec]
    by_contra hge
    have hcount := h.nonneg (by omega)
    rw [hnil, List.length_nil] at hcount
    omega
  have hstep : ∀ (s : State T) (a : Act T), Pending s → (a.noWait && fits s a) = true →
      Safe (fun _ => False) (step s a) Pending := by
    intro s a h hok
    rw [Bool.and_eq_true] at hok
    exact h.step_safe a hok.1 hok.2
  refine (Safe.runs hstep hpending (guarded_all hrun hacts)).mono ?_
  exact fun s' h' t => condWait_neg h'.remembered t

theorem inv_condInit (wakeup : T → Wakeup) (canceled : T → Bool) :
    Inv (condInit wakeup canceled) :=
  ⟨⟨fun _ => rfl, fun _ => rfl⟩, orderly_init wakeup canceled⟩

/-- In every interleaving whose steps change the count and the waiters together, the count is the
number of waiters or is negative while there is none, and a signal that finds no waiter is
remembered by the next wait. -/
theorem cond_accounted {T : Type} [DecidableEq T] (wakeup : T → Wakeup) (canceled : T → Bool)
    (acts : List (Act T)) (hrun : guarded step fits (condInit wakeup canceled) acts = true) :
    Safe (fun _ => False) (runs step (condInit wakeup canceled) acts) fun s =>
      Counted s ∧ Remembers s := by
  have hstep : ∀ (s : State T) (a : Act T), Inv s → fits s a = true →
      Safe (fun _ => False) (step s a) Inv := fun s a h hok => h.step_safe a hok
  refine (Safe.runs hstep (inv_condInit wakeup canceled) hrun).mono ?_
  exact fun s h => ⟨h.toCounted, h.remembers⟩

def fresh : State Nat := condInit (fun _ => .none) fun _ => false

theorem cond_accounted_two_waiters :
    let acts := [Act.wait 0, .wait 1, .signal, .resume 0, .broadcast, .resume 1, .signal, .wait 0]
    guarded step fits fresh acts = true ∧
      Safe (fun _ => False) (runs step fresh acts) fun s => Counted s ∧ Remembers s := by
  intro acts
  have hrun : guarded step fits fresh acts = true := by decide +kernel
  exact ⟨hrun, cond_accounted _ _ acts hrun⟩

def interruptedWaiter : State Nat :=
  match runs step fresh [.wait 0, .wakeup 0 .signal, .resume 0] with
  | .ok s => s
  | .error _ => fresh

/-- The count still counts the waiter that a signal has woken; a `cond_signal` that finds no waiter
is then lost, and the next wait sleeps. -/
theorem signal_leaves_count :
    runs step fresh [.wait 0, .wakeup 0 .signal, .resume 0] = .ok interruptedWaiter ∧
    interruptedWaiter.int = 1 ∧ interruptedWaiter.waiters = [] ∧ ¬ Counted interruptedWaiter ∧
    (condWait (condSignal interruptedWaiter) 1).1 = none := by
  have hint : interruptedWaiter.int = 1 := by decide +kernel
  have hnil : interruptedWaiter.waiters = [] := by decide +kernel
  refine ⟨rfl, hint, hnil, fun h => ?_, by decide +kernel⟩
  have hcount := h.nonneg (by omega)
  rw [hint, hnil] at hcount
  exact absurd hcount (by decide)

end Cond
end Sync
end XytherOS
