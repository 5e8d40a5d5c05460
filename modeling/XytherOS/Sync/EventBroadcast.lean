import XytherOS.Sync.Event

/-!
# EventBroadcast — `await_event_broadcast` and the threads it wakes

A broadcast records one signal and wakes all waiters, so none of them is in the queue any more when
the first one runs.  That one finds the queue empty, takes the signal and clears the flag; the
others test the flag after it and wait again.
-/

namespace XytherOS
namespace Sync
namespace Event

variable {T : Type} [DecidableEq T]

def awaitEventBroadcast (s : State T) : State T :=
  let (waiters, w) := schedWakeupAll s.waits () .normal
  { s with
    count := s.count + 1
    triggered := true
    broadcast := s.broadcast || decide (0 < waiters)
    waits := w }

/-- A thread that has been woken runs up to its next test of the flag; the answer is `none` when it
goes on to wait again. -/
def resumeWoken (s : State T) (t : T) (expired : Bool) : Option Ret × State T :=
  match s.pc t with
  | .waiting timed => resume s t timed expired
  | _ => (none, s)

/-- The woken threads run one after the other, with what each of them answers and, for each, what
its deadline has come to. -/
def runWoken (s : State T) : List (T × Bool) → List (Option Ret)
  | [] => []
  | (t, expired) :: l =>
    let (answer, s) := resumeWoken s t expired
    answer :: runWoken s l

/-- After a broadcast all threads that were asleep return 0 without another wait, in whatever order
they run. -/
def BroadcastReleases (s : State T) : Prop :=
  ∀ order : List (T × Bool), (order.map Prod.fst).Perm s.waiters →
    ∀ answer ∈ runWoken (awaitEventBroadcast s) order, answer = some .ok

variable {s : State T} {t : T}

/-! ## The flag after the first thread -/

theorem resumeWoken_clear (hflag : s.triggered = false) (t : T) (expired : Bool) :
    (resumeWoken s t expired).1 ≠ some .ok ∧ (resumeWoken s t expired).2.triggered = false := by
  rw [resumeWoken]
  cases hpc : s.pc t with
  | idle => exact ⟨by simp, hflag⟩
  | gap timed => exact ⟨by simp, hflag⟩
  | waiting timed =>
    simp only [resume]
    rcases schedWaitLeave s.waits t with ⟨_ | e, w⟩
    · -- not interrupted: the thread tests the flag
      simp only [hflag, Bool.false_eq_true, if_false]
      by_cases hlate : (timed && expired) = true
      · rw [if_pos hlate]
        exact ⟨by simp, hflag⟩
      · rw [if_neg hlate]
        exact ⟨by simp, hflag⟩
    · exact ⟨by simp, hflag⟩

theorem Placed.resume_first (h : Placed s) (hcount : s.count = 0) (ht : t ∈ s.waiters)
    (expired : Bool) :
    (resumeWoken (awaitEventBroadcast s) t expired).1 = some .ok ∧
      (resumeWoken (awaitEventBroadcast s) t expired).2.triggered = false := by
  rcases h.waits.wakeupLoop_spec (q := ()) rfl 0 with ⟨w, heq, -, hempty, -, hready, -⟩
  have hwake : schedWakeupAll s.waits () .normal = (s.waiters.length, w) := by
    rw [schedWakeupAll, heq, Nat.zero_add]
    rfl
  have hpos : 0 < s.waiters.length := List.length_pos_of_mem ht
  have hcast : awaitEventBroadcast s =
      { s with count := s.count + 1, triggered := true, broadcast := true, waits := w } := by
    rw [awaitEventBroadcast, hwake]
    simp only [hpos, decide_true, Bool.or_true]
  have hwaiting := h.queued t ht
  have hcalm : w.interrupted t = false := by
    have hbefore := h.calm t hwaiting
    rw [Waits.interrupted] at hbefore ⊢
    rw [hready t ht]
    simp only [Bool.or_eq_false_iff] at hbefore
    simp [hbefore.1.1]
  have hleave : schedWaitLeave w t = (.ok, w.setWakeup t .none) := by
    rw [schedWaitLeave, currentCheckInterrupted, if_neg (by simp [hcalm])]
  have hnone : (w.setWakeup t .none).queue () = [] := hempty
  rw [hcast, resumeWoken]
  cases hpc : s.pc t with
  | idle => simp [hpc, Pc.isWaiting] at hwaiting
  | gap timed => simp [hpc, Pc.isWaiting] at hwaiting
  | waiting timed =>
    -- the queue is empty, so the one signal of the broadcast is taken
    simp [resume, hleave, State.takeWoken, State.waiters, State.withWaits, State.setPc,
      State.take, hnone, hcount]

/-! ## The runs of the woken threads -/

theorem runWoken_clear (hflag : s.triggered = false) (order : List (T × Bool)) :
    ∀ answer ∈ runWoken s order, answer ≠ some .ok := by
  induction order generalizing s with
  | nil => simp [runWoken]
  | cons x order ih =>
    rcases x with ⟨t, expired⟩
    rcases resumeWoken_clear hflag t expired with ⟨hanswer, hflag'⟩
    intro answer hmem
    rcases List.mem_cons.1 hmem with rfl | hmem
    · exact hanswer
    · exact ih hflag' answer hmem

/-- On an event with no recorded signals a broadcast releases all sleeping threads, in any order, if
and only if there is at most one of them. -/
theorem broadcast_releases_iff {T : Type} [DecidableEq T] {s : State T} (h : Placed s)
    (hcount : s.count = 0) :
    BroadcastReleases s ↔ s.waiters.length ≤ 1 := by
  constructor
  · intro hall
    by_contra hmany
    obtain ⟨t, u, l, hw⟩ : ∃ t u l, s.waiters = t :: u :: l := by
      rcases hw : s.waiters with _ | ⟨t, _ | ⟨u, l⟩⟩
      · simp [hw] at hmany
      · simp [hw] at hmany
      · exact ⟨t, u, l, rfl⟩
    -- they run as they stand in the queue; the second one finds the flag cleared
    have hrun := hall (s.waiters.map fun t => (t, false)) (by simp [Function.comp_def])
    rcases h.resume_first hcount (by simp [hw] : t ∈ s.waiters) false with
      ⟨-, hclear⟩
    rw [hw] at hrun
    refine runWoken_clear hclear ((u :: l).map fun t => (t, false)) _ (List.mem_cons_self ..)
      (hrun _ ?_)
    exact List.mem_cons_of_mem _ (List.mem_cons_self ..)
  · intro hle order hperm answer hmem
    have hlen : order.length = s.waiters.length := by simpa using hperm.length_eq
    cases order with
    | nil => simp [runWoken] at hmem
    | cons x order =>
      rcases x with ⟨t, expired⟩
      have hnil : order = [] := by
        rw [List.length_cons] at hlen
        exact List.eq_nil_of_length_eq_zero (by omega)
      have ht : t ∈ s.waiters := hperm.mem_iff.1 (by simp)
      rw [hnil] at hmem
      obtain rfl := List.mem_singleton.1 hmem
      exact (h.resume_first hcount ht expired).1

def oneAsleep : State (Fin 3) :=
  outcome (runs step fresh [.await 0 false false, .enqueue 0]) fresh

def twoAsleep : State (Fin 3) :=
  outcome (runs step fresh
    [.await 0 false false, .enqueue 0, .await 1 false false, .enqueue 1]) fresh

theorem placed_of_run {acts : List (Act (Fin 3))} {s : State (Fin 3)}
    (hok : guarded step fits fresh acts = true) (hrun : runs step fresh acts = .ok s) :
    Placed s := by
  have hstep : ∀ (s : State (Fin 3)) (a : Act (Fin 3)), Inv s → fits s a = true →
      Safe (fun _ => False) (step s a) Inv := fun s a h hfit => h.step_safe a hfit
  exact ((Safe.runs hstep (inv_awaitEventInit _ _) hok).of_eq_ok hrun).toPlaced

theorem broadcast_releases_iff_one_asleep :
    oneAsleep.waiters = [0] ∧ BroadcastReleases oneAsleep := by
  have hplaced : Placed oneAsleep :=
    placed_of_run (by decide +kernel) (eq_ok_outcome (by decide +kernel))
  exact ⟨by decide +kernel,
    (broadcast_releases_iff hplaced (by decide +kernel)).2 (by decide +kernel)⟩

/-- Of two threads the one that runs second is not released. -/
theorem broadcast_releases_only_first :
    Placed twoAsleep ∧ twoAsleep.waiters = [0, 1] ∧ twoAsleep.count = 0 ∧
    twoAsleep.triggered = false ∧
    runWoken (awaitEventBroadcast twoAsleep) [(0, false), (1, false)] = [some .ok, none] ∧
    ¬ BroadcastReleases twoAsleep := by
  have hplaced : Placed twoAsleep :=
    placed_of_run (by decide +kernel) (eq_ok_outcome (by decide +kernel))
  have hwaiters : twoAsleep.waiters = [0, 1] := by decide +kernel
  have hrun : runWoken (awaitEventBroadcast twoAsleep) [(0, false), (1, false)] =
      [some .ok, none] := by decide +kernel
  refine ⟨hplaced, hwaiters, by decide +kernel, by decide +kernel, hrun, fun hall => ?_⟩
  have hanswers := hall [(0, false), (1, false)] (by rw [hwaiters]; rfl)
  rw [hrun] at hanswers
  exact absurd (hanswers none (by simp)) (by simp)

end Event
end Sync
end XytherOS
