import XytherOS.Sched.RunQueues

/-!
# Affinity — threads that are bound to some CPUs

`MLFQ_enqueue` looks at the CPUs of a thread with hard affinity, but starts from the CPU it runs on,
and balancing moves slices of a queue without looking at the threads.
-/

namespace XytherOS
namespace Sched

open Function Links Ds

variable {ncpu : Nat} {T : Type} [DecidableEq T] [Fintype T]

/-- The affinity admits the CPU: it is soft, names no CPU at all, or names this one. -/
def CpuAffin.admits (affin : CpuAffin) (c : Fin ncpu) : Bool :=
  !affin.hard || affin.cpuSet = 0 || affin.allows c

/-- A thread with hard affinity is only linked on the CPUs that it names. -/
def Affine (s : State ncpu T) : Prop :=
  ∀ q t, t ∈ nodeSequence s.rq q → (s.thread t).affin.admits q.1 = true

/-! ## Conditions -/

/-- `MLFQ_enqueue` on the CPU `me` finds a CPU that is admitted: this one, or one that is not more
loaded. -/
def placeable (s : State ncpu T) (me : Fin ncpu) (affin : CpuAffin) : Bool :=
  affin.admits me ||
    decide (∃ c : Fin ncpu, affin.allows c = true ∧ mlfqLoad s c ≤ mlfqLoad s me)

/-- At the levels whose locks are free, the threads in the rear half of the queues of `src` admit
`dst`. -/
def movable (s : State ncpu T) (locks : Trylocks) (src dst : Fin ncpu) : Bool :=
  decide (∀ l : Level, locks.free l = true →
    ∀ t ∈ (nodeSequence s.rq (src, l)).drop ((nodeSequence s.rq (src, l)).length / 2),
      (s.thread t).affin.admits dst = true)

def pullFits (s : State ncpu T) (me : Fin ncpu) (locks : Trylocks) : Bool :=
  match (pullTarget s me (List.finRange ncpu) 0 none).2 with
  | none => true
  | some target => movable s locks target me

def pushFits (s : State ncpu T) (me : Fin ncpu) (locks : Trylocks) : Bool :=
  match (pushTarget s me (List.finRange ncpu) 0 none).2 with
  | none => true
  | some target => movable s locks me target

def respects (s : State ncpu T) : Act ncpu T → Bool
  | .enqueue me t => unlinked s t && placeable s me (s.thread t).affin
  | .yield me t _ => (s.thread t).state ≠ .running || placeable s me (s.thread t).affin
  | .pull me locks => pullFits s me locks
  | .push me locks => pushFits s me locks
  | .balance me locks => if overloaded s me then pushFits s me locks else pullFits s me locks
  | .next _ => true
  | .aging _ => true

/-! ## Placement -/

variable {s s' : State ncpu T} {a a' : RunQueue ncpu → List T} {t : T}

theorem leastLoaded_first {least : Nat} {target : Fin ncpu} {cs : List (Fin ncpu)}
    (h : ∀ c ∈ cs, ¬ mlfqLoad s c ≤ least) : leastLoaded s least target cs = target := by
  induction cs with
  | nil => rfl
  | cons c cs ih =>
    rw [leastLoaded, if_neg (h c (by simp))]
    exact ih fun d hd => h d (List.mem_cons_of_mem _ hd)

theorem leastLoaded_mem {least : Nat} {target : Fin ncpu} {cs : List (Fin ncpu)}
    (h : ∃ c ∈ cs, mlfqLoad s c ≤ least) : leastLoaded s least target cs ∈ cs := by
  induction cs generalizing least target with
  | nil => simp at h
  | cons c cs ih =>
    rw [leastLoaded]
    split_ifs with hload
    · by_cases hsome : ∃ c' ∈ cs, mlfqLoad s c' ≤ mlfqLoad s c
      · exact List.mem_cons_of_mem _ (ih hsome)
      · -- `c` stays the choice
        rw [leastLoaded_first fun d hd hle => hsome ⟨d, hd, hle⟩]
        exact List.mem_cons_self
    · refine List.mem_cons_of_mem _ (ih ?_)
      rcases h with ⟨c', hc', hle⟩
      rcases List.mem_cons.1 hc' with rfl | hmem
      · exact absurd hle hload
      · exact ⟨c', hmem, hle⟩

/-- The exact condition under which `MLFQ_enqueue` chooses a CPU that is admitted. -/
theorem mlfqTarget_admits_iff (s : State ncpu T) (me : Fin ncpu) (affin : CpuAffin) :
    affin.admits (mlfqTarget s me affin) = true ↔ placeable s me affin = true := by
  by_cases hhard : affin.hard = true
  swap
  · simp [CpuAffin.admits, placeable, hhard]
  by_cases hempty : affin.cpuSet = 0
  · simp [CpuAffin.admits, placeable, hempty]
  have hiff : ∀ c : Fin ncpu, affin.admits c = affin.allows c := by
    intro c
    rw [CpuAffin.admits, hhard, decide_eq_false hempty]
    rfl
  rw [placeable, hiff, hiff, mlfqTarget, if_pos hhard, Bool.or_eq_true, decide_eq_true_eq]
  by_cases hsome : ∃ c : Fin ncpu, affin.allows c = true ∧ mlfqLoad s c ≤ mlfqLoad s me
  · refine iff_of_true ?_ (.inr hsome)
    have hmem : leastLoaded s (mlfqLoad s me) me
        ((List.finRange ncpu).filter fun c => affin.allows c) ∈
        (List.finRange ncpu).filter fun c => affin.allows c := by
      refine leastLoaded_mem ?_
      rcases hsome with ⟨c, hc, hle⟩
      exact ⟨c, List.mem_filter.2 ⟨List.mem_finRange c, hc⟩, hle⟩
    exact (List.mem_filter.1 hmem).2
  · have hfirst : leastLoaded s (mlfqLoad s me) me
        ((List.finRange ncpu).filter fun c => affin.allows c) = me := by
      refine leastLoaded_first fun c hc hle => ?_
      exact hsome ⟨c, (List.mem_filter.1 hc).2, hle⟩
    rw [hfirst, or_iff_left hsome]

structure Bound (s : State ncpu T) (a : RunQueue ncpu → List T) : Prop extends Inv s a where
  admits : ∀ q t, t ∈ a q → (s.thread t).affin.admits q.1 = true

theorem Bound.affine (h : Bound s a) : Affine s := by
  intro q t ht
  rw [h.sequence_eq] at ht
  exact h.admits q t ht

theorem Bound.placed (h : Bound s a) {q : RunQueue ncpu}
    (hinv : Inv s' (update a q (a q ++ [t])))
    (haffin : ∀ u, (s'.thread u).affin = (s.thread u).affin)
    (hq : (s.thread t).affin.admits q.1 = true) :
    Bound s' (update a q (a q ++ [t])) := by
  refine ⟨hinv, fun p u hu => ?_⟩
  rw [haffin]
  by_cases hp : p = q
  · subst hp
    rw [update_self, List.mem_append, List.mem_singleton] at hu
    rcases hu with hu | rfl
    · exact h.admits p u hu
    · exact hq
  · rw [update_of_ne hp] at hu
    exact h.admits p u hu

theorem Bound.balanced (h : Bound s a) {locks : Trylocks} {src dst : Fin ncpu}
    (hmov : movable s locks src dst = true) (hbal : Balanced locks src dst s a s') :
    ∃ a', Bound s' a' := by
  rcases hbal with ⟨a', hinv, hshift, hthread⟩
  refine ⟨a', hinv, fun q u hu => ?_⟩
  rw [hthread]
  rcases hshift.origin q.1 q.2 u hu with hold | ⟨hdst, hfree, hrear⟩
  · exact h.admits q u hold
  · simp only [movable, decide_eq_true_eq, h.sequence_eq] at hmov
    rw [hdst]
    exact hmov q.2 hfree u hrear

theorem Bound.pull_safe (h : Bound s a) {me : Fin ncpu} {locks : Trylocks}
    (hok : pullFits s me locks = true) :
    Safe (fun _ => False) (mlfqPull s me locks) fun s' => ∃ a', Bound s' a' := by
  rcases h.toInv.mlfqPull me locks with hrun | ⟨target, s', htarget, -, hrun, hbal⟩
  · rw [hrun]
    exact ⟨a, h⟩
  · rw [hrun]
    rw [pullFits, htarget] at hok
    exact h.balanced hok hbal

theorem Bound.push_safe (h : Bound s a) {me : Fin ncpu} {locks : Trylocks}
    (hok : pushFits s me locks = true) :
    Safe (fun _ => False) (mlfqPush s me locks) fun s' => ∃ a', Bound s' a' := by
  rcases h.toInv.mlfqPush me locks with hrun | ⟨target, s', htarget, -, hrun, hbal⟩
  · rw [hrun]
    exact ⟨a, h⟩
  · rw [hrun]
    rw [pushFits, htarget] at hok
    exact h.balanced hok hbal

/-- The step lemma. -/
theorem Bound.step_safe (h : Bound s a) (act : Act ncpu T) (hok : respects s act = true) :
    Safe (fun _ => False) (step s act) fun s' => ∃ a', Bound s' a' := by
  cases act with
  | enqueue me t =>
    rw [respects, Bool.and_eq_true] at hok
    have ht : ∀ q, t ∉ a q := h.unlinked_iff.1 hok.1
    rcases h.toInv.schedEnqueue ht me with ⟨s', hrun, hinv, hthread⟩
    have haffin : ∀ u, (s'.thread u).affin = (s.thread u).affin := by
      rw [hthread]
      exact setThread_affin (by rw [scheduled_eq])
    rw [step, hrun]
    exact ⟨_, h.placed hinv haffin ((mlfqTarget_admits_iff s me _).2 hok.2)⟩
  | next me =>
    rcases h.toInv.nextThread me foreachLevel with ⟨a', hinv, hsub, hthread⟩
    refine ⟨a', hinv, fun q u hu => ?_⟩
    change ((nextThread s me foreachLevel).2.thread u).affin.admits q.1 = true
    rw [(hthread u).1]
    exact h.admits q u (hsub q u hu)
  | yield me t left =>
    rw [step]
    split_ifs with hrunning
    · rcases h.toInv.schedYield hrunning me left with ⟨l, s', hrun, hinv, haffin⟩
      have hplace : placeable s me (s.thread t).affin = true := by
        simpa [respects, hrunning] using hok
      rw [hrun]
      exact ⟨_, h.placed hinv haffin ((mlfqTarget_admits_iff s me _).2 hplace)⟩
    · exact ⟨a, h⟩
  | pull me locks => exact h.pull_safe hok
  | push me locks => exact h.push_safe hok
  | balance me locks =>
    rw [respects] at hok
    rcases mlfqBalance_cases s me locks with ⟨hover, heq⟩ | ⟨hover, heq | heq⟩
    · rw [if_pos hover] at hok
      rw [step, heq]
      exact h.push_safe hok
    · rw [if_neg (by simp [hover])] at hok
      rw [step, heq]
      exact h.pull_safe hok
    · rw [step, heq]
      exact ⟨a, h⟩
  | aging free =>
    rcases h.toInv.agingQueues free _ with ⟨s', a', hrun, haged⟩
    rw [step, mlfqAging, hrun]
    refine ⟨a', haged.inv, fun q u hu => ?_⟩
    rcases haged.cpu q.1 u ⟨q.2, hu⟩ with ⟨l, hl⟩
    rw [haged.affin]
    exact h.admits (q.1, l) u hl

/-- In every run that enqueues a thread with hard affinity on a CPU it names, or while a CPU it
names is not more loaded than the current one, and that moves no slice with a thread that does not
admit the other CPU, every thread stays on the CPUs it names. -/
theorem hard_affinity_respected {ncpu : Nat} {T : Type} [DecidableEq T] [Fintype T]
    (thread : T → Thread ncpu) (quantum : RunQueue ncpu → Nat)
    (hstate : ∀ t, (thread t).state ≠ .ready)
    (hprio : ∀ t, 0 ≤ (thread t).priority ∧ (thread t).priority ≤ mlfqHigh)
    (acts : List (Act ncpu T))
    (hrun : guarded step respects (State.init thread quantum) acts = true) :
    Safe (fun _ => False) (runs step (State.init thread quantum) acts) Affine := by
  have hstep : ∀ (s : State ncpu T) (act : Act ncpu T), (∃ a, Bound s a) →
      respects s act = true →
      Safe (fun _ => False) (step s act) fun s' => ∃ a', Bound s' a' := by
    rintro s act ⟨a, h⟩ hok
    exact h.step_safe act hok
  have hinit : Bound (State.init thread quantum) (fun _ => []) :=
    ⟨inv_init quantum hstate hprio, fun q t ht => absurd ht (by simp)⟩
  refine (Safe.runs hstep ⟨_, hinit⟩ hrun).mono ?_
  rintro s ⟨a, h⟩
  exact h.affine

def boundToSecond : State 2 (Fin 3) :=
  State.init (fun _ => freshThread 2 { hard := true, cpuSet := 2 }) fun _ => 10

/-- A run on the second CPU; the first one finds nobody to take while the locks are busy. -/
def boundRun : List (Act 2 (Fin 3)) :=
  [.enqueue 1 0, .enqueue 1 1, .pull 0 fun _ => (true, false), .next 1, .yield 1 0 3,
    .aging fun _ _ => true]

theorem hard_affinity_respected_second_cpu :
    (∀ t, (boundToSecond.thread t).state ≠ .ready) ∧
    (∀ t, 0 ≤ (boundToSecond.thread t).priority ∧
      (boundToSecond.thread t).priority ≤ mlfqHigh) ∧
    guarded step respects boundToSecond boundRun = true ∧
    Safe (fun _ => False) (runs step boundToSecond boundRun) Affine := by
  have hstate : ∀ t, (boundToSecond.thread t).state ≠ .ready := by decide
  have hprio : ∀ t, 0 ≤ (boundToSecond.thread t).priority ∧
      (boundToSecond.thread t).priority ≤ mlfqHigh := by decide
  have hrun : guarded step respects boundToSecond boundRun = true := by decide +kernel
  exact ⟨hstate, hprio, hrun, hard_affinity_respected _ _ hstate hprio boundRun hrun⟩

def enqueuedOnFirst : State 2 (Fin 3) :=
  outcome (runs step boundToSecond [.enqueue 0 0, .enqueue 0 1]) boundToSecond

/-- The first CPU pulls one of two threads that the second one has enqueued. -/
def pulledToFirst : State 2 (Fin 3) :=
  outcome (runs step boundToSecond [.enqueue 1 0, .enqueue 1 1, .pull 0 allFree]) boundToSecond

theorem not_affine {s : State 2 (Fin 3)} {t : Fin 3} (hmem : t ∈ nodeSequence s.rq (0, 3))
    (haffin : (s.thread t).affin = { hard := true, cpuSet := 2 }) : ¬ Affine s := by
  intro h
  have hadmits := h (0, 3) t hmem
  rw [haffin] at hadmits
  exact absurd hadmits (by decide)

/-- A thread that finds its CPU more loaded than the current one is put on the current one, and
pulling takes a thread to a CPU that it does not name. -/
theorem bound_thread_misplaced :
    runs step boundToSecond [.enqueue 0 0, .enqueue 0 1] = .ok enqueuedOnFirst ∧
    ¬ Affine enqueuedOnFirst ∧
    runs step boundToSecond [.enqueue 1 0, .enqueue 1 1, .pull 0 allFree] = .ok pulledToFirst ∧
    ¬ Affine pulledToFirst := by
  refine ⟨eq_ok_outcome (by decide +kernel), ?_, eq_ok_outcome (by decide +kernel), ?_⟩
  · have hqueue : nodeSequence enqueuedOnFirst.rq (0, 3) = [1] := by decide +kernel
    exact not_affine (by rw [hqueue]; exact List.mem_singleton_self 1) (by decide +kernel)
  · have hqueue : nodeSequence pulledToFirst.rq (0, 3) = [1] := by decide +kernel
    exact not_affine (by rw [hqueue]; exact List.mem_singleton_self 1) (by decide +kernel)

end Sched
end XytherOS
