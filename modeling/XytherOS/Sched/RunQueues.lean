import Mathlib.Data.Fintype.Prod
import XytherOS.Sched.Mlfq

/-!
# RunQueues — no thread that is able to run is lost

The run queues are lists of threads, as proved with their links: the invariant relates the state to
these lists.  Balancing moves a slice from one CPU to another within a level, aging moves one
thread from one level to the next within a CPU.
-/

namespace XytherOS
namespace Sched

open Function Links Ds

variable {ncpu : Nat} {T : Type} [DecidableEq T] [Fintype T]

/-- Every ready thread is linked once, in one run queue, at the level of its priority; nothing else
is linked, and all priorities are those of a level. -/
structure Conserved (s : State ncpu T) : Prop where
  linked : ∀ q, WellLinked s.rq q
  once : ∀ q, (nodeSequence s.rq q).Nodup
  ready : ∀ t, (s.thread t).state = .ready → ∃! q, t ∈ nodeSequence s.rq q
  level : ∀ q t, t ∈ nodeSequence s.rq q →
    (s.thread t).state = .ready ∧ (s.thread t).priority = q.2.val
  priority : ∀ t, 0 ≤ (s.thread t).priority ∧ (s.thread t).priority ≤ mlfqHigh

def unlinked (s : State ncpu T) (t : T) : Bool := decide (∀ q, t ∉ nodeSequence s.rq q)

def enqueuesUnlinked (s : State ncpu T) : Act ncpu T → Bool
  | .enqueue _ t => unlinked s t
  | _ => true

/-- The run queues are the lists `a`, which hold the ready threads at their levels. -/
structure Inv (s : State ncpu T) (a : RunQueue ncpu → List T) : Prop where
  rq : Ds.Inv s.rq a
  ready : ∀ t, (s.thread t).state = .ready → ∃ q, t ∈ a q
  level : ∀ q t, t ∈ a q → (s.thread t).state = .ready ∧ (s.thread t).priority = q.2.val
  priority : ∀ t, 0 ≤ (s.thread t).priority ∧ (s.thread t).priority ≤ mlfqHigh

variable {s s' : State ncpu T} {a a' : RunQueue ncpu → List T} {t : T} {q : RunQueue ncpu}

theorem Inv.sequence_eq (h : Inv s a) (q : RunQueue ncpu) : nodeSequence s.rq q = a q :=
  (h.rq.holds q).nodeSequence_eq

theorem Inv.conserved (h : Inv s a) : Conserved s := by
  refine ⟨fun q => (h.rq.holds q).wellLinked, fun q => ?_, fun t ht => ?_, fun q t ht => ?_,
    h.priority⟩
  · rw [h.sequence_eq]
    exact (h.rq.holds q).chain.nodup
  · rcases h.ready t ht with ⟨q, hq⟩
    have hmem : ∀ q', t ∈ nodeSequence s.rq q' ↔ t ∈ a q' := fun q' => by rw [h.sequence_eq]
    exact ⟨q, (hmem q).2 hq, fun q' hq' => h.rq.apart q' q t ((hmem q').1 hq') hq⟩
  · rw [h.sequence_eq] at ht
    exact h.level q t ht

theorem Inv.unlinked_iff (h : Inv s a) : unlinked s t = true ↔ ∀ q, t ∉ a q := by
  simp only [unlinked, decide_eq_true_eq, h.sequence_eq]

theorem inv_init {thread : T → Thread ncpu} (quantum : RunQueue ncpu → Nat)
    (hstate : ∀ t, (thread t).state ≠ .ready)
    (hprio : ∀ t, 0 ≤ (thread t).priority ∧ (thread t).priority ≤ mlfqHigh) :
    Inv (State.init thread quantum) (fun _ => []) := by
  refine ⟨Ds.inv_init, fun t ht => absurd ht (hstate t), fun q t ht => ?_, hprio⟩
  exact absurd ht (by simp)

theorem setThread_thread (s : State ncpu T) (t u : T) (th : Thread ncpu) :
    (s.setThread t th).thread u = if u = t then th else s.thread u := by
  simp [State.setThread, update_apply]

theorem Inv.relink (h : Inv s a) (hrq : Ds.Inv s'.rq a') (hthread : s'.thread = s.thread)
    (hlevel : ∀ l t, (∃ c, t ∈ a' (c, l)) ↔ ∃ c, t ∈ a (c, l)) : Inv s' a' := by
  refine ⟨hrq, fun t ht => ?_, fun q t ht => ?_, ?_⟩
  · rw [hthread] at ht
    rcases h.ready t ht with ⟨⟨c, l⟩, hq⟩
    rcases (hlevel l t).2 ⟨c, hq⟩ with ⟨c', hc'⟩
    exact ⟨(c', l), hc'⟩
  · rcases (hlevel q.2 t).1 ⟨q.1, ht⟩ with ⟨c, hc⟩
    rw [hthread]
    exact h.level (c, q.2) t hc
  · rw [hthread]
    exact h.priority

variable {th : Thread ncpu} {rq : Queues (RunQueue ncpu) T}

theorem Inv.setThread (h : Inv s a) (hstate : th.state = (s.thread t).state)
    (hprio : th.priority = (s.thread t).priority) : Inv (s.setThread t th) a := by
  have hsame : ∀ u, ((s.setThread t th).thread u).state = (s.thread u).state ∧
      ((s.setThread t th).thread u).priority = (s.thread u).priority := by
    intro u
    rw [setThread_thread]
    split_ifs with hu
    · rw [hu]
      exact ⟨hstate, hprio⟩
    · exact ⟨rfl, rfl⟩
  refine ⟨h.rq, fun u hu => ?_, fun q u hu => ?_, fun u => ?_⟩
  · rw [(hsame u).1] at hu
    exact h.ready u hu
  · rw [(hsame u).1, (hsame u).2]
    exact h.level q u hu
  · rw [(hsame u).2]
    exact h.priority u

theorem Inv.setUnlinked (h : Inv s a) (ht : ∀ q, t ∉ a q)
    (hstate : th.state ≠ .ready) (hprio : 0 ≤ th.priority ∧ th.priority ≤ mlfqHigh) :
    Inv (s.setThread t th) a := by
  refine ⟨h.rq, fun u hu => ?_, fun q u hu => ?_, fun u => ?_⟩
  · rw [setThread_thread] at hu
    split_ifs at hu with hut
    · exact absurd hu hstate
    · exact h.ready u hu
  · have hut : u ≠ t := by
      rintro rfl
      exact ht q hu
    rw [setThread_thread, if_neg hut]
    exact h.level q u hu
  · rw [setThread_thread]
    split_ifs
    · exact hprio
    · exact h.priority u

/-! ## Enqueuing and dequeuing -/

theorem enqueue_refines (h : Ds.Inv rq a) (ht : ∀ q, t ∉ a q)
    (q : RunQueue ncpu) :
    ∃ rq', embeddedEnqueue rq q t .unique = .ok (.ok, rq') ∧
      Ds.Inv rq' (update a q (a q ++ [t])) := by
  rcases enqueueWhence_refines h ht q .unique .tail with ⟨rq', hrun, hinv⟩
  have hlist : listEnqueue a q t .unique .tail = (.ok, update a q (a q ++ [t])) := by
    rw [listEnqueue, if_neg (fun hmem => ht q hmem.2)]
    rfl
  rw [hlist] at hrun hinv
  exact ⟨rq', hrun, hinv⟩

theorem leastLoaded_congr (hrq : s'.rq = s.rq) (least : Nat) (target : Fin ncpu)
    (cs : List (Fin ncpu)) : leastLoaded s' least target cs = leastLoaded s least target cs := by
  have hload : ∀ c, mlfqLoad s' c = mlfqLoad s c := by
    intro c
    simp only [mlfqLoad, queueLength, hrq]
  induction cs generalizing least target with
  | nil => rfl
  | cons c cs ih =>
    simp only [leastLoaded, hload, ih]

theorem mlfqTarget_congr (hrq : s'.rq = s.rq) (me : Fin ncpu) (affin : CpuAffin) :
    mlfqTarget s' me affin = mlfqTarget s me affin := by
  have hload : mlfqLoad s' me = mlfqLoad s me := by
    simp only [mlfqLoad, queueLength, hrq]
  simp only [mlfqTarget, mlfqLeastLoaded, hload, leastLoaded_congr hrq]

theorem threadSetPrio_high (th : Thread ncpu) :
    threadSetPrio th mlfqHigh = { th with priority := mlfqHigh } := by
  rw [threadSetPrio, if_neg (by simp [mlfqHigh])]

theorem mlfqGetLevel_val (l : Level) : mlfqGetLevel (l.val : Int) = some l := by
  have hlt := l.isLt
  rw [mlfqGetLevel, dif_pos ⟨by omega, by unfold mlfqHigh; omega⟩]
  simp

theorem setThread_affin (haffin : th.affin = (s.thread t).affin) (u : T) :
    ((s.setThread t th).thread u).affin = (s.thread u).affin := by
  rw [setThread_thread]
  split_ifs with hut
  · rw [hut, haffin]
  · rfl

theorem Inv.mlfqEnqueue (h : Inv s a) (ht : ∀ q, t ∉ a q) (me : Fin ncpu)
    {l : Level} (hstate : th.state = .ready) (hprio : th.priority = l.val)
    (haffin : th.affin = (s.thread t).affin) :
    ∃ s', mlfqEnqueue (s.setThread t th) me t = .ok (.ok, s') ∧
      Inv s' (update a (mlfqTarget s me (s.thread t).affin, l)
        (a (mlfqTarget s me (s.thread t).affin, l) ++ [t])) ∧
      s'.thread = (s.setThread t th).thread := by
  generalize hq : (mlfqTarget s me (s.thread t).affin, l) = q
  rcases enqueue_refines h.rq ht q with ⟨rq', hrun, hinv⟩
  generalize hs1 : s.setThread t th = s₁
  have hthread : ∀ u, s₁.thread u = if u = t then th else s.thread u := by
    intro u
    rw [← hs1, setThread_thread]
  have hrq : s₁.rq = s.rq := by
    rw [← hs1]
    rfl
  have hself : s₁.thread t = th := by rw [hthread, if_pos rfl]
  refine ⟨{ s₁ with rq := rq' }, ?_, ⟨hinv, fun u hu => ?_, fun q' u hu => ?_, fun u => ?_⟩, rfl⟩
  · rw [Sched.mlfqEnqueue, hself, hprio, mlfqGetLevel_val]
    simp only
    rw [haffin, mlfqTarget_congr hrq, hq, hrq, hrun]
    rfl
  · -- the thread itself is in `q` now, the others are where they were
    by_cases hut : u = t
    · exact ⟨q, by simp [hut]⟩
    · have hready : (s.thread u).state = .ready := by
        have hst : ((s₁.thread u).state) = .ready := hu
        rwa [hthread, if_neg hut] at hst
      rcases h.ready u hready with ⟨q', hq'⟩
      refine ⟨q', ?_⟩
      by_cases hqq : q' = q
      · subst hqq
        simp [hq']
      · rwa [update_of_ne hqq]
  · change (s₁.thread u).state = .ready ∧ (s₁.thread u).priority = q'.2.val
    by_cases hqq : q' = q
    · subst hqq
      rw [update_self, List.mem_append, List.mem_singleton] at hu
      by_cases hut : u = t
      · rw [hut, hself, ← hq]
        exact ⟨hstate, hprio⟩
      · rw [hthread, if_neg hut]
        exact h.level q' u (hu.resolve_right hut)
    · rw [update_of_ne hqq] at hu
      have hut : u ≠ t := by
        rintro rfl
        exact ht q' hu
      rw [hthread, if_neg hut]
      exact h.level q' u hu
  · change 0 ≤ (s₁.thread u).priority ∧ (s₁.thread u).priority ≤ mlfqHigh
    rw [hthread]
    split_ifs
    · have hlt := l.isLt
      rw [hprio]
      unfold mlfqHigh
      omega
    · exact h.priority u

def scheduled (th : Thread ncpu) : Thread ncpu :=
  { threadSetPrio th mlfqHigh with state := .ready }

theorem scheduled_eq (th : Thread ncpu) :
    scheduled th = { th with priority := mlfqHigh, state := .ready } := by
  rw [scheduled, threadSetPrio_high]

theorem Inv.schedEnqueue (h : Inv s a) (ht : ∀ q, t ∉ a q) (me : Fin ncpu) :
    ∃ s', schedEnqueue s me t = .ok (.ok, s') ∧
      Inv s' (update a (mlfqTarget s me (s.thread t).affin, 3)
        (a (mlfqTarget s me (s.thread t).affin, 3) ++ [t])) ∧
      s'.thread = (s.setThread t (scheduled (s.thread t))).thread := by
  have hsched := scheduled_eq (s.thread t)
  have hstate : (scheduled (s.thread t)).state = .ready := by rw [hsched]
  have hprio : (scheduled (s.thread t)).priority = ((3 : Level).val : Int) := by
    rw [hsched]
    rfl
  have haffin : (scheduled (s.thread t)).affin = (s.thread t).affin := by rw [hsched]
  exact h.mlfqEnqueue ht me hstate hprio haffin

theorem schedLeave_keeps (th : Thread ncpu) :
    (schedLeave th).state = th.state ∧ (schedLeave th).affin = th.affin := by
  simp only [schedLeave, schedDemoteThread, schedPromoteThread]
  split_ifs <;> exact ⟨rfl, rfl⟩

theorem schedLeave_priority (h : 0 ≤ th.priority ∧ th.priority ≤ mlfqHigh) :
    0 ≤ (schedLeave th).priority ∧ (schedLeave th).priority ≤ mlfqHigh := by
  have hdemote : 0 ≤ (schedDemoteThread th).priority ∧
      (schedDemoteThread th).priority ≤ mlfqHigh := by
    rw [schedDemoteThread]
    split_ifs with hlong
    · exact ⟨by simp only; omega, by simp only; omega⟩
    · exact h
  have hpromote : 0 ≤ (schedPromoteThread th).priority ∧
      (schedPromoteThread th).priority ≤ mlfqHigh := by
    rw [schedPromoteThread]
    split_ifs with hshort
    · exact ⟨by simp only; omega, by simp only; omega⟩
    · exact h
  rw [schedLeave]
  split_ifs
  · exact ⟨by simp [mlfqHigh], le_refl mlfqHigh⟩
  · exact hdemote
  · exact hpromote

theorem Inv.schedYield (h : Inv s a) (hrunning : (s.thread t).state = .running) (me : Fin ncpu)
    (left : Nat) :
    ∃ (l : Level) (s' : State ncpu T), schedYield s me t left = .ok s' ∧
      Inv s' (update a (mlfqTarget s me (s.thread t).affin, l)
        (a (mlfqTarget s me (s.thread t).affin, l) ++ [t])) ∧
      ∀ u, (s'.thread u).affin = (s.thread u).affin := by
  have ht : ∀ q, t ∉ a q := by
    intro q hmem
    have hready := (h.level q t hmem).1
    rw [hrunning] at hready
    exact absurd hready (by simp)
  generalize hth : schedLeave { s.thread t with timeslice := left, state := .ready } = th
  have hkeeps := schedLeave_keeps { s.thread t with timeslice := left, state := .ready }
  have hbound : 0 ≤ th.priority ∧ th.priority ≤ mlfqHigh := by
    rw [← hth]
    exact schedLeave_priority (h.priority t)
  rw [hth] at hkeeps
  have hlt : th.priority.toNat < 4 := by
    unfold mlfqHigh at hbound
    omega
  have hprio : th.priority = ((⟨th.priority.toNat, hlt⟩ : Level).val : Int) := by
    simp only
    omega
  rcases h.mlfqEnqueue ht me hkeeps.1 hprio hkeeps.2 with ⟨s', hrun, hinv, hthread⟩
  refine ⟨⟨th.priority.toNat, hlt⟩, s', ?_, hinv, fun u => ?_⟩
  · rw [Sched.schedYield, hth, hrun]
    rfl
  · rw [hthread]
    exact setThread_affin hkeeps.2 u

theorem Inv.dequeue (h : Inv s a) {l : List T} (hq : a q = t :: l)
    (hstate : th.state = .running) (hprio : th.priority = (s.thread t).priority) :
    Inv (({ s with rq := unlinkNode s.rq q t } : State ncpu T).setThread t th)
      (update a q l) := by
  have hmem : t ∈ a q := by simp [hq]
  have hrq := unlink_refines h.rq hmem
  rw [hq, List.erase_cons_head] at hrq
  have hnd := (h.rq.holds q).chain.nodup
  rw [hq, List.nodup_cons] at hnd
  -- the other threads stay in their queues
  have hiff : ∀ q' u, u ≠ t → (u ∈ update a q l q' ↔ u ∈ a q') := by
    intro q' u hut
    by_cases hqq : q' = q
    · subst hqq
      rw [update_self, hq, List.mem_cons, or_iff_right hut]
    · rw [update_of_ne hqq]
  have hout : ∀ q', t ∉ update a q l q' := by
    intro q' ht
    by_cases hqq : q' = q
    · subst hqq
      rw [update_self] at ht
      exact hnd.1 ht
    · rw [update_of_ne hqq] at ht
      exact hqq (h.rq.apart q' q t ht hmem)
  refine ⟨hrq, fun u hu => ?_, fun q' u hu => ?_, fun u => ?_⟩
  · rw [setThread_thread] at hu
    split_ifs at hu with hut
    · rw [hstate] at hu
      exact absurd hu (by simp)
    · rcases h.ready u hu with ⟨q', hq'⟩
      exact ⟨q', (hiff q' u hut).2 hq'⟩
  · have hut : u ≠ t := by
      rintro rfl
      exact hout q' hu
    rw [setThread_thread, if_neg hut]
    exact h.level q' u ((hiff q' u hut).1 hu)
  · rw [setThread_thread]
    split_ifs
    · rw [hprio]
      exact h.priority t
    · exact h.priority u

theorem Inv.nextThread (h : Inv s a) (me : Fin ncpu) (levels : List Level) :
    ∃ a', Inv (nextThread s me levels).2 a' ∧ (∀ q t, t ∈ a' q → t ∈ a q) ∧
      ∀ u, ((nextThread s me levels).2.thread u).affin = (s.thread u).affin ∧
        ((nextThread s me levels).2.thread u = s.thread u ∨
          (s.thread u).state = .ready ∧
            ((nextThread s me levels).2.thread u).state = .running) := by
  induction levels with
  | nil => exact ⟨a, h, fun _ _ ht => ht, fun _ => ⟨rfl, .inl rfl⟩⟩
  | cons level levels ih =>
    have hhead := (h.rq.holds (me, level)).head
    cases hq : a (me, level) with
    | nil =>
      rw [hq] at hhead
      simp only [Sched.nextThread, hhead, List.head?_nil]
      exact ih
    | cons t l =>
      rw [hq] at hhead
      have hready := (h.level (me, level) t (by simp [hq])).1
      simp only [Sched.nextThread, hhead, List.head?_cons]
      refine ⟨update a (me, level) l, h.dequeue hq rfl rfl, fun q u hu => ?_,
        fun u => ?_⟩
      · by_cases hqq : q = (me, level)
        · subst hqq
          rw [update_self] at hu
          simp [hq, hu]
        · rwa [update_of_ne hqq] at hu
      · rw [setThread_thread]
        split_ifs with hut
        · rw [hut]
          exact ⟨rfl, .inr ⟨hready, rfl⟩⟩
        · exact ⟨rfl, .inl rfl⟩

/-! ## Slices between CPUs -/

def Trylocks.free (locks : Trylocks) (l : Level) : Bool := (locks l).1 && (locks l).2

def allFree : Trylocks := fun _ => (true, true)

/-- From `a` to `a'` threads moved from the rear half of the queues of `src` to `dst`, each within
its level. -/
structure Shift (locks : Trylocks) (src dst : Fin ncpu) (a a' : RunQueue ncpu → List T) :
    Prop where
  level : ∀ l t, (∃ c, t ∈ a' (c, l)) ↔ ∃ c, t ∈ a (c, l)
  origin : ∀ c l t, t ∈ a' (c, l) → t ∈ a (c, l) ∨
    c = dst ∧ locks.free l = true ∧ t ∈ (a (src, l)).drop ((a (src, l)).length / 2)

theorem Shift.refl (locks : Trylocks) (src dst : Fin ncpu) (a : RunQueue ncpu → List T) :
    Shift locks src dst a a :=
  ⟨fun _ _ => Iff.rfl, fun _ _ _ ht => .inl ht⟩

variable {locks : Trylocks} {src dst : Fin ncpu} {level : Level} {n : Nat} {w : Whence}

theorem mem_listMigrate {pos : Nat} {c : Fin ncpu} :
    t ∈ listMigrate a (dst, level) (src, level) pos n w (c, level) ↔
      if c = dst then t ∈ a (dst, level) ∨ t ∈ ((a (src, level)).drop pos).take n
      else if c = src then
        t ∈ (a (src, level)).take pos ∨ t ∈ (a (src, level)).drop (pos + n)
      else t ∈ a (c, level) := by
  rw [listMigrate]
  by_cases hdst : c = dst
  · rw [hdst, update_self, mem_listJoin, if_pos rfl]
  · rw [update_of_ne (by simp [hdst]), if_neg hdst]
    by_cases hsrc : c = src
    · rw [hsrc, update_self, List.mem_append, if_pos rfl]
    · rw [update_of_ne (by simp [hsrc]), if_neg hsrc]

theorem listMigrate_of_ne {pos : Nat} {c : Fin ncpu} {l : Level} (hl : l ≠ level) :
    listMigrate a (dst, level) (src, level) pos n w (c, l) = a (c, l) := by
  rw [listMigrate, update_of_ne (by simp [hl]), update_of_ne (by simp [hl])]

theorem mem_slices (l : List T) (pos n : Nat) :
    t ∈ l ↔ t ∈ l.take pos ∨ t ∈ (l.drop pos).take n ∨ t ∈ l.drop (pos + n) := by
  calc t ∈ l
      ↔ t ∈ l.take pos ++ l.drop pos := by rw [List.take_append_drop]
    _ ↔ t ∈ l.take pos ∨ t ∈ l.drop pos := List.mem_append
    _ ↔ t ∈ l.take pos ∨ t ∈ (l.drop pos).take n ++ (l.drop pos).drop n := by
        rw [List.take_append_drop]
    _ ↔ t ∈ l.take pos ∨ t ∈ (l.drop pos).take n ∨ t ∈ l.drop (pos + n) := by
        rw [List.mem_append, List.drop_drop]

theorem Shift.migrate (h : Shift locks src dst a a') (hne : dst ≠ src)
    (hfree : locks.free level = true) (hsame : ∀ c, a' (c, level) = a (c, level)) :
    Shift locks src dst a (listMigrate a' (dst, level) (src, level)
      ((a' (src, level)).length / 2) n w) := by
  refine ⟨fun l t => ?_, fun c l t ht => ?_⟩
  · by_cases hl : l = level
    · subst hl
      rw [← h.level]
      constructor
      · rintro ⟨c, hc⟩
        rw [mem_listMigrate] at hc
        split_ifs at hc with hdst hsrc
        · rcases hc with hc | hc
          · exact ⟨dst, hc⟩
          · exact ⟨src, (mem_slices _ _ n).2 (.inr (.inl hc))⟩
        · exact ⟨src, (mem_slices _ _ n).2 (hc.imp_right .inr)⟩
        · exact ⟨c, hc⟩
      · rintro ⟨c, hc⟩
        by_cases hsrc : c = src
        · subst hsrc
          rcases (mem_slices _ ((a' (c, l)).length / 2) n).1 hc with hfront | hslice | hback
          · exact ⟨c, by simp [mem_listMigrate, hne.symm, hfront]⟩
          · exact ⟨dst, by simp [mem_listMigrate, hslice]⟩
          · exact ⟨c, by simp [mem_listMigrate, hne.symm, hback]⟩
        · refine ⟨c, ?_⟩
          by_cases hdst : c = dst
          · subst hdst
            simp [mem_listMigrate, hc]
          · simp [mem_listMigrate, hdst, hsrc, hc]
    · have hother : ∀ c, listMigrate a' (dst, level) (src, level)
          ((a' (src, level)).length / 2) n w (c, l) = a' (c, l) := fun c => listMigrate_of_ne hl
      simp only [hother]
      exact h.level l t
  · by_cases hl : l = level
    · subst hl
      rw [mem_listMigrate] at ht
      simp only [hsame] at ht
      split_ifs at ht with hdst hsrc
      · rcases ht with ht | ht
        · exact .inl (hdst ▸ ht)
        · exact .inr ⟨hdst, hfree, List.mem_of_mem_take ht⟩
      · exact .inl (hsrc ▸ (mem_slices _ _ n).2 (ht.imp_right .inr))
      · exact .inl ht
    · rw [listMigrate_of_ne hl] at ht
      exact h.origin c l t ht

/-- In the middle of balancing: at the levels that are left nothing has moved yet. -/
structure Midway (locks : Trylocks) (src dst : Fin ncpu) (s₀ : State ncpu T)
    (a₀ : RunQueue ncpu → List T) (levels : List Level) (s : State ncpu T) (a : RunQueue ncpu → List T) : Prop where
  inv : Inv s a
  shift : Shift locks src dst a₀ a
  untouched : ∀ l, l ∈ levels → ∀ c, a (c, l) = a₀ (c, l)
  thread : s.thread = s₀.thread

def Balanced (locks : Trylocks) (src dst : Fin ncpu) (s₀ : State ncpu T)
    (a₀ : RunQueue ncpu → List T) (s : State ncpu T) : Prop :=
  ∃ a, Inv s a ∧ Shift locks src dst a₀ a ∧ s.thread = s₀.thread

variable {s₀ : State ncpu T} {a₀ : RunQueue ncpu → List T} {levels : List Level}

theorem Midway.balanced (h : Midway locks src dst s₀ a₀ levels s a) : Balanced locks src dst s₀ a₀ s :=
  ⟨a, h.inv, h.shift, h.thread⟩

theorem Midway.skip (h : Midway locks src dst s₀ a₀ (level :: levels) s a) :
    Midway locks src dst s₀ a₀ levels s a :=
  ⟨h.inv, h.shift, fun l hl => h.untouched l (List.mem_cons_of_mem _ hl), h.thread⟩

theorem Inv.queueLength_eq (h : Inv s a) (q : RunQueue ncpu) : queueLength s q = (a q).length :=
  (h.rq.holds q).count

theorem Inv.migrate (h : Inv s a) (hne : dst ≠ src) (hn : 0 < n)
    (hle : queueLength s (src, level) / 2 + n ≤ queueLength s (src, level)) (w : Whence) :
    ∃ rq, embeddedQueueMigrate s.rq (dst, level) (src, level)
        (queueLength s (src, level) / 2) n w = .ok (.ok, rq) ∧
      Inv { s with rq := rq } (listMigrate a (dst, level) (src, level)
        ((a (src, level)).length / 2) n w) := by
  rw [h.queueLength_eq] at hle ⊢
  have hqne : (dst, level) ≠ (src, level) := by simp [hne]
  rcases migrate_refines h.rq hqne hn hle w with ⟨rq, hrun, hinv⟩
  have hone : Shift allFree src dst a (listMigrate a (dst, level) (src, level)
      ((a (src, level)).length / 2) n w) :=
    (Shift.refl allFree src dst a).migrate hne rfl fun c => rfl
  exact ⟨rq, hrun, h.relink hinv rfl hone.level⟩

theorem Midway.migrate (h : Midway locks src dst s₀ a₀ (level :: levels) s a)
    (hnd : (level :: levels).Nodup) (hne : dst ≠ src) (hfree : locks.free level = true) (hn : 0 < n)
    (hle : queueLength s (src, level) / 2 + n ≤ queueLength s (src, level)) (w : Whence) :
    ∃ rq a', embeddedQueueMigrate s.rq (dst, level) (src, level)
        (queueLength s (src, level) / 2) n w = .ok (.ok, rq) ∧
      Midway locks src dst s₀ a₀ levels { s with rq := rq } a' := by
  rcases h.inv.migrate hne hn hle w with ⟨rq, hrun, hinv⟩
  refine ⟨rq, listMigrate a (dst, level) (src, level) ((a (src, level)).length / 2) n w, hrun,
    hinv, ?_, fun l hl c => ?_, h.thread⟩
  · exact h.shift.migrate hne hfree fun c => h.untouched level List.mem_cons_self c
  · have hl' : l ≠ level := by
      rintro rfl
      exact (List.nodup_cons.1 hnd).1 hl
    rw [listMigrate_of_ne hl']
    exact h.untouched l (List.mem_cons_of_mem _ hl) c

theorem free_of_tried (h : ¬ (!(locks level).1 || !(locks level).2) = true) :
    locks.free level = true := by
  simpa [Trylocks.free] using h

theorem pullLoop_spec {me target : Fin ncpu} (hne : me ≠ target) (targetLoad : Nat)
    (locks : Trylocks) (hnd : levels.Nodup) (h : Midway locks target me s₀ a₀ levels s a)
    (count pulled : Nat) :
    ∃ s', pullLoop me target targetLoad locks levels s count pulled = .ok s' ∧
      Balanced locks target me s₀ a₀ s' := by
  induction levels generalizing s a count pulled with
  | nil => exact ⟨s, rfl, h.balanced⟩
  | cons level levels ih =>
    have hnd' := (List.nodup_cons.1 hnd).2
    rw [pullLoop]
    by_cases henough : targetLoad / 2 ≤ pulled
    · rw [if_pos henough]
      exact ⟨s, rfl, h.balanced⟩
    rw [if_neg henough]
    by_cases hlocks : (!(locks level).1 || !(locks level).2) = true
    · rw [if_pos hlocks]
      exact ih hnd' h.skip count pulled
    rw [if_neg hlocks]
    simp only
    by_cases hempty : queueLength s (target, level) = 0
    · rw [if_pos hempty]
      exact ih hnd' h.skip count pulled
    rw [if_neg hempty]
    -- one thread if there is only one, else half of them
    generalize hcount : (if queueLength s (target, level) = 1 then
      if pulled < targetLoad / 2 then 1 else count
      else queueLength s (target, level) / 2) = n
    have hn : 0 < n ∧
        queueLength s (target, level) / 2 + n ≤ queueLength s (target, level) := by
      rw [← hcount, if_pos (by omega : pulled < targetLoad / 2)]
      split_ifs with hone <;> omega
    rcases h.migrate hnd hne (free_of_tried hlocks) hn.1 hn.2 .tail with ⟨rq, a', hrun, hmid⟩
    simp only [hrun, ok_bind, if_true]
    exact ih hnd' hmid n (pulled + n)

theorem pushLoop_spec {me target : Fin ncpu} (hne : target ≠ me) (locks : Trylocks)
    (hnd : levels.Nodup) (h : Midway locks me target s₀ a₀ levels s a) (pushed : Nat) :
    ∃ s', pushLoop me target 0 locks levels s pushed = .ok s' ∧ Balanced locks me target s₀ a₀ s' := by
  induction levels generalizing s a pushed with
  | nil => exact ⟨s, rfl, h.balanced⟩
  | cons level levels ih =>
    have hnd' := (List.nodup_cons.1 hnd).2
    rw [pushLoop]
    simp only
    split_ifs with hlocks hskip htwo
    · exact ih hnd' h.skip pushed
    · exact ih hnd' h.skip pushed
    · have hle : queueLength s (me, level) / 2 + queueLength s (me, level) / 2 ≤
          queueLength s (me, level) := by omega
      rcases h.migrate hnd hne (free_of_tried hlocks) (by omega) hle .head with ⟨rq, a', hrun, hmid⟩
      simp only [hrun, ok_bind, if_true]
      exact ih hnd' hmid _
    · -- the share to be pushed is nothing, so a queue of one thread is skipped
      omega

theorem pullTarget_ne (me : Fin ncpu) {cs : List (Fin ncpu)} {load : Nat}
    {target : Option (Fin ncpu)} (htarget : target ≠ some me) :
    (pullTarget s me cs load target).2 ≠ some me := by
  induction cs generalizing load target with
  | nil => exact htarget
  | cons c cs ih =>
    rw [pullTarget]
    split_ifs with hme hload
    · exact ih htarget
    · exact ih (by simpa using hme)
    · exact ih htarget

theorem pushTarget_ne (me : Fin ncpu) {cs : List (Fin ncpu)} {load : Nat}
    {target : Option (Fin ncpu)} (htarget : target ≠ some me) :
    (pushTarget s me cs load target).2 ≠ some me := by
  induction cs generalizing load target with
  | nil => exact htarget
  | cons c cs ih =>
    rw [pushTarget]
    split_ifs with hme hload
    · exact ih htarget
    · exact ih (by simpa using hme)
    · exact ih htarget

theorem Inv.midway (h : Inv s a) (locks : Trylocks) (src dst : Fin ncpu) (levels : List Level) :
    Midway locks src dst s a levels s a :=
  ⟨h, .refl locks src dst a, fun _ _ _ => rfl, rfl⟩

theorem Inv.mlfqPull (h : Inv s a) (me : Fin ncpu) (locks : Trylocks) :
    mlfqPull s me locks = .ok s ∨
    ∃ target s', (pullTarget s me (List.finRange ncpu) 0 none).2 = some target ∧ target ≠ me ∧
      mlfqPull s me locks = .ok s' ∧ Balanced locks target me s a s' := by
  have hne : (pullTarget s me (List.finRange ncpu) 0 none).2 ≠ some me :=
    pullTarget_ne me (by simp)
  rw [Sched.mlfqPull]
  rcases htarget : pullTarget s me (List.finRange ncpu) 0 none with ⟨load, target⟩
  rw [htarget] at hne
  cases target with
  | none => exact .inl rfl
  | some target =>
    simp only
    split_ifs with hload
    · exact .inl rfl
    · have hne' : me ≠ target := fun heq => hne (by rw [heq])
      rcases pullLoop_spec hne' load locks (by decide)
        (h.midway locks target me foreachLevelReverse) 0 0 with ⟨s', hrun, hbal⟩
      exact .inr ⟨target, s', rfl, hne'.symm, hrun, hbal⟩

theorem Inv.mlfqPush (h : Inv s a) (me : Fin ncpu) (locks : Trylocks) :
    mlfqPush s me locks = .ok s ∨
    ∃ target s', (pushTarget s me (List.finRange ncpu) 0 none).2 = some target ∧ target ≠ me ∧
      mlfqPush s me locks = .ok s' ∧ Balanced locks me target s a s' := by
  have hne : (pushTarget s me (List.finRange ncpu) 0 none).2 ≠ some me :=
    pushTarget_ne me (by simp)
  rw [Sched.mlfqPush]
  rcases htarget : pushTarget s me (List.finRange ncpu) 0 none with ⟨load, target⟩
  rw [htarget] at hne
  cases target with
  | none => exact .inl rfl
  | some target =>
    simp only
    split_ifs with hload
    · exact .inl rfl
    · have hne' : target ≠ me := fun heq => hne (by rw [heq])
      rcases pushLoop_spec hne' locks (by decide)
        (h.midway locks me target foreachLevel) 0 with ⟨s', hrun, hbal⟩
      exact .inr ⟨target, s', rfl, hne', hrun, hbal⟩

def overloaded (s : State ncpu T) (me : Fin ncpu) : Bool :=
  ((List.finRange ncpu).map fun c => mlfqLoad s c).sum / ncpu + 2 < mlfqLoad s me

theorem mlfqBalance_cases (s : State ncpu T) (me : Fin ncpu) (locks : Trylocks) :
    overloaded s me = true ∧ mlfqBalance s me locks = mlfqPush s me locks ∨
    overloaded s me = false ∧
      (mlfqBalance s me locks = mlfqPull s me locks ∨ mlfqBalance s me locks = .ok s) := by
  rw [mlfqBalance, overloaded]
  generalize (((List.finRange ncpu).map fun c => mlfqLoad s c).sum / ncpu + 2 ^ 64 - 2) % 2 ^ 64 =
    low
  by_cases hhigh : ((List.finRange ncpu).map fun c => mlfqLoad s c).sum / ncpu + 2 < mlfqLoad s me
  · exact .inl ⟨decide_eq_true hhigh, if_pos hhigh⟩
  · refine .inr ⟨decide_eq_false hhigh, ?_⟩
    rw [if_neg hhigh]
    by_cases hlow : mlfqLoad s me < low
    · exact .inl (if_pos hlow)
    · exact .inr (if_neg hlow)

/-! ## Aging -/

def listMove (a : RunQueue ncpu → List T) (q q' : RunQueue ncpu) (t : T) :
    RunQueue ncpu → List T :=
  let a' := update a q ((a q).erase t)
  update a' q' (a' q' ++ [t])

theorem relloc_moves (h : Ds.Inv rq a) (ht : t ∈ a q)
    (q' : RunQueue ncpu) :
    ∃ rq', embeddedQueueRelloc rq q' q t .unique .tail = .ok (.ok, rq') ∧
      Ds.Inv rq' (listMove a q q' t) := by
  rcases relloc_refines h q' q t .unique .tail with ⟨rq', hrun, hinv⟩
  have hout : t ∉ update a q ((a q).erase t) q' := by
    by_cases hqq : q' = q
    · subst hqq
      rw [update_self]
      exact fun hmem => ((h.holds q').chain.nodup.mem_erase_iff.1 hmem).1 rfl
    · rw [update_of_ne hqq]
      exact fun hmem => hqq (h.apart q' q t hmem ht)
  have hlist : listCall a (.relloc q' q t .unique .tail) = ((.ok, none), listMove a q q' t) := by
    simp only [listCall, if_pos ht, listEnqueue]
    rw [if_neg (fun hmem => hout hmem.2)]
    rfl
  rw [hlist] at hrun hinv
  rcases bind_ok_iff.1 hrun with ⟨⟨err, rq1⟩, hrelloc, hret⟩
  simp only [pure_eq_ok, Except.ok.injEq, Prod.mk.injEq, and_true] at hret
  refine ⟨rq', ?_, hinv⟩
  rw [hrelloc, hret.1, hret.2]

theorem mem_listMove (h : Ds.Inv s.rq a) (ht : t ∈ a q) {q' q'' : RunQueue ncpu} {u : T} :
    u ∈ listMove a q q' t q'' ↔ if u = t then q'' = q' else u ∈ a q'' := by
  have hnd := (h.holds q).chain.nodup
  by_cases hut : u = t
  · subst hut
    rw [if_pos rfl, listMove]
    by_cases hq' : q'' = q'
    · simp [hq']
    · rw [update_of_ne hq']
      by_cases hq : q'' = q
      · subst hq
        rw [update_self]
        exact ⟨fun hmem => absurd rfl (hnd.mem_erase_iff.1 hmem).1, fun heq => absurd heq hq'⟩
      · rw [update_of_ne hq]
        exact ⟨fun hmem => absurd (h.apart q'' q u hmem ht) hq, fun heq => absurd heq hq'⟩
  · have hcut : ∀ p, u ∈ update a q ((a q).erase t) p ↔ u ∈ a p := by
      intro p
      by_cases hp : p = q
      · subst hp
        rw [update_self, List.mem_erase_of_ne hut]
      · rw [update_of_ne hp]
    rw [if_neg hut, listMove]
    by_cases hq' : q'' = q'
    · subst hq'
      rw [update_self, List.mem_append, List.mem_singleton, or_iff_left hut, hcut]
    · rw [update_of_ne hq']
      exact hcut q''

theorem Inv.move (h : Inv s a) (ht : t ∈ a q) {q' : RunQueue ncpu}
    (hrq : Ds.Inv rq (listMove a q q' t))
    (hstate : th.state = (s.thread t).state) (hprio : th.priority = q'.2.val) :
    Inv (({ s with rq := rq } : State ncpu T).setThread t th) (listMove a q q' t) := by
  have hready := h.level q t ht
  refine ⟨hrq, fun u hu => ?_, fun p u hu => ?_, fun u => ?_⟩
  · rw [setThread_thread] at hu
    split_ifs at hu with hut
    · exact ⟨q', (mem_listMove h.rq ht).2 (by rw [if_pos hut])⟩
    · rcases h.ready u hu with ⟨p, hp⟩
      exact ⟨p, (mem_listMove h.rq ht).2 (by rwa [if_neg hut])⟩
  · rw [mem_listMove h.rq ht] at hu
    rw [setThread_thread]
    split_ifs at hu ⊢ with hut
    · rw [hstate, hprio, hu]
      exact ⟨hready.1, rfl⟩
    · exact h.level p u hu
  · rw [setThread_thread]
    split_ifs with hut
    · rw [hprio]
      have hlt := q'.2.isLt
      unfold mlfqHigh
      omega
    · exact h.priority u

structure Aged (s : State ncpu T) (a : RunQueue ncpu → List T) (s' : State ncpu T)
    (a' : RunQueue ncpu → List T) : Prop where
  inv : Inv s' a'
  cpu : ∀ c u, (∃ l, u ∈ a' (c, l)) → ∃ l, u ∈ a (c, l)
  affin : ∀ u, (s'.thread u).affin = (s.thread u).affin

theorem Inv.aged (h : Inv s a) : Aged s a s a := ⟨h, fun _ _ hu => hu, fun _ => rfl⟩

theorem Aged.trans {s'' : State ncpu T} {a'' : RunQueue ncpu → List T} (h : Aged s a s' a')
    (h' : Aged s' a' s'' a'') : Aged s a s'' a'' :=
  ⟨h'.inv, fun c u hu => h.cpu c u (h'.cpu c u hu), fun u => (h'.affin u).trans (h.affin u)⟩

theorem Inv.ageThread (h : Inv s a) {c : Fin ncpu} (hlevel : (level.val : Int) ≠ mlfqHigh)
    {kept rest : List T} (hq : a (c, level) = kept ++ t :: rest) (free : Bool) :
    ∃ s' a' kept', ageThread s c level t free = .ok s' ∧ Aged s a s' a' ∧
      a' (c, level) = kept' ++ rest := by
  have ht : t ∈ a (c, level) := by simp [hq]
  have hold : (s.thread t).priority = level.val := (h.level _ t ht).2
  have hlt := level.isLt
  have hne : level.val ≠ 3 := fun heq => hlevel (by rw [heq]; rfl)
  have hstay : a (c, level) = (kept ++ [t]) ++ rest := by simp [hq]
  -- nothing that the queues depend on has changed
  have hkeep : ∀ th : Thread ncpu, th.state = (s.thread t).state →
      th.priority = (s.thread t).priority → th.affin = (s.thread t).affin →
      Aged s a (s.setThread t th) a := fun th hstate hprio haffin =>
    ⟨h.setThread hstate hprio, fun _ _ hu => hu, setThread_affin haffin⟩
  have hnew : ¬ mlfqHigh < (s.thread t).priority + 1 := by
    unfold mlfqHigh
    omega
  simp only [Sched.ageThread, if_neg hnew]
  split_ifs with hage hbusy
  · -- the priority is put back
    refine ⟨_, a, kept ++ [t], rfl, ?_, hstay⟩
    have hback : ¬ ((s.thread t).priority < 0 ∨ mlfqHigh < (s.thread t).priority) := by
      have hbound := h.priority t
      omega
    refine hkeep _ ?_ ?_ ?_
    · rw [threadSetPrio, if_neg hback]
    · rw [threadSetPrio, if_neg hback]
    · rw [threadSetPrio, if_neg hback]
  · have hnext : (s.thread t).priority + 1 = ((⟨level.val + 1, by omega⟩ : Level).val : Int) := by
      rw [hold]
      push_cast
      rfl
    rcases relloc_moves h.rq ht (c, ⟨level.val + 1, by omega⟩) with ⟨rq, hrun, hrq⟩
    rw [hnext, mlfqGetLevel_val]
    simp only [hrun, ok_bind, if_true]
    refine ⟨_, listMove a (c, level) (c, ⟨level.val + 1, by omega⟩) t, kept, rfl,
      ⟨h.move ht hrq rfl rfl, ?_, setThread_affin rfl⟩, ?_⟩
    · rintro c' u ⟨l, hl⟩
      rw [mem_listMove h.rq ht] at hl
      split_ifs at hl with hut
      · have hcc : c' = c := congrArg Prod.fst hl
        exact ⟨level, by rw [hut, hcc]; exact ht⟩
      · exact ⟨l, hl⟩
    · have hne' : (c, level) ≠ (c, (⟨level.val + 1, by omega⟩ : Level)) := by
        intro heq
        have hval := congrArg (fun q : RunQueue ncpu => q.2.val) heq
        simp at hval
      have hnd := (h.rq.holds (c, level)).chain.nodup
      rw [hq] at hnd
      have hnot : t ∉ kept := fun hmem => (List.nodup_append.1 hnd).2.2 t hmem t (by simp) rfl
      simp only [listMove]
      rw [update_of_ne hne', update_self, hq, List.erase_append_right _ hnot,
        List.erase_cons_head]
  · exact ⟨_, a, kept ++ [t], rfl, hkeep _ rfl rfl rfl, hstay⟩

theorem agingLoop_spec {c : Fin ncpu} (hlevel : (level.val : Int) ≠ mlfqHigh) (free : T → Bool)
    {kept rest : List T} (h : Inv s a) (hq : a (c, level) = kept ++ rest) {fuel : Nat}
    (hfuel : rest.length ≤ fuel) :
    ∃ s' a', agingLoop c level free fuel s rest.head? = .ok s' ∧ Aged s a s' a' := by
  induction rest generalizing s a kept fuel with
  | nil =>
    refine ⟨s, a, ?_, h.aged⟩
    cases fuel <;> rfl
  | cons t rest ih =>
    cases fuel with
    | zero => simp at hfuel
    | succ fuel =>
      have hchain := (h.rq.holds (c, level)).chain
      rw [hq] at hchain
      have hnext : (s.rq.node t).next = rest.head? := by
        have hmid := hchain.mid.2
        rwa [Option.or_none] at hmid
      rcases h.ageThread hlevel hq (free t) with ⟨s₁, a1, kept1, hrun, haged, hq1⟩
      rcases ih haged.inv hq1 (by simpa using hfuel) with ⟨s₂, a2, hloop, haged'⟩
      refine ⟨s₂, a2, ?_, haged.trans haged'⟩
      rw [List.head?_cons, agingLoop, hrun, hnext]
      exact hloop

theorem Inv.agingQueues (h : Inv s a) (free : RunQueue ncpu → T → Bool)
    (qs : List (RunQueue ncpu)) :
    ∃ s' a', agingQueues free qs s = .ok s' ∧ Aged s a s' a' := by
  induction qs generalizing s a with
  | nil => exact ⟨s, a, rfl, h.aged⟩
  | cons q qs ih =>
    rcases q with ⟨c, level⟩
    rw [Sched.agingQueues]
    split_ifs with hlevel
    · exact ih h
    · have hholds := h.rq.holds (c, level)
      rcases agingLoop_spec hlevel (free (c, level)) h (List.nil_append _).symm
        hholds.length_le with ⟨s₁, a1, hrun, haged⟩
      rcases ih haged.inv with ⟨s₂, a2, hrest, haged'⟩
      refine ⟨s₂, a2, ?_, haged.trans haged'⟩
      rw [hholds.head, hrun]
      exact hrest

/-! ## Steps and runs -/

/-- The step lemma. -/
theorem Inv.step_safe (h : Inv s a) (act : Act ncpu T) (hok : enqueuesUnlinked s act = true) :
    Safe (fun _ => False) (step s act) fun s' => ∃ a', Inv s' a' := by
  have hpull : ∀ me locks,
      Safe (fun _ => False) (Sched.mlfqPull s me locks) fun s' => ∃ a', Inv s' a' := by
    intro me locks
    rcases h.mlfqPull me locks with hrun | ⟨target, s', -, -, hrun, a', hinv, -, -⟩
    · rw [hrun]
      exact ⟨a, h⟩
    · rw [hrun]
      exact ⟨a', hinv⟩
  have hpush : ∀ me locks,
      Safe (fun _ => False) (Sched.mlfqPush s me locks) fun s' => ∃ a', Inv s' a' := by
    intro me locks
    rcases h.mlfqPush me locks with hrun | ⟨target, s', -, -, hrun, a', hinv, -, -⟩
    · rw [hrun]
      exact ⟨a, h⟩
    · rw [hrun]
      exact ⟨a', hinv⟩
  cases act with
  | enqueue me t =>
    have ht : ∀ q, t ∉ a q := h.unlinked_iff.1 hok
    rcases h.schedEnqueue ht me with ⟨s', hrun, hinv, -⟩
    rw [step, hrun]
    exact ⟨_, hinv⟩
  | next me =>
    rcases h.nextThread me foreachLevel with ⟨a', hinv, -, -⟩
    exact ⟨a', hinv⟩
  | yield me t left =>
    rw [step]
    split_ifs with hrunning
    · rcases h.schedYield hrunning me left with ⟨l, s', hrun, hinv, -⟩
      rw [hrun]
      exact ⟨_, hinv⟩
    · exact ⟨a, h⟩
  | pull me locks => exact hpull me locks
  | push me locks => exact hpush me locks
  | balance me locks =>
    rcases mlfqBalance_cases s me locks with ⟨-, heq⟩ | ⟨-, heq | heq⟩
    · rw [step, heq]
      exact hpush me locks
    · rw [step, heq]
      exact hpull me locks
    · rw [step, heq]
      exact ⟨a, h⟩
  | aging free =>
    rcases h.agingQueues free _ with ⟨s', a', hrun, haged⟩
    rw [step, mlfqAging, hrun]
    exact ⟨a', haged.inv⟩

/-- On any number of CPUs and in any order of the functions, with any outcome of the trylocks: every
ready thread is in one run queue, at the level of its priority. -/
theorem run_queues_conserved {ncpu : Nat} {T : Type} [DecidableEq T] [Fintype T]
    (thread : T → Thread ncpu) (quantum : RunQueue ncpu → Nat)
    (hstate : ∀ t, (thread t).state ≠ .ready)
    (hprio : ∀ t, 0 ≤ (thread t).priority ∧ (thread t).priority ≤ mlfqHigh)
    (acts : List (Act ncpu T))
    (hrun : guarded step enqueuesUnlinked (State.init thread quantum) acts = true) :
    Safe (fun _ => False) (runs step (State.init thread quantum) acts) Conserved := by
  have hstep : ∀ (s : State ncpu T) (act : Act ncpu T), (∃ a, Inv s a) →
      enqueuesUnlinked s act = true →
      Safe (fun _ => False) (step s act) fun s' => ∃ a', Inv s' a' := by
    rintro s act ⟨a, h⟩ hok
    exact h.step_safe act hok
  refine (Safe.runs hstep ⟨_, inv_init quantum hstate hprio⟩ hrun).mono ?_
  rintro s ⟨a, h⟩
  exact h.conserved

/-- Threads that nothing has been done with yet; the affinities are free. -/
def freshThread (ncpu : Nat) (affin : CpuAffin) : Thread ncpu :=
  { state := .embryo, priority := 0, age := 0, timeslice := 0, proc := none, affin := affin
    shortHolds := 0, longHolds := 0, scheduler := false }

def twoCpus : State 2 (Fin 3) :=
  State.init (fun _ => freshThread 2 { hard := false, cpuSet := -1 }) fun _ => 10

def busyRun : List (Act 2 (Fin 3)) :=
  [.enqueue 0 0, .enqueue 0 1, .enqueue 0 2, .push 1 allFree, .pull 0 allFree, .next 0, .next 1,
    .balance 1 allFree, .enqueue 1 0, .next 1, .yield 1 0 3, .aging fun _ _ => true]

theorem run_queues_conserved_two_cpus :
    (∀ t, (twoCpus.thread t).state ≠ .ready) ∧
    (∀ t, 0 ≤ (twoCpus.thread t).priority ∧ (twoCpus.thread t).priority ≤ mlfqHigh) ∧
    guarded step enqueuesUnlinked twoCpus busyRun = true ∧
    Safe (fun _ => False) (runs step twoCpus busyRun) Conserved := by
  have hstate : ∀ t, (twoCpus.thread t).state ≠ .ready := by decide
  have hprio : ∀ t, 0 ≤ (twoCpus.thread t).priority ∧ (twoCpus.thread t).priority ≤ mlfqHigh := by
    decide
  have hrun : guarded step enqueuesUnlinked twoCpus busyRun = true := by decide +kernel
  exact ⟨hstate, hprio, hrun, run_queues_conserved _ _ hstate hprio busyRun hrun⟩

end Sched
end XytherOS
