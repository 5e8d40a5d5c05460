import Mathlib
import XytherOS.Proc.Process

/-!
# Pids — process ids over runs of `proc_alloc` and `proc_free`

`proc_alloc_pid` looks for an id in the bucket `procIDs` first, and counts on if the bucket is empty.
`proc_free_pid` puts nothing into the bucket, so every id is used once and the counter runs out.
-/

namespace XytherOS
namespace Process

open Ds Function

variable {P : Type} [DecidableEq P] [Fintype P]

/-- The calls; `free` is by a thread of the process `curproc`. -/
inductive PidAct (P : Type)
  | alloc (place : Option P) (fail : Option Errno)
  | free (curproc : Option P) (p : P)

def pidStep (s : State P) : PidAct P → Except Fault (State P)
  | .alloc place fail =>
    if place.any s.live then
      return s
    else do
      let (_, s) ← procAlloc s place fail
      return s
  | .free curproc p => procFree s curproc p

/-- The call gets to `proc_alloc_pid`, and that fails with `-EAGAIN`. -/
def noPidLeft (s : State P) : PidAct P → Prop
  | .alloc place fail => place.any s.live = false ∧
      ∃ s', procAlloc s place fail = .ok (.err .EAGAIN, s') ∧ fail = none
  | .free _ _ => False

/-- Live processes have different ids, and ids run out only when so many processes are alive. -/
def PidLaw (s : State P) (a : PidAct P) (s' : State P) : Prop :=
  (∀ p q, s'.live p = true → s'.live q = true → (s'.proc p).pid = (s'.proc q).pid → p = q) ∧
    (noPidLeft s a → NPROC - 1 ≤ (s.alive.card : Int))

def pidsLeft (s : State P) : PidAct P → Bool
  | .alloc _ _ => decide ((s.pids.toNat : Int) + 1 < NPROC) ||
      decide (NPROC - 1 ≤ (s.alive.card : Int)) && decide (s.pids.toNat + 1 < 2 ^ 31)
  | .free _ _ => true

structure PidInv (s : State P) : Prop where
  unlocked : Unlocked s
  bucket : s.procIDs = []
  range : ∀ p, s.live p = true → (s.proc p).pid ≤ s.pids.toNat
  distinct : ∀ p q, s.live p = true → s.live q = true → (s.proc p).pid = (s.proc q).pid → p = q

variable {s s' : State P} {p : P} {pid : Int}

theorem PidInv.empty (memory : P → Proc P) : PidInv (State.empty memory) where
  unlocked _ := rfl
  bucket := rfl
  range _ h := absurd h (by simp [State.empty])
  distinct _ _ h := absurd h (by simp [State.empty])

theorem toPid_succ {pids : BitVec 64} (h : pids.toNat + 1 < 2 ^ 31) :
    toPid (pids + 1) = (pids.toNat : Int) + 1 ∧ (pids + 1).toNat = pids.toNat + 1 := by
  have hsucc : (pids + 1).toNat = pids.toNat + 1 := by bv_omega
  have hwidth : ((pids + 1).setWidth 32).toNat = pids.toNat + 1 := by
    rw [BitVec.toNat_setWidth, hsucc]
    omega
  refine ⟨?_, hsucc⟩
  rw [toPid, BitVec.toInt_eq_toNat_cond, hwidth]
  split_ifs <;> omega

theorem pidsLeft_bound {place : Option P} {fail : Option Errno}
    (h : pidsLeft s (.alloc place fail) = true) : s.pids.toNat + 1 < 2 ^ 31 := by
  rw [pidsLeft, Bool.or_eq_true, Bool.and_eq_true] at h
  rcases h with hless | hmany
  · have hlt : (s.pids.toNat : Int) + 1 < 32786 := of_decide_eq_true hless
    omega
  · exact of_decide_eq_true hmany.2

theorem PidInv.count (h : PidInv s) (hbound : s.pids.toNat + 1 < 2 ^ 31) :
    PidInv { s with pids := s.pids + 1 } := by
  refine ⟨h.unlocked, h.bucket, fun p hp => ?_, h.distinct⟩
  have hrange := h.range p hp
  dsimp only
  rw [(toPid_succ hbound).2]
  push_cast
  exact le_trans hrange (by omega)

theorem PidInv.place (h : PidInv s) (hpid : pid ≤ s.pids.toNat)
    (hnew : ∀ q, s.live q = true → (s.proc q).pid ≠ pid) : PidInv (s.place p pid) := by
  refine ⟨fun l => ?_, h.bucket, fun q hq => ?_, fun q q' hq hq' heq => ?_⟩
  · dsimp only [State.place]
    by_cases hl : l = .children p
    · rw [hl, update_self]
    · rw [update_of_ne hl]
      exact h.unlocked l
  · dsimp only [State.place] at hq ⊢
    by_cases hqp : q = p
    · rw [hqp, update_self]
      exact hpid
    · rw [update_of_ne hqp] at hq ⊢
      exact h.range q hq
  · dsimp only [State.place] at hq hq' heq
    by_cases hqp : q = p <;> by_cases hqp' : q' = p
    · rw [hqp, hqp']
    · rw [hqp, update_self, update_of_ne hqp'] at heq
      rw [update_of_ne hqp'] at hq'
      exact absurd heq.symm (hnew q' hq')
    · rw [hqp', update_self, update_of_ne hqp] at heq
      rw [update_of_ne hqp] at hq
      exact absurd heq (hnew q hq)
    · rw [update_of_ne hqp] at hq heq
      rw [update_of_ne hqp'] at hq' heq
      exact h.distinct q q' hq hq' heq

theorem PidInv.release (h : PidInv s) (hlock : Unlocked s') (hbucket : s'.procIDs = s.procIDs)
    (hpids : s'.pids = s.pids) (hlive : ∀ q, s'.live q = true → s.live q = true)
    (hpid : ∀ q, (s'.proc q).pid = (s.proc q).pid) : PidInv s' := by
  refine ⟨hlock, hbucket.trans h.bucket, fun q hq => ?_, fun q q' hq hq' heq => ?_⟩
  · rw [hpid, hpids]
    exact h.range q (hlive q hq)
  · rw [hpid, hpid] at heq
    exact h.distinct q q' (hlive q hq) (hlive q' hq') heq

theorem putref_pid (s : State P) (p q : P) : ((s.putref p).proc q).pid = (s.proc q).pid := by
  dsimp only [State.putref, State.setProc]
  by_cases hq : q = p
  · rw [hq, update_self]
  · rw [update_of_ne hq]

theorem PidInv.free (h : PidInv s) (curproc : Option P) (p : P) :
    Safe AnyFault (procFree s curproc p) PidInv := by
  have hput : PidInv (s.putref p) :=
    h.release h.unlocked rfl rfl (fun _ hq => hq) (putref_pid s p)
  refine Safe.any fun s' hrun => ?_
  rw [procFree, assert_bind_ok_iff, access_bind_ok_iff] at hrun
  replace hrun := hrun.2.2
  dsimp only at hrun
  split_ifs at hrun
  · rw [lock_eq (hput.unlocked _), ok_bind, flushChildren] at hrun
    dsimp only at hrun
    cases hhead : ((s.putref p).children.queue p).head with
    | some q => simp [hhead] at hrun
    | none =>
      simp only [hhead, pure_eq_ok, ok_bind] at hrun
      rw [unlock_eq (by simp), ok_bind] at hrun
      obtain rfl := Except.ok.inj hrun
      refine hput.release ?_ rfl rfl (fun q hq => ?_) fun q => rfl
      · intro l
        dsimp only [procFreePid]
        rw [update_locked (hput.unlocked _)]
        exact hput.unlocked l
      · dsimp only [procFreePid] at hq
        by_cases hqp : q = p
        · rw [hqp, update_self] at hq
          exact absurd hq (by simp)
        · rw [update_of_ne hqp] at hq
          exact hq
  · obtain rfl := Except.ok.inj hrun
    exact hput

theorem PidInv.step {a : PidAct P} (h : PidInv s) (ha : pidsLeft s a = true) :
    Safe AnyFault (pidStep s a) fun s' => PidLaw s a s' ∧ PidInv s' := by
  have hlaw : ∀ s', PidInv s' → (noPidLeft s a → NPROC - 1 ≤ (s.alive.card : Int)) →
      PidLaw s a s' ∧ PidInv s' :=
    fun s' hs' hleft => ⟨⟨hs'.distinct, hleft⟩, hs'⟩
  cases a with
  | free curproc p =>
    refine (h.free curproc p).mono fun s' hs' => hlaw s' hs' fun hno => ?_
    exact absurd hno (by simp [noPidLeft])
  | alloc place fail =>
    have hbound := pidsLeft_bound ha
    obtain ⟨hpid, hnat⟩ := toPid_succ hbound
    rw [pidStep]
    split_ifs with hused
    · refine Safe.ok (hlaw s h fun hno => ?_)
      rw [noPidLeft, hused] at hno
      exact absurd hno.1 (by simp)
    cases place with
    | none =>
      refine Safe.ok (hlaw s h ?_)
      rintro ⟨-, s', heq, -⟩
      simp [procAlloc] at heq
    | some p =>
      cases fail with
      | some e =>
        refine Safe.ok (hlaw s h ?_)
        rintro ⟨-, s', -, hfail⟩
        exact absurd hfail (by simp)
      | none =>
        have hcount := h.count hbound
        rw [procAlloc, procAllocPid_eq h.unlocked h.bucket, ok_bind]
        by_cases hfull : NPROC ≤ toPid (s.pids + 1)
        · -- the counter has run out, so the guard says how many are alive
          rw [if_pos hfull]
          refine Safe.ok (hlaw _ hcount fun _ => ?_)
          rw [hpid] at hfull
          simp only [pidsLeft, Bool.or_eq_true, Bool.and_eq_true, decide_eq_true_eq] at ha
          rcases ha with hless | hmany
          · omega
          · exact hmany.1
        · rw [if_neg hfull]
          refine Safe.ok (hlaw _ (hcount.place ?_ fun q hq => ?_) ?_)
          · rw [hpid, hnat]
            push_cast
            exact le_refl _
          · have hrange := h.range q hq
            rw [hpid]
            dsimp only
            omega
          · rintro ⟨-, s', heq, -⟩
            rw [procAlloc, procAllocPid_eq h.unlocked h.bucket, ok_bind, if_neg hfull] at heq
            simp at heq

/-- In every run in which the counter does not run out after a process has been freed, live
processes have different ids and `-EAGAIN` says that `NPROC - 1` processes are alive. -/
theorem pids_distinct_available (memory : P → Proc P) (acts : List (PidAct P))
    (hrun : guarded pidStep pidsLeft (State.empty memory) acts = true) :
    Stepwise AnyFault pidStep PidLaw (State.empty memory) acts :=
  Stepwise.of_guarded (fun _ _ hs ha => PidInv.step hs ha) (PidInv.empty memory) hrun

/-- Two processes, of which one is freed and its place used again. -/
-- not unfolded when the theorem is applied to it, so that the run is not evaluated there
@[irreducible] def pidRun : List (PidAct (Fin 2)) :=
  [.alloc (some 0) none, .alloc (some 1) none, .free (some 1) 0, .free (some 1) 0,
    .alloc (some 0) (some .ENOMEM), .alloc (some 0) none, .alloc none none, .free none 1]

theorem pids_distinct_available_reused :
    guarded pidStep pidsLeft (State.empty fun _ => newProc 0) pidRun = true ∧
    Stepwise AnyFault pidStep PidLaw (State.empty fun _ => newProc 0) pidRun := by
  have hrun : guarded pidStep pidsLeft (State.empty fun _ => newProc 0) pidRun = true := by
    decide +kernel
  exact ⟨hrun, pids_distinct_available _ pidRun hrun⟩

/-! ## The ids of freed processes -/

def churn : Nat → List (PidAct Unit)
  | 0 => []
  | n + 1 => .alloc (some ()) none :: .free none () :: .free none () :: churn n

structure Idle (s : State Unit) : Prop where
  unlocked : Unlocked s
  bucket : s.procIDs = []
  live : s.live () = false

theorem Idle.churn_one {s : State Unit} (h : Idle s) (hpids : s.pids.toNat + 1 < 32786) :
    ∃ s', Idle s' ∧ s'.pids.toNat = s.pids.toNat + 1 ∧
      ∀ as, runs pidStep s (.alloc (some ()) none :: .free none () :: .free none () :: as) =
        runs pidStep s' as := by
  obtain ⟨hpid, hnat⟩ := toPid_succ (show s.pids.toNat + 1 < 2 ^ 31 by omega)
  have hleft : ¬ NPROC ≤ toPid (s.pids + 1) := by
    rw [hpid, NPROC]
    omega
  -- the process with its two references, then with one
  let s₁ := ({ s with pids := s.pids + 1 } : State Unit).place () (toPid (s.pids + 1))
  have halloc : pidStep s (.alloc (some ()) none) = .ok s₁ := by
    rw [pidStep, Option.any_some, h.live, if_neg (by simp), procAlloc,
      procAllocPid_eq h.unlocked h.bucket, if_neg hleft]
    rfl
  have hlock1 : Unlocked s₁ := by
    intro l
    simp only [s₁, State.place, update_apply]
    split_ifs
    · rfl
    · exact h.unlocked l
  have hfree1 : procFree s₁ none () = .ok (s₁.putref ()) :=
    procFree_drop (by simp) (by simp [s₁, State.place]) (by simp [s₁, State.place, newProc])
  obtain ⟨children, hfree2⟩ : ∃ children, procFree (s₁.putref ()) none () = .ok
      { (s₁.putref ()).putref () with
        children := children, live := update s₁.live () false } :=
    procFree_last (by simp) (by simp [s₁, State.place, State.putref, State.setProc])
      (by simp [s₁, State.place, State.putref, State.setProc, newProc]) hlock1
      (by simp [s₁, State.place, State.putref, State.setProc, clearQueue])
  refine ⟨{ (s₁.putref ()).putref () with
    children := children, live := update s₁.live () false },
    ⟨hlock1, h.bucket, by simp⟩, hnat, fun as => ?_⟩
  rw [runs, halloc, ok_bind, runs, pidStep, hfree1, ok_bind, runs, pidStep, hfree2, ok_bind]

theorem Idle.churn {n : Nat} {s : State Unit} (h : Idle s) (hpids : s.pids.toNat + n < 32786) :
    ∃ s', runs pidStep s (churn n) = .ok s' ∧ Idle s' ∧ s'.pids.toNat = s.pids.toNat + n := by
  induction n generalizing s with
  | zero => exact ⟨s, rfl, h, rfl⟩
  | succ n ih =>
    obtain ⟨s₁, h₁, hnat, hrun⟩ := h.churn_one (by omega)
    obtain ⟨s', heq, hidle, hpids'⟩ := ih h₁ (by omega)
    refine ⟨s', ?_, hidle, by omega⟩
    rw [Process.churn, hrun]
    exact heq

/-- After `NPROC - 1` processes have come and gone none is alive, and no id is left. -/
theorem freed_pids_lost :
    ∃ s s', runs pidStep (State.empty fun _ => newProc 0) (churn 32785) = .ok s ∧
      pidStep s (.alloc (some ()) none) = .ok s' ∧ noPidLeft s (.alloc (some ()) none) ∧
      s.alive = ∅ ∧ ¬ PidLaw s (.alloc (some ()) none) s' := by
  have hempty : Idle (State.empty fun _ => newProc 0) := ⟨fun _ => rfl, rfl, rfl⟩
  obtain ⟨s, hrun, hidle, hpids⟩ :=
    hempty.churn (show (0 : BitVec 64).toNat + 32785 < 32786 by decide)
  have hnat : s.pids.toNat = 32785 := by
    rw [hpids]
    rfl
  have hfull : NPROC ≤ toPid (s.pids + 1) := by
    rw [(toPid_succ (show s.pids.toNat + 1 < 2 ^ 31 by omega)).1, NPROC]
    omega
  have halloc : procAlloc s (some ()) none = .ok (.err .EAGAIN, { s with pids := s.pids + 1 }) := by
    rw [procAlloc, procAllocPid_eq hidle.unlocked hidle.bucket, if_pos hfull]
    rfl
  have hnone : noPidLeft s (.alloc (some ()) none) :=
    ⟨by rw [Option.any_some]; exact hidle.live, _, halloc, rfl⟩
  have halive : s.alive = ∅ := by
    refine Finset.filter_eq_empty_iff.2 fun u _ => ?_
    rw [show u = () from rfl, hidle.live]
    simp
  refine ⟨s, { s with pids := s.pids + 1 }, hrun, ?_, hnone, halive, fun hlaw => ?_⟩
  · rw [pidStep, Option.any_some, hidle.live, if_neg (by simp), halloc]
    rfl
  · have hcard := hlaw.2 hnone
    rw [halive, Finset.card_empty, NPROC] at hcard
    omega

end Process
end XytherOS
