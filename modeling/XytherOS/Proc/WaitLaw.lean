import XytherOS.Proc.Reap

/-!
# WaitLaw — what a call of `waitpid` answers

A call looks through the children at its start and again whenever `cond_wait` comes back.  Each such
turn is compared with what the answers are to mean: `ECHILD` for no child that matches, `0` or a
wait for matching children of which none has died or stopped, and otherwise such a child.

* `match_child_pid` keeps to it, but it returns its child after an interrupted wait too, whether or
  not the child has died or stopped.
* `match_pid` and `match_pgid` do not tell "no child" from "not yet": under `WNOHANG` both are
  `ECHILD`, and without it both wait.
* A call with the pid of the caller returns `EDEADLOCK`.
-/

namespace XytherOS
namespace Process

open Ds

variable {P : Type} [DecidableEq P] [Fintype P]

/-! ## The turns of a call -/

/-- A turn: the start of a call, or the return of `cond_wait` in a call that waits. -/
inductive Turn (P : Type)
  | start (pid : Int) (nohang : Bool)
  | again (w : Wait P) (err : Option Errno)

def turn (s : State P) (curproc : P) : Turn P → Except Fault (Outcome × State P)
  | .start pid nohang => do
      match ← waitFor s curproc pid with
      | (.err e, s) => return (.returns (.err e), s)
      | (.val w, s) => do
          let (l, s) ← look s curproc nohang w
          return (l.outcome, s)
  | .again (.child child pid) err => do
      let (l, s) ← matchChildLoop s curproc child pid false err
      return (l.outcome, s)
  | .again _ (some e) => return (.returns (.err e), s)
  | .again w none => do
      let (l, s) ← look s curproc false w
      return (l.outcome, s)

def Turn.nohang : Turn P → Bool
  | .start _ nohang => nohang
  | .again _ _ => false

def Turn.interrupted : Turn P → Bool
  | .start _ _ => false
  | .again _ err => err.isSome

/-- The children that a call with the argument `pid` is for. -/
def selects (s : State P) (curproc : P) (pid : Int) (proc : Proc P) : Bool :=
  if pid < -1 then decide (proc.pgid = -pid)
  else if pid = -1 then true
  else if pid = 0 then decide (proc.pgid = (s.proc curproc).pgid)
  else decide (proc.pid = pid)

def Turn.admits (s : State P) (curproc : P) : Turn P → Proc P → Bool
  | .start pid _, proc => selects s curproc pid proc
  | .again (.child _ pid) _, proc => decide (proc.pid = pid)
  | .again .any _, _ => true
  | .again (.group pgid) _, proc => decide (proc.pgid = pgid)

def reportable (proc : Proc P) : Bool := procDied proc || procStopped proc

/-- A turn that can happen: a call that waits for one child has found it, and `cond_wait` does not
return `ECHILD`. -/
def Turn.fits (s : State P) (cs : List P) : Turn P → Prop
  | .start _ _ => True
  | .again w err => err ≠ some .ECHILD ∧
      match w with
      | .child child pid => child ∈ cs ∧ (s.proc child).pid = pid ∧ 0 < pid
      | _ => True

/-- The answer `out` of the turn `t`, where the children of the caller are `cs`. -/
structure AnswerLaw (s : State P) (curproc : P) (cs : List P) (t : Turn P) (out : Outcome) :
    Prop where
  child : out = .returns (.err .ECHILD) → ∀ c, c ∈ cs → t.admits s curproc (s.proc c) = false
  none : t.interrupted = false → (∀ c, c ∈ cs → t.admits s curproc (s.proc c) = false) →
    out = .returns (.err .ECHILD)
  notYet : t.interrupted = false → (∃ c, c ∈ cs ∧ t.admits s curproc (s.proc c) = true) →
    (∀ c, c ∈ cs → t.admits s curproc (s.proc c) = true → reportable (s.proc c) = false) →
    out = if t.nohang then .returns (.val 0) else .sleeps
  pid : ∀ v, out = .returns (.val v) → v ≠ 0 → ∃ c, c ∈ cs ∧
    t.admits s curproc (s.proc c) = true ∧ (s.proc c).pid = v ∧ reportable (s.proc c) = true

def Turn.finds (s : State P) (curproc : P) (cs : List P) (t : Turn P) : Bool :=
  cs.any fun c => t.admits s curproc (s.proc c) && reportable (s.proc c)

def Turn.hasChild (s : State P) (curproc : P) (cs : List P) (t : Turn P) : Bool :=
  cs.any fun c => t.admits s curproc (s.proc c)

/-- When the answer keeps to the law: always if a matching child has died or stopped; else a call
with the pid of the caller fails; a call for one child must not be interrupted; and a call for any
child or for a group must find `WNOHANG` set exactly if there is no matching child, or be
interrupted. -/
def Turn.lawful (s : State P) (curproc : P) (cs : List P) (t : Turn P) : Bool :=
  t.finds s curproc cs ||
    match t with
    | .start pid nohang => pid ≠ (s.proc curproc).pid &&
        (decide (0 < pid) || nohang == !t.hasChild s curproc cs)
    | .again (.child _ _) err => err.isNone
    | .again _ err => err.isSome || t.hasChild s curproc cs

variable {s : State P} {p c : P} {cs : List P} {t : Turn P} {nohang : Bool} {out : Outcome}

/-! ## The answers -/

def searched (s : State P) (cs : List P) (test : Proc P → Bool) (nohang : Bool) : Outcome :=
  match cs.find? fun c => test (s.proc c) && reportable (s.proc c) with
  | some c => .returns (.val (s.proc c).pid)
  | none => if nohang then .returns (.err .ECHILD) else .sleeps

theorem Family.matchLoop_outcome (h : Family s p cs) (test : Proc P → Bool) (nohang : Bool) :
    ∃ l s', matchLoop s p test nohang = .ok (l, s') ∧
      l.outcome = searched s cs test nohang := by
  rw [searched, matchLoop, lock_eq (h.unlocked _), ok_bind]
  dsimp only
  rw [h.queue, findProc_locked _ h.live, ok_bind]
  cases hfind : cs.find? fun c => test (s.proc c) && (procDied (s.proc c) || procStopped (s.proc c))
    with
  | none =>
    have hfind' : (cs.find? fun c => test (s.proc c) && reportable (s.proc c)) = none := hfind
    rw [hfind']
    dsimp only
    rw [unlock_eq (by simp), ok_bind]
    cases nohang with
    | true => exact ⟨_, _, rfl, rfl⟩
    | false => exact ⟨_, _, rfl, rfl⟩
  | some c =>
    have hfind' : (cs.find? fun c => test (s.proc c) && reportable (s.proc c)) = some c := hfind
    have hc : c ∈ cs := List.mem_of_find?_eq_some hfind
    rw [hfind']
    dsimp only
    cases hdied : procDied (s.proc c) with
    | true =>
      rw [h.release hc hdied, ok_bind]
      dsimp only
      rw [unlock_eq (by simp [State.putref, State.setProc]), ok_bind]
      exact ⟨_, _, rfl, rfl⟩
    | false =>
      -- a child that has only stopped keeps its reference
      rw [Process.release, if_neg (by simp [hdied])]
      simp only [pure_eq_ok, ok_bind]
      rw [unlock_eq (by simp), ok_bind]
      exact ⟨_, _, rfl, rfl⟩

theorem Family.matchChildLoop_outcome (h : Family s p cs) (hc : c ∈ cs) (pid : Int)
    (nohang : Bool) (err : Option Errno) :
    ∃ l s', matchChildLoop s p c pid nohang err = .ok (l, s') ∧ l.outcome =
      if reportable (s.proc c) || err.isSome then .returns (.val pid)
      else if nohang then .returns (.val 0) else .sleeps := by
  have hstops : (procDied (s.proc c) || procStopped (s.proc c)) = reportable (s.proc c) := rfl
  rw [matchChildLoop, access_eq (h.live c hc), ok_bind]
  dsimp only
  rw [hstops]
  by_cases hends : (reportable (s.proc c) || err.isSome) = true
  · rw [if_pos hends, if_pos hends]
    cases hdied : procDied (s.proc c) with
    | true =>
      have hrel : Process.release s p c = .ok (some c, s.putref c) := h.release hc hdied s.locked
      rw [hrel]
      exact ⟨_, _, rfl, rfl⟩
    | false =>
      have hrel : Process.release s p c = .ok (none, s) := by
        rw [Process.release, if_neg (by simp [hdied])]
        rfl
      rw [hrel]
      exact ⟨_, _, rfl, rfl⟩
  · rw [if_neg hends, if_neg hends]
    cases nohang with
    | true => exact ⟨_, _, rfl, rfl⟩
    | false => exact ⟨_, _, rfl, rfl⟩

theorem target_cases (s : State P) (p : P) (pid : Int) (hown : pid ≠ (s.proc p).pid) :
    (0 < pid ∧ target s p pid = ((nodeSequence s.children p).find?
        fun c => decide (pid = (s.proc c).pid)).map fun c => .child c pid) ∨
    pid ≤ 0 ∧ ∃ w, target s p pid = some w ∧
      (w = .any ∧ selects s p pid = (fun _ => true) ∨
        ∃ g, w = .group g ∧ selects s p pid = fun proc => decide (g = proc.pgid)) := by
  rw [target, if_neg hown]
  by_cases hgroup : pid < -1
  · refine .inr ⟨by omega, .group (-pid), if_pos hgroup, .inr ⟨-pid, rfl, ?_⟩⟩
    funext proc
    rw [selects, if_pos hgroup]
    exact decide_eq_decide.2 eq_comm
  rw [if_neg hgroup]
  by_cases hany : pid = -1
  · refine .inr ⟨by omega, .any, if_pos hany, .inl ⟨rfl, ?_⟩⟩
    funext proc
    rw [selects, if_neg hgroup, if_pos hany]
  rw [if_neg hany]
  by_cases hzero : pid = 0
  · refine .inr ⟨by omega, .group (s.proc p).pgid, if_pos hzero, .inr ⟨_, rfl, ?_⟩⟩
    funext proc
    rw [selects, if_neg hgroup, if_neg hany, if_pos hzero]
    exact decide_eq_decide.2 eq_comm
  · exact .inl ⟨by omega, if_neg hzero⟩

/-! ## The law, answer by answer -/

theorem finds_iff : t.finds s p cs = true ↔
    ∃ c, c ∈ cs ∧ t.admits s p (s.proc c) = true ∧ reportable (s.proc c) = true := by
  simp [Turn.finds]

theorem hasChild_iff : t.hasChild s p cs = true ↔
    ∃ c, c ∈ cs ∧ t.admits s p (s.proc c) = true := by
  simp [Turn.hasChild]

theorem law_searched (hrested : t.interrupted = false) :
    AnswerLaw s p cs t (searched s cs (t.admits s p) t.nohang) ↔
      t.finds s p cs = true ∨ t.nohang = !t.hasChild s p cs := by
  rw [searched]
  cases hfind : cs.find? fun c => t.admits s p (s.proc c) && reportable (s.proc c) with
  | some c =>
    have hc : c ∈ cs := List.mem_of_find?_eq_some hfind
    have htest := List.find?_some hfind
    rw [Bool.and_eq_true] at htest
    refine iff_of_true ⟨?_, ?_, ?_, ?_⟩ (.inl (finds_iff.2 ⟨c, hc, htest⟩))
    · exact fun heq => absurd heq (by simp)
    · intro _ hnone
      exact absurd htest.1 (by simp [hnone c hc])
    · intro _ _ hnot
      exact absurd htest.2 (by simp [hnot c hc htest.1])
    · intro v heq _
      simp only [Outcome.returns.injEq, Res.val.injEq] at heq
      exact ⟨c, hc, htest.1, heq, htest.2⟩
  | none =>
    have hnot : ∀ c, c ∈ cs → t.admits s p (s.proc c) = true → reportable (s.proc c) = false := by
      intro c hc hadmits
      have hnone := List.find?_eq_none.1 hfind c hc
      simpa [hadmits] using hnone
    have hfinds : t.finds s p cs = false := by
      rw [← Bool.not_eq_true, finds_iff]
      rintro ⟨c, hc, hadmits, hrep⟩
      rw [hnot c hc hadmits] at hrep
      cases hrep
    rw [hfinds]
    dsimp only
    by_cases hchild : t.hasChild s p cs = true
    · -- not yet: the search should have waited, or returned 0
      rw [hchild]
      rcases hasChild_iff.1 hchild with ⟨c, hc, hadmits⟩
      constructor
      · intro hlaw
        have hout := hlaw.notYet hrested ⟨c, hc, hadmits⟩ hnot
        cases hnohang : t.nohang with
        | true => simp [hnohang] at hout
        | false => exact .inr rfl
      · intro hcond
        have hnohang : t.nohang = false := hcond.resolve_left (by simp)
        rw [hnohang]
        refine ⟨fun heq => absurd heq (by simp), fun _ hnone => ?_, fun _ _ _ => ?_,
          fun v heq => absurd heq (by simp)⟩
        · rw [hnone c hc] at hadmits
          cases hadmits
        · rw [hnohang]
          rfl
    · -- no child
      rw [Bool.not_eq_true] at hchild
      have hempty : ∀ c, c ∈ cs → t.admits s p (s.proc c) = false := by
        intro c hc
        rw [← Bool.not_eq_true]
        intro hadmits
        rw [hasChild_iff.2 ⟨c, hc, hadmits⟩] at hchild
        cases hchild
      rw [hchild]
      constructor
      · intro hlaw
        have hout := hlaw.none hrested hempty
        cases hnohang : t.nohang with
        | true => exact .inr rfl
        | false => simp [hnohang] at hout
      · intro hcond
        have hnohang : t.nohang = true := hcond.resolve_left (by simp)
        rw [hnohang]
        refine ⟨fun _ => hempty, fun _ _ => rfl, fun _ hsome => ?_,
          fun v heq => absurd heq (by simp)⟩
        rcases hsome with ⟨c, hc, hadmits⟩
        rw [hempty c hc] at hadmits
        cases hadmits

theorem law_child (hc : c ∈ cs) (hadmits : t.admits s p (s.proc c) = true) :
    AnswerLaw s p cs t (if reportable (s.proc c) then .returns (.val (s.proc c).pid)
      else if t.nohang then .returns (.val 0) else .sleeps) := by
  cases hrep : reportable (s.proc c) with
  | true =>
    rw [if_pos rfl]
    refine ⟨fun heq => absurd heq (by simp), fun _ hnone => ?_, fun _ _ hnot => ?_,
      fun v heq _ => ?_⟩
    · rw [hnone c hc] at hadmits
      cases hadmits
    · rw [hnot c hc hadmits] at hrep
      cases hrep
    · simp only [Outcome.returns.injEq, Res.val.injEq] at heq
      exact ⟨c, hc, hadmits, heq, hrep⟩
  | false =>
    rw [if_neg (by simp)]
    refine ⟨fun heq => ?_, fun _ hnone => ?_, fun _ _ _ => rfl, fun v heq hv => ?_⟩
    · split_ifs at heq
      simp at heq
    · rw [hnone c hc] at hadmits
      cases hadmits
    · split_ifs at heq
      · simp only [Outcome.returns.injEq, Res.val.injEq] at heq
        exact absurd heq.symm hv

theorem law_echild (hempty : ∀ c, c ∈ cs → t.admits s p (s.proc c) = false) :
    AnswerLaw s p cs t (.returns (.err .ECHILD)) := by
  refine ⟨fun _ => hempty, fun _ _ => rfl, fun _ hsome => ?_, fun v heq => absurd heq (by simp)⟩
  rcases hsome with ⟨c, hc, hadmits⟩
  rw [hempty c hc] at hadmits
  cases hadmits

theorem law_error {e : Errno} (he : e ≠ .ECHILD) (hrested : t.interrupted = false) :
    AnswerLaw s p cs t (.returns (.err e)) ↔ t.finds s p cs = true := by
  constructor
  · intro hlaw
    by_contra hfinds
    have hnot : ∀ c, c ∈ cs → t.admits s p (s.proc c) = true → reportable (s.proc c) = false := by
      intro c hc hadmits
      rw [← Bool.not_eq_true]
      exact fun hrep => hfinds (finds_iff.2 ⟨c, hc, hadmits, hrep⟩)
    by_cases hsome : ∃ c, c ∈ cs ∧ t.admits s p (s.proc c) = true
    · have hout := hlaw.notYet hrested hsome hnot
      split_ifs at hout
      simp at hout
    · have hout := hlaw.none hrested fun c hc => by
        rw [← Bool.not_eq_true]
        exact fun hadmits => hsome ⟨c, hc, hadmits⟩
      simp only [Outcome.returns.injEq, Res.err.injEq] at hout
      exact he hout
  · intro hfinds
    rcases finds_iff.1 hfinds with ⟨c, hc, hadmits, hrep⟩
    refine ⟨fun heq => ?_, fun _ hnone => ?_, fun _ _ hnot => ?_, fun v heq => absurd heq (by simp)⟩
    · simp only [Outcome.returns.injEq, Res.err.injEq] at heq
      exact absurd heq he
    · rw [hnone c hc] at hadmits
      cases hadmits
    · rw [hnot c hc hadmits] at hrep
      cases hrep

theorem law_interrupted {e : Errno} (he : e ≠ .ECHILD) (hint : t.interrupted = true) :
    AnswerLaw s p cs t (.returns (.err e)) := by
  refine ⟨fun heq => ?_, fun hrested => ?_, fun hrested => ?_, fun v heq => absurd heq (by simp)⟩
  · simp only [Outcome.returns.injEq, Res.err.injEq] at heq
    exact absurd heq he
  · rw [hint] at hrested
    cases hrested
  · rw [hint] at hrested
    cases hrested

/-! ## Turns -/

theorem Family.look_outcome (h : Family s p cs) {w : Wait P} {test : Proc P → Bool}
    (hw : w = .any ∧ test = (fun _ => true) ∨
      ∃ g, w = .group g ∧ test = fun proc => decide (g = proc.pgid)) (nohang : Bool) :
    ∃ l s', look s p nohang w = .ok (l, s') ∧ l.outcome = searched s cs test nohang := by
  rcases hw with ⟨rfl, rfl⟩ | ⟨g, rfl, rfl⟩
  · exact h.matchLoop_outcome _ nohang
  · exact h.matchLoop_outcome _ nohang

def TurnLaw (s : State P) (p : P) (cs : List P) (t : Turn P) : Prop :=
  ∃ out s', turn s p t = .ok (out, s') ∧ AnswerLaw s p cs t out

theorem turnLaw_iff {s' : State P} (heq : turn s p t = .ok (out, s')) :
    TurnLaw s p cs t ↔ AnswerLaw s p cs t out := by
  rw [TurnLaw, heq]
  constructor
  · rintro ⟨out', s'', hok, hlaw⟩
    obtain rfl := (Prod.mk.inj (Except.ok.inj hok)).1
    exact hlaw
  · exact fun hlaw => ⟨out, s', rfl, hlaw⟩

theorem Family.start_law (h : Family s p cs) (pid : Int) (nohang : Bool) :
    TurnLaw s p cs (.start pid nohang) ↔
      Turn.lawful s p cs (.start pid nohang) = true := by
  have hfor := h.waitFor_eq pid
  rw [Turn.lawful, Bool.or_eq_true, Bool.and_eq_true, Bool.or_eq_true, decide_eq_true_eq,
    decide_eq_true_eq, beq_iff_eq]
  by_cases hown : pid = (s.proc p).pid
  · -- the pid of the caller
    have htarget : target s p pid = none := if_pos hown
    rw [htarget, if_pos hown] at hfor
    have heq : turn s p (.start pid nohang) = .ok (.returns (.err .EDEADLK), s) := by
      rw [turn, hfor]
      rfl
    rw [turnLaw_iff heq, law_error (by decide) rfl]
    exact ⟨.inl, fun hcond => hcond.resolve_right fun hne => hne.1 hown⟩
  rcases target_cases s p pid hown with ⟨hpos, htarget⟩ | ⟨hle, w, htarget, hw⟩
  · -- one child: the law holds whatever the child does
    refine iff_of_true ?_ (.inr ⟨hown, .inl hpos⟩)
    rw [h.queue] at htarget
    have hadmits : ∀ c, Turn.admits s p (.start pid nohang) (s.proc c) =
        decide ((s.proc c).pid = pid) := by
      intro c
      rw [Turn.admits, selects, if_neg (by omega), if_neg (by omega), if_neg (by omega)]
    cases hfind : cs.find? fun c => decide (pid = (s.proc c).pid) with
    | none =>
      rw [htarget, hfind, Option.map_none, if_neg hown] at hfor
      have heq : turn s p (.start pid nohang) = .ok (.returns (.err .ECHILD), s) := by
        rw [turn, hfor]
        rfl
      rw [turnLaw_iff heq]
      refine law_echild fun c hc => ?_
      have hnone := List.find?_eq_none.1 hfind c hc
      rw [hadmits, decide_eq_false_iff_not]
      exact fun hpid => hnone (by simp [hpid])
    | some c =>
      have hc : c ∈ cs := List.mem_of_find?_eq_some hfind
      have hpid : (s.proc c).pid = pid := by
        have htest := List.find?_some hfind
        exact (of_decide_eq_true htest).symm
      rw [htarget, hfind, Option.map_some] at hfor
      rcases h.matchChildLoop_outcome hc pid nohang none with ⟨l, s', hrun, hout⟩
      have heq : turn s p (.start pid nohang) = .ok (l.outcome, s') := by
        rw [turn, hfor]
        simp only [ok_bind, Option.elim_some, look, hrun]
        rfl
      rw [turnLaw_iff heq, hout, Option.isSome_none, Bool.or_false]
      have hlaw := law_child (t := .start pid nohang) (s := s) (p := p) hc
        (by rw [hadmits, hpid, decide_eq_true rfl])
      rwa [hpid] at hlaw
  · -- a search
    rcases h.look_outcome hw nohang with ⟨l, s', hrun, hout⟩
    rw [htarget] at hfor
    have heq : turn s p (.start pid nohang) = .ok (l.outcome, s') := by
      rw [turn, hfor]
      simp only [ok_bind, Option.elim_some, hrun]
      rfl
    have hsearch : AnswerLaw s p cs (.start pid nohang) l.outcome ↔ _ :=
      hout ▸ law_searched (t := .start pid nohang) rfl
    rw [turnLaw_iff heq, hsearch]
    refine or_congr Iff.rfl ?_
    rw [or_iff_right (by omega), and_iff_right hown]
    rfl

theorem Family.again_law (h : Family s p cs) {w : Wait P} {test : Proc P → Bool}
    (hw : w = .any ∧ test = (fun _ => true) ∨
      ∃ g, w = .group g ∧ test = fun proc => decide (g = proc.pgid)) {err : Option Errno}
    (herr : err ≠ some .ECHILD) :
    TurnLaw s p cs (.again w err) ↔ Turn.lawful s p cs (.again w err) = true := by
  have hadmits : Turn.admits s p (.again w err) = test := by
    funext proc
    rcases hw with ⟨rfl, rfl⟩ | ⟨g, rfl, rfl⟩
    · rfl
    · exact decide_eq_decide.2 eq_comm
  have hlawful : Turn.lawful s p cs (.again w err) = (Turn.finds s p cs (.again w err) ||
      (err.isSome || Turn.hasChild s p cs (.again w err))) := by
    rcases hw with ⟨rfl, -⟩ | ⟨g, rfl, -⟩
    · rfl
    · rfl
  rw [hlawful]
  cases err with
  | some e =>
    have heq : turn s p (.again w (some e)) = .ok (.returns (.err e), s) := by
      rcases hw with ⟨rfl, -⟩ | ⟨g, rfl, -⟩
      · rfl
      · rfl
    rw [turnLaw_iff heq]
    exact iff_of_true (law_interrupted (by simpa using herr) rfl) (by simp)
  | none =>
    rcases h.look_outcome hw false with ⟨l, s', hrun, hout⟩
    have heq : turn s p (.again w none) = .ok (l.outcome, s') := by
      rcases hw with ⟨rfl, -⟩ | ⟨g, rfl, -⟩
      · rw [turn, hrun]
        · rfl
        · simp
      · rw [turn, hrun]
        · rfl
        · simp
    have hsearch : AnswerLaw s p cs (.again w none)
        (searched s cs (Turn.admits s p (.again w none)) false) ↔ _ :=
      law_searched (t := .again w none) rfl
    rw [turnLaw_iff heq, hout, ← hadmits, hsearch, Bool.or_eq_true]
    simp [Turn.nohang]

/-- For every set of children and all of their states, the answer of a turn of `waitpid`, whatever
its arguments and however its wait has ended, keeps to the law if and only if the turn is lawful. -/
theorem waitpid_answer_iff {P : Type} [DecidableEq P] [Fintype P] {s : State P} {p : P}
    {cs : List P} (h : Family s p cs) (t : Turn P) (ht : t.fits s cs) :
    TurnLaw s p cs t ↔ t.lawful s p cs = true := by
  cases t with
  | start pid nohang => exact h.start_law pid nohang
  | again w err =>
    cases w with
    | any => exact h.again_law (.inl ⟨rfl, rfl⟩) ht.1
    | group g => exact h.again_law (.inr ⟨g, rfl, rfl⟩) ht.1
    | child c pid =>
      rcases ht with ⟨-, hc, hpid, hpos⟩
      rcases h.matchChildLoop_outcome hc pid false err with ⟨l, s', hrun, hout⟩
      have heq : turn s p (.again (.child c pid) err) = .ok (l.outcome, s') := by
        rw [turn, hrun]
        rfl
      rw [turnLaw_iff heq, hout]
      have hadmits : Turn.admits s p (.again (.child c pid) err) (s.proc c) = true := by
        rw [Turn.admits, hpid, decide_eq_true rfl]
      cases err with
      | none =>
        rw [Option.isSome_none, Bool.or_false]
        have hlaw := law_child hc hadmits
        rw [hpid] at hlaw
        exact iff_of_true hlaw (by simp [Turn.lawful])
      | some e =>
        -- the pid is returned whether or not the child has died or stopped
        rw [Option.isSome_some, Bool.or_true, if_pos rfl]
        have hlawful : Turn.lawful s p cs (.again (.child c pid) (some e)) =
            Turn.finds s p cs (.again (.child c pid) (some e)) := Bool.or_false _
        rw [hlawful, finds_iff]
        constructor
        · intro hlaw
          rcases hlaw.pid pid rfl (by omega) with ⟨d, hd, hadmits', -, hrep⟩
          exact ⟨d, hd, hadmits', hrep⟩
        · rintro ⟨d, hd, hadmits', hrep⟩
          have hwaited : ¬ Turn.interrupted (.again (.child c pid) (some e)) = false := by
            simp [Turn.interrupted]
          refine ⟨fun heq => absurd heq (by simp), fun hrested => absurd hrested hwaited,
            fun hrested => absurd hrested hwaited, fun v heq _ => ?_⟩
          simp only [Outcome.returns.injEq, Res.val.injEq] at heq
          rw [Turn.admits, decide_eq_true_eq] at hadmits'
          exact ⟨d, hd, by rw [Turn.admits, hadmits', decide_eq_true rfl], by omega, hrep⟩

def oneChild : Run (Fin 2) :=
  outcome (runs step (Run.empty fun _ => newProc 0)
    [.init (some 0) none none, .fork 0 (some 1) none]) (Run.empty fun _ => newProc 0)

def deadOne : Run (Fin 2) :=
  outcome (runs step (Run.empty fun _ => newProc 0)
    [.init (some 0) none none, .fork 0 (some 1) none, .exit 1 3 true true])
    (Run.empty fun _ => newProc 0)

theorem family_of_run {acts : List (Act (Fin 2))} {r : Run (Fin 2)}
    (hok : guarded step findsNone (Run.empty fun _ => newProc 0) acts = true)
    (hrun : runs step (Run.empty fun _ => newProc 0) acts = .ok r) :
    Family r.sys 0 (nodeSequence r.sys.children 0) := by
  rcases (run_inv hok).of_eq_ok hrun with ⟨l, kids, h⟩
  have hwaitable := (h.waitable 0).family
  exact hwaitable.queue.symm ▸ hwaitable

theorem waitpid_answer_iff_dead :
    nodeSequence deadOne.sys.children 0 = [1] ∧
    TurnLaw deadOne.sys 0 (nodeSequence deadOne.sys.children 0) (.start (-1) false) := by
  have hfamily : Family deadOne.sys 0 (nodeSequence deadOne.sys.children 0) :=
    family_of_run (by decide +kernel) (eq_ok_outcome (by decide +kernel))
  exact ⟨by decide +kernel, (waitpid_answer_iff hfamily (.start (-1) false) trivial).2 (by decide +kernel)⟩

/-- With a child that has not terminated: `WNOHANG` on any child answers `ECHILD`, and a wait for
the child that is interrupted answers its pid.  Without children a call on any child waits. -/
theorem waitpid_answers_wrong :
    nodeSequence oneChild.sys.children 0 = [1] ∧
    reportable (oneChild.sys.proc 1) = false ∧ (oneChild.sys.proc 1).pid = 2 ∧
    (turn oneChild.sys 0 (.start (-1) true)).toOption.map (·.1) =
      some (.returns (.err .ECHILD)) ∧
    ¬ TurnLaw oneChild.sys 0 [1] (.start (-1) true) ∧
    (turn oneChild.sys 0 (.again (.child 1 2) (some .EINTR))).toOption.map (·.1) =
      some (.returns (.val 2)) ∧
    ¬ TurnLaw oneChild.sys 0 [1] (.again (.child 1 2) (some .EINTR)) ∧
    nodeSequence oneChild.sys.children 1 = [] ∧
    (turn oneChild.sys 1 (.start (-1) false)).toOption.map (·.1) = some .sleeps ∧
    ¬ TurnLaw oneChild.sys 1 [] (.start (-1) false) := by
  have hrep : reportable (oneChild.sys.proc 1) = false := by decide +kernel
  have hnow : (turn oneChild.sys 0 (.start (-1) true)).toOption.map (·.1) =
      some (.returns (.err .ECHILD)) := by decide +kernel
  have hint : (turn oneChild.sys 0 (.again (.child 1 2) (some .EINTR))).toOption.map (·.1) =
      some (.returns (.val 2)) := by decide +kernel
  have hnone : (turn oneChild.sys 1 (.start (-1) false)).toOption.map (·.1) = some .sleeps := by
    decide +kernel
  refine ⟨by decide +kernel, hrep, by decide +kernel, hnow, ?_, hint, ?_, by decide +kernel, hnone,
    ?_⟩
  · rintro ⟨out, s', heq, hlaw⟩
    rw [heq] at hnow
    obtain rfl : out = .returns (.err .ECHILD) := Option.some.inj hnow
    have hempty := hlaw.child rfl 1 (by simp)
    exact absurd hempty (by decide)
  · rintro ⟨out, s', heq, hlaw⟩
    rw [heq] at hint
    obtain rfl : out = .returns (.val 2) := Option.some.inj hint
    rcases hlaw.pid 2 rfl (by decide) with ⟨c, hc, -, -, hdead⟩
    obtain rfl := List.mem_singleton.1 hc
    rw [hrep] at hdead
    cases hdead
  · rintro ⟨out, s', heq, hlaw⟩
    rw [heq] at hnone
    obtain rfl : out = .sleeps := Option.some.inj hnone
    have hout := hlaw.none rfl (by simp)
    cases hout

end Process
end XytherOS
