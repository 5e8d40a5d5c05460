import XytherOS.Proc.Reap

/-!
# Groups — process groups and sessions (`sys/syscall/sysproc.c`)

`setsid` and `setpgid` look a process up in `procQ` first.  The search takes the lock of the queue
a second time where it means to release it, so neither call gets past it.
-/

namespace XytherOS
namespace Process

open Ds

variable {P : Type} [DecidableEq P] [Fintype P]

def setsid (s : State P) (curproc : P) : Except Fault (Res Int × State P) := do
  match ← procQSearchBypgid s (s.proc curproc).pid false with
  -- this way out unlocks `curproc`, which has not been locked
  | (some _, _) => .error (.assertion "Spinlock must be held.")
  | (none, s) =>
    let proc := s.proc curproc
    if proc.pid = proc.pgid then
      return (.err .EPERM, s)
    else
      return (.val proc.pid, s.setProc curproc { proc with sid := proc.pid, pgid := proc.pid })

def procQnodeData (_ : P) : Option P := none

/-- The loop of `setpgid` over `procQ`, for a process other than `proc` in the group `pgid`. -/
def findLeader (s : State P) (proc : P) (pgid : Int) : List P → Except Fault (Option P)
  | [] => return none
  | node :: nodes =>
    if procQnodeData node = some proc then
      findLeader s proc pgid nodes
    else
      match procQnodeData node with
      | none => .error (.assertion "Invalid proc.")
      | some leader => do
          s.access leader
          if (s.proc leader).pgid = pgid then
            return some leader
          else
            findLeader s proc pgid nodes

/-- `setpgid` once the process and the leader of the group are known. -/
def setpgidLeader (s : State P) (curproc proc : P) (pgid : Int) (leader : Option P) :
    Ret × State P :=
  if (s.proc proc).pid ≠ pgid ∧ leader = none then
    (.err .EPERM, s.putref proc)
  else
    let done (s : State P) : State P := s.setProc proc { s.proc proc with pgid := pgid }
    match leader with
    | some leader =>
      if leader ≠ curproc ∧ (s.proc leader).sid ≠ (s.proc curproc).sid then
        (.err .EPERM, s.putref leader)
      else
        (.ok, ((done s).putref leader).putref proc)
    | none => (.ok, (done s).putref proc)

def setpgid (s : State P) (curproc : P) (pid pgid : Int) : Except Fault (Ret × State P) :=
  if pgid < 0 then
    return (.err .EINVAL, s)
  else do
    match ← procQSearchBypid s (if pid = 0 then (s.proc curproc).pid else pid) true with
    | (none, s) => return (.err .ESRCH, s)
    | (some proc, s) =>
      if (s.proc proc).parent = some curproc ∧ (s.proc proc).execed = true then
        return (.err .EACCES, s.putref proc)
      else if (s.proc proc).parent = some curproc ∧
          (s.proc proc).sid ≠ (s.proc curproc).sid then
        return (.err .EPERM, s.putref proc)
      else if (s.proc proc).pid = (s.proc proc).sid then
        return (.err .EPERM, s.putref proc)
      else do
        let s ← s.lock .procQ
        let leader ← findLeader s proc pgid (nodeSequence s.procQ ())
        let s := match leader with
          | some leader => s.getref leader
          | none => s
        let s ← s.unlock .procQ
        return setpgidLeader s curproc proc pgid leader

inductive GroupAct (P : Type)
  | fork (curproc : P) (place : Option P) (fail : Option (Stage × Errno))
  | setsid (curproc : P)
  | setpgid (curproc : P) (pid pgid : Int)

def groupStep (s : State P) : GroupAct P → Except Fault (State P)
  | .fork p place fail =>
    if s.runs p ∧ ¬ place.any s.live then do
      let (_, s) ← fork s p place fail
      return s
    else
      return s
  | .setsid p =>
    if s.runs p then do
      let (_, s) ← setsid s p
      return s
    else
      return s
  | .setpgid p pid pgid =>
    if s.runs p then do
      let (_, s) ← setpgid s p pid pgid
      return s
    else
      return s

/-! ## Groups within sessions -/

def OneSession (s : State P) : Prop :=
  ∀ p q, s.live p = true → s.live q = true → (s.proc p).pgid = (s.proc q).pgid →
    (s.proc p).sid = (s.proc q).sid

instance (s : State P) : Decidable (OneSession s) :=
  inferInstanceAs (Decidable (∀ p q, s.live p = true → s.live q = true →
    (s.proc p).pgid = (s.proc q).pgid → (s.proc p).sid = (s.proc q).sid))

/-- The call leaves every group within one session, and `setpgid` changes the group of the caller
or of a child of the caller only. -/
structure GroupLaw (s : State P) (a : GroupAct P) (s' : State P) : Prop where
  sessions : OneSession s'
  own : ∀ p pid pgid, a = .setpgid p pid pgid → ∀ q,
    (s'.proc q).pgid ≠ (s.proc q).pgid → q = p ∨ (s.proc q).parent = some p

/-- The call does not search `procQ`; a `fork` does not fail in `thread_schedule`, and where it
fails in the copies no other session has a group with the id of the new process. -/
def searchesNot (s : State P) : GroupAct P → Bool
  | .fork p place fail => !s.runs p || place.any s.live || match forkChild s place fail with
      | none => true
      | some _ => (failAt fail .schedule).isNone && ((failAt fail .copy).isNone ||
          decide (∀ q, s.live q = true → (s.proc q).pgid = toPid (s.pids + 1) →
            (s.proc q).sid = toPid (s.pids + 1)))
  | .setsid p => !s.runs p
  | .setpgid p _ pgid => !s.runs p || decide (pgid < 0)

variable {s : State P} {l : List P} {kids : P → List P} {p x : P}

theorem procQSearch_error (h : Sane s l kids) (test : Proc P → Bool) (ref : Bool) :
    procQSearch s test ref = .error (.assertion "Spinlock already held") := by
  have hlive : ∀ c ∈ l, s.live c = true := h.live
  rw [procQSearch, lock_eq (h.unlocked _), ok_bind]
  dsimp only
  rw [(h.procQ.holds ()).nodeSequence_eq, findProc_locked _ hlive, ok_bind, lock_held]
  · rfl
  · cases l.find? fun c => test (s.proc c) with
    | none => simp
    | some c => cases ref <;> simp [State.getref, State.setProc]

theorem setsid_error (h : Sane s l kids) (p : P) :
    setsid s p = .error (.assertion "Spinlock already held") := by
  rw [setsid, procQSearchBypgid, procQSearch_error h]
  rfl

theorem setpgid_error (h : Sane s l kids) (p : P) (pid : Int) {pgid : Int} (hpgid : ¬ pgid < 0) :
    setpgid s p pid pgid = .error (.assertion "Spinlock already held") := by
  rw [setpgid, if_neg hpgid, procQSearchBypid, procQSearch_error h]
  rfl

theorem oneSession_added (hone : OneSession s) {s' : State P} {whole : Bool}
    (hp : s.live p = true) (ha : Added s s' p x l kids whole) :
    OneSession s' ↔ whole = true ∨ ∀ q, s.live q = true →
      (s.proc q).pgid = toPid (s.pids + 1) → (s.proc q).sid = toPid (s.pids + 1) := by
  have hx : ∀ q, s.live q = true → q ≠ x := by
    rintro q hq rfl
    rw [ha.fresh] at hq
    exact Bool.noConfusion hq
  have hlive : ∀ q, q ≠ x → (s'.live q = true ↔ s.live q = true) := by
    intro q hq
    rw [ha.live, Function.update_of_ne hq]
  have hlivex : s'.live x = true := by
    rw [ha.live, Function.update_self]
  have hsid : ∀ q, q ≠ x → (s'.proc q).sid = (s.proc q).sid := by
    intro q hq
    rw [(ha.other q hq).1]
  have hpgid : ∀ q, q ≠ x → (s'.proc q).pgid = (s.proc q).pgid := by
    intro q hq
    rw [(ha.other q hq).1]
  constructor
  · intro hone'
    cases hwhole : whole with
    | true => exact .inl rfl
    | false =>
      refine .inr fun q hq heq => ?_
      have hqx := hx q hq
      have h := hone' q x ((hlive q hqx).2 hq) hlivex
      rw [ha.pgid, ha.sid, hwhole, if_neg (by simp), if_neg (by simp), hsid q hqx, hpgid q hqx] at h
      exact h heq
  · intro hok
    -- the new process agrees with every old one
    have hnew : ∀ q, s.live q = true → (s.proc q).pgid = (s'.proc x).pgid →
        (s.proc q).sid = (s'.proc x).sid := by
      intro q hq heq
      rw [ha.pgid] at heq
      rw [ha.sid]
      cases hwhole : whole with
      | true =>
        rw [hwhole, if_pos rfl] at heq
        rw [if_pos rfl]
        exact hone q p hq hp heq
      | false =>
        rw [hwhole] at hok heq
        rw [if_neg (by simp)] at heq ⊢
        exact hok.resolve_left (by simp) q hq heq
    intro q q' hq hq' heq
    by_cases hqx : q = x <;> by_cases hqx' : q' = x
    · rw [hqx, hqx']
    · rw [hqx] at heq ⊢
      rw [hpgid q' hqx'] at heq
      rw [hsid q' hqx']
      exact (hnew q' ((hlive q' hqx').1 hq') heq.symm).symm
    · rw [hqx'] at heq ⊢
      rw [hpgid q hqx] at heq
      rw [hsid q hqx]
      exact hnew q ((hlive q hqx).1 hq) heq
    · rw [hpgid q hqx, hpgid q' hqx'] at heq
      rw [hsid q hqx, hsid q' hqx']
      exact hone q q' ((hlive q hqx).1 hq) ((hlive q' hqx').1 hq') heq

structure GroupInv (s : State P) : Prop where
  sane : ∃ l kids, Sane s l kids
  one : OneSession s

theorem GroupInv.law {s' : State P} {a : GroupAct P} (h : GroupInv s')
    (hkeep : ∀ p pid pgid, a = .setpgid p pid pgid → s' = s) : GroupLaw s a s' ∧ GroupInv s' := by
  refine ⟨⟨h.one, fun p pid pgid ha q hq => ?_⟩, h⟩
  rw [hkeep p pid pgid ha] at hq
  exact absurd rfl hq

theorem runs_live (h : s.runs p = true) : s.live p = true := by
  simp only [State.runs, Bool.and_eq_true] at h
  exact h.1.1

variable {place : Option P} {fail : Option (Stage × Errno)}

theorem GroupInv.fork (h : GroupInv s) (ha : searchesNot s (.fork p place fail) = true) :
    Safe (fun _ => False) (groupStep s (.fork p place fail)) fun s' =>
      GroupLaw s (.fork p place fail) s' ∧ GroupInv s' := by
  have hlaw : ∀ s', GroupInv s' → GroupLaw s (.fork p place fail) s' ∧ GroupInv s' :=
    fun s' h' => h'.law fun q pid pgid heq => absurd heq (by simp)
  obtain ⟨l, kids, hsane⟩ := h.sane
  rw [groupStep]
  split_ifs with hruns
  swap
  · exact hlaw s h
  have hplace := Bool.eq_false_of_not_eq_true hruns.2
  have hp := runs_live hruns.1
  rw [searchesNot, hruns.1, hplace, Bool.not_true, Bool.false_or, Bool.false_or] at ha
  cases hchild : forkChild s place fail with
  | none =>
    obtain ⟨e, pids, heq⟩ := fork_none hsane hchild (p := p)
    rw [heq]
    refine hlaw _ ⟨⟨l, kids, ?_⟩, h.one⟩
    exact ⟨hsane.unlocked, hsane.bucket, hsane.procQ, hsane.links, hsane.live, hsane.queued,
      hsane.owner⟩
  | some x =>
    rw [hchild] at ha
    simp only [Bool.and_eq_true, Bool.or_eq_true, decide_eq_true_eq] at ha
    have hsome := fork_some hsane hp hplace hchild
    have hsched : (failAt fail .schedule).isSome = false := by
      rw [← Option.not_isNone, ha.1, Bool.not_true]
    rw [hsched, if_neg (by simp)] at hsome
    obtain ⟨ret, s', heq, hadded, -⟩ := hsome
    rw [heq]
    exact hlaw s' ⟨⟨_, _, hadded.sane⟩, (oneSession_added h.one hp hadded).2 ha.2⟩

theorem GroupInv.step {a : GroupAct P} (h : GroupInv s) (ha : searchesNot s a = true) :
    Safe (fun _ => False) (groupStep s a) fun s' => GroupLaw s a s' ∧ GroupInv s' := by
  cases a with
  | fork p place fail => exact h.fork ha
  | setsid p =>
    have hruns : ¬ s.runs p = true := by simpa [searchesNot] using ha
    rw [groupStep, if_neg hruns]
    exact h.law fun _ _ _ _ => rfl
  | setpgid p pid pgid =>
    rw [groupStep]
    split_ifs with hruns
    · have hpgid : pgid < 0 := by simpa [searchesNot, hruns] using ha
      rw [setpgid, if_pos hpgid]
      exact h.law fun _ _ _ _ => rfl
    · exact h.law fun _ _ _ _ => rfl

theorem GroupInv.step_searches {a : GroupAct P} (h : GroupInv s) (ha : searchesNot s a = false) :
    ¬ Safe (fun _ => False) (groupStep s a) (GroupLaw s a) := by
  obtain ⟨l, kids, hsane⟩ := h.sane
  cases a with
  | setsid p =>
    have hruns : s.runs p = true := by simpa [searchesNot] using ha
    rw [groupStep, if_pos hruns, setsid_error hsane]
    exact id
  | setpgid p pid pgid =>
    simp only [searchesNot, Bool.or_eq_false_iff, Bool.not_eq_false', decide_eq_false_iff_not] at ha
    rw [groupStep, if_pos ha.1, setpgid_error hsane p pid ha.2]
    exact id
  | fork p place fail =>
    simp only [searchesNot, Bool.or_eq_false_iff, Bool.not_eq_false'] at ha
    obtain ⟨⟨hruns, hplace⟩, hfail⟩ := ha
    have hp := runs_live hruns
    rw [groupStep, if_pos ⟨hruns, by simp [hplace]⟩]
    cases hchild : forkChild s place fail with
    | none =>
      rw [hchild] at hfail
      exact absurd hfail (by simp)
    | some x =>
      have hsome := fork_some hsane hp hplace hchild
      rw [hchild] at hfail
      split_ifs at hsome with hsched
      · rw [hsome]
        exact id
      · obtain ⟨ret, s', heq, hadded, -⟩ := hsome
        rw [heq]
        intro hlaw
        -- the failed copies leave a process in a group of another session
        have hone := (oneSession_added h.one hp hadded).1 (GroupLaw.sessions hlaw)
        rw [Option.not_isSome_iff_eq_none] at hsched
        rw [hsched, Option.isNone_none, Bool.true_and, Bool.or_eq_false_iff,
          decide_eq_false_iff_not] at hfail
        rcases hone with hwhole | hgroups
        · rw [hfail.1] at hwhole
          exact Bool.noConfusion hwhole
        · exact hfail.2 hgroups

/-- From a sane state with every group within one session: the calls return, keep it so and change
only groups of the caller and its children, if and only if no call gets to the search. -/
theorem groups_within_session_iff (hsane : Sane s l kids) (hone : OneSession s)
    (acts : List (GroupAct P)) :
    Stepwise (fun _ => False) groupStep GroupLaw s acts ↔
      guarded groupStep searchesNot s acts = true :=
  stepwise_iff_guarded (fun _ _ hs ha => GroupInv.step hs ha)
    (fun _ _ hs ha => GroupInv.step_searches hs ha) (⟨⟨l, kids, hsane⟩, hone⟩ : GroupInv s)

def twoProcesses : Run (Fin 3) :=
  outcome (runs step (Run.empty fun _ => newProc 0)
    [.init (some 0) none none, .fork 0 (some 1) none]) (Run.empty fun _ => newProc 0)

theorem twoProcesses_sane : ∃ l kids, Sane twoProcesses.sys l kids := by
  have hrun : guarded step findsNone (Run.empty fun _ => newProc 0 : Run (Fin 3))
      [.init (some 0) none none, .fork 0 (some 1) none] = true := by
    decide +kernel
  obtain ⟨l, kids, h⟩ := (run_inv hrun).of_eq_ok
    (eq_ok_outcome (d := Run.empty fun _ => newProc 0) (by decide +kernel))
  exact ⟨l, kids, h.sane⟩

theorem groups_within_session_iff_forks :
    ∃ l kids, Sane twoProcesses.sys l kids ∧ OneSession twoProcesses.sys ∧
      (Stepwise (fun _ => False) groupStep GroupLaw twoProcesses.sys
          [.fork 1 (some 2) (some (.copy, .ENOMEM)), .setpgid 0 2 (-1), .fork 1 none none] ↔
        guarded groupStep searchesNot twoProcesses.sys
          [.fork 1 (some 2) (some (.copy, .ENOMEM)), .setpgid 0 2 (-1), .fork 1 none none] =
            true) := by
  obtain ⟨l, kids, hsane⟩ := twoProcesses_sane
  have hone : OneSession twoProcesses.sys := by decide +kernel
  exact ⟨l, kids, hsane, hone, groups_within_session_iff hsane hone _⟩

/-- `setsid` by the child, and `setpgid` of the child on itself. -/
theorem setsid_panics :
    (∃ l kids, Sane twoProcesses.sys l kids) ∧ OneSession twoProcesses.sys ∧
      groupStep twoProcesses.sys (.setsid 1) = .error (.assertion "Spinlock already held") ∧
      groupStep twoProcesses.sys (.setpgid 1 0 2) = .error (.assertion "Spinlock already held") ∧
      ¬ Stepwise (fun _ => False) groupStep GroupLaw twoProcesses.sys [.setsid 1] := by
  have hruns : twoProcesses.sys.runs 1 = true := by decide +kernel
  obtain ⟨l, kids, hsane⟩ := twoProcesses_sane
  have hsetsid : groupStep twoProcesses.sys (.setsid 1) =
      .error (.assertion "Spinlock already held") := by
    rw [groupStep, if_pos hruns, setsid_error hsane]
    rfl
  refine ⟨⟨l, kids, hsane⟩, by decide +kernel, hsetsid, ?_, fun h => ?_⟩
  · rw [groupStep, if_pos hruns, setpgid_error hsane 1 0 (by decide)]
    rfl
  · rw [Stepwise, hsetsid] at h
    exact h

end Process
end XytherOS
