import XytherOS.Proc.Fork

/-!
# Reap — `waitpid` (`sys/syscall/thread/wait.c`) over runs of `fork`, `exit` and `waitpid`

`waitpid` looks through the children of the caller until it meets one that it can report, and
sleeps when there is none.  For a child that has terminated it calls `proc_free`, which gives up a
reference: the child stays in the children queue and in `procQ`.

* A call of `waitpid` is cut where it sleeps in `cond_wait`; the thread then has a `Wait`, and goes
  on with what `cond_wait` returns.
* `pid_t` arguments are integers.
-/

namespace XytherOS
namespace Process

open Ds Function

variable {P : Type} [DecidableEq P] [Fintype P]

inductive Wait (P : Type)
  | child (child : P) (pid : Int)
  | any
  | group (pgid : Int)
  deriving DecidableEq, Repr

/-- How a stretch of `waitpid` ends: the call returns, or sleeps. -/
inductive Outcome
  | returns (ret : Res Int)
  | sleeps
  deriving DecidableEq, Repr

/-- The outcome, the child that has been released, and what is stored to `*stat`. -/
structure Look (P : Type) where
  outcome : Outcome
  released : Option P
  stat : Option Int

def release (s : State P) (curproc child : P) : Except Fault (Option P × State P) :=
  if procDied (s.proc child) then do
    return (some child, ← procFree s (some curproc) child)
  else
    return (none, s)

/-- The loop of `match_child_pid` once it has found its child; `err` is what `cond_wait` has
returned. -/
def matchChildLoop (s : State P) (curproc child : P) (pid : Int) (nohang : Bool)
    (err : Option Errno) : Except Fault (Look P × State P) := do
  s.access child
  let stops := procDied (s.proc child) || procStopped (s.proc child)
  if stops || err.isSome then
    let stat := if stops then some (s.proc child).status else none
    let (released, s) ← release s curproc child
    return (⟨.returns (.val pid), released, stat⟩, s)
  else if nohang then
    return (⟨.returns (.val 0), none, none⟩, s)
  else
    return (⟨.sleeps, none, none⟩, s)

/-- The body of the loops of `match_pid` and `match_pgid`; `test` says which children count. -/
def matchLoop (s : State P) (curproc : P) (test : Proc P → Bool) (nohang : Bool) :
    Except Fault (Look P × State P) := do
  let s ← s.lock (.children curproc)
  match ← findProc s (fun proc => test proc && (procDied proc || procStopped proc))
      (nodeSequence s.children curproc) with
  | some child =>
    let proc := s.proc child
    let (released, s) ← release s curproc child
    let s ← s.unlock (.children curproc)
    return (⟨.returns (.val proc.pid), released, some proc.status⟩, s)
  | none =>
    let s ← s.unlock (.children curproc)
    if nohang then
      return (⟨.returns (.err .ECHILD), none, none⟩, s)
    else
      return (⟨.sleeps, none, none⟩, s)

def matchPid (s : State P) (curproc : P) (nohang : Bool) : Except Fault (Look P × State P) :=
  matchLoop s curproc (fun _ => true) nohang

def matchPgid (s : State P) (curproc : P) (pgid : Int) (nohang : Bool) :
    Except Fault (Look P × State P) :=
  matchLoop s curproc (fun proc => pgid = proc.pgid) nohang

def look (s : State P) (curproc : P) (nohang : Bool) : Wait P → Except Fault (Look P × State P)
  | .child child pid => matchChildLoop s curproc child pid nohang none
  | .any => matchPid s curproc nohang
  | .group pgid => matchPgid s curproc pgid nohang

def findChild (s : State P) (curproc : P) (pid : Int) : Except Fault (Option P × State P) := do
  let s ← s.lock (.children curproc)
  let found ← findProc s (fun proc => pid = proc.pid) (nodeSequence s.children curproc)
  let s ← s.unlock (.children curproc)
  return (found, s)

/-- What `waitpid` looks for, or the error that it returns at once. -/
def waitFor (s : State P) (curproc : P) (pid : Int) : Except Fault (Res (Wait P) × State P) :=
  if pid = (s.proc curproc).pid then
    return (.err .EDEADLK, s)
  else if pid < -1 then
    return (.val (.group (-pid)), s)
  else if pid = -1 then
    return (.val .any, s)
  else if pid = 0 then
    return (.val (.group (s.proc curproc).pgid), s)
  else do
    match ← findChild s curproc pid with
    | (some child, s) => return (.val (.child child pid), s)
    | (none, s) => return (.err .ECHILD, s)

/-- The processes, the calls of `waitpid` that sleep, by process and thread, and the terminated
children that have been returned. -/
structure Run (P : Type) where
  sys : State P
  waiting : P → Nat → Option (Wait P)
  returned : List P

def Run.empty (memory : P → Proc P) : Run P where
  sys := .empty memory
  waiting _ _ := none
  returned := []

def Run.setWaiting (r : Run P) (p : P) (t : Nat) (w : Option (Wait P)) : Run P :=
  { r with waiting := update r.waiting p (update (r.waiting p) t w) }

def Run.looked (r : Run P) (p : P) (t : Nat) (w : Wait P) (res : Look P × State P) : Run P :=
  { ({ r with sys := res.2 } : Run P).setWaiting p t
      (if res.1.outcome = .sleeps then some w else none) with
    returned := r.returned ++ res.1.released.toList }

def waitpid (r : Run P) (p : P) (t : Nat) (pid : Int) (nohang : Bool) :
    Except Fault (Run P) := do
  match ← waitFor r.sys p pid with
  | (.err _, s) => return { r with sys := s }
  | (.val w, s) => return r.looked p t w (← look s p nohang w)

def resume (r : Run P) (p : P) (t : Nat) (w : Wait P) (err : Option Errno) :
    Except Fault (Run P) := do
  match w, err with
  | .child child pid, err =>
    return r.looked p t w (← matchChildLoop r.sys p child pid false err)
  | _, some _ => return r.setWaiting p t none
  | _, none => return r.looked p t w (← look r.sys p false w)

inductive Act (P : Type)
  | init (place : Option P) (fail image : Option Errno)
  | fork (curproc : P) (place : Option P) (fail : Option (Stage × Errno))
  | exit (curproc : P) (status : Int) (killed cleaned : Bool)
  | waitpid (curproc : P) (thread : Nat) (pid : Int) (nohang : Bool)
  | resume (curproc : P) (thread : Nat) (err : Option Errno)

/-- One step.  A process that does not run, a thread that sleeps, or a place in use takes none. -/
def step (r : Run P) : Act P → Except Fault (Run P)
  | .init place fail image =>
    if r.sys.initproc.isSome ∨ place.any r.sys.live then
      return r
    else do
      let (_, s) ← procInit r.sys place fail image
      return { r with sys := s }
  | .fork p place fail =>
    if r.sys.runs p ∧ ¬ place.any r.sys.live then do
      let (_, s) ← fork r.sys p place fail
      return { r with sys := s }
    else
      return r
  | .exit p status killed cleaned =>
    if r.sys.runs p then do
      let s ← exit r.sys p status killed cleaned
      -- the other threads have been killed
      return { r with sys := s, waiting := update r.waiting p fun _ => none }
    else
      return r
  | .waitpid p t pid nohang =>
    if r.sys.runs p ∧ r.waiting p t = none then waitpid r p t pid nohang else return r
  | .resume p t err =>
    match r.waiting p t with
    | some w => if r.sys.runs p then resume r p t w err else return r
    | none => return r

/-! ### Children returned once -/

/-- Every terminated child has been returned at most once, and is in no queue any more. -/
structure ReapedOnce (r : Run P) : Prop where
  once : r.returned.Nodup
  children : ∀ c ∈ r.returned, ∀ p, c ∉ nodeSequence r.sys.children p
  procQ : ∀ c ∈ r.returned, c ∉ nodeSequence r.sys.procQ ()

def deadChild (s : State P) (p : P) : Wait P → Bool
  | .child child _ => procDied (s.proc child)
  | .any => (nodeSequence s.children p).any fun c => procDied (s.proc c)
  | .group pgid => (nodeSequence s.children p).any fun c =>
    decide (pgid = (s.proc c).pgid) && procDied (s.proc c)

def Wait.isChild : Wait P → Bool
  | .child _ _ => true
  | _ => false

/-- The children that `waitpid` looks for with this argument. -/
def target (s : State P) (p : P) (pid : Int) : Option (Wait P) :=
  if pid = (s.proc p).pid then none
  else if pid < -1 then some (.group (-pid))
  else if pid = -1 then some .any
  else if pid = 0 then some (.group (s.proc p).pgid)
  else ((nodeSequence s.children p).find? fun c => decide (pid = (s.proc c).pid)).map
    fun c => .child c pid

/-- No call of `waitpid` finds a terminated child, neither at once nor when it goes on.  A call on
any child or on a group that `cond_wait` returns an error to does not look. -/
def findsNone (r : Run P) : Act P → Bool
  | .waitpid p t pid _ => !r.sys.runs p || (r.waiting p t).isSome ||
      !(target r.sys p pid).any (deadChild r.sys p)
  | .resume p t err => !r.sys.runs p || !(r.waiting p t).any fun w =>
    deadChild r.sys p w && (err.isNone || w.isChild)
  | _ => true

variable {s : State P} {r : Run P} {l : List P} {kids : P → List P} {p x : P}

theorem findProc_eq {test : Proc P → Bool} {ps : List P} (hlive : ∀ c ∈ ps, s.live c = true) :
    findProc s test ps = .ok (ps.find? fun c => test (s.proc c)) := by
  induction ps with
  | nil => rfl
  | cons c ps ih =>
    rw [findProc, access_eq (hlive c (by simp)), ok_bind, List.find?_cons]
    cases htest : test (s.proc c) with
    | true => rfl
    | false =>
      rw [if_neg (by simp)]
      exact ih fun d hd => hlive d (by simp [hd])

theorem findProc_locked (locked : Lock P → Bool) {test : Proc P → Bool} {ps : List P}
    (hlive : ∀ c ∈ ps, s.live c = true) :
    findProc ({ s with locked := locked } : State P) test ps =
      .ok (ps.find? fun c => test (s.proc c)) := by
  have hlive' : ∀ c ∈ ps, ({ s with locked := locked } : State P).live c = true := hlive
  exact findProc_eq hlive'

/-- What a look at the children relies on: they are live, and those that have died have a reference
besides the one that `waitpid` gives up. -/
structure Family (s : State P) (p : P) (cs : List P) : Prop where
  unlocked : Unlocked s
  queue : nodeSequence s.children p = cs
  own : p ∉ cs
  live : ∀ c ∈ cs, s.live c = true
  refs : ∀ c ∈ cs, procDied (s.proc c) = true → 2 ≤ (s.proc c).refcnt

theorem Family.release {cs : List P} (h : Family s p cs) {c : P} (hc : c ∈ cs)
    (hdied : procDied (s.proc c) = true) (locked : Lock P → Bool) :
    release ({ s with locked := locked } : State P) p c =
      .ok (some c, ({ s with locked := locked } : State P).putref c) := by
  have hpc : (some p : Option P) ≠ some c := by
    intro heq
    exact h.own (Option.some.inj heq ▸ hc)
  have hlive : ({ s with locked := locked } : State P).live c = true := h.live c hc
  rw [Process.release, if_pos hdied, procFree_drop hpc hlive (h.refs c hc hdied)]
  rfl

/-- What the calls of `waitpid` rely on: the children are live and none of them is stopped, and a
process that has started has references besides the one that `waitpid` gives up. -/
structure Waitable (s : State P) (p : P) (cs : List P) : Prop where
  unlocked : Unlocked s
  queue : nodeSequence s.children p = cs
  own : p ∉ cs
  live : ∀ c ∈ cs, s.live c = true
  going : ∀ c ∈ cs, procStopped (s.proc c) = false
  refs : ∀ c ∈ cs, procDied (s.proc c) = true → 3 ≤ (s.proc c).refcnt

variable {cs : List P} {nohang : Bool} {test : Proc P → Bool}

theorem Waitable.family (h : Waitable s p cs) : Family s p cs :=
  ⟨h.unlocked, h.queue, h.own, h.live, fun c hc hdied => (h.refs c hc hdied).trans' (by decide)⟩

theorem Waitable.matchLoop_none (h : Waitable s p cs)
    (hnone : (cs.any fun c => test (s.proc c) && procDied (s.proc c)) = false) :
    ∃ out, matchLoop s p test nohang = .ok (⟨out, none, none⟩, s) := by
  have hfind : cs.find?
      (fun c => test (s.proc c) && (procDied (s.proc c) || procStopped (s.proc c))) = none := by
    refine List.find?_eq_none.2 fun c hc => ?_
    rw [List.any_eq_false] at hnone
    rw [h.going c hc, Bool.or_false]
    exact hnone c hc
  have hsame : ({ s with locked := s.locked } : State P) = s := rfl
  rw [matchLoop, lock_eq (h.unlocked _), ok_bind]
  dsimp only
  rw [h.queue, findProc_locked _ h.live, hfind, ok_bind]
  dsimp only
  rw [unlock_eq (by simp), ok_bind]
  dsimp only
  rw [update_locked (h.unlocked _)]
  cases nohang with
  | true => exact ⟨.returns (.err .ECHILD), rfl⟩
  | false => exact ⟨.sleeps, rfl⟩

theorem Waitable.matchLoop_some (h : Waitable s p cs)
    (hsome : (cs.any fun c => test (s.proc c) && procDied (s.proc c)) = true) :
    ∃ c out stat s', matchLoop s p test nohang = .ok (⟨out, some c, stat⟩, s') ∧ c ∈ cs ∧
      s'.children = s.children ∧ s'.procQ = s.procQ := by
  obtain ⟨d, hd, hdied⟩ := List.any_eq_true.1 hsome
  cases hfind : cs.find?
      (fun c => test (s.proc c) && (procDied (s.proc c) || procStopped (s.proc c))) with
  | none =>
    have hd' := List.find?_eq_none.1 hfind d hd
    rw [h.going d hd, Bool.or_false] at hd'
    exact absurd hdied hd'
  | some c =>
    have hc : c ∈ cs := List.mem_of_find?_eq_some hfind
    have hcdied : procDied (s.proc c) = true := by
      have htest := List.find?_some hfind
      rw [h.going c hc, Bool.or_false, Bool.and_eq_true] at htest
      exact htest.2
    rw [matchLoop, lock_eq (h.unlocked _), ok_bind]
    dsimp only
    rw [h.queue, findProc_locked _ h.live, hfind, ok_bind]
    dsimp only
    rw [h.family.release hc hcdied, ok_bind]
    dsimp only
    rw [unlock_eq (by simp [State.putref, State.setProc]), ok_bind]
    exact ⟨c, _, _, _, rfl, hc, rfl, rfl⟩

theorem Waitable.matchChildLoop_none (h : Waitable s p cs) {c : P} (hc : c ∈ cs)
    (hdied : procDied (s.proc c) = false) (pid : Int) (nohang : Bool) (err : Option Errno) :
    ∃ out, matchChildLoop s p c pid nohang err = .ok (⟨out, none, none⟩, s) := by
  have hstop := h.going c hc
  rw [matchChildLoop, access_eq (h.live c hc), ok_bind]
  simp only [hdied, hstop, Bool.or_self, Bool.false_or, Bool.false_eq_true, if_false]
  cases err with
  | some e =>
    rw [if_pos (by simp), Process.release, hdied, if_neg (by simp)]
    exact ⟨.returns (.val pid), rfl⟩
  | none =>
    cases nohang with
    | true => exact ⟨.returns (.val 0), rfl⟩
    | false => exact ⟨.sleeps, rfl⟩

theorem Waitable.matchChildLoop_some (h : Waitable s p cs) {c : P} (hc : c ∈ cs)
    (hdied : procDied (s.proc c) = true) (pid : Int) (nohang : Bool) (err : Option Errno) :
    ∃ out stat s', matchChildLoop s p c pid nohang err = .ok (⟨out, some c, stat⟩, s') ∧
      s'.children = s.children ∧ s'.procQ = s.procQ := by
  refine ⟨.returns (.val pid), some (s.proc c).status, s.putref c, ?_, rfl, rfl⟩
  rw [matchChildLoop, access_eq (h.live c hc), ok_bind]
  simp only [hdied, Bool.true_or, if_true]
  have hrel : Process.release s p c = .ok (some c, s.putref c) := h.family.release hc hdied s.locked
  rw [hrel]
  rfl

def Wanted (cs : List P) : Wait P → Prop
  | .child c _ => c ∈ cs
  | _ => True

variable {w : Wait P} {s' : State P}

theorem Waitable.look_none (h : Waitable s p cs) (hw : Wanted cs w)
    (hdead : deadChild s p w = false) (nohang : Bool) :
    ∃ out, look s p nohang w = .ok (⟨out, none, none⟩, s) := by
  cases w with
  | child c pid => exact h.matchChildLoop_none hw hdead pid nohang none
  | any =>
    rw [deadChild, h.queue] at hdead
    exact h.matchLoop_none (by simpa using hdead)
  | group pgid =>
    rw [deadChild, h.queue] at hdead
    exact h.matchLoop_none hdead

theorem Waitable.look_some (h : Waitable s p cs) (hw : Wanted cs w)
    (hdead : deadChild s p w = true) (nohang : Bool) :
    ∃ c out stat s', look s p nohang w = .ok (⟨out, some c, stat⟩, s') ∧ c ∈ cs ∧
      s'.children = s.children ∧ s'.procQ = s.procQ := by
  cases w with
  | child c pid =>
    obtain ⟨out, stat, s', heq, hkeep⟩ := h.matchChildLoop_some hw hdead pid nohang none
    exact ⟨c, out, stat, s', heq, hw, hkeep⟩
  | any =>
    rw [deadChild, h.queue] at hdead
    exact h.matchLoop_some (by simpa using hdead)
  | group pgid =>
    rw [deadChild, h.queue] at hdead
    exact h.matchLoop_some hdead

theorem Family.waitFor_eq (h : Family s p cs) (pid : Int) :
    waitFor s p pid = .ok ((target s p pid).elim
      (.err (if pid = (s.proc p).pid then .EDEADLK else .ECHILD)) .val, s) := by
  rw [waitFor, target]
  by_cases hown : pid = (s.proc p).pid
  · rw [if_pos hown, if_pos hown, if_pos hown]
    rfl
  rw [if_neg hown, if_neg hown, if_neg hown]
  by_cases hgroup : pid < -1
  · rw [if_pos hgroup, if_pos hgroup]
    rfl
  rw [if_neg hgroup, if_neg hgroup]
  by_cases hany : pid = -1
  · rw [if_pos hany, if_pos hany]
    rfl
  rw [if_neg hany, if_neg hany]
  by_cases hzero : pid = 0
  · rw [if_pos hzero, if_pos hzero]
    rfl
  rw [if_neg hzero, if_neg hzero]
  rw [findChild, lock_eq (h.unlocked _), ok_bind]
  dsimp only
  rw [h.queue, findProc_locked _ h.live, ok_bind, unlock_eq (by simp), ok_bind]
  dsimp only
  rw [update_locked (h.unlocked _)]
  cases cs.find? fun c => decide (pid = (s.proc c).pid) <;> rfl

theorem Waitable.target_wanted (h : Waitable s p cs) {pid : Int}
    (hw : target s p pid = some w) : Wanted cs w := by
  rw [target, h.queue] at hw
  split_ifs at hw
  · obtain rfl := Option.some.inj hw
    trivial
  · obtain rfl := Option.some.inj hw
    trivial
  · obtain rfl := Option.some.inj hw
    trivial
  · obtain ⟨c, hfind, rfl⟩ := Option.map_eq_some_iff.1 hw
    exact List.mem_of_find?_eq_some hfind

/-- As long as no terminated child has been returned, the calls of `waitpid` have what they rely
on. -/
structure RunInv (r : Run P) (l : List P) (kids : P → List P) : Prop where
  sane : Sane r.sys l kids
  state : ∀ c, r.sys.live c = true →
    (r.sys.proc c).state = .embryo ∨ (r.sys.proc c).state = .terminated ∧ (r.sys.proc c).started
  refs : ∀ c, r.sys.live c = true → (r.sys.proc c).started = true → 3 ≤ (r.sys.proc c).refcnt
  init : ∀ i, r.sys.initproc = some i → r.sys.live i = true ∧ ∀ p, i ∉ kids p
  own : ∀ p, p ∉ kids p
  waiting : ∀ p t w, r.waiting p t = some w → Wanted (kids p) w
  clean : r.returned = []

theorem RunInv.empty (memory : P → Proc P) : RunInv (Run.empty memory) [] fun _ => [] where
  sane :=
    { unlocked := fun _ => rfl
      bucket := rfl
      procQ := inv_init
      links := inv_init
      live := by simp
      queued := by simp
      owner := by simp }
  state c h := absurd h (by simp [Run.empty, State.empty])
  refs c h := absurd h (by simp [Run.empty, State.empty])
  init i h := absurd h (by simp [Run.empty, State.empty])
  own := by simp
  waiting p t w h := absurd h (by simp [Run.empty])
  clean := rfl

theorem RunInv.waitable (h : RunInv r l kids) (p : P) : Waitable r.sys p (kids p) := by
  have hlive : ∀ c ∈ kids p, r.sys.live c = true := fun c hc => h.sane.kids_live hc
  refine ⟨h.sane.unlocked, (h.sane.links.holds p).nodeSequence_eq, h.own p, hlive,
    fun c hc => ?_, fun c hc hdied => ?_⟩
  · rcases h.state c (hlive c hc) with hstate | ⟨hstate, -⟩ <;> simp [procStopped, hstate]
  · rcases h.state c (hlive c hc) with hstate | ⟨-, hstarted⟩
    · simp [procDied, hstate] at hdied
    · exact h.refs c (hlive c hc) hstarted

theorem RunInv.reapedOnce (h : RunInv r l kids) : ReapedOnce r := by
  refine ⟨?_, fun c hc => ?_, fun c hc => ?_⟩
  · rw [h.clean]
    exact List.nodup_nil
  · rw [h.clean] at hc
    exact absurd hc (by simp)
  · rw [h.clean] at hc
    exact absurd hc (by simp)

theorem RunInv.setWaiting (h : RunInv r l kids) (t : Nat) {w : Option (Wait P)}
    (hw : ∀ w', w = some w' → Wanted (kids p) w') : RunInv (r.setWaiting p t w) l kids := by
  refine ⟨h.sane, h.state, h.refs, h.init, h.own, fun q u w' hw' => ?_, h.clean⟩
  dsimp only [Run.setWaiting] at hw'
  by_cases hq : q = p
  · subst hq
    rw [update_self] at hw'
    by_cases hu : u = t
    · rw [hu, update_self] at hw'
      exact hw w' hw'
    · rw [update_of_ne hu] at hw'
      exact h.waiting q u w' hw'
  · rw [update_of_ne hq] at hw'
    exact h.waiting q u w' hw'

theorem RunInv.looked (h : RunInv r l kids) (t : Nat) (hw : Wanted (kids p) w)
    (out : Outcome) : RunInv (r.looked p t w (⟨out, none, none⟩, r.sys)) l kids := by
  have hset : RunInv (r.setWaiting p t (if out = .sleeps then some w else none)) l kids := by
    refine h.setWaiting t fun w' hw' => ?_
    split_ifs at hw'
    obtain rfl := Option.some.inj hw'
    exact hw
  have heq : r.looked p t w (⟨out, none, none⟩, r.sys) =
      r.setWaiting p t (if out = .sleeps then some w else none) := by
    simp [Run.looked, Run.setWaiting]
  rw [heq]
  exact hset

theorem not_reapedOnce (h : RunInv r l kids) {t : Nat} {c : P} {out : Outcome}
    {stat : Option Int} (hc : c ∈ kids p) (hchildren : s'.children = r.sys.children) :
    ¬ ReapedOnce (r.looked p t w (⟨out, some c, stat⟩, s')) := by
  intro hreaped
  have hmem : c ∈ (r.looked p t w (⟨out, some c, stat⟩, s')).returned := by simp [Run.looked]
  refine hreaped.children c hmem p ?_
  change c ∈ nodeSequence s'.children p
  rw [hchildren, (h.sane.links.holds p).nodeSequence_eq]
  exact hc

variable {t : Nat} {pid : Int}

theorem RunInv.waitpid (h : RunInv r l kids)
    (hdead : (target r.sys p pid).any (deadChild r.sys p) = false) :
    Safe AnyFault (waitpid r p t pid nohang) fun r' => ∃ l kids, RunInv r' l kids := by
  have hfor := (h.waitable p).family.waitFor_eq pid
  rw [Process.waitpid, hfor, ok_bind]
  cases htarget : target r.sys p pid with
  | none => exact ⟨l, kids, h⟩
  | some w =>
    rw [htarget, Option.any_some] at hdead
    have hw := (h.waitable p).target_wanted htarget
    obtain ⟨out, hlook⟩ := (h.waitable p).look_none hw hdead nohang
    dsimp only [Option.elim]
    rw [hlook]
    exact ⟨l, kids, h.looked t hw out⟩

theorem RunInv.waitpid_dead (h : RunInv r l kids)
    (hdead : (target r.sys p pid).any (deadChild r.sys p) = true) :
    ¬ Safe AnyFault (Process.waitpid r p t pid nohang) ReapedOnce := by
  have hfor := (h.waitable p).family.waitFor_eq pid
  rw [Process.waitpid, hfor, ok_bind]
  cases htarget : target r.sys p pid with
  | none =>
    rw [htarget] at hdead
    exact absurd hdead (by simp)
  | some w =>
    rw [htarget, Option.any_some] at hdead
    have hw := (h.waitable p).target_wanted htarget
    obtain ⟨c, out, stat, s', hlook, hc, hchildren, -⟩ :=
      (h.waitable p).look_some hw hdead nohang
    dsimp only [Option.elim]
    rw [hlook]
    exact not_reapedOnce h hc hchildren

theorem RunInv.resume (h : RunInv r l kids) {err : Option Errno}
    (hwait : r.waiting p t = some w)
    (hdead : (deadChild r.sys p w && (err.isNone || w.isChild)) = false) :
    Safe AnyFault (resume r p t w err) fun r' => ∃ l kids, RunInv r' l kids := by
  have hw := h.waiting p t w hwait
  have hlook : ∀ w, Wanted (kids p) w → deadChild r.sys p w = false →
      Safe AnyFault (do return r.looked p t w (← look r.sys p false w))
        fun r' => ∃ l kids, RunInv r' l kids := by
    intro w hw hdead
    obtain ⟨out, heq⟩ := (h.waitable p).look_none hw hdead false
    rw [heq]
    exact ⟨l, kids, h.looked t hw out⟩
  have hleave : RunInv (r.setWaiting p t none) l kids :=
    h.setWaiting t fun w' hw' => absurd hw' (by simp)
  cases w with
  | child c pid =>
    obtain ⟨out, heq⟩ :=
      (h.waitable p).matchChildLoop_none hw (by simpa [deadChild, Wait.isChild] using hdead) pid false err
    rw [Process.resume, heq]
    exact ⟨l, kids, h.looked t hw out⟩
  | any =>
    cases err with
    | some e => exact ⟨l, kids, hleave⟩
    | none => exact hlook .any hw (by simpa using hdead)
  | group pgid =>
    cases err with
    | some e => exact ⟨l, kids, hleave⟩
    | none => exact hlook (.group pgid) hw (by simpa using hdead)

theorem RunInv.resume_dead (h : RunInv r l kids) {err : Option Errno}
    (hwait : r.waiting p t = some w)
    (hdead : (deadChild r.sys p w && (err.isNone || w.isChild)) = true) :
    ¬ Safe AnyFault (Process.resume r p t w err) ReapedOnce := by
  have hw := h.waiting p t w hwait
  have hlook : ∀ w, Wanted (kids p) w → deadChild r.sys p w = true →
      ¬ Safe AnyFault (do return r.looked p t w (← look r.sys p false w)) ReapedOnce := by
    intro w hw hdead
    obtain ⟨c, out, stat, s', heq, hc, hchildren, -⟩ := (h.waitable p).look_some hw hdead false
    rw [heq]
    exact not_reapedOnce h hc hchildren
  cases w with
  | child c pid =>
    obtain ⟨out, stat, s', heq, hchildren, -⟩ :=
      (h.waitable p).matchChildLoop_some hw (by simpa [deadChild, Wait.isChild] using hdead) pid false err
    rw [Process.resume, heq]
    exact not_reapedOnce h hw hchildren
  | any =>
    cases err with
    | some e => simp [Wait.isChild] at hdead
    | none => exact hlook .any hw (by simpa using hdead)
  | group pgid =>
    cases err with
    | some e => simp [Wait.isChild] at hdead
    | none => exact hlook (.group pgid) hw (by simpa using hdead)

theorem RunInv.added (h : RunInv r l kids) {whole : Bool}
    (hp : r.sys.live p = true) (ha : Added r.sys s' p x l kids whole) :
    ∃ l kids, RunInv ({ r with sys := s' } : Run P) l kids := by
  refine ⟨_, _, ha.sane, fun c hc => ?_, fun c hc hstarted => ?_, fun i hi => ?_, fun q hq => ?_,
    fun q u w hw => ?_, h.clean⟩
  all_goals try dsimp only at *
  · rw [ha.live] at hc
    by_cases hcx : c = x
    · rw [hcx]
      exact .inl ha.state
    · rw [update_of_ne hcx] at hc
      rw [(ha.other c hcx).1]
      exact h.state c hc
  · rw [ha.live] at hc
    by_cases hcx : c = x
    · rw [hcx] at hstarted ⊢
      exact ha.refs hstarted
    · rw [update_of_ne hcx] at hc
      rw [(ha.other c hcx).1] at hstarted
      exact le_trans (h.refs c hc hstarted) (ha.other c hcx).2
  · rw [ha.init] at hi
    obtain ⟨hlive, hout⟩ := h.init i hi
    have hix : i ≠ x := by
      rintro rfl
      rw [ha.fresh] at hlive
      exact Bool.noConfusion hlive
    refine ⟨by rw [ha.live, update_of_ne hix]; exact hlive, fun q hq => ?_⟩
    cases whole with
    | false => exact hout q hq
    | true =>
      simp only [if_true, update_apply] at hq
      split_ifs at hq with hqp
      · rcases List.mem_append.1 hq with hq | hq
        · exact hout p hq
        · exact hix (List.mem_singleton.1 hq)
      · exact hout q hq
  · cases whole with
    | false => exact h.own q hq
    | true =>
      simp only [if_true, update_apply] at hq
      split_ifs at hq with hqp
      · rcases List.mem_append.1 hq with hq | hq
        · exact h.own p (hqp ▸ hq)
        · rw [hqp] at hq
          rw [List.mem_singleton.1 hq, ha.fresh] at hp
          exact Bool.noConfusion hp
      · exact h.own q hq
  · have hold := h.waiting q u w hw
    cases w with
    | any => trivial
    | group pgid => trivial
    | child c pid =>
      cases whole with
      | false => exact hold
      | true =>
        simp only [Wanted, if_true, update_apply]
        split_ifs with hqp
        · exact List.mem_append_left _ (hqp ▸ hold)
        · exact hold

theorem RunInv.setPids (h : RunInv r l kids) (pids : BitVec 64) :
    RunInv ({ r with sys := { r.sys with pids := pids } } : Run P) l kids :=
  ⟨⟨h.sane.unlocked, h.sane.bucket, h.sane.procQ, h.sane.links, h.sane.live, h.sane.queued,
    h.sane.owner⟩, h.state, h.refs, h.init, h.own, h.waiting, h.clean⟩

theorem RunInv.fork (h : RunInv r l kids) (hp : r.sys.live p = true) {place : Option P}
    (hplace : place.any r.sys.live = false) (fail : Option (Stage × Errno)) :
    Safe AnyFault (do
      let (_, s) ← fork r.sys p place fail
      return { r with sys := s }) fun r' => ∃ l kids, RunInv r' l kids := by
  cases hchild : forkChild r.sys place fail with
  | none =>
    obtain ⟨e, pids, heq⟩ := fork_none h.sane hchild (p := p)
    rw [heq]
    exact ⟨l, kids, h.setPids pids⟩
  | some x =>
    have hsome := fork_some h.sane hp hplace hchild
    split_ifs at hsome
    · rw [hsome]
      trivial
    · obtain ⟨ret, s', heq, hadded, -⟩ := hsome
      rw [heq]
      exact h.added hp hadded

theorem exit_spec (h : Sane s l kids) (hown : p ∉ kids p)
    (hinit : ∀ i, s.initproc = some i → i ∉ kids p) {status : Int} {killed cleaned : Bool} (hrun : exit s p status killed cleaned = .ok s') :
    ∃ i, s.initproc = some i ∧ i ≠ p ∧ s.live i = true ∧ s'.live = s.live ∧
      s'.initproc = s.initproc ∧
      s'.proc = update s.proc p
        { s.proc p with state := .terminated, status := status * 256 } ∧
      Sane s' l (moveLists kids i p (kids p)) := by
  rw [exit, assert_bind_ok_iff, assert_bind_ok_iff] at hrun
  obtain ⟨hnot, -, hrun⟩ := hrun
  cases hi : s.initproc with
  | none =>
    rw [hi] at hrun
    simp at hrun
  | some i =>
    rw [hi] at hrun hnot
    have hne : i ≠ p := fun heq => hnot (by rw [heq])
    simp only [access_bind_ok_iff] at hrun
    obtain ⟨hlive, hrun⟩ := hrun
    obtain ⟨t, habandon, hmoved, hinv⟩ :=
      abandon_spec .abandonChildren h.unlocked h.links hne (fun c hc => h.kids_live hc)
        (hinit i hi) hown
    rw [abandon] at habandon
    rw [habandon, ok_bind] at hrun
    simp only [assert_bind_ok_iff] at hrun
    obtain ⟨-, -, hrun⟩ := hrun
    obtain ⟨-, -, hrun⟩ := bind_ok_iff.1 hrun
    obtain rfl := Except.ok.inj hrun
    have hproc : t.proc = s.proc := hmoved.same (by decide)
    have hframe := hmoved.frame
    refine ⟨i, rfl, hne, hlive, by rw [hframe]; rfl, by rw [hframe]; exact hi, ?_, ?_⟩
    · rw [State.setProc, hproc]
    · refine ⟨?_, ?_, ?_, hinv, ?_, fun q c hc => ?_, fun q c hc => ?_⟩
      · rw [hframe]
        exact h.unlocked
      · rw [hframe]
        exact h.bucket
      · rw [hframe]
        exact h.procQ
      · rw [hframe]
        exact h.live
      · rcases mem_moveLists.1 hc with ⟨-, hc | hc⟩ | ⟨-, -, hc⟩
        · exact h.queued i c hc
        · exact h.queued p c hc
        · exact h.queued q c hc
      · rw [hframe]
        change s.live q = true
        rcases mem_moveLists.1 hc with ⟨rfl, -⟩ | ⟨-, -, hc⟩
        · exact hlive
        · exact h.owner q c hc

theorem RunInv.exit (h : RunInv r l kids) (hruns : r.sys.runs p = true) (status : Int)
    (killed cleaned : Bool) :
    Safe AnyFault (do
      let s ← exit r.sys p status killed cleaned
      return { r with sys := s, waiting := update r.waiting p fun _ => none })
      fun r' => ∃ l kids, RunInv r' l kids := by
  simp only [State.runs, Bool.and_eq_true] at hruns
  refine Safe.any fun r' hrun => ?_
  obtain ⟨s', hexit, heq⟩ := bind_ok_iff.1 hrun
  obtain rfl := Except.ok.inj heq
  obtain ⟨i, hi, hne, hilive, hlive, hinit, hproc, hsane⟩ :=
    exit_spec h.sane (h.own p) (fun i hi => (h.init i hi).2 p) hexit
  have hother : ∀ c, c ≠ p → s'.proc c = r.sys.proc c := by
    intro c hc
    rw [hproc, update_of_ne hc]
  have hself : s'.proc p = { r.sys.proc p with state := .terminated, status := status * 256 } := by
    rw [hproc, update_self]
  refine ⟨l, _, hsane, fun c hc => ?_, fun c hc hstarted => ?_, fun j hj => ?_, fun q hq => ?_,
    fun q u w hw => ?_, h.clean⟩
  · rw [hlive] at hc
    dsimp only
    by_cases hcp : c = p
    · rw [hcp, hself]
      exact .inr ⟨rfl, hruns.1.2⟩
    · rw [hother c hcp]
      exact h.state c hc
  · rw [hlive] at hc
    dsimp only at hstarted ⊢
    by_cases hcp : c = p
    · rw [hcp, hself]
      exact h.refs p hruns.1.1 hruns.1.2
    · rw [hother c hcp] at hstarted ⊢
      exact h.refs c hc hstarted
  · have hj' : r.sys.initproc = some j := hinit.symm.trans hj
    obtain ⟨hjlive, hout⟩ := h.init j hj'
    refine ⟨by dsimp only; rw [hlive]; exact hjlive, fun q hq => ?_⟩
    rcases mem_moveLists.1 hq with ⟨-, hq | hq⟩ | ⟨-, -, hq⟩
    · exact hout i hq
    · exact hout p hq
    · exact hout q hq
  · rcases mem_moveLists.1 hq with ⟨rfl, hq | hq⟩ | ⟨-, -, hq⟩
    · exact h.own q hq
    · exact (h.init q hi).2 p hq
    · exact h.own q hq
  · dsimp only at hw
    by_cases hqp : q = p
    · rw [hqp, update_self] at hw
      exact absurd hw (by simp)
    · rw [update_of_ne hqp] at hw
      have hold := h.waiting q u w hw
      cases w with
      | any => trivial
      | group pgid => trivial
      | child c pid =>
        refine mem_moveLists.2 ?_
        by_cases hqi : q = i
        · subst hqi
          exact .inl ⟨rfl, .inl hold⟩
        · exact .inr ⟨hqi, hqp, hold⟩

theorem RunInv.place (h : RunInv r l kids) (hx : r.sys.live x = false) (pid : Int)
    (proc : Proc P) (hstate : proc.state = .embryo)
    (hrefs : proc.started = true → 3 ≤ proc.refcnt) :
    RunInv ({ r with sys := (r.sys.place x pid).setProc x proc } : Run P) l kids := by
  have hlive : ∀ c, (r.sys.place x pid).live c = true → c ≠ x → r.sys.live c = true := by
    intro c hc hcx
    have hupdate : (r.sys.place x pid).live c = r.sys.live c := update_of_ne hcx _ _
    rw [← hupdate]
    exact hc
  have hother : ∀ c, c ≠ x → ((r.sys.place x pid).setProc x proc).proc c = r.sys.proc c := by
    intro c hcx
    rw [setProc_of_ne _ _ hcx]
    exact update_of_ne hcx _ _
  refine ⟨(h.sane.place hx pid).setProcs _, fun c hc => ?_, fun c hc hstarted => ?_,
    fun i hi => ?_, h.own, h.waiting, h.clean⟩
  · dsimp only
    by_cases hcx : c = x
    · rw [hcx, setProc_self]
      exact .inl hstate
    · rw [hother c hcx]
      exact h.state c (hlive c hc hcx)
  · dsimp only at hstarted ⊢
    by_cases hcx : c = x
    · rw [hcx, setProc_self] at hstarted ⊢
      exact hrefs hstarted
    · rw [hother c hcx] at hstarted ⊢
      exact h.refs c (hlive c hc hcx) hstarted
  · obtain ⟨hilive, hout⟩ := h.init i hi
    have hix : i ≠ x := by
      rintro rfl
      rw [hx] at hilive
      exact Bool.noConfusion hilive
    refine ⟨?_, hout⟩
    change update r.sys.live x true i = true
    rw [update_of_ne hix]
    exact hilive

theorem RunInv.procInit (h : RunInv r l kids) {place : Option P}
    (hplace : place.any r.sys.live = false) (fail image : Option Errno) :
    Safe AnyFault (do
      let (_, s) ← procInit r.sys place fail image
      return { r with sys := s }) fun r' => ∃ l kids, RunInv r' l kids := by
  rcases h.sane.procAlloc_cases place fail with ⟨e, pids, heq⟩ | ⟨x, rfl, heq⟩
  · rw [Process.procInit, heq]
    exact ⟨l, kids, h.setPids pids⟩
  have hx : r.sys.live x = false := hplace
  let s₀ : State P := ({ r.sys with pids := r.sys.pids + 1 } : State P).place x
    (toPid (r.sys.pids + 1))
  have hproc0 : s₀.proc x = newProc (toPid (r.sys.pids + 1)) := update_self _ _ _
  have hlive0 : s₀.live x = true := update_self _ _ _
  have hout : x ∉ l := by
    intro hmem
    rw [h.sane.live x hmem] at hx
    exact Bool.noConfusion hx
  rw [Process.procInit, heq, ok_bind]
  dsimp only
  cases image with
  | some e =>
    have hfree : procFree s₀ none x = .ok (s₀.putref x) :=
      procFree_drop (by simp) hlive0 (by rw [hproc0]; simp [newProc])
    dsimp only
    rw [hfree]
    refine ⟨l, kids, ?_⟩
    refine (h.setPids (r.sys.pids + 1)).place hx (toPid (r.sys.pids + 1)) _ ?_ fun hstarted => ?_
    · change (s₀.proc x).state = .embryo
      rw [hproc0]
      rfl
    · change (s₀.proc x).started = true at hstarted
      rw [hproc0] at hstarted
      exact absurd hstarted (by simp [newProc])
  | none =>
    let s₁ := s₀.setProc x { s₀.proc x with started := true }
    have hsane0 : Sane s₀ l kids := (h.setPids (r.sys.pids + 1)).sane.place hx _
    have hsane1 : Sane s₁ l kids := hsane0.setProcs _
    obtain ⟨procQ, hinsert, hsane2⟩ := hsane1.procQInsert hlive0 hout
    dsimp only
    rw [hinsert]
    -- the process with a third reference, that of `procQ`
    let proc : Proc P := { s₀.proc x with started := true, refcnt := (s₀.proc x).refcnt + 1 }
    have hplaced := (h.setPids (r.sys.pids + 1)).place hx (toPid (r.sys.pids + 1)) proc
      (by simp only [proc, hproc0]; rfl) fun _ => by simp only [proc, hproc0]; simp [newProc]
    have hproc : (({ s₁ with procQ := procQ } : State P).getref x).proc =
        (s₀.setProc x proc).proc := by
      simp [State.getref, State.setProc, s₁, proc]
    have hkids : ∀ q, x ∉ kids q := fun q hmem => hout (h.sane.queued q x hmem)
    refine ⟨l ++ [x], kids, ⟨hsane2.unlocked, hsane2.bucket, hsane2.procQ, hsane2.links,
      hsane2.live, hsane2.queued, hsane2.owner⟩, ?_, ?_, fun i hi => ?_, h.own, h.waiting, h.clean⟩
    · dsimp only
      rw [hproc]
      exact hplaced.state
    · dsimp only
      rw [hproc]
      exact hplaced.refs
    · obtain rfl := Option.some.inj hi
      exact ⟨hlive0, hkids⟩

theorem RunInv.step {a : Act P} (h : RunInv r l kids) (ha : findsNone r a = true) :
    Safe AnyFault (Process.step r a) fun r' => ReapedOnce r' ∧ ∃ l kids, RunInv r' l kids := by
  have hsafe : Safe AnyFault (Process.step r a) fun r' => ∃ l kids, RunInv r' l kids := by
    cases a with
    | init place fail image =>
      rw [Process.step]
      split_ifs with hstart
      · exact ⟨l, kids, h⟩
      · rw [not_or] at hstart
        exact h.procInit (Bool.eq_false_of_not_eq_true hstart.2) fail image
    | fork p place fail =>
      rw [Process.step]
      split_ifs with hruns
      · have hlive : r.sys.live p = true := by
          simp only [State.runs, Bool.and_eq_true] at hruns
          exact hruns.1.1.1
        exact h.fork hlive (Bool.eq_false_of_not_eq_true hruns.2) fail
      · exact ⟨l, kids, h⟩
    | exit p status killed cleaned =>
      rw [Process.step]
      split_ifs with hruns
      · exact h.exit hruns status killed cleaned
      · exact ⟨l, kids, h⟩
    | waitpid p t pid nohang =>
      rw [Process.step]
      split_ifs with hruns
      · refine h.waitpid ?_
        simpa [findsNone, hruns.1, hruns.2] using ha
      · exact ⟨l, kids, h⟩
    | resume p t err =>
      rw [Process.step]
      cases hwait : r.waiting p t with
      | none => exact ⟨l, kids, h⟩
      | some w =>
        dsimp only
        split_ifs with hruns
        · refine h.resume hwait ?_
          rw [findsNone, hwait, hruns, Option.any_some, Bool.not_true, Bool.false_or,
            Bool.not_eq_true'] at ha
          exact ha
        · exact ⟨l, kids, h⟩
  refine hsafe.mono ?_
  rintro r' ⟨l', kids', h'⟩
  exact ⟨h'.reapedOnce, l', kids', h'⟩

theorem RunInv.step_dead {a : Act P} (h : RunInv r l kids) (ha : findsNone r a = false) :
    ¬ Safe AnyFault (Process.step r a) ReapedOnce := by
  cases a with
  | init place fail image => exact absurd ha (by simp [findsNone])
  | fork p place fail => exact absurd ha (by simp [findsNone])
  | exit p status killed cleaned => exact absurd ha (by simp [findsNone])
  | waitpid p t pid nohang =>
    simp only [findsNone, Bool.or_eq_false_iff, Bool.not_eq_false',
      Option.isSome_eq_false_iff, Option.isNone_iff_eq_none] at ha
    rw [Process.step, if_pos ⟨ha.1.1, ha.1.2⟩]
    exact h.waitpid_dead ha.2
  | resume p t err =>
    rw [findsNone, Bool.or_eq_false_iff, Bool.not_eq_false', Bool.not_eq_false'] at ha
    rw [Process.step]
    cases hwait : r.waiting p t with
    | none =>
      rw [hwait] at ha
      exact absurd ha.2 (by simp)
    | some w =>
      rw [hwait, Option.any_some] at ha
      dsimp only
      rw [if_pos ha.1]
      exact h.resume_dead hwait ha.2

/-- The terminated children are returned once and are in no queue afterwards if and only if no call
of `waitpid` ever finds one. -/
theorem children_reaped_once_iff (memory : P → Proc P) (acts : List (Act P)) :
    Stepwise AnyFault step (fun _ _ r => ReapedOnce r) (Run.empty memory) acts ↔
      guarded step findsNone (Run.empty memory) acts = true := by
  have hempty : ∃ l kids, RunInv (Run.empty memory) l kids := ⟨[], _, RunInv.empty memory⟩
  refine stepwise_iff_guarded (I := fun r => ∃ l kids, RunInv r l kids) ?_ ?_ hempty
  · rintro r a ⟨l, kids, h⟩ ha
    exact h.step ha
  · rintro r a ⟨l, kids, h⟩ ha
    exact h.step_dead ha

theorem run_inv {memory : P → Proc P} {acts : List (Act P)}
    (hrun : guarded step findsNone (Run.empty memory) acts = true) :
    Safe AnyFault (runs step (Run.empty memory) acts) fun r => ∃ l kids, RunInv r l kids := by
  refine Safe.runs ?_ ⟨[], _, RunInv.empty memory⟩ hrun
  rintro r a ⟨l, kids, h⟩ ha
  exact (h.step ha).mono fun r' hr' => hr'.2

/-- A child terminates and is returned by two calls. -/
theorem child_returned_twice :
    ∃ r, runs step (Run.empty fun _ => newProc 0 : Run (Fin 2))
        [.init (some 0) none none, .fork 0 (some 1) none, .exit 1 3 true true,
          .waitpid 0 0 (-1) true, .waitpid 0 0 2 true] = .ok r ∧
      r.returned = [1, 1] ∧ 1 ∈ nodeSequence r.sys.children 0 ∧
      1 ∈ nodeSequence r.sys.procQ () :=
  ⟨outcome (runs step (Run.empty fun _ => newProc 0 : Run (Fin 2))
      [.init (some 0) none none, .fork 0 (some 1) none, .exit 1 3 true true,
        .waitpid 0 0 (-1) true, .waitpid 0 0 2 true]) (Run.empty fun _ => newProc 0),
    eq_ok_outcome (by decide +kernel), by decide +kernel⟩

end Process
end XytherOS
