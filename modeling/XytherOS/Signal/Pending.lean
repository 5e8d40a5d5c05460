import XytherOS.Signal.Mask

/-!
# Pending — the pending bits and the queues of signals

A level of pending signals is kept twice: as a set of bits, from which a signal is selected, and as
one queue for each signal, from which its instances are taken.  The two part at two places.
`thread_send_siginfo` sets the bit after the wake-up, so a wake-up that fails leaves an instance
without a bit; and `do_sigaction` flushes the queue of the process without clearing its bit.  As long
as no step does that (`marksKept`), the bits are right in every state, and `signal_dequeue` takes the
oldest instance of the lowest signal that is not blocked.

* `Shift kept v v'` — what a step may do to a level; where bit and queue part, `kept` is a condition
  under which they do not;
* `Level.Filed` — an instance is in the queue of its signal, whatever happens.
-/

namespace XytherOS
namespace Signal

open Function

variable {T : Type} [DecidableEq T]

/-! ## Levels -/

/-- The bit of a signal is set just when its queue has an instance of it. -/
def Level.Agrees (v : Level) : Prop := ∀ n, sigismember v.pending n = true ↔ v.queue n ≠ []

def Level.Filed (v : Level) : Prop := ∀ n, ∀ info ∈ v.queue n, info.signo = n

inductive Shift (kept : Prop) (v : Level) : Level → Prop
  | stays : Shift kept v v
  | puts (info : Siginfo) :
      Shift kept v
        { pending := sigsetadd v.pending info.signo
          queue := update v.queue info.signo (v.queue info.signo ++ [info]) }
  | appends (info : Siginfo) (h : kept → v.queue info.signo ≠ []) :
      Shift kept v
        { v with queue := update v.queue info.signo (v.queue info.signo ++ [info]) }
  | marks (n : Signo) (h : v.queue n ≠ []) :
      Shift kept v { v with pending := sigsetadd v.pending n }
  | unmarks (n : Signo) (h : v.queue n = []) :
      Shift kept v { v with pending := sigsetdel (sigsetadd v.pending n) n }
  | leaves (n : Signo) (info : Siginfo) (rest : List Siginfo) (h : v.queue n = info :: rest) :
      Shift kept v
        { pending := if rest = [] then sigsetdel v.pending n else v.pending
          queue := update v.queue n rest }
  | clears (n : Signo) : Shift kept v (v.cleared n)
  | flushes (n : Signo) (h : kept → v.queue n = []) :
      Shift kept v { v with queue := update v.queue n [] }
  | resets : Shift kept v .init

section Levels

variable {kept : Prop} {v v' : Level}

theorem Level.init_agrees : Level.init.Agrees := by
  intro n
  simp [Level.init]

theorem Level.init_filed : Level.init.Filed := by
  intro n info hinfo
  simp [Level.init] at hinfo

theorem Level.Agrees.update {pending : Sigset} {n : Signo} {q : List Siginfo} (h : v.Agrees)
    (hself : sigismember pending n = true ↔ q ≠ [])
    (hne : ∀ m, m ≠ n → sigismember pending m = sigismember v.pending m) :
    ({ pending := pending, queue := update v.queue n q } : Level).Agrees := by
  intro m
  by_cases hm : m = n
  · subst hm
    simpa using hself
  · simpa [hm, hne m hm] using h m

theorem Shift.agrees (hkept : kept) (h : v.Agrees) (hshift : Shift kept v v') : v'.Agrees := by
  cases hshift with
  | stays => exact h
  | puts info => exact h.update (by simp) (by simp +contextual)
  | appends info hq =>
    refine h.update ?_ (fun m _ => rfl)
    simpa using (h info.signo).mpr (hq hkept)
  | marks n hq =>
    intro m
    by_cases hm : m = n
    · subst hm
      simpa using hq
    · simpa [hm] using h m
  | unmarks n hq =>
    intro m
    by_cases hm : m = n
    · subst hm
      simpa using hq
    · simpa [hm] using h m
  | leaves n info rest hq =>
    refine h.update ?_ ?_
    · by_cases hrest : rest = []
      · simp [hrest]
      · simp [hrest, (h n).mpr (by simp [hq])]
    · intro m hm
      split_ifs
      · simp [hm]
      · rfl
  | clears n => exact h.update (by simp) (by simp +contextual)
  | flushes n hq =>
    refine h.update ?_ (fun m _ => rfl)
    simpa using (h n).not.mpr (by simp [hq hkept])
  | resets => exact Level.init_agrees

theorem Level.Filed.update {pending : Sigset} {n : Signo} {q : List Siginfo} (h : v.Filed)
    (hq : ∀ info ∈ q, info ∈ v.queue n ∨ info.signo = n) :
    ({ pending := pending, queue := update v.queue n q } : Level).Filed := by
  intro m info hinfo
  dsimp only at hinfo
  by_cases hm : m = n
  · subst hm
    rw [update_self] at hinfo
    rcases hq info hinfo with hold | hnew
    · exact h m info hold
    · exact hnew
  · rw [update_of_ne hm] at hinfo
    exact h m info hinfo

theorem Shift.filed (h : v.Filed) (hshift : Shift kept v v') : v'.Filed := by
  cases hshift with
  | stays => exact h
  | puts info => exact h.update (by simp +contextual [or_imp])
  | appends info hq => exact h.update (by simp +contextual [or_imp])
  | marks n hq => exact h
  | unmarks n hq => exact h
  | leaves n info rest hq => exact h.update (by simp +contextual [hq])
  | clears n => exact h.update (by simp)
  | flushes n hq => exact h.update (by simp)
  | resets => exact Level.init_filed

end Levels

/-- The wake-up fails when the instance that was sent is the only one in its queue. -/
def strands (s : State T) (t : T) (n : Signo) (room : Bool) (wakeup : Ret) : Bool :=
  wakeup ≠ .ok && room && (s.level (some t)).queue n = []

/-- The step is neither a send to a thread that strands its signal, nor a `sigaction` that ignores a
signal the process has instances of. -/
def marksKept (s : State T) : Act T → Bool
  | .threadSendSiginfo t id room wakeup =>
    match s.held.find? fun info => info.id = id with
    | none => true
    | some info => !strands s t info.signo room wakeup
  | .threadSendSignal t signo _ _ memory room wakeup =>
    match Signo.ofInt signo with
    | none => true
    | some n => !(memory && strands s t n room wakeup)
  | .sigaction _ signo (some act) =>
    match Signo.ofInt signo with
    | none => true
    | some n => !sigHandlerIgnored act.handler n || (s.level none).queue n = []
  | _ => true

section Steps

variable {kept : Prop} {s s' : State T}

theorem Shift.of_level_eq (h : s'.level = s.level) (k : Option T) :
    Shift kept (s.level k) (s'.level k) := by
  rw [h]
  exact .stays

theorem Shift.of_update (l : Option T) {v : Level} (h : s'.level = update s.level l v)
    (hshift : Shift kept (s.level l) v) (k : Option T) :
    Shift kept (s.level k) (s'.level k) := by
  rw [h]
  by_cases hk : k = l
  · subst hk
    rw [update_self]
    exact hshift
  · rw [update_of_ne hk]
    exact .stays

theorem leave_level (s : State T) (l : Option T) (n : Signo) (rest : List Siginfo) :
    (s.leave l n rest).level = update s.level l
      { pending := if rest = [] then sigsetdel (s.level l).pending n else (s.level l).pending
        queue := update (s.level l).queue n rest } := by
  rw [State.leave]
  split_ifs <;> simp [State.setQueue, State.unmark, State.setPending]

theorem leave_shift {l : Option T} {n : Signo} {info : Siginfo} {rest : List Siginfo}
    (hq : (s.level l).queue n = info :: rest) (k : Option T) :
    Shift kept (s.level k) ((s.leave l n rest).level k) :=
  .of_update l (leave_level s l n rest) (.leaves n info rest hq) k

theorem signalEnqueue_shift (s : State T) (info : Siginfo) (room : Bool) (k : Option T) :
    Shift kept (s.level k) ((signalEnqueue s info room).2.level k) := by
  rcases signalEnqueue_cases s info room with ⟨henq, -⟩ | ⟨e, henq⟩
  · rw [henq]
    refine .of_update none ?_ (.puts info) k
    simp [State.mark, State.setPending, State.setQueue]
  · rw [henq]
    dsimp only
    by_cases hq : (s.level none).queue info.signo = []
    · rw [if_pos hq]
      refine .of_update none ?_ (.unmarks info.signo hq) k
      simp [State.mark, State.unmark, State.setPending]
    · rw [if_neg hq]
      exact .of_update none rfl (.marks info.signo hq) k

theorem threadSendSiginfo_shift {t : T} {info : Siginfo} {room : Bool} {wakeup : Ret}
    (hkept : kept → strands s t info.signo room wakeup = false) (k : Option T) :
    Shift kept (s.level k) ((threadSendSiginfo s t info room wakeup).2.level k) := by
  rcases threadSendSiginfo_cases s t info room wakeup with
    ⟨e, hsend⟩ | ⟨hroom, -, ⟨-, hsend⟩ | ⟨e, hwake, hsend⟩⟩
  · rw [hsend]
    exact .stays
  · rw [hsend]
    refine .of_update (some t) ?_ (.puts info) k
    simp [State.mark, State.setPending, State.setQueue]
  · rw [hsend]
    refine .of_update (some t) rfl (.appends info ?_) k
    intro hk
    simpa [strands, hwake, hroom] using hkept hk

theorem handOver_shift {id : Nat} {send : State T → Siginfo → Ret × State T}
    (hsend : ∀ info, s.held.find? (fun info => info.id = id) = some info →
      ∀ k, Shift kept (s.level k) ((send { s with held := s.held.erase info } info).2.level k))
    (k : Option T) : Shift kept (s.level k) ((handOver s id send).level k) := by
  rcases handOver_cases (rfl : handOver s id send = handOver s id send) with
    h | ⟨info, hfind, hok | ⟨e, s₁, herr, h⟩⟩
  · rw [h]
    exact .stays
  · have hshift := hsend info hfind k
    rw [hok] at hshift
    exact hshift
  · have hshift := hsend info hfind k
    rw [herr] at hshift
    rw [h]
    exact hshift

theorem threadSendSignal_shift {t : T} {signo value pid : Int} {memory room : Bool} {wakeup : Ret}
    (hkept : kept → marksKept s (.threadSendSignal t signo value pid memory room wakeup) = true)
    (k : Option T) :
    Shift kept (s.level k) ((threadSendSignal s t signo value pid memory room wakeup).2.level k) := by
  generalize hs : (threadSendSignal s t signo value pid memory room wakeup).2 = s'
  rcases threadSendSignal_cases hs with
    rfl | rfl | ⟨n, info, hmem, hn, hsigno, -, hcases⟩
  · exact .stays
  · exact .stays
  have hshift : Shift kept (s.level k)
      ((threadSendSiginfo s.grown t info room wakeup).2.level k) := by
    refine threadSendSiginfo_shift (s := s.grown) ?_ k
    intro hk
    have hmarks := hkept hk
    rw [marksKept, hn, hmem] at hmarks
    have hstrands : strands s t n room wakeup = false := by simpa using hmarks
    rw [hsigno]
    exact hstrands
  rcases hcases with hok | ⟨e, s₁, herr, rfl⟩
  · rw [hok] at hshift
    exact hshift
  · rw [herr] at hshift
    exact hshift

theorem procSendSignal_shift (s : State T) (signo value pid : Int) (memory room : Bool)
    (k : Option T) :
    Shift kept (s.level k) ((procSendSignal s signo value pid memory room).2.level k) := by
  generalize hs : (procSendSignal s signo value pid memory room).2 = s'
  rcases procSendSignal_cases hs with rfl | rfl | ⟨info, -, hcases⟩
  · exact .stays
  · exact .stays
  have hshift : Shift kept (s.level k) ((signalEnqueue s.grown info room).2.level k) :=
    signalEnqueue_shift s.grown info room k
  rcases hcases with hok | ⟨e, s₁, herr, rfl⟩
  · rw [hok] at hshift
    exact hshift
  · rw [herr] at hshift
    exact hshift

theorem sigaction_shift {groupLocked : Bool} {signo : Int} {act : Option Sigaction}
    {r : Except Errno Sigaction} (h : sigaction s groupLocked signo act = .ok (r, s'))
    (hkept : kept → marksKept s (.sigaction groupLocked signo act) = true) (k : Option T) :
    Shift kept (s.level k) (s'.level k) := by
  rcases sigaction_cases h with rfl | ⟨n, new, hn, rfl, ⟨-, rfl⟩ | ⟨hign, rfl⟩⟩
  · exact .stays
  · exact .stays
  obtain ⟨freed, hflush⟩ := sigqueueFlush_frame (s.setAction n new) none n
  obtain ⟨freed', hgroup⟩ := flushGroup_frame (sigqueueFlush (s.setAction n new) none n) n s.group
  rw [hgroup, hflush]
  cases k with
  | none =>
    -- the queue of the process is flushed, but its bit stays
    have hnone : (none : Option T) ∉ s.group.map some := by simp
    have hempty : kept → (s.level none).queue n = [] := by
      intro hk
      have hmarks := hkept hk
      rw [marksKept, hn] at hmarks
      simpa [hign] using hmarks
    simp only [hnone, false_and, if_false, setQueue_level_self]
    exact .flushes n hempty
  | some t =>
    have hlevel : ((s.setAction n new).setQueue none n []).level (some t) = s.level (some t) := by
      rw [setQueue_level_ne (by simp)]
      rfl
    dsimp only
    split_ifs
    · rw [hlevel]
      exact .clears n
    · rw [hlevel]
      exact .stays

theorem signalCheckPending_level {t : T} {l : Option T} {n : Signo} {info : Siginfo}
    {rest : List Siginfo} {set : Sigset} {uctxMask : Option Sigset} {act : Sigaction}
    {target : Target} {oset : Sigset}
    (h : signalCheckPending s t =
      dispatch ((s.leave l n rest).blocking t set uctxMask) t info act target oset) :
    (signalCheckPending s t).2.level = (s.leave l n rest).level := by
  rw [h]
  rcases (dispatch_cases ((s.leave l n rest).blocking t set uctxMask) t info act target oset).2 with
    hend | ⟨-, hend⟩ | hend | hend <;> rw [hend] <;> rfl

theorem signalCheckPending_shift (s : State T) (t : T) (k : Option T) :
    Shift kept (s.level k) ((signalCheckPending s t).2.level k) := by
  rcases signalCheckPending_cases s t with
    ⟨-, hsame⟩ | ⟨target, n, info, rest, set, uctxMask, -, -, hq, -, hdispatch⟩
  · rw [hsame]
    exact .stays
  rw [signalCheckPending_level hdispatch]
  exact leave_shift hq k

theorem step_shift {a : Act T} (h : step s a = .ok s') (k : Option T) :
    Shift (marksKept s a = true) (s.level k) (s'.level k) := by
  rcases step_cases h with rfl | hperform
  · exact .stays
  cases a with
  | siginfoCreate signo value pid memory =>
    simp only [perform] at hperform
    rcases siginfoCreate_cases s signo value pid memory with hnew | hnew | ⟨n, -, -, hnew⟩
    all_goals
      rw [hnew] at hperform
      obtain rfl := Except.ok.inj hperform
      exact .of_level_eq rfl k
  | siginfoFree id =>
    obtain rfl := Except.ok.inj hperform
    exact handOver_shift (fun info _ k => .stays) k
  | signalEnqueue id room =>
    obtain rfl := Except.ok.inj hperform
    exact handOver_shift
      (fun info _ k => signalEnqueue_shift { s with held := s.held.erase info } info room k) k
  | threadSendSiginfo t id room wakeup =>
    obtain rfl := Except.ok.inj hperform
    refine handOver_shift ?_ k
    intro info hfind k
    refine threadSendSiginfo_shift (s := { s with held := s.held.erase info }) ?_ k
    intro hmarks
    rw [marksKept, hfind] at hmarks
    have hstrands : strands s t info.signo room wakeup = false := by simpa using hmarks
    exact hstrands
  | threadSendSignal t signo value pid memory room wakeup =>
    obtain rfl := Except.ok.inj hperform
    exact threadSendSignal_shift id k
  | procSendSignal signo value pid memory room =>
    obtain rfl := Except.ok.inj hperform
    exact procSendSignal_shift s signo value pid memory room k
  | signalDequeue t =>
    simp only [perform] at hperform
    rcases signalDequeue_cases s t with ⟨hdeq, -⟩ | ⟨target, n, info, rest, -, hq, -, hdeq⟩
    · rw [hdeq] at hperform
      obtain rfl := Except.ok.inj hperform
      exact .stays
    · rw [hdeq] at hperform
      obtain rfl := Except.ok.inj hperform
      exact leave_shift hq k
  | sigtimedwait t set =>
    obtain rfl := Except.ok.inj hperform
    rcases sigtimedwaitTurn_cases s t set with hturn | ⟨l, n, info, rest, hq, hturn⟩
    · rw [hturn]
      exact .stays
    · rw [hturn]
      exact leave_shift hq k
  | threadSigmask t how set =>
    obtain rfl := Except.ok.inj hperform
    exact .of_level_eq rfl k
  | sigprocmask t how set =>
    obtain rfl := Except.ok.inj hperform
    exact .of_level_eq rfl k
  | sigaction groupLocked signo act =>
    simp only [perform, bind_ok_iff] at hperform
    obtain ⟨⟨r, s₁⟩, hact, hret⟩ := hperform
    obtain rfl := Except.ok.inj hret
    exact sigaction_shift hact id k
  | signalCheckPending t =>
    obtain rfl := Except.ok.inj hperform
    exact signalCheckPending_shift s t k
  | handlerReturn t =>
    obtain rfl := Except.ok.inj hperform
    refine .of_level_eq ?_ k
    rw [handlerReturn]
    rcases (s.thread t).frames with _ | ⟨⟨info, oset⟩ | ⟨oset⟩, frames⟩ <;> rfl
  | sigsuspend t mask =>
    obtain rfl := Except.ok.inj hperform
    refine .of_level_eq ?_ k
    cases mask with
    | none => rfl
    | some mask =>
      rw [sigsuspend]
      rcases sigmask (s.thread t).sigmask SIG_SETMASK (some mask) with ⟨_ | e, mask'⟩ <;> rfl
  | sigsuspendReturn t =>
    obtain rfl := Except.ok.inj hperform
    refine .of_level_eq ?_ k
    rw [sigsuspendReturn]
    rcases (s.thread t).frames with _ | ⟨⟨info, oset⟩ | ⟨oset⟩, frames⟩ <;> rfl
  | signalReset =>
    obtain rfl := Except.ok.inj hperform
    obtain ⟨freed, hflush⟩ := flushAll_frame s none (List.finRange NSIG)
    rw [signalReset, hflush]
    refine .of_update none ?_ .resets k
    simp [State.setPending, Level.init]
  | threadResetSignal t =>
    obtain rfl := Except.ok.inj hperform
    obtain ⟨freed, hflush⟩ := flushAll_frame s (some t) (List.finRange NSIG)
    rw [threadResetSignal, hflush]
    refine .of_update (some t) ?_ .resets k
    simp [State.setPending, State.setSigmask, State.setThread, Level.init]

end Steps

/-! ## The pending set -/

def Agree (s : State T) : Prop := ∀ l, (s.level l).Agrees

def Filed (s : State T) : Prop := ∀ l, (s.level l).Filed

theorem Agree.step {s s' : State T} {a : Act T} (h : Agree s) (ha : marksKept s a = true)
    (hstep : Signal.step s a = .ok s') : Agree s' :=
  fun l => (step_shift hstep l).agrees ha (h l)

theorem Filed.step {s s' : State T} {a : Act T} (h : Filed s)
    (hstep : Signal.step s a = .ok s') : Filed s' :=
  fun l => (step_shift hstep l).filed (h l)

/-- In every run without a stranding send, and without a `sigaction` that ignores a signal that is
pending for the process, a bit of `sigpending` or `t_sigpending` is set if and only if the queue of
that signal is not empty. -/
theorem pending_matches_queues (group : List T) (uctxMask : T → Option Sigset)
    (acts : List (Act T)) (hrun : guarded step marksKept (State.init group uctxMask) acts = true) :
    Safe Asserted (runs step (State.init group uctxMask) acts) fun s =>
      (∀ n, sigismember (s.level none).pending n = true ↔ (s.level none).queue n ≠ []) ∧
      ∀ t n, sigismember (s.level (some t)).pending n = true ↔
        (s.level (some t)).queue n ≠ [] := by
  have hsafe : Safe Asserted (runs step (State.init group uctxMask) acts) Agree := by
    refine Safe.runs ?_ (fun l => Level.init_agrees) hrun
    intro s a hs ha
    exact step_safe fun s' hstep => hs.step ha hstep
  refine hsafe.mono ?_
  intro s hs
  exact ⟨hs none, fun t => hs (some t)⟩

/-- A signal for each of two threads and two for the process; the first thread takes one of each. -/
@[irreducible] def sendingRun : List (Act Nat) :=
  [.threadSendSignal 0 27 0 1 true true .ok, .threadSendSignal 1 28 0 1 true true .ok,
    .procSendSignal 27 0 1 true true, .procSendSignal 27 5 1 true true,
    .signalDequeue 0, .signalDequeue 0]

theorem pending_matches_queues_two_threads :
    guarded step marksKept (State.init [0, 1] fun _ => none) sendingRun = true ∧
    Safe Asserted (runs step (State.init [0, 1] fun _ => none) sendingRun) fun s =>
      (∀ n, sigismember (s.level none).pending n = true ↔ (s.level none).queue n ≠ []) ∧
      ∀ t n, sigismember (s.level (some t)).pending n = true ↔
        (s.level (some t)).queue n ≠ [] := by
  have hrun : guarded step marksKept (State.init [0, 1] fun _ => none) sendingRun = true := by
    decide +kernel
  exact ⟨hrun, pending_matches_queues [0, 1] (fun _ => none) sendingRun hrun⟩

/-- A `SIGUSR1` is sent to the thread `0`, whose wake-up fails. -/
def strandedRun : List (Act Nat) := [.threadSendSignal 0 27 0 1 true true (.err .EINVAL)]

theorem failed_wakeup_leaves_queue_unmarked :
    ∃ s, runs step (State.init [0] fun _ => none) strandedRun = .ok s ∧
      sigismember (s.level (some 0)).pending SIGUSR1 = false ∧
      (s.level (some 0)).queue SIGUSR1 ≠ [] :=
  ⟨outcome (runs step (State.init [0] fun _ => none) strandedRun) (State.init [0] fun _ => none),
    eq_ok_outcome (by decide +kernel), by decide +kernel, by decide +kernel⟩

/-! ## Selection -/

/-- The level `l` has an instance of `n`, and `t` does not block it. -/
def Deliverable (s : State T) (t : T) (l : Option T) (n : Signo) : Prop :=
  sigismember (s.thread t).sigmask n = false ∧ (s.level l).queue n ≠ []

/-- The signal that `t` is to take: the lowest one of its own, else the lowest one of the
process. -/
structure Selected (s : State T) (t : T) (target : Target) (n : Signo) : Prop where
  deliverable : Deliverable s t (Target.level t target) n
  lowest : ∀ m < n, ¬ Deliverable s t (Target.level t target) m
  threadFirst : target = .process → ∀ m, ¬ Deliverable s t (some t) m

section Selection

variable {s : State T} {t : T} {l : Option T} {n : Signo}

theorem sigismember_unblocked (hmask : Blockable (s.thread t).sigmask) (m : Signo) :
    sigismember (sigmask (s.level l).pending SIG_UNBLOCK (some (s.thread t).sigmask)).2 m =
      (sigismember (s.level l).pending m && !sigismember (s.thread t).sigmask m) := by
  rw [sigmask_unblock _ hmask, sigismember_andNot]

theorem firstUnblocked_not_blocked (hmask : Blockable (s.thread t).sigmask)
    (hn : firstUnblocked s t l = some n) : sigismember (s.thread t).sigmask n = false := by
  have hbit := (sigsetFirst_eq_some_iff.mp hn).1
  rw [sigismember_unblocked hmask] at hbit
  simp only [Bool.and_eq_true, Bool.not_eq_true'] at hbit
  exact hbit.2

theorem deliverable_iff (hmask : Blockable (s.thread t).sigmask) (hagree : (s.level l).Agrees)
    (m : Signo) :
    sigismember (sigmask (s.level l).pending SIG_UNBLOCK (some (s.thread t).sigmask)).2 m = true ↔
      Deliverable s t l m := by
  rw [sigismember_unblocked hmask, Bool.and_eq_true, Bool.not_eq_true', hagree m, and_comm]
  rfl

theorem firstUnblocked_eq_some_iff (hmask : Blockable (s.thread t).sigmask)
    (hagree : (s.level l).Agrees) :
    firstUnblocked s t l = some n ↔ Deliverable s t l n ∧ ∀ m < n, ¬ Deliverable s t l m := by
  rw [firstUnblocked, sigsetFirst_eq_some_iff, deliverable_iff hmask hagree]
  refine and_congr_right fun _ => forall₂_congr fun m _ => ?_
  rw [← deliverable_iff hmask hagree m, Bool.not_eq_true]

theorem firstUnblocked_eq_none_iff (hmask : Blockable (s.thread t).sigmask)
    (hagree : (s.level l).Agrees) :
    firstUnblocked s t l = none ↔ ∀ m, ¬ Deliverable s t l m := by
  rw [firstUnblocked, sigsetFirst_eq_none_iff]
  refine forall_congr' fun m => ?_
  rw [← deliverable_iff hmask hagree m, Bool.not_eq_true]

theorem not_deliverable (hmask : Blockable (s.thread t).sigmask) (hagree : (s.level l).Agrees)
    (hnone : ∀ n, firstUnblocked s t l = some n → (s.level l).queue n = []) :
    ∀ m, ¬ Deliverable s t l m := by
  rw [← firstUnblocked_eq_none_iff hmask hagree]
  cases hfirst : firstUnblocked s t l with
  | none => rfl
  | some n =>
    have hn : Deliverable s t l n := ((firstUnblocked_eq_some_iff hmask hagree).mp hfirst).1
    exact absurd (hnone n hfirst) hn.2

theorem signalDequeue_spec (hmask : Blockable (s.thread t).sigmask) (hagree : Agree s)
    (hfiled : Filed s) :
    ((∃ target n, Deliverable s t (Target.level t target) n) →
      ∃ target n info rest, Selected s t target n ∧
        (s.level (Target.level t target)).queue n = info :: rest ∧ info.signo = n ∧
        (signalDequeue s t).1 = .ok (info, s.sigAction n, target) ∧
        ∀ l m, ((signalDequeue s t).2.level l).queue m =
          if l = Target.level t target ∧ m = n then rest else (s.level l).queue m) ∧
    ((∀ target n, ¬ Deliverable s t (Target.level t target) n) →
      signalDequeue s t = (.error .ENOENT, s)) := by
  rcases signalDequeue_cases s t with ⟨hdeq, hnone⟩ | ⟨target, n, info, rest, hn, hq, hprev, hdeq⟩
  · refine ⟨?_, fun _ => hdeq⟩
    rintro ⟨target, n, hdel⟩
    exact absurd hdel (not_deliverable hmask (hagree _) (hnone target) n)
  · have hsel : Selected s t target n := by
      obtain ⟨hdel, hlow⟩ := (firstUnblocked_eq_some_iff hmask (hagree _)).mp hn
      exact ⟨hdel, hlow, fun hp => not_deliverable hmask (hagree _) (hprev hp)⟩
    refine ⟨fun _ => ⟨target, n, info, rest, hsel, hq, ?_, by rw [hdeq], ?_⟩, ?_⟩
    · exact hfiled (Target.level t target) n info (by simp [hq])
    · intro l m
      rw [hdeq]
      dsimp only
      rw [leave_level]
      by_cases hl : l = Target.level t target
      · subst hl
        by_cases hm : m = n
        · subst hm
          simp
        · simp [hm]
      · simp [hl]
    · intro hno
      exact absurd hsel.deliverable (hno target n)

end Selection

/-- In every state of such a run `signal_dequeue` takes a signal whenever there is one that the
thread does not block: the oldest instance of the lowest such signal of the thread, or of the lowest
such signal of the process if the thread has none, and nothing else. -/
theorem signal_dequeue_selects (group : List T) (uctxMask : T → Option Sigset)
    (acts : List (Act T)) (hrun : guarded step marksKept (State.init group uctxMask) acts = true) :
    Safe Asserted (runs step (State.init group uctxMask) acts) fun s => ∀ t,
      ((∃ target n, Deliverable s t (Target.level t target) n) →
        ∃ target n info rest, Selected s t target n ∧
          (s.level (Target.level t target)).queue n = info :: rest ∧ info.signo = n ∧
          (signalDequeue s t).1 = .ok (info, s.sigAction n, target) ∧
          ∀ l m, ((signalDequeue s t).2.level l).queue m =
            if l = Target.level t target ∧ m = n then rest else (s.level l).queue m) ∧
      ((∀ target n, ¬ Deliverable s t (Target.level t target) n) →
        signalDequeue s t = (.error .ENOENT, s)) := by
  have hsafe : Safe Asserted (runs step (State.init group uctxMask) acts) fun s =>
      Disciplined s ∧ Agree s ∧ Filed s := by
    refine Safe.runs ?_
      ⟨init_disciplined group uctxMask, fun l => Level.init_agrees, fun l => Level.init_filed⟩ hrun
    rintro s a ⟨hmask, hagree, hfiled⟩ ha
    exact step_safe fun s' hstep => ⟨hmask.step hstep, hagree.step ha hstep, hfiled.step hstep⟩
  refine hsafe.mono ?_
  rintro s ⟨hmask, hagree, hfiled⟩ t
  exact signalDequeue_spec (hmask t).mask hagree hfiled

theorem signal_dequeue_selects_two_threads :
    guarded step marksKept (State.init [0, 1] fun _ => none) sendingRun = true ∧
    Safe Asserted (runs step (State.init [0, 1] fun _ => none) sendingRun) fun s => ∀ t,
      ((∃ target n, Deliverable s t (Target.level t target) n) →
        ∃ target n info rest, Selected s t target n ∧
          (s.level (Target.level t target)).queue n = info :: rest ∧ info.signo = n ∧
          (signalDequeue s t).1 = .ok (info, s.sigAction n, target) ∧
          ∀ l m, ((signalDequeue s t).2.level l).queue m =
            if l = Target.level t target ∧ m = n then rest else (s.level l).queue m) ∧
      ((∀ target n, ¬ Deliverable s t (Target.level t target) n) →
        signalDequeue s t = (.error .ENOENT, s)) := by
  have hrun : guarded step marksKept (State.init [0, 1] fun _ => none) sendingRun = true := by
    decide +kernel
  exact ⟨hrun, signal_dequeue_selects [0, 1] (fun _ => none) sendingRun hrun⟩

/-- The `SIGUSR1` whose wake-up failed is in the queue of the thread, and is not found there. -/
theorem stranded_signal_not_dequeued :
    ∃ s, runs step (State.init [0] fun _ => none) strandedRun = .ok s ∧
      Deliverable s 0 (some 0) SIGUSR1 ∧ (signalDequeue s 0).1.isOk = false :=
  ⟨outcome (runs step (State.init [0] fun _ => none) strandedRun) (State.init [0] fun _ => none),
    eq_ok_outcome (by decide +kernel), ⟨by decide +kernel, by decide +kernel⟩, by decide +kernel⟩

end Signal
end XytherOS
