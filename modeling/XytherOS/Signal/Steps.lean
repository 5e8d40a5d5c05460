import XytherOS.Signal.Delivery

/-!
# Steps — what one step does to a thread and to a level of pending signals

Every invariant of the signal code is read off one of two relations:

* `Moves t a th th'` — what the step `a` may do to the mask and the frames of the thread `t`;
* `Shift kept v v'` — what a step may do to a level; where the bit and the queue part, `kept` is a
  condition under which they do not.
-/

namespace XytherOS
namespace Signal

open Function

variable {T : Type} [DecidableEq T]

/-! ## Fields that an operation leaves alone -/

section Fields

variable (s : State T) (l : Option T) (n : Signo) (q : List Siginfo) (set : Sigset) (t : T)
  (th : Thread) (id : Nat)

@[simp] theorem setQueue_thread : (s.setQueue l n q).thread = s.thread := rfl
@[simp] theorem setQueue_sigAction : (s.setQueue l n q).sigAction = s.sigAction := rfl
@[simp] theorem setQueue_level_self :
    (s.setQueue l n q).level l =
      { s.level l with queue := update (s.level l).queue n q } := by
  simp [State.setQueue]

@[simp] theorem mark_thread : (s.mark l n).thread = s.thread := rfl
@[simp] theorem mark_level_self :
    (s.mark l n).level l = { s.level l with pending := sigsetadd (s.level l).pending n } := by
  simp [State.mark, State.setPending]

@[simp] theorem unmark_thread : (s.unmark l n).thread = s.thread := rfl
@[simp] theorem unmark_sigAction : (s.unmark l n).sigAction = s.sigAction := rfl
@[simp] theorem unmark_level_self :
    (s.unmark l n).level l = { s.level l with pending := sigsetdel (s.level l).pending n } := by
  simp [State.unmark, State.setPending]

@[simp] theorem setPending_thread : (s.setPending l set).thread = s.thread := rfl
@[simp] theorem setPending_level_self :
    (s.setPending l set).level l = { s.level l with pending := set } := by
  simp [State.setPending]

@[simp] theorem setThread_level : (s.setThread t th).level = s.level := rfl
@[simp] theorem setThread_thread_self : (s.setThread t th).thread t = th := by
  simp [State.setThread]

@[simp] theorem setSigmask_level : (s.setSigmask t set).level = s.level := rfl
@[simp] theorem setSigmask_thread_self :
    (s.setSigmask t set).thread t = { s.thread t with sigmask := set } := by
  simp [State.setSigmask]

@[simp] theorem siginfoFree_level : (siginfoFree s id).level = s.level := rfl
@[simp] theorem siginfoFree_thread : (siginfoFree s id).thread = s.thread := rfl
@[simp] theorem siginfoFree_sigAction : (siginfoFree s id).sigAction = s.sigAction := rfl
@[simp] theorem siginfoFree_group : (siginfoFree s id).group = s.group := rfl

variable {s l n q set t th id} {k : Option T} {u : T}

theorem setQueue_level_ne (h : k ≠ l) : (s.setQueue l n q).level k = s.level k := by
  simp [State.setQueue, h]

theorem setPending_level_ne (h : k ≠ l) : (s.setPending l set).level k = s.level k := by
  simp [State.setPending, h]

theorem setThread_thread_ne (h : u ≠ t) : (s.setThread t th).thread u = s.thread u := by
  simp [State.setThread, h]

end Fields

/-! ## Flushing -/

theorem flushLoop_frame (s : State T) (l : Option T) (n : Signo) (q : List Siginfo) :
    ∃ freed, flushLoop s l n q = { (if q = [] then s else s.setQueue l n []) with freed } := by
  induction q generalizing s with
  | nil => exact ⟨s.freed, rfl⟩
  | cons info rest ih =>
    obtain ⟨freed, hloop⟩ := ih (siginfoFree (s.setQueue l n rest) info.id)
    refine ⟨freed, ?_⟩
    rw [flushLoop, hloop]
    by_cases hrest : rest = []
    · simp [hrest, siginfoFree]
    · simp [hrest, siginfoFree, State.setQueue]

theorem sigqueueFlush_frame (s : State T) (l : Option T) (n : Signo) :
    ∃ freed, sigqueueFlush s l n = { s.setQueue l n [] with freed } := by
  obtain ⟨freed, hloop⟩ := flushLoop_frame s l n ((s.level l).queue n)
  refine ⟨freed, ?_⟩
  rw [sigqueueFlush, hloop]
  by_cases hq : (s.level l).queue n = []
  · have hsame : s.setQueue l n [] = s := by
      rw [State.setQueue, ← hq, update_eq_self]
      exact congrArg (fun level => { s with level }) (update_eq_self l s.level)
    rw [if_pos hq, hsame]
  · rw [if_neg hq]

theorem flushAll_frame (s : State T) (l : Option T) (ns : List Signo) :
    ∃ freed, ns.foldl (fun s n => sigqueueFlush s l n) s =
      { s with
        level := update s.level l
          { s.level l with queue := fun n => if n ∈ ns then [] else (s.level l).queue n }
        freed } := by
  induction ns generalizing s with
  | nil =>
    refine ⟨s.freed, ?_⟩
    simp
  | cons n ns ih =>
    obtain ⟨freed, hflush⟩ := sigqueueFlush_frame s l n
    obtain ⟨freed', hrest⟩ := ih (sigqueueFlush s l n)
    refine ⟨freed', ?_⟩
    rw [List.foldl_cons, hrest, hflush]
    simp only [State.setQueue, update_self, update_idem]
    congr 2
    refine congrArg (fun queue => ({ pending := (s.level l).pending, queue } : Level)) ?_
    funext m
    by_cases hm : m = n
    · subst hm
      simp
    · simp [hm]

def Level.cleared (v : Level) (n : Signo) : Level :=
  { pending := sigsetdel v.pending n, queue := update v.queue n [] }

theorem flushThread_frame (s : State T) (n : Signo) (t : T) :
    ∃ freed, flushThread n s t =
      { s with
        level := if sigismember (s.level (some t)).pending n then
            update s.level (some t) ((s.level (some t)).cleared n) else s.level
        freed } := by
  rw [flushThread]
  by_cases hbit : sigismember (s.level (some t)).pending n = true
  · obtain ⟨freed, hflush⟩ := sigqueueFlush_frame s (some t) n
    refine ⟨freed, ?_⟩
    rw [if_pos hbit, if_pos hbit, hflush]
    simp [State.unmark, State.setPending, State.setQueue, Level.cleared]
  · refine ⟨s.freed, ?_⟩
    rw [if_neg hbit, if_neg hbit]

theorem flushGroup_frame (s : State T) (n : Signo) (ts : List T) :
    ∃ freed, ts.foldl (flushThread n) s =
      { s with
        level := fun l =>
          if l ∈ ts.map some ∧ sigismember (s.level l).pending n = true then (s.level l).cleared n
          else s.level l
        freed } := by
  induction ts generalizing s with
  | nil =>
    refine ⟨s.freed, ?_⟩
    simp
  | cons t ts ih =>
    obtain ⟨freed, hflush⟩ := flushThread_frame s n t
    obtain ⟨freed', hrest⟩ := ih (flushThread n s t)
    refine ⟨freed', ?_⟩
    rw [List.foldl_cons, hrest, hflush]
    refine congrArg (fun level => { s with level, freed := freed' }) ?_
    funext l
    by_cases hl : l = some t
    · subst hl
      by_cases hbit : sigismember (s.level (some t)).pending n = true
      · simp [hbit, Level.cleared]
      · simp [hbit]
    · have hlevel : (if sigismember (s.level (some t)).pending n = true then
          update s.level (some t) ((s.level (some t)).cleared n) else s.level) l =
          s.level l := by
        split_ifs
        · exact update_of_ne hl _ _
        · rfl
      simp only [hlevel, List.map_cons, List.mem_cons, hl, false_or]

/-! ## What the functions come to -/

section Cases

variable {s s' : State T} {t : T} {l : Option T} {info : Siginfo} {room memory : Bool}
  {wakeup : Ret} {signo value pid : Int}

theorem sigqueueEnqueue_cases (q : List Siginfo) (info : Siginfo) (room : Bool) :
    (∃ e, sigqueueEnqueue q info room = (.err e, q)) ∨
      room = true ∧ (∀ other ∈ q, other.id ≠ info.id) ∧
        sigqueueEnqueue q info room = (.ok, q ++ [info]) := by
  rw [sigqueueEnqueue]
  split_ifs with hany hroom
  · exact .inl ⟨_, rfl⟩
  · exact .inl ⟨_, rfl⟩
  · refine .inr ⟨by simpa using hroom, ?_, rfl⟩
    simpa using hany

/-- The state in which one more `siginfo_t` has been allocated. -/
def State.grown (s : State T) : State T := { s with created := s.created + 1 }

theorem siginfoCreate_cases (s : State T) (signo value pid : Int) (memory : Bool) :
    siginfoCreate s signo value pid memory = (.error .ENOMEM, s) ∨
      siginfoCreate s signo value pid memory = (.error .EINVAL, siginfoFree s.grown s.created) ∨
      ∃ n, memory = true ∧ Signo.ofInt signo = some n ∧
        siginfoCreate s signo value pid memory = (.ok ⟨s.created, n, value, pid⟩, s.grown) := by
  rw [siginfoCreate]
  cases memory with
  | false => exact .inl rfl
  | true =>
    cases hn : Signo.ofInt signo with
    | none => exact .inr (.inl rfl)
    | some n => exact .inr (.inr ⟨n, rfl, rfl, rfl⟩)

theorem signalEnqueue_cases (s : State T) (info : Siginfo) (room : Bool) :
    signalEnqueue s info room =
        (.ok, (s.mark none info.signo).setQueue none info.signo
          ((s.level none).queue info.signo ++ [info])) ∧
      (∀ other ∈ (s.level none).queue info.signo, other.id ≠ info.id) ∨
    ∃ e, signalEnqueue s info room =
      (.err e, if (s.level none).queue info.signo = [] then
        (s.mark none info.signo).unmark none info.signo else s.mark none info.signo) := by
  have hqueue : ((s.mark none info.signo).level none).queue info.signo =
      (s.level none).queue info.signo := by rw [mark_level_self]
  rw [signalEnqueue, hqueue]
  rcases sigqueueEnqueue_cases ((s.level none).queue info.signo) info room with
    ⟨e, henq⟩ | ⟨-, hne, henq⟩
  · rw [henq]
    exact .inr ⟨e, rfl⟩
  · rw [henq]
    exact .inl ⟨rfl, hne⟩

theorem threadSendSiginfo_cases (s : State T) (t : T) (info : Siginfo) (room : Bool)
    (wakeup : Ret) :
    (∃ e, threadSendSiginfo s t info room wakeup = (.err e, s)) ∨
    room = true ∧ (∀ other ∈ (s.level (some t)).queue info.signo, other.id ≠ info.id) ∧
      let s' := s.setQueue (some t) info.signo ((s.level (some t)).queue info.signo ++ [info])
      (wakeup = .ok ∧
          threadSendSiginfo s t info room wakeup = (.ok, s'.mark (some t) info.signo) ∨
        ∃ e, wakeup = .err e ∧ threadSendSiginfo s t info room wakeup = (.err e, s')) := by
  rw [threadSendSiginfo]
  rcases sigqueueEnqueue_cases ((s.level (some t)).queue info.signo) info room with
    ⟨e, henq⟩ | ⟨hroom, hne, henq⟩
  · rw [henq]
    exact .inl ⟨e, rfl⟩
  · rw [henq]
    refine .inr ⟨hroom, hne, ?_⟩
    cases wakeup with
    | ok => exact .inl ⟨rfl, rfl⟩
    | err e => exact .inr ⟨e, rfl, rfl⟩

theorem threadSendSignal_cases
    (h : (threadSendSignal s t signo value pid memory room wakeup).2 = s') :
    s' = s ∨ s' = siginfoFree s.grown s.created ∨
    ∃ n info, memory = true ∧ Signo.ofInt signo = some n ∧ info.signo = n ∧ info.id = s.created ∧
      (threadSendSiginfo s.grown t info room wakeup = (.ok, s') ∨
        ∃ e s₁, threadSendSiginfo s.grown t info room wakeup = (.err e, s₁) ∧
          s' = siginfoFree s₁ info.id) := by
  rw [threadSendSignal] at h
  split_ifs at h
  · exact .inl h.symm
  rcases siginfoCreate_cases s signo value pid memory with hnew | hnew | ⟨n, hmem, hn, hnew⟩
  · rw [hnew] at h
    exact .inl h.symm
  · rw [hnew] at h
    exact .inr (.inl h.symm)
  · rw [hnew] at h
    refine .inr (.inr ⟨n, ⟨s.created, n, value, pid⟩, hmem, hn, rfl, rfl, ?_⟩)
    dsimp only at h
    rcases hsend : threadSendSiginfo s.grown t ⟨s.created, n, value, pid⟩ room wakeup with
      ⟨_ | e, s₁⟩
    · rw [hsend] at h
      exact .inl (by rw [← h])
    · rw [hsend] at h
      exact .inr ⟨e, s₁, rfl, h.symm⟩

theorem procSendSignal_cases (h : (procSendSignal s signo value pid memory room).2 = s') :
    s' = s ∨ s' = siginfoFree s.grown s.created ∨
    ∃ info, info.id = s.created ∧
      (signalEnqueue s.grown info room = (.ok, s') ∨
        ∃ e s₁, signalEnqueue s.grown info room = (.err e, s₁) ∧ s' = siginfoFree s₁ info.id) := by
  rw [procSendSignal, signalDescSendSignal] at h
  split_ifs at h
  · exact .inl h.symm
  rcases siginfoCreate_cases s signo value pid memory with hnew | hnew | ⟨n, -, -, hnew⟩
  · rw [hnew] at h
    exact .inl h.symm
  · rw [hnew] at h
    exact .inr (.inl h.symm)
  · rw [hnew] at h
    refine .inr (.inr ⟨⟨s.created, n, value, pid⟩, rfl, ?_⟩)
    dsimp only at h
    rcases hsend : signalEnqueue s.grown ⟨s.created, n, value, pid⟩ room with ⟨_ | e, s₁⟩
    · rw [hsend] at h
      exact .inl (by rw [← h])
    · rw [hsend] at h
      exact .inr ⟨e, s₁, rfl, h.symm⟩

theorem sigqueueTake_cases (s : State T) (l : Option T) (n : Signo) :
    (s.level l).queue n = [] ∧ sigqueueTake s l n = (.error .ENOENT, s) ∨
    ∃ info rest, (s.level l).queue n = info :: rest ∧
      sigqueueTake s l n = (.ok info, s.leave l n rest) := by
  rw [sigqueueTake]
  cases (s.level l).queue n with
  | nil => exact .inl ⟨rfl, rfl⟩
  | cons info rest => exact .inr ⟨info, rest, rfl, rfl⟩

theorem leave_sigAction (s : State T) (l : Option T) (n : Signo) (rest : List Siginfo) :
    (s.leave l n rest).sigAction = s.sigAction := by
  rw [State.leave]
  split_ifs <;> rfl

theorem tryDequeueSignal_cases (s : State T) (t : T) (l : Option T) :
    tryDequeueSignal s t l = (.error .ENOENT, s) ∧
        (∀ n, firstUnblocked s t l = some n → (s.level l).queue n = []) ∨
    ∃ n info rest, firstUnblocked s t l = some n ∧ (s.level l).queue n = info :: rest ∧
      tryDequeueSignal s t l = (.ok (info, s.sigAction n), s.leave l n rest) := by
  rw [tryDequeueSignal]
  cases hfirst : firstUnblocked s t l with
  | none => exact .inl ⟨rfl, by simp⟩
  | some n =>
    dsimp only
    rcases sigqueueTake_cases s l n with ⟨hq, htake⟩ | ⟨info, rest, hq, htake⟩
    · rw [htake]
      refine .inl ⟨rfl, ?_⟩
      rintro m hm
      rw [← Option.some.inj hm]
      exact hq
    · rw [htake]
      refine .inr ⟨n, info, rest, rfl, hq, ?_⟩
      simp only [leave_sigAction]

def Target.level (t : T) : Target → Option T
  | .thread => some t
  | .process => none

theorem signalDequeue_cases (s : State T) (t : T) :
    signalDequeue s t = (.error .ENOENT, s) ∧
        (∀ target n, firstUnblocked s t (Target.level t target) = some n →
          (s.level (Target.level t target)).queue n = []) ∨
    ∃ target n info rest, firstUnblocked s t (Target.level t target) = some n ∧
      (s.level (Target.level t target)).queue n = info :: rest ∧
      (target = .process →
        ∀ n, firstUnblocked s t (some t) = some n → (s.level (some t)).queue n = []) ∧
      signalDequeue s t =
        (.ok (info, s.sigAction n, target), s.leave (Target.level t target) n rest) := by
  rw [signalDequeue]
  rcases tryDequeueSignal_cases s t (some t) with ⟨htry, hnone⟩ | ⟨n, info, rest, hn, hq, htry⟩
  · rw [htry]
    dsimp only
    rw [if_neg (by simp)]
    rcases tryDequeueSignal_cases s t none with ⟨htry', hnone'⟩ | ⟨n, info, rest, hn, hq, htry'⟩
    · rw [htry']
      refine .inl ⟨rfl, ?_⟩
      intro target
      cases target with
      | thread => exact hnone
      | process => exact hnone'
    · rw [htry']
      exact .inr ⟨.process, n, info, rest, hn, hq, fun _ => hnone, rfl⟩
  · rw [htry]
    exact .inr ⟨.thread, n, info, rest, hn, hq, by simp, rfl⟩

theorem checkLevel_cases (s : State T) (l : Option T) (set : Sigset) :
    checkLevel s l set = (none, s) ∨
    ∃ n info rest, (s.level l).queue n = info :: rest ∧
      checkLevel s l set = (some info, s.leave l n rest) := by
  rw [checkLevel]
  cases sigsetFirst (sigsetand set (s.level l).pending) with
  | none => exact .inl rfl
  | some n =>
    dsimp only
    rcases sigqueueTake_cases s l n with ⟨-, htake⟩ | ⟨info, rest, hq, htake⟩
    · rw [htake]
      exact .inl rfl
    · rw [htake]
      exact .inr ⟨n, info, rest, hq, rfl⟩

theorem sigtimedwaitTurn_cases (s : State T) (t : T) (set : Sigset) :
    (sigtimedwaitTurn s t set).2 = s ∨
    ∃ l n info rest, (s.level l).queue n = info :: rest ∧
      (sigtimedwaitTurn s t set).2 = siginfoFree (s.leave l n rest) info.id := by
  rw [sigtimedwaitTurn, checkSignals]
  rcases checkLevel_cases s (some t) (sigsetdelmask set (sigBit SIGKILL ||| sigBit SIGSTOP)) with
    hfirst | ⟨n, info, rest, hq, hfirst⟩
  · rw [hfirst]
    dsimp only
    rcases checkLevel_cases s none (sigsetdelmask set (sigBit SIGKILL ||| sigBit SIGSTOP)) with
      hsecond | ⟨n, info, rest, hq, hsecond⟩
    · rw [hsecond]
      exact .inl rfl
    · rw [hsecond]
      exact .inr ⟨none, n, info, rest, hq, rfl⟩
  · rw [hfirst]
    exact .inr ⟨some t, n, info, rest, hq, rfl⟩

theorem handOver_cases {id : Nat} {send : State T → Siginfo → Ret × State T}
    (h : handOver s id send = s') :
    s' = s ∨ ∃ info, s.held.find? (fun info => info.id = id) = some info ∧
      (send { s with held := s.held.erase info } info = (.ok, s') ∨
        ∃ e s₁, send { s with held := s.held.erase info } info = (.err e, s₁) ∧
          s' = { s₁ with held := info :: s₁.held }) := by
  rw [handOver] at h
  cases hfind : s.held.find? fun info => info.id = id with
  | none =>
    rw [hfind] at h
    exact .inl h.symm
  | some info =>
    rw [hfind] at h
    dsimp only at h
    rcases hsend : send { s with held := s.held.erase info } info with ⟨_ | e, s₁⟩
    · rw [hsend] at h
      exact .inr ⟨info, rfl, .inl (hsend.trans (congrArg _ h))⟩
    · rw [hsend] at h
      exact .inr ⟨info, rfl, .inr ⟨e, s₁, hsend, h.symm⟩⟩

@[simp] theorem sigqueueFlush_group (s : State T) (l : Option T) (n : Signo) :
    (sigqueueFlush s l n).group = s.group := by
  obtain ⟨freed, hflush⟩ := sigqueueFlush_frame s l n
  rw [hflush]
  rfl

theorem sigaction_cases {s s' : State T} {groupLocked : Bool} {signo : Int}
    {act : Option Sigaction} {r : Except Errno Sigaction}
    (h : sigaction s groupLocked signo act = .ok (r, s')) :
    s' = s ∨ ∃ n new, Signo.ofInt signo = some n ∧ act = some new ∧
      (sigHandlerIgnored new.handler n = false ∧ s' = s.setAction n new ∨
        sigHandlerIgnored new.handler n = true ∧
          s' = s.group.foldl (flushThread n) (sigqueueFlush (s.setAction n new) none n)) := by
  rw [sigaction] at h
  cases hn : Signo.ofInt signo with
  | none =>
    simp only [hn, Except.ok.injEq, Prod.mk.injEq] at h
    exact .inl h.2.symm
  | some n =>
    cases act with
    | none =>
      simp only [hn, Except.ok.injEq, Prod.mk.injEq] at h
      exact .inl h.2.symm
    | some new =>
      have hnew : ((s.setAction n new).sigAction n).handler = new.handler := by
        simp [State.setAction]
      refine .inr ⟨n, new, rfl, rfl, ?_⟩
      simp only [hn, hnew] at h
      by_cases hign : sigHandlerIgnored new.handler n = true
      · rw [if_pos hign, assert_bind_ok_iff] at h
        simp only [pure_eq_ok, Except.ok.injEq, Prod.mk.injEq, sigqueueFlush_group] at h
        exact .inr ⟨hign, h.2.2.symm⟩
      · rw [if_neg hign] at h
        simp only [pure_eq_ok, Except.ok.injEq, Prod.mk.injEq] at h
        exact .inl ⟨by simpa using hign, h.2.symm⟩

theorem dispatch_cases (s : State T) (t : T) (info : Siginfo) (act : Sigaction) (target : Target)
    (oset : Sigset) :
    (dispatch s t info act target oset).1.taken = some info ∧
    ((dispatch s t info act target oset).2 = siginfoFree (signalMaskRestore s t oset) info.id ∨
      (target = .process ∧ act.handler = .dfl ∧ sigTerminate info.signo = true) ∧
        (dispatch s t info act target oset).2 =
          siginfoFree (signalMaskRestore (siginfoFree s info.id) t oset) info.id ∨
      (dispatch s t info act target oset).2 =
        (siginfoFree s info.id).setThread t { s.thread t with exited := true } ∨
      (dispatch s t info act target oset).2 = s.setThread t
        { s.thread t with
          nsigNested := (s.thread t).nsigNested + 1
          frames := .handler info oset :: (s.thread t).frames }) := by
  rw [dispatch]
  by_cases hign : sigHandlerIgnored act.handler info.signo = true
  · rw [if_pos hign]
    exact ⟨rfl, .inl rfl⟩
  rw [if_neg hign]
  by_cases hdfl : act.handler = .dfl
  · rw [if_pos hdfl, doDefaultAction]
    by_cases hterm : sigTerminate info.signo = true
    · rw [if_pos hterm]
      cases target with
      | thread => exact ⟨rfl, .inr (.inr (.inl rfl))⟩
      | process => exact ⟨rfl, .inr (.inl ⟨⟨rfl, hdfl, hterm⟩, rfl⟩)⟩
    · rw [if_neg hterm]
      exact ⟨rfl, .inl rfl⟩
  · rw [if_neg hdfl]
    exact ⟨rfl, .inr (.inr (.inr rfl))⟩

/-- The thread with the signals of `set` blocked, when `signal_check_pending` dispatches. -/
def State.blocking (s : State T) (t : T) (set : Sigset) (uctxMask : Option Sigset) : State T :=
  s.setThread t
    { s.thread t with
      sigmask := (sigmask (s.thread t).sigmask SIG_BLOCK (some set)).2
      uctxMask := uctxMask }

theorem signalMaskBlock_eq (s : State T) (t : T) (n : Signo) (act : Sigaction) (oset : Sigset) :
    ∃ set uctxMask,
      setUctxMask (signalMaskBlock s t n act) t oset = s.blocking t set uctxMask := by
  refine ⟨if act.flags &&& SA_NODEFER = 0 then
      sigsetadd (sigmask sigsetempty SIG_SETMASK (some act.mask)).2 n
    else (sigmask sigsetempty SIG_SETMASK (some act.mask)).2,
    (s.thread t).uctxMask.map fun mask => (sigmask mask SIG_SETMASK (some oset)).2, ?_⟩
  simp [setUctxMask, signalMaskBlock, State.blocking, State.setSigmask, State.setThread]

theorem leave_thread (s : State T) (l : Option T) (n : Signo) (rest : List Siginfo) :
    (s.leave l n rest).thread = s.thread := by
  rw [State.leave]
  split_ifs <;> rfl

theorem signalCheckPending_cases (s : State T) (t : T) :
    (signalCheckPending s t).1.taken = none ∧ (signalCheckPending s t).2 = s ∨
    ∃ target n info rest set uctxMask, (s.thread t).nsigNested ≤ ARCH_NSIG_NESTED ∧
      firstUnblocked s t (Target.level t target) = some n ∧
      (s.level (Target.level t target)).queue n = info :: rest ∧
      (target = .process →
        ∀ n, firstUnblocked s t (some t) = some n → (s.level (some t)).queue n = []) ∧
      signalCheckPending s t =
        dispatch ((s.leave (Target.level t target) n rest).blocking t set uctxMask) t info
          (s.sigAction n) target (s.thread t).sigmask := by
  rw [signalCheckPending]
  by_cases hnested : (s.thread t).nsigNested > ARCH_NSIG_NESTED
  · rw [if_pos hnested]
    exact .inl ⟨rfl, rfl⟩
  rw [if_neg hnested]
  rcases signalDequeue_cases s t with ⟨hdeq, -⟩ | ⟨target, n, info, rest, hn, hq, hprev, hdeq⟩
  · rw [hdeq]
    exact .inl ⟨rfl, rfl⟩
  · rw [hdeq]
    obtain ⟨set, uctxMask, hblock⟩ := signalMaskBlock_eq (s.leave (Target.level t target) n rest) t
      info.signo (s.sigAction n) (s.thread t).sigmask
    refine .inr ⟨target, n, info, rest, set, uctxMask, Nat.le_of_not_gt hnested, hn, hq, hprev, ?_⟩
    simp only [leave_thread, hblock]

end Cases

/-! ## Threads -/

/-- What the step `a` may do to the thread `t`, which was `th`. -/
inductive Moves (t : T) (th : Thread) : Act T → Thread → Prop
  | stays (a : Act T) : Moves t th a th
  | edits (how : Int) (set : Option Sigset) :
      Moves t th (.threadSigmask t how set)
        { th with sigmask := (sigmask th.sigmask how set).2 }
  | passes (set : Sigset) (uctxMask : Option Sigset) :
      Moves t th (.signalCheckPending t)
        { th with
          sigmask := (sigmask (sigmask th.sigmask SIG_BLOCK (some set)).2 SIG_SETMASK
            (some th.sigmask)).2
          uctxMask := uctxMask }
  | exits (set : Sigset) (uctxMask : Option Sigset) :
      Moves t th (.signalCheckPending t)
        { th with
          sigmask := (sigmask th.sigmask SIG_BLOCK (some set)).2
          uctxMask := uctxMask
          exited := true }
  | handles (set : Sigset) (uctxMask : Option Sigset) (info : Siginfo) :
      Moves t th (.signalCheckPending t)
        { th with
          sigmask := (sigmask th.sigmask SIG_BLOCK (some set)).2
          uctxMask := uctxMask
          nsigNested := th.nsigNested + 1
          frames := .handler info th.sigmask :: th.frames }
  | returns (info : Siginfo) (oset : Sigset) (frames : List Frame)
      (h : th.frames = .handler info oset :: frames) :
      Moves t th (.handlerReturn t)
        { th with
          sigmask := (sigmask th.sigmask SIG_SETMASK (some oset)).2
          nsigNested := th.nsigNested - 1
          frames := frames }
  | suspends (mask : Sigset) (h : Blockable mask) :
      Moves t th (.sigsuspend t (some mask))
        { th with sigmask := mask, frames := .suspend th.sigmask :: th.frames }
  | resumes (oset : Sigset) (frames : List Frame) (h : th.frames = .suspend oset :: frames) :
      Moves t th (.sigsuspendReturn t)
        { th with sigmask := (sigmask th.sigmask SIG_SETMASK (some oset)).2, frames := frames }
  | resets : Moves t th (.threadResetSignal t) { th with sigmask := sigsetempty }

section Threads

variable {s s' : State T}

theorem Moves.of_thread_eq {a : Act T} (h : s'.thread = s.thread) (t : T) :
    Moves t (s.thread t) a (s'.thread t) := by
  rw [h]
  exact .stays a

theorem Moves.of_setThread {a : Act T} {u : T} {th : Thread}
    (h : s'.thread = update s.thread u th) (hmove : Moves u (s.thread u) a th) (t : T) :
    Moves t (s.thread t) a (s'.thread t) := by
  rw [h]
  by_cases ht : t = u
  · subst ht
    rw [update_self]
    exact hmove
  · rw [update_of_ne ht]
    exact .stays a

theorem signalEnqueue_thread (s : State T) (info : Siginfo) (room : Bool) :
    (signalEnqueue s info room).2.thread = s.thread := by
  rcases signalEnqueue_cases s info room with ⟨henq, -⟩ | ⟨e, henq⟩
  · rw [henq]
    rfl
  · rw [henq]
    dsimp only
    split_ifs <;> rfl

theorem threadSendSiginfo_thread (s : State T) (t : T) (info : Siginfo) (room : Bool)
    (wakeup : Ret) : (threadSendSiginfo s t info room wakeup).2.thread = s.thread := by
  rcases threadSendSiginfo_cases s t info room wakeup with
    ⟨e, hsend⟩ | ⟨-, -, ⟨-, hsend⟩ | ⟨e, -, hsend⟩⟩ <;> rw [hsend] <;> rfl

theorem handOver_thread {id : Nat} {send : State T → Siginfo → Ret × State T}
    (hsend : ∀ s info, (send s info).2.thread = s.thread) :
    (handOver s id send).thread = s.thread := by
  rcases handOver_cases (rfl : handOver s id send = handOver s id send) with
    h | ⟨info, -, hok | ⟨e, s₁, herr, h⟩⟩
  · rw [h]
  · have hthread := hsend { s with held := s.held.erase info } info
    rw [hok] at hthread
    exact hthread
  · have hthread := hsend { s with held := s.held.erase info } info
    rw [herr] at hthread
    rw [h]
    exact hthread

theorem threadSendSignal_thread (s : State T) (t : T) (signo value pid : Int) (memory room : Bool)
    (wakeup : Ret) :
    (threadSendSignal s t signo value pid memory room wakeup).2.thread = s.thread := by
  generalize hs : (threadSendSignal s t signo value pid memory room wakeup).2 = s'
  rcases threadSendSignal_cases hs with
    rfl | rfl | ⟨n, info, -, -, -, -, hok | ⟨e, s₁, herr, rfl⟩⟩
  · rfl
  · rfl
  · have hthread := threadSendSiginfo_thread s.grown t info room wakeup
    rw [hok] at hthread
    exact hthread
  · have hthread := threadSendSiginfo_thread s.grown t info room wakeup
    rw [herr] at hthread
    exact hthread

theorem procSendSignal_thread (s : State T) (signo value pid : Int) (memory room : Bool) :
    (procSendSignal s signo value pid memory room).2.thread = s.thread := by
  generalize hs : (procSendSignal s signo value pid memory room).2 = s'
  rcases procSendSignal_cases hs with rfl | rfl | ⟨info, -, hok | ⟨e, s₁, herr, rfl⟩⟩
  · rfl
  · rfl
  · have hthread := signalEnqueue_thread s.grown info room
    rw [hok] at hthread
    exact hthread
  · have hthread := signalEnqueue_thread s.grown info room
    rw [herr] at hthread
    exact hthread

theorem sigaction_thread {groupLocked : Bool} {signo : Int} {act : Option Sigaction}
    {r : Except Errno Sigaction} (h : sigaction s groupLocked signo act = .ok (r, s')) :
    s'.thread = s.thread := by
  rcases sigaction_cases h with rfl | ⟨n, new, -, -, ⟨-, rfl⟩ | ⟨-, rfl⟩⟩
  · rfl
  · rfl
  · obtain ⟨freed, hflush⟩ := sigqueueFlush_frame (s.setAction n new) none n
    obtain ⟨freed', hgroup⟩ := flushGroup_frame (sigqueueFlush (s.setAction n new) none n) n s.group
    rw [hgroup, hflush]
    rfl

theorem signalCheckPending_moves (s : State T) (t u : T) :
    Moves u (s.thread u) (.signalCheckPending t) ((signalCheckPending s t).2.thread u) := by
  rcases signalCheckPending_cases s t with
    ⟨-, hsame⟩ | ⟨target, n, info, rest, set, uctxMask, -, -, -, -, hdispatch⟩
  · rw [hsame]
    exact .stays _
  rw [hdispatch]
  rcases (dispatch_cases ((s.leave (Target.level t target) n rest).blocking t set uctxMask) t info
    (s.sigAction n) target (s.thread t).sigmask).2 with hend | ⟨-, hend⟩ | hend | hend
  · rw [hend]
    refine .of_setThread ?_ (.passes set uctxMask) u
    simp [signalMaskRestore, State.setSigmask, State.setThread, State.blocking, leave_thread]
  · rw [hend]
    refine .of_setThread ?_ (.passes set uctxMask) u
    simp [signalMaskRestore, State.setSigmask, State.setThread, State.blocking, leave_thread]
  · rw [hend]
    refine .of_setThread ?_ (.exits set uctxMask) u
    simp [State.setThread, State.blocking, leave_thread]
  · rw [hend]
    refine .of_setThread ?_ (.handles set uctxMask info) u
    simp [State.setThread, State.blocking, leave_thread]

theorem handlerReturn_moves (s : State T) (t u : T) :
    Moves u (s.thread u) (.handlerReturn t) ((handlerReturn s t).thread u) := by
  rw [handlerReturn]
  rcases hframes : (s.thread t).frames with _ | ⟨⟨info, oset⟩ | ⟨oset⟩, frames⟩
  · exact .stays _
  · refine .of_setThread ?_ (.returns info oset frames hframes) u
    simp [signalMaskRestore, State.setSigmask, State.setThread]
  · exact .stays _

theorem sigsuspend_moves (s : State T) (t u : T) (mask : Option Sigset) :
    Moves u (s.thread u) (.sigsuspend t mask) ((sigsuspend s t mask).2.thread u) := by
  cases mask with
  | none => exact .stays _
  | some mask =>
    rw [sigsuspend]
    by_cases hmask : Blockable mask
    · rw [sigmask_setmask _ hmask]
      exact .of_setThread rfl (.suspends mask hmask) u
    · rw [sigmask_some_eq, if_neg hmask]
      exact .stays _

theorem sigsuspendReturn_moves (s : State T) (t u : T) :
    Moves u (s.thread u) (.sigsuspendReturn t) ((sigsuspendReturn s t).thread u) := by
  rw [sigsuspendReturn]
  rcases hframes : (s.thread t).frames with _ | ⟨⟨info, oset⟩ | ⟨oset⟩, frames⟩
  · exact .stays _
  · exact .stays _
  · refine .of_setThread ?_ (.resumes oset frames hframes) u
    simp [State.setSigmask, State.setThread]

theorem threadResetSignal_moves (s : State T) (t u : T) :
    Moves u (s.thread u) (.threadResetSignal t) ((threadResetSignal s t).thread u) := by
  obtain ⟨freed, hflush⟩ := flushAll_frame s (some t) (List.finRange NSIG)
  rw [threadResetSignal, hflush]
  exact .of_setThread rfl .resets u

theorem step_cases {a : Act T} (h : step s a = .ok s') : s' = s ∨ perform s a = .ok s' := by
  rw [step] at h
  cases hcaller : a.caller with
  | none =>
    rw [hcaller] at h
    exact .inr h
  | some u =>
    rw [hcaller] at h
    dsimp only at h
    split_ifs at h
    · exact .inl (Except.ok.inj h).symm
    · exact .inr h

theorem step_moves {a : Act T} (h : step s a = .ok s') (t : T) :
    Moves t (s.thread t) a (s'.thread t) := by
  rcases step_cases h with rfl | hperform
  · exact .stays a
  cases a with
  | siginfoCreate signo value pid memory =>
    simp only [perform] at hperform
    rcases siginfoCreate_cases s signo value pid memory with hnew | hnew | ⟨n, -, -, hnew⟩
    all_goals
      rw [hnew] at hperform
      obtain rfl := Except.ok.inj hperform
      exact .of_thread_eq rfl t
  | siginfoFree id =>
    obtain rfl := Except.ok.inj hperform
    exact .of_thread_eq (handOver_thread fun s info => rfl) t
  | signalEnqueue id room =>
    obtain rfl := Except.ok.inj hperform
    exact .of_thread_eq (handOver_thread fun s info => signalEnqueue_thread s info room) t
  | threadSendSiginfo u id room wakeup =>
    obtain rfl := Except.ok.inj hperform
    exact .of_thread_eq
      (handOver_thread fun s info => threadSendSiginfo_thread s u info room wakeup) t
  | threadSendSignal u signo value pid memory room wakeup =>
    obtain rfl := Except.ok.inj hperform
    exact .of_thread_eq (threadSendSignal_thread s u signo value pid memory room wakeup) t
  | procSendSignal signo value pid memory room =>
    obtain rfl := Except.ok.inj hperform
    exact .of_thread_eq (procSendSignal_thread s signo value pid memory room) t
  | signalDequeue u =>
    simp only [perform] at hperform
    rcases signalDequeue_cases s u with ⟨hdeq, -⟩ | ⟨target, n, info, rest, -, -, -, hdeq⟩
    · rw [hdeq] at hperform
      obtain rfl := Except.ok.inj hperform
      exact .stays _
    · rw [hdeq] at hperform
      obtain rfl := Except.ok.inj hperform
      exact .of_thread_eq (leave_thread s _ n rest) t
  | sigtimedwait u set =>
    obtain rfl := Except.ok.inj hperform
    rcases sigtimedwaitTurn_cases s u set with hturn | ⟨l, n, info, rest, -, hturn⟩
    · rw [hturn]
      exact .stays _
    · rw [hturn]
      exact .of_thread_eq (leave_thread s l n rest) t
  | threadSigmask u how set =>
    obtain rfl := Except.ok.inj hperform
    exact .of_setThread rfl (.edits how set) t
  | sigprocmask u how set =>
    obtain rfl := Except.ok.inj hperform
    exact .of_thread_eq rfl t
  | sigaction groupLocked signo act =>
    simp only [perform, bind_ok_iff] at hperform
    obtain ⟨⟨r, s₁⟩, hact, hret⟩ := hperform
    obtain rfl := Except.ok.inj hret
    exact .of_thread_eq (sigaction_thread hact) t
  | signalCheckPending u =>
    obtain rfl := Except.ok.inj hperform
    exact signalCheckPending_moves s u t
  | handlerReturn u =>
    obtain rfl := Except.ok.inj hperform
    exact handlerReturn_moves s u t
  | sigsuspend u mask =>
    obtain rfl := Except.ok.inj hperform
    exact sigsuspend_moves s u t mask
  | sigsuspendReturn u =>
    obtain rfl := Except.ok.inj hperform
    exact sigsuspendReturn_moves s u t
  | signalReset =>
    obtain rfl := Except.ok.inj hperform
    obtain ⟨freed, hflush⟩ := flushAll_frame s none (List.finRange NSIG)
    refine .of_thread_eq ?_ t
    rw [signalReset, hflush]
    rfl
  | threadResetSignal u =>
    obtain rfl := Except.ok.inj hperform
    exact threadResetSignal_moves s u t

end Threads

end Signal
end XytherOS
