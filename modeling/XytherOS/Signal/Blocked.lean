import XytherOS.Signal.Pending

/-!
# Blocked — signals that a thread has asked to block

There are two masks: `pthread_sigmask` edits the one of the thread, and `sigprocmask` that of the
process, which `try_dequeue_signal` never looks at.  A signal that was blocked by `pthread_sigmask` is
not delivered until it is unblocked; one that was blocked by `sigprocmask` is delivered like any
other.

* `Asked` — the signals that each thread has blocked with one of the two families of calls and not
  unblocked with the same family, as the returned calls say, not as the masks are;
* `keepsAsked` — the steps after which the mask of a thread has what was asked of it.  Besides
  `sigprocmask` there are two ways to lose a signal from the mask: the mask that a handler or
  `sigsuspend` goes back to lacks what was blocked meanwhile, and the mask that `sigsuspend` waits
  with lacks what was blocked before.
-/

namespace XytherOS
namespace Signal

open Function

variable {T : Type} [DecidableEq T]

/-! ## Asking -/

structure Asked (T : Type) where
  thread : T → Sigset
  process : T → Sigset

def Asked.init : Asked T := { thread := fun _ => sigsetempty, process := fun _ => sigsetempty }

/-- What is asked after one more call of the family has returned `0`. -/
def asks (asked : Sigset) (how : Int) (set : Sigset) : Sigset :=
  if how = SIG_BLOCK then
    asked ||| set
  else if how = SIG_UNBLOCK then
    asked &&& ~~~ set
  else
    sigsetand asked set

def record (s : State T) (b : Asked T) : Act T → Asked T
  | .threadSigmask t how (some set) =>
    if (threadSigmask s t how (some set)).1 = .ok then
      { b with thread := update b.thread t (asks (b.thread t) how set) }
    else
      b
  | .sigprocmask t how (some set) =>
    if (s.thread t).exited = false ∧ (sigprocmask s how (some set)).1 = .ok then
      { b with process := update b.process t (asks (b.process t) how set) }
    else
      b
  | .signalReset => { b with process := fun _ => sigsetempty }
  | .threadResetSignal t => { b with thread := update b.thread t sigsetempty }
  | _ => b

def askedStep (x : State T × Asked T) (a : Act T) : Except Fault (State T × Asked T) := do
  let s ← step x.1 a
  return (s, record x.1 x.2 a)

def Within (set mask : Sigset) : Prop :=
  ∀ n, sigismember set n = true → sigismember mask n = true

instance (set mask : Sigset) : Decidable (Within set mask) :=
  inferInstanceAs (Decidable (∀ n, sigismember set n = true → sigismember mask n = true))

/-- The step takes no signal out of a mask that a thread has asked to block: `sigprocmask` is not
asked to block anything, a signal is blocked only if the thread goes back to masks that have it, and
`sigsuspend` is given a mask with all that was asked. -/
def keepsAsked (x : State T × Asked T) : Act T → Bool
  | .sigprocmask _ how (some set) => how ≠ SIG_BLOCK || set = sigsetempty || !decide (Blockable set)
  | .threadSigmask t how (some set) =>
    how ≠ SIG_BLOCK || !decide (Blockable set) ||
      (x.1.thread t).frames.all fun f => decide (Within set f.oset)
  | .sigsuspend t (some mask) => !decide (Blockable mask) || decide (Within (x.2.thread t) mask)
  | _ => true

/-! ## Masks and what was asked -/

section Within

variable {set set' mask asked : Sigset}

theorem Within.trans (h : Within set set') (h' : Within set' mask) : Within set mask :=
  fun n hn => h' n (h n hn)

theorem within_empty (mask : Sigset) : Within sigsetempty mask := by
  intro n hn
  simp at hn

theorem Within.block (h : Within set mask) (set' : Sigset) :
    Within set (sigmask mask SIG_BLOCK (some set')).2 := by
  rw [sigmask_some_eq]
  split_ifs with hset
  · intro n hn
    simp [doSigmask, SIG_BLOCK, SIG_SETMASK, h n hn]
  · exact h

theorem Within.asks (h : Within asked mask) (how : Int) (hset : Blockable set)
    (hok : (sigmask mask how (some set)).1 = .ok) :
    Within (Signal.asks asked how set) (sigmask mask how (some set)).2 := by
  rw [sigmask_some_eq, if_pos hset, doSigmask] at hok ⊢
  rw [Signal.asks]
  intro n hn
  by_cases hsetmask : how = SIG_SETMASK
  · subst hsetmask
    rw [if_neg (by decide), if_neg (by decide), sigismember_and, Bool.and_eq_true] at hn
    rw [if_pos rfl]
    exact hn.2
  rw [if_neg hsetmask] at hok ⊢
  by_cases hblock : how = SIG_BLOCK
  · rw [if_pos hblock, sigismember_or, Bool.or_eq_true] at hn
    rw [if_pos hblock]
    simp only [sigismember_or, Bool.or_eq_true]
    exact hn.imp (h n) id
  rw [if_neg hblock] at hok hn ⊢
  by_cases hunblock : how = SIG_UNBLOCK
  · rw [if_pos hunblock, sigismember_andNot, Bool.and_eq_true] at hn
    rw [if_pos hunblock]
    simp only [sigismember_andNot, Bool.and_eq_true]
    exact ⟨h n hn.1, hn.2⟩
  · rw [if_neg hunblock] at hok
    simp at hok

theorem asks_within {how : Int} (hhow : how ≠ SIG_BLOCK) : Within (asks asked how set) asked := by
  intro n hn
  rw [asks, if_neg hhow] at hn
  split_ifs at hn
  · simp only [sigismember_andNot, Bool.and_eq_true] at hn
    exact hn.1
  · simp only [sigismember_and, Bool.and_eq_true] at hn
    exact hn.1

end Within

/-- The thread blocks what it has asked to block, and will do so when it returns from its frames. -/
structure Thread.Keeps (th : Thread) (asked : Sigset) : Prop where
  mask : Within asked th.sigmask
  frames : ∀ f ∈ th.frames, Within asked f.oset

theorem Moves.keeps {t : T} {th th' : Thread} {a : Act T} {asked : Sigset} (hd : th.Disciplined)
    (h : th.Keeps asked) (hmove : Moves t th a th')
    (hedit : ∀ how set, a ≠ .threadSigmask t how set) (hreset : a ≠ .threadResetSignal t)
    (hsuspend : ∀ mask, a = .sigsuspend t (some mask) → Blockable mask → Within asked mask) :
    th'.Keeps asked := by
  cases hmove with
  | stays => exact h
  | edits how set => exact absurd rfl (hedit how set)
  | passes set uctxMask =>
    refine ⟨?_, h.frames⟩
    rw [sigmask_passes hd.mask]
    exact h.mask
  | exits set uctxMask => exact ⟨h.mask.block set, h.frames⟩
  | handles set uctxMask info =>
    refine ⟨h.mask.block set, ?_⟩
    rintro f (_ | ⟨_, hf⟩)
    · exact h.mask
    · exact h.frames f hf
  | returns info oset frames hframes =>
    have hf : Frame.handler info oset ∈ th.frames := by simp [hframes]
    have hoset : Blockable oset := hd.frames _ hf
    refine ⟨?_, ?_⟩
    · rw [sigmask_setmask _ hoset]
      exact h.frames _ hf
    · intro f hf
      exact h.frames f (by rw [hframes]; exact List.mem_cons_of_mem _ hf)
  | suspends mask hmask =>
    refine ⟨hsuspend mask rfl hmask, ?_⟩
    rintro f (_ | ⟨_, hf⟩)
    · exact h.mask
    · exact h.frames f hf
  | resumes oset frames hframes =>
    have hf : Frame.suspend oset ∈ th.frames := by simp [hframes]
    have hoset : Blockable oset := hd.frames _ hf
    refine ⟨?_, ?_⟩
    · rw [sigmask_setmask _ hoset]
      exact h.frames _ hf
    · intro f hf
      exact h.frames f (by rw [hframes]; exact List.mem_cons_of_mem _ hf)
  | resets => exact absurd rfl hreset

theorem Thread.Keeps.sigmask {th : Thread} {asked set : Sigset} (h : th.Keeps asked) (how : Int)
    (hset : Blockable set) (hok : (Signal.sigmask th.sigmask how (some set)).1 = .ok)
    (hframes : how = SIG_BLOCK → ∀ f ∈ th.frames, Within set f.oset) :
    ({ th with sigmask := (Signal.sigmask th.sigmask how (some set)).2 } : Thread).Keeps
      (asks asked how set) := by
  refine ⟨h.mask.asks how hset hok, ?_⟩
  intro f hf
  by_cases hhow : how = SIG_BLOCK
  · intro n hn
    rw [asks, if_pos hhow, sigismember_or, Bool.or_eq_true] at hn
    exact hn.elim (h.frames f hf n) (hframes hhow f hf n)
  · exact (asks_within hhow).trans (h.frames f hf)

structure Kept (x : State T × Asked T) : Prop where
  disciplined : Disciplined x.1
  filed : Filed x.1
  thread : ∀ t, (x.1.thread t).Keeps (x.2.thread t)
  process : ∀ t, x.2.process t = sigsetempty

theorem Kept.init (group : List T) (uctxMask : T → Option Sigset) :
    Kept (State.init group uctxMask, (Asked.init : Asked T)) where
  disciplined := init_disciplined group uctxMask
  filed := fun _ => Level.init_filed
  thread := fun _ => ⟨within_empty _, fun _ _ => within_empty _⟩
  process := fun _ => rfl

section Record

variable {s s' : State T} {b : Asked T} {a : Act T}

theorem record_thread (t : T) (hedit : ∀ how set, a ≠ .threadSigmask t how set)
    (hreset : a ≠ .threadResetSignal t) : (record s b a).thread t = b.thread t := by
  cases a with
  | threadSigmask u how set =>
    have hu : t ≠ u := by
      rintro rfl
      exact hedit how set rfl
    cases set with
    | none => rfl
    | some set =>
      rw [record]
      split_ifs
      · exact update_of_ne hu _ _
      · rfl
  | sigprocmask u how set =>
    cases set with
    | none => rfl
    | some set =>
      rw [record]
      split_ifs <;> rfl
  | threadResetSignal u =>
    have hu : t ≠ u := by
      rintro rfl
      exact hreset rfl
    exact update_of_ne hu _ _
  | _ => rfl

theorem record_process (ha : keepsAsked (s, b) a = true) (h : ∀ t, b.process t = sigsetempty)
    (t : T) : (record s b a).process t = sigsetempty := by
  cases a with
  | sigprocmask u how set =>
    cases set with
    | none => exact h t
    | some set =>
      rw [record]
      split_ifs with hok
      · by_cases ht : t = u
        · subst ht
          simp only [update_self, h t]
          refine sigset_ext fun n => ?_
          rw [sigismember_empty, ← Bool.not_eq_true]
          by_cases hhow : how = SIG_BLOCK
          · have hset : Blockable set := by
              by_contra hset
              rw [sigprocmask, sigmask_some_eq, if_neg hset] at hok
              simp at hok
            have hempty : set = sigsetempty := by
              simpa [keepsAsked, hhow, hset] using ha
            simp [asks, hhow, hempty]
          · intro hn
            simpa using asks_within hhow n hn
        · simp only [update_of_ne ht]
          exact h t
      · exact h t
  | threadSigmask u how set =>
    cases set with
    | none => exact h t
    | some set =>
      rw [record]
      split_ifs <;> exact h t
  | signalReset => rfl
  | _ => exact h t

theorem Kept.keeps (h : Kept (s, b)) (ha : keepsAsked (s, b) a = true) (hstep : step s a = .ok s')
    (t : T) : (s'.thread t).Keeps ((record s b a).thread t) := by
  by_cases hedit : ∃ how set, a = .threadSigmask t how set
  · obtain ⟨how, set, rfl⟩ := hedit
    obtain rfl := Except.ok.inj hstep
    cases set with
    | none =>
      have hth : ((threadSigmask s t how none).2.thread t) = s.thread t := by
        simp [threadSigmask, sigmask]
      rw [hth]
      exact h.thread t
    | some set =>
      have hth : (threadSigmask s t how (some set)).2.thread t =
          { s.thread t with sigmask := (sigmask (s.thread t).sigmask how (some set)).2 } := by
        simp [threadSigmask]
      by_cases hset : Blockable set
      · rw [record, hth]
        by_cases hok : (threadSigmask s t how (some set)).1 = .ok
        · rw [if_pos hok]
          simp only [update_self]
          refine (h.thread t).sigmask how hset hok ?_
          intro hhow
          simpa [keepsAsked, hhow, hset] using ha
        · -- `how` is none of the three
          have hsame : (sigmask (s.thread t).sigmask how (some set)).2 = (s.thread t).sigmask := by
            rw [threadSigmask, sigmask_some_eq, if_pos hset, doSigmask] at hok
            rw [sigmask_some_eq, if_pos hset, doSigmask]
            split_ifs at hok ⊢ <;> simp_all
          rw [if_neg hok, hsame]
          exact h.thread t
      · have hrefused : sigmask (s.thread t).sigmask how (some set) =
            (.err .EINVAL, (s.thread t).sigmask) := by
          rw [sigmask_some_eq, if_neg hset]
        have hok : (threadSigmask s t how (some set)).1 ≠ .ok := by
          simp [threadSigmask, hrefused]
        rw [record, if_neg hok, hth, hrefused]
        exact h.thread t
  by_cases hreset : a = .threadResetSignal t
  · subst hreset
    have hempty : (record s b (.threadResetSignal t)).thread t = sigsetempty := by simp [record]
    rw [hempty]
    exact ⟨within_empty _, fun _ _ => within_empty _⟩
  · have hedit' : ∀ how set, a ≠ .threadSigmask t how set :=
      fun how set ha => hedit ⟨how, set, ha⟩
    rw [record_thread t hedit' hreset]
    refine (step_moves hstep t).keeps (h.disciplined t) (h.thread t) hedit' hreset ?_
    rintro mask rfl hmask
    simpa [keepsAsked, hmask] using ha

end Record

theorem Kept.step {x : State T × Asked T} {a : Act T} (h : Kept x) (ha : keepsAsked x a = true) :
    Safe Asserted (askedStep x a) Kept := by
  obtain ⟨s, b⟩ := x
  have hsafe : Safe Asserted (Signal.step s a) fun s' => Kept (s', record s b a) := by
    refine step_safe fun s' hstep => ?_
    exact
      { disciplined := h.disciplined.step hstep
        filed := h.filed.step hstep
        thread := h.keeps ha hstep
        process := record_process ha h.process }
  exact hsafe.bind fun s' hs' => hs'

theorem Kept.check {s : State T} {b : Asked T} (h : Kept (s, b)) {t : T} {n : Signo}
    (hn : sigismember (b.thread t) n = true ∨ sigismember (b.process t) n = true) :
    (∀ info, (signalCheckPending s t).1.taken = some info → info.signo ≠ n) ∧
      ∀ l, ((signalCheckPending s t).2.level l).queue n = (s.level l).queue n := by
  have hmask : sigismember (s.thread t).sigmask n = true := by
    rcases hn with hn | hn
    · exact (h.thread t).mask n hn
    · have hempty := h.process t
      dsimp only at hempty
      rw [hempty] at hn
      simp at hn
  rcases signalCheckPending_cases s t with
    ⟨hnone, hsame⟩ | ⟨target, m, info, rest, set, uctxMask, -, hm, hq, -, hdispatch⟩
  · refine ⟨?_, ?_⟩
    · intro info hinfo
      rw [hnone] at hinfo
      cases hinfo
    · intro l
      rw [hsame]
  have hsigno : info.signo = m := h.filed (Target.level t target) m info (by simp [hq])
  have hne : n ≠ m := by
    rintro rfl
    have hfree := firstUnblocked_not_blocked (h.disciplined t).mask hm
    rw [hmask] at hfree
    cases hfree
  refine ⟨?_, ?_⟩
  · intro other hother
    rw [hdispatch, (dispatch_cases _ t info _ target _).1] at hother
    obtain rfl := Option.some.inj hother
    rw [hsigno]
    exact hne.symm
  · intro l
    rw [signalCheckPending_level hdispatch, leave_level]
    by_cases hl : l = Target.level t target
    · subst hl
      simp [hne]
    · simp [hl]

/-- In every run whose steps keep what was asked, `signal_check_pending` takes no signal that the
thread has blocked with `pthread_sigmask` or `sigprocmask` and has not unblocked since. -/
theorem blocked_signals_not_delivered (group : List T) (uctxMask : T → Option Sigset)
    (acts : List (Act T))
    (hrun : guarded askedStep keepsAsked (State.init group uctxMask, Asked.init) acts = true) :
    Safe Asserted (runs askedStep (State.init group uctxMask, Asked.init) acts) fun (s, b) =>
      ∀ t n, sigismember (b.thread t) n = true ∨ sigismember (b.process t) n = true →
        (∀ info, (signalCheckPending s t).1.taken = some info → info.signo ≠ n) ∧
        ∀ l, ((signalCheckPending s t).2.level l).queue n = (s.level l).queue n := by
  have hsafe : Safe Asserted (runs askedStep (State.init group uctxMask, Asked.init) acts) Kept :=
    Safe.runs (fun x a hx ha => hx.step ha) (Kept.init group uctxMask) hrun
  refine hsafe.mono ?_
  rintro ⟨s, b⟩ hs t n hn
  exact hs.check hn

/-- `SIGUSR1` has a handler and is blocked by the thread `0`, which it is then sent to. -/
@[irreducible] def blockedRun (block : Act Nat) : List (Act Nat) :=
  [.sigaction false 27 (some { handler := .user 1, flags := 0, mask := sigsetempty }), block,
    .threadSendSignal 0 27 0 1 true true .ok]

theorem blocked_signals_not_delivered_usr1 :
    guarded askedStep keepsAsked (State.init [0] fun _ => none, Asked.init)
      (blockedRun (.threadSigmask 0 SIG_BLOCK (some (sigBit SIGUSR1)))) = true ∧
    Safe Asserted (runs askedStep (State.init [0] fun _ => none, Asked.init)
      (blockedRun (.threadSigmask 0 SIG_BLOCK (some (sigBit SIGUSR1))))) fun (s, b) =>
      ∀ t n, sigismember (b.thread t) n = true ∨ sigismember (b.process t) n = true →
        (∀ info, (signalCheckPending s t).1.taken = some info → info.signo ≠ n) ∧
        ∀ l, ((signalCheckPending s t).2.level l).queue n = (s.level l).queue n := by
  have hrun : guarded askedStep keepsAsked (State.init [0] fun _ => none, Asked.init)
      (blockedRun (.threadSigmask 0 SIG_BLOCK (some (sigBit SIGUSR1)))) = true := by
    decide +kernel
  exact ⟨hrun, blocked_signals_not_delivered [0] (fun _ => none) _ hrun⟩

/-- Blocked by `sigprocmask`, it is delivered all the same. -/
theorem sigprocmask_does_not_block :
    ∃ x, runs askedStep (State.init [0] fun _ => none, Asked.init)
        (blockedRun (.sigprocmask 0 SIG_BLOCK (some (sigBit SIGUSR1)))) = .ok x ∧
      sigismember (x.2.process 0) SIGUSR1 = true ∧
      (signalCheckPending x.1 0).1.taken.map Siginfo.signo = some SIGUSR1 ∧
      ((signalCheckPending x.1 0).2.level (some 0)).queue SIGUSR1 ≠
        (x.1.level (some 0)).queue SIGUSR1 :=
  ⟨outcome (runs askedStep (State.init [0] fun _ => none, Asked.init)
      (blockedRun (.sigprocmask 0 SIG_BLOCK (some (sigBit SIGUSR1)))))
      (State.init [0] fun _ => none, Asked.init),
    eq_ok_outcome (by decide +kernel), by decide +kernel, by decide +kernel, by decide +kernel⟩

end Signal
end XytherOS
