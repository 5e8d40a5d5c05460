import XytherOS.Signal.Steps

/-!
# Mask — the signal masks of threads

No mask of a thread ever has `SIGKILL` or `SIGSTOP`, and neither has a mask that a call will put back:
`sigmask` refuses a set with one of them, so every mask is made of sets without them.  This is why
the masks that `signal_check_pending` and `sigsuspend` put back are never refused, and the mask is
then the one with which the call began, whatever happened between.

* `Returns` — a call that begins and, any number of steps of any thread later, returns;
* `mask_discipline` — the two laws, over every run.
-/

namespace XytherOS
namespace Signal

variable {T : Type} [DecidableEq T]

/-! ## Blockable masks -/

/-- The mask of the thread and those it goes back to can all be put in force. -/
structure Thread.Disciplined (th : Thread) : Prop where
  mask : Blockable th.sigmask
  frames : ∀ f ∈ th.frames, Blockable f.oset

theorem Thread.init_disciplined (uctxMask : Option Sigset) : (Thread.init uctxMask).Disciplined :=
  ⟨blockable_empty, by simp [Thread.init]⟩

section Moves

variable {t : T} {th th' : Thread} {a : Act T}

theorem Moves.disciplined (h : th.Disciplined) (hmove : Moves t th a th') : th'.Disciplined := by
  cases hmove with
  | stays => exact h
  | edits how set => exact ⟨sigmask_blockable how set h.mask, h.frames⟩
  | passes set uctxMask =>
    exact ⟨sigmask_blockable _ _ (sigmask_blockable _ _ h.mask), h.frames⟩
  | exits set uctxMask => exact ⟨sigmask_blockable _ _ h.mask, h.frames⟩
  | handles set uctxMask info =>
    refine ⟨sigmask_blockable _ _ h.mask, ?_⟩
    rintro f (_ | ⟨_, hf⟩)
    · exact h.mask
    · exact h.frames f hf
  | returns info oset frames hframes =>
    refine ⟨sigmask_blockable _ _ h.mask, ?_⟩
    intro f hf
    exact h.frames f (by rw [hframes]; exact List.mem_cons_of_mem _ hf)
  | suspends mask hmask =>
    refine ⟨hmask, ?_⟩
    rintro f (_ | ⟨_, hf⟩)
    · exact h.mask
    · exact h.frames f hf
  | resumes oset frames hframes =>
    refine ⟨sigmask_blockable _ _ h.mask, ?_⟩
    intro f hf
    exact h.frames f (by rw [hframes]; exact List.mem_cons_of_mem _ hf)
  | resets => exact ⟨blockable_empty, h.frames⟩

theorem sigmask_passes (h : Blockable th.sigmask) (set : Sigset) :
    (sigmask (sigmask th.sigmask SIG_BLOCK (some set)).2 SIG_SETMASK (some th.sigmask)).2 =
      th.sigmask := by
  rw [sigmask_setmask _ h]

/-! ## Calls that return -/

theorem Moves.frames_cases (h : th.Disciplined) (hmove : Moves t th a th') :
    th'.frames = th.frames ∨
      (∃ f : Frame, th'.frames = f :: th.frames ∧ f.oset = th.sigmask) ∨
      ∃ f : Frame, th.frames = f :: th'.frames ∧ th'.sigmask = f.oset := by
  cases hmove with
  | stays => exact .inl rfl
  | edits how set => exact .inl rfl
  | passes set uctxMask => exact .inl rfl
  | exits set uctxMask => exact .inl rfl
  | handles set uctxMask info => exact .inr (.inl ⟨.handler info th.sigmask, rfl, rfl⟩)
  | returns info oset frames hframes =>
    have hoset : Blockable oset := h.frames (.handler info oset) (by simp [hframes])
    refine .inr (.inr ⟨.handler info oset, hframes, ?_⟩)
    simp only [sigmask_setmask _ hoset]
    rfl
  | suspends mask hmask => exact .inr (.inl ⟨.suspend th.sigmask, rfl, rfl⟩)
  | resumes oset frames hframes =>
    have hoset : Blockable oset := h.frames (.suspend oset) (by simp [hframes])
    refine .inr (.inr ⟨.suspend oset, hframes, ?_⟩)
    simp only [sigmask_setmask _ hoset]
    rfl
  | resets => exact .inl rfl

def Act.begins (t : T) : Act T → Bool
  | .signalCheckPending u => u = t
  | .sigsuspend u _ => u = t
  | _ => false

/-- The call that began in the thread `base` is a frame of it. -/
def Open (base th : Thread) : Prop :=
  ∃ (above : List Frame) (f : Frame), th.frames = above ++ f :: base.frames ∧ f.oset = base.sigmask

def Closed (base th : Thread) : Prop :=
  th.frames = base.frames ∧ (th.exited = false → th.sigmask = base.sigmask)

theorem Moves.begins (h : th.Disciplined) (hmove : Moves t th a th') (ha : a.begins t = true) :
    Open th th' ∨ Closed th th' := by
  cases hmove with
  | stays => exact .inr ⟨rfl, fun _ => rfl⟩
  | edits how set => simp [Act.begins] at ha
  | passes set uctxMask => exact .inr ⟨rfl, fun _ => sigmask_passes h.mask set⟩
  | exits set uctxMask => exact .inr ⟨rfl, by simp⟩
  | handles set uctxMask info => exact .inl ⟨[], .handler info th.sigmask, rfl, rfl⟩
  | returns info oset frames hframes => simp [Act.begins] at ha
  | suspends mask hmask => exact .inl ⟨[], .suspend th.sigmask, rfl, rfl⟩
  | resumes oset frames hframes => simp [Act.begins] at ha
  | resets => simp [Act.begins] at ha

theorem Moves.open_step {base : Thread} (h : th.Disciplined) (hmove : Moves t th a th')
    (hopen : Open base th) : Open base th' ∨ Closed base th' := by
  obtain ⟨above, f, hframes, hoset⟩ := hopen
  rcases hmove.frames_cases h with hsame | ⟨g, hpush, -⟩ | ⟨g, hpop, hmask⟩
  · exact .inl ⟨above, f, hsame.trans hframes, hoset⟩
  · refine .inl ⟨g :: above, f, ?_, hoset⟩
    rw [hpush, hframes, List.cons_append]
  · rw [hpop] at hframes
    cases above with
    | nil =>
      -- the frame on top is that of the call itself
      obtain ⟨rfl, hrest⟩ := List.cons.inj hframes
      exact .inr ⟨hrest, fun _ => hmask.trans hoset⟩
    | cons g' above =>
      obtain ⟨-, hrest⟩ := List.cons.inj hframes
      exact .inl ⟨above, f, hrest, hoset⟩

end Moves

theorem Open.length_lt {base th : Thread} (h : Open base th) :
    base.frames.length < th.frames.length := by
  obtain ⟨above, f, hframes, -⟩ := h
  rw [hframes, List.length_append, List.length_cons]
  omega

/-- More frames of `t` are open than the `d` with which a call began. -/
def deeper (t : T) (d : Nat) (s : State T) (_ : Act T) : Bool := d < (s.thread t).frames.length

/-- The call `a` that `t` makes in the state `s` returns in `s'`, after the steps `rest` of any
threads; before it returns it is a frame of `t`. -/
structure Returns (t : T) (s : State T) (a : Act T) (rest : List (Act T)) (s' : State T) : Prop where
  begins : a.begins t = true
  within : ∃ s₁, step s a = .ok s₁ ∧
    guarded step (deeper t (s.thread t).frames.length) s₁ rest = true ∧ runs step s₁ rest = .ok s'
  returned : (s'.thread t).frames.length = (s.thread t).frames.length
  alive : (s'.thread t).exited = false

def Disciplined (s : State T) : Prop := ∀ t, (s.thread t).Disciplined

theorem init_disciplined (group : List T) (uctxMask : T → Option Sigset) :
    Disciplined (State.init group uctxMask) :=
  fun t => Thread.init_disciplined (uctxMask t)

theorem step_safe {s : State T} {a : Act T} {P : State T → Prop}
    (h : ∀ s', step s a = .ok s' → P s') : Safe Asserted (step s a) P := by
  cases hstep : step s a with
  | ok s' => exact h s' hstep
  | error e =>
    rw [step] at hstep
    suffices hperform : perform s a = .error e → Asserted e by
      cases hcaller : a.caller with
      | none =>
        rw [hcaller] at hstep
        exact hperform hstep
      | some u =>
        rw [hcaller] at hstep
        dsimp only at hstep
        split_ifs at hstep
        exact hperform hstep
    intro hperform
    cases a with
    | sigaction groupLocked signo act =>
      rw [perform, sigaction] at hperform
      cases hn : Signo.ofInt signo with
      | none => simp [hn] at hperform
      | some n =>
        cases act with
        | none => simp [hn] at hperform
        | some act =>
          simp only [hn] at hperform
          split_ifs at hperform
          · cases groupLocked with
            | true => simp [assert] at hperform
            | false =>
              simp only [assert, Bool.false_eq_true, if_false, error_bind,
                Except.error.injEq] at hperform
              exact ⟨_, hperform.symm⟩
          · simp at hperform
    | siginfoCreate signo value pid memory =>
      rw [perform] at hperform
      rcases hnew : siginfoCreate s signo value pid memory with ⟨e | info, s'⟩ <;>
        simp [hnew] at hperform
    | signalDequeue t =>
      rw [perform] at hperform
      rcases hdeq : signalDequeue s t with ⟨e | ⟨info, act, target⟩, s'⟩ <;>
        simp [hdeq] at hperform
    | _ => simp [perform] at hperform

theorem Disciplined.step {s s' : State T} {a : Act T} (h : Disciplined s)
    (hstep : Signal.step s a = .ok s') : Disciplined s' :=
  fun t => (step_moves hstep t).disciplined (h t)

theorem Disciplined.runs {s : State T} (h : Disciplined s) (acts : List (Act T)) :
    Safe Asserted (XytherOS.runs Signal.step s acts) Disciplined := by
  refine Safe.runs ?_ h (guarded_true Signal.step s acts)
  intro s a hs _
  exact step_safe fun s' hstep => hs.step hstep

theorem Disciplined.returns {t : T} {s s' : State T} {a : Act T} {rest : List (Act T)}
    (h : Disciplined s) (hcall : Returns t s a rest s') :
    (s'.thread t).sigmask = (s.thread t).sigmask := by
  obtain ⟨s₁, hstep, hdeep, hrun⟩ := hcall.within
  have hfirst : Open (s.thread t) (s₁.thread t) ∨ Closed (s.thread t) (s₁.thread t) :=
    (step_moves hstep t).begins (h t) hcall.begins
  have hlast : Safe Asserted (XytherOS.runs Signal.step s₁ rest) fun s' =>
      Disciplined s' ∧ (Open (s.thread t) (s'.thread t) ∨ Closed (s.thread t) (s'.thread t)) := by
    refine Safe.runs ?_ ⟨h.step hstep, hfirst⟩ hdeep
    rintro s₂ b ⟨hs2, hopen⟩ hguard
    refine step_safe fun s3 hstep3 => ⟨hs2.step hstep3, ?_⟩
    rcases hopen with hopen | hclosed
    · exact (step_moves hstep3 t).open_step (hs2 t) hopen
    · rw [deeper, hclosed.1] at hguard
      simp at hguard
  rcases (hlast.of_eq_ok hrun).2 with hopen | hclosed
  · have hlt : (s.thread t).frames.length < (s'.thread t).frames.length := hopen.length_lt
    rw [hcall.returned] at hlt
    omega
  · exact hclosed.2 hcall.alive

/-- Whatever sequence of calls is made, no thread blocks `SIGKILL` or `SIGSTOP`, and whenever
`signal_check_pending` or `sigsuspend` returns, the mask of the thread is the one it had when the
call began; not even a handler that edits the mask changes that. -/
theorem mask_discipline (group : List T) (uctxMask : T → Option Sigset) (acts : List (Act T)) :
    Safe Asserted (runs step (State.init group uctxMask) acts) fun s =>
      (∀ t, sigismember (s.thread t).sigmask SIGKILL = false ∧
        sigismember (s.thread t).sigmask SIGSTOP = false) ∧
      ∀ t a rest s', Returns t s a rest s' → (s'.thread t).sigmask = (s.thread t).sigmask := by
  refine ((init_disciplined group uctxMask).runs acts).mono ?_
  intro s hs
  refine ⟨fun t => (hs t).mask, ?_⟩
  intro t a rest s' hcall
  exact hs.returns hcall

/-- The thread `0` has a handler for `SIGUSR1` and a `SIGUSR1` to take. -/
def signalled : State Nat :=
  outcome (runs step (State.init [0] fun _ => none)
    [.sigaction false 27 (some { handler := .user 1, flags := 0, mask := sigsetempty }),
      .threadSendSignal 0 27 0 1 true true .ok]) (State.init [0] fun _ => none)

def handlerRun : List (Act Nat) :=
  [.threadSigmask 0 SIG_BLOCK (some (sigBit SIGUSR2)), .handlerReturn 0]

example : Returns 0 signalled (.signalCheckPending 0) handlerRun
    (outcome (runs step signalled (.signalCheckPending 0 :: handlerRun)) signalled) where
  begins := rfl
  within := ⟨outcome (step signalled (.signalCheckPending 0)) signalled,
    eq_ok_outcome (by decide +kernel), by decide +kernel, eq_ok_outcome (by decide +kernel)⟩
  returned := by decide +kernel
  alive := by decide +kernel

end Signal
end XytherOS
