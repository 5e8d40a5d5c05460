import XytherOS.Lib.Places
import XytherOS.Signal.Pending

/-!
# Ownership — who has a siginfo, and who frees it

A `siginfo_t` is created by the sender, handed to a queue, taken from it by the thread that the signal
is delivered to, and freed at the end of the dispatch.  At every time it is in one place at most: in
the hands of a kernel function, in a queue, in the frame of a handler, or freed.  Two paths break
this.  `thread_send_signal` frees what it has sent when the wake-up fails, while it is in the queue
of the thread; and `do_terminate` frees a signal of the process that `signal_check_pending` then frees
again.

* `Place`, `ids` — the places, and the addresses that lie in each;
* `Owned` — no address lies in two places, and what was freed was in no queue then;
* `ownsKept` — the steps that are neither of the two.
-/

namespace XytherOS
namespace Signal

open Function Places

variable {T : Type} [DecidableEq T]

/-! ## Places -/

inductive Place (T : Type)
  | held
  | queue (l : Option T) (n : Signo)
  | frames (t : T)
  | freed
  deriving DecidableEq

def Frame.id? : Frame → Option Nat
  | .handler info _ => some info.id
  | .suspend _ => none

def ids (s : State T) : Place T → List Nat
  | .held => s.held.map Siginfo.id
  | .queue l n => ((s.level l).queue n).map Siginfo.id
  | .frames t => (s.thread t).frames.filterMap Frame.id?
  | .freed => s.freed.map Free.id

def Free.Linked (e : Free T) : Prop := ∃ l n, ∃ info ∈ (e.level l).queue n, info.id = e.id

/-- Every `siginfo_t` is in one place at most, and none was linked when it was freed. -/
structure Owned (s : State T) : Prop where
  exclusive : Exclusive (ids s)
  below : ∀ p, ∀ i ∈ ids s p, i < s.created
  unlinked : ∀ e ∈ s.freed, ¬ e.Linked

/-- A `siginfo_t` that a function works with: it is in none of the places. -/
def InHand (s : State T) (i : Nat) : Prop := i < s.created ∧ ∀ p, i ∉ ids s p

section Ids

variable (s : State T)

theorem ids_setQueue (l : Option T) (n : Signo) (q : List Siginfo) :
    ids (s.setQueue l n q) = update (ids s) (.queue l n) (q.map Siginfo.id) := by
  funext p
  cases p with
  | queue k m =>
    by_cases hk : k = l
    · subst hk
      by_cases hm : m = n
      · subst hm
        simp [ids]
      · simp [ids, hm]
    · simp [ids, hk, setQueue_level_ne hk]
  | held => simp [ids, State.setQueue]
  | frames t => simp [ids]
  | freed => simp [ids, State.setQueue]

theorem ids_setPending (l : Option T) (set : Sigset) : ids (s.setPending l set) = ids s := by
  funext p
  cases p with
  | queue k m =>
    by_cases hk : k = l
    · subst hk
      simp [ids]
    · simp [ids, setPending_level_ne hk]
  | _ => rfl

theorem ids_siginfoFree (i : Nat) :
    ids (siginfoFree s i) = update (ids s) .freed (i :: ids s .freed) := by
  funext p
  cases p <;> simp [ids, siginfoFree]

theorem ids_setThread (t : T) (th : Thread) :
    ids (s.setThread t th) =
      update (ids s) (.frames t) (th.frames.filterMap Frame.id?) := by
  funext p
  cases p with
  | frames u =>
    by_cases hu : u = t
    · subst hu
      simp [ids]
    · simp [ids, hu, setThread_thread_ne hu]
  | held => simp [ids, State.setThread]
  | queue k m => simp [ids]
  | freed => simp [ids, State.setThread]

theorem ids_held (held : List Siginfo) :
    ids { s with held } = update (ids s) .held (held.map Siginfo.id) := by
  funext p
  cases p <;> simp [ids]

end Ids

/-! ## Moving a siginfo -/

section Moving

variable {s s' : State T} {l : Option T} {n : Signo} {info : Siginfo} {i : Nat}

theorem Owned.same (h : Owned s) (hids : ids s' = ids s) (hcreated : s'.created = s.created)
    (hfreed : s'.freed = s.freed) : Owned s' where
  exclusive := by
    rw [hids]
    exact h.exclusive
  below := by
    rw [hids, hcreated]
    exact h.below
  unlinked := by
    rw [hfreed]
    exact h.unlinked

theorem InHand.same (h : InHand s i) (hids : ids s' = ids s) (hcreated : s'.created = s.created) :
    InHand s' i := by
  rw [InHand, hids, hcreated]
  exact h

theorem Owned.take (h : Owned s) {p : Place T} {rest : List Nat}
    (hp : (ids s p).Perm (i :: rest)) (hids : ids s' = update (ids s) p rest)
    (hcreated : s'.created = s.created) (hfreed : s'.freed = s.freed) : Owned s' ∧ InHand s' i := by
  obtain ⟨hexclusive, hnowhere⟩ := h.exclusive.take hp
  have hi : i < s.created := h.below p i (hp.mem_iff.mpr List.mem_cons_self)
  refine ⟨⟨?_, ?_, ?_⟩, ?_, ?_⟩
  · rw [hids]
    exact hexclusive
  · rw [hids, hcreated]
    intro q j hj
    by_cases hq : q = p
    · subst hq
      rw [update_self] at hj
      exact h.below q j (hp.mem_iff.mpr (List.mem_cons_of_mem i hj))
    · rw [update_of_ne hq] at hj
      exact h.below q j hj
  · rw [hfreed]
    exact h.unlinked
  · rw [hcreated]
    exact hi
  · rw [hids]
    exact hnowhere

theorem Owned.put (h : Owned s) (hi : InHand s i) {p : Place T} {all : List Nat}
    (hp : all.Perm (i :: ids s p)) (hids : ids s' = update (ids s) p all)
    (hcreated : s'.created = s.created) (hfreed : ∀ e ∈ s'.freed, ¬ e.Linked) : Owned s' := by
  refine ⟨?_, ?_, hfreed⟩
  · rw [hids]
    exact h.exclusive.put hi.2 hp
  · rw [hids, hcreated]
    intro q j hj
    by_cases hq : q = p
    · subst hq
      rw [update_self, hp.mem_iff, List.mem_cons] at hj
      rcases hj with rfl | hj
      · exact hi.1
      · exact h.below q j hj
    · rw [update_of_ne hq] at hj
      exact h.below q j hj

theorem Owned.grown (h : Owned s) : Owned s.grown ∧ InHand s.grown s.created := by
  refine ⟨⟨h.exclusive, ?_, h.unlinked⟩, Nat.lt_succ_self s.created, ?_⟩
  · intro p i hi
    exact (h.below p i hi).trans (Nat.lt_succ_self s.created)
  · intro p hi
    exact absurd (h.below p s.created hi) (Nat.lt_irrefl s.created)

theorem Owned.setPending (h : Owned s) (set : Sigset) : Owned (s.setPending l set) :=
  h.same (ids_setPending s l set) rfl rfl

theorem InHand.setPending (h : InHand s i) (set : Sigset) : InHand (s.setPending l set) i :=
  h.same (ids_setPending s l set) rfl

theorem Owned.siginfoFree (h : Owned s) (hi : InHand s i) : Owned (Signal.siginfoFree s i) := by
  refine h.put hi (List.Perm.refl _) (ids_siginfoFree s i) rfl ?_
  intro e he
  rcases List.mem_cons.mp he with rfl | he
  · rintro ⟨l, n, info, hinfo, rfl⟩
    exact hi.2 (.queue l n) (List.mem_map_of_mem hinfo)
  · exact h.unlinked e he

theorem Owned.dequeue {rest : List Siginfo} (h : Owned s)
    (hq : (s.level l).queue n = info :: rest) :
    Owned (s.setQueue l n rest) ∧ InHand (s.setQueue l n rest) info.id := by
  refine h.take ?_ (ids_setQueue s l n rest) rfl rfl
  rw [ids, hq, List.map_cons]

theorem Owned.leave {rest : List Siginfo} (h : Owned s)
    (hq : (s.level l).queue n = info :: rest) :
    Owned (s.leave l n rest) ∧ InHand (s.leave l n rest) info.id := by
  obtain ⟨howned, hhand⟩ := h.dequeue hq
  rw [State.leave]
  split_ifs
  · exact ⟨howned.setPending _, hhand.setPending _⟩
  · exact ⟨howned, hhand⟩

theorem Owned.enqueue (h : Owned s) (hi : InHand s info.id) :
    Owned (s.setQueue l n ((s.level l).queue n ++ [info])) := by
  refine h.put hi ?_ (ids_setQueue s l n _) rfl h.unlinked
  rw [List.map_append, ids]
  exact List.perm_append_comm

theorem Owned.hold (h : Owned s) (hi : InHand s info.id) :
    Owned { s with held := info :: s.held } :=
  h.put hi (List.Perm.refl _) (ids_held s _) rfl h.unlinked

theorem Owned.unhold (h : Owned s) (hinfo : info ∈ s.held) :
    Owned { s with held := s.held.erase info } ∧
      InHand { s with held := s.held.erase info } info.id := by
  refine h.take (p := Place.held) ?_ (ids_held s _) rfl rfl
  exact (List.perm_cons_erase hinfo).map Siginfo.id

variable {t : T} {th : Thread}

theorem ids_setThread_same
    (hframes : th.frames.filterMap Frame.id? = (s.thread t).frames.filterMap Frame.id?) :
    ids (s.setThread t th) = ids s := by
  rw [ids_setThread, hframes]
  exact update_eq_self (.frames t) (ids s)

theorem Owned.setThread (h : Owned s)
    (hframes : th.frames.filterMap Frame.id? = (s.thread t).frames.filterMap Frame.id?) :
    Owned (s.setThread t th) :=
  h.same (ids_setThread_same hframes) rfl rfl

theorem InHand.setThread (h : InHand s i)
    (hframes : th.frames.filterMap Frame.id? = (s.thread t).frames.filterMap Frame.id?) :
    InHand (s.setThread t th) i :=
  h.same (ids_setThread_same hframes) rfl

theorem Owned.setSigmask (h : Owned s) (t : T) (mask : Sigset) : Owned (s.setSigmask t mask) :=
  h.setThread (t := t) rfl

theorem InHand.setSigmask (h : InHand s i) (t : T) (mask : Sigset) :
    InHand (s.setSigmask t mask) i :=
  h.setThread (t := t) rfl

end Moving

section Functions

variable {s s' : State T} {info : Siginfo} {room : Bool} {r : Ret}

theorem Owned.flushLoop {l : Option T} {n : Signo} {q : List Siginfo} (h : Owned s)
    (hq : (s.level l).queue n = q) : Owned (Signal.flushLoop s l n q) := by
  induction q generalizing s with
  | nil => exact h
  | cons info rest ih =>
    obtain ⟨howned, hhand⟩ := h.dequeue hq
    rw [Signal.flushLoop]
    refine ih (howned.siginfoFree hhand) ?_
    simp

theorem Owned.sigqueueFlush (h : Owned s) (l : Option T) (n : Signo) :
    Owned (Signal.sigqueueFlush s l n) :=
  h.flushLoop rfl

theorem Owned.flushThread (h : Owned s) (n : Signo) (t : T) : Owned (Signal.flushThread n s t) := by
  rw [Signal.flushThread]
  split_ifs
  · exact (h.sigqueueFlush (some t) n).setPending _
  · exact h

theorem Owned.flushAll (h : Owned s) (l : Option T) (ns : List Signo) :
    Owned (ns.foldl (fun s n => Signal.sigqueueFlush s l n) s) :=
  List.foldlRecOn ns _ h fun _ hs n _ => hs.sigqueueFlush l n

theorem Owned.signalEnqueue (h : Owned s) (hi : InHand s info.id)
    (hsend : Signal.signalEnqueue s info room = (r, s')) :
    Owned s' ∧ (r ≠ .ok → InHand s' info.id) := by
  have hmark : Owned (s.mark none info.signo) := h.setPending _
  have hhand : InHand (s.mark none info.signo) info.id := hi.setPending _
  rcases signalEnqueue_cases s info room with ⟨henq, -⟩ | ⟨e, henq⟩
  · obtain ⟨rfl, rfl⟩ := Prod.mk.inj (henq.symm.trans hsend)
    have hput : Owned ((s.mark none info.signo).setQueue none info.signo
        (((s.mark none info.signo).level none).queue info.signo ++ [info])) := hmark.enqueue hhand
    rw [mark_level_self] at hput
    exact ⟨hput, fun hne => absurd rfl hne⟩
  · obtain ⟨rfl, rfl⟩ := Prod.mk.inj (henq.symm.trans hsend)
    split_ifs
    · exact ⟨hmark.setPending _, fun _ => hhand.setPending _⟩
    · exact ⟨hmark, fun _ => hhand⟩

variable {t : T}

theorem Owned.threadSendSiginfo {wakeup : Ret} (h : Owned s) (hi : InHand s info.id)
    (hwake : wakeup = .ok ∨ room = false)
    (hsend : Signal.threadSendSiginfo s t info room wakeup = (r, s')) :
    Owned s' ∧ (r ≠ .ok → InHand s' info.id) := by
  rcases threadSendSiginfo_cases s t info room wakeup with
    ⟨e, hs⟩ | ⟨hroom, -, ⟨-, hs⟩ | ⟨e, herr, hs⟩⟩
  · obtain ⟨rfl, rfl⟩ := Prod.mk.inj (hs.symm.trans hsend)
    exact ⟨h, fun _ => hi⟩
  · obtain ⟨rfl, rfl⟩ := Prod.mk.inj (hs.symm.trans hsend)
    exact ⟨(h.enqueue hi).setPending _, fun hne => absurd rfl hne⟩
  · -- the wake-up was not to fail
    rw [herr, hroom] at hwake
    simp at hwake

theorem Owned.handOver {id : Nat} {send : State T → Siginfo → Ret × State T} (h : Owned s)
    (hsend : ∀ s s' info r, Owned s → InHand s info.id → send s info = (r, s') →
      Owned s' ∧ (r ≠ .ok → InHand s' info.id)) :
    Owned (Signal.handOver s id send) := by
  rcases handOver_cases (rfl : Signal.handOver s id send = Signal.handOver s id send) with
    hs | ⟨info, hfind, hok | ⟨e, s₁, herr, hs⟩⟩
  · rw [hs]
    exact h
  · obtain ⟨howned, hhand⟩ := h.unhold (List.mem_of_find?_eq_some hfind)
    exact (hsend _ _ info _ howned hhand hok).1
  · obtain ⟨howned, hhand⟩ := h.unhold (List.mem_of_find?_eq_some hfind)
    obtain ⟨howned', hhand'⟩ := hsend _ _ info _ howned hhand herr
    rw [hs]
    exact howned'.hold (hhand' (by simp))

theorem Owned.free_unless_sent {s₁ : State T} (hs1 : Owned s₁ ∧ (r ≠ .ok → InHand s₁ info.id))
    (hcases : r = .ok ∧ s' = s₁ ∨ r ≠ .ok ∧ s' = Signal.siginfoFree s₁ info.id) : Owned s' := by
  rcases hcases with ⟨-, rfl⟩ | ⟨hr, rfl⟩
  · exact hs1.1
  · exact hs1.1.siginfoFree (hs1.2 hr)

theorem Owned.threadSendSignal {signo value pid : Int} {memory : Bool} {wakeup : Ret}
    (h : Owned s)
    (hwake : ∀ n, memory = true → Signo.ofInt signo = some n → wakeup = .ok ∨ room = false) :
    Owned (Signal.threadSendSignal s t signo value pid memory room wakeup).2 := by
  obtain ⟨howned, hhand⟩ := h.grown
  generalize hs : (Signal.threadSendSignal s t signo value pid memory room wakeup).2 = s'
  rcases threadSendSignal_cases hs with
    rfl | rfl | ⟨n, info, hmem, hn, -, hid, hok | ⟨e, s₁, herr, rfl⟩⟩
  · exact h
  · exact howned.siginfoFree hhand
  · rw [← hid] at hhand
    exact .free_unless_sent (howned.threadSendSiginfo hhand (hwake n hmem hn) hok)
      (.inl ⟨rfl, rfl⟩)
  · rw [← hid] at hhand
    exact .free_unless_sent (howned.threadSendSiginfo hhand (hwake n hmem hn) herr)
      (.inr ⟨by simp, rfl⟩)

theorem Owned.procSendSignal (h : Owned s) (signo value pid : Int) (memory room : Bool) :
    Owned (Signal.procSendSignal s signo value pid memory room).2 := by
  obtain ⟨howned, hhand⟩ := h.grown
  generalize hs : (Signal.procSendSignal s signo value pid memory room).2 = s'
  rcases procSendSignal_cases hs with rfl | rfl | ⟨info, hid, hok | ⟨e, s₁, herr, rfl⟩⟩
  · exact h
  · exact howned.siginfoFree hhand
  · rw [← hid] at hhand
    exact .free_unless_sent (howned.signalEnqueue hhand hok) (.inl ⟨rfl, rfl⟩)
  · rw [← hid] at hhand
    exact .free_unless_sent (howned.signalEnqueue hhand herr) (.inr ⟨by simp, rfl⟩)

theorem Owned.dispatch {act : Sigaction} {target : Target} {oset : Sigset} (h : Owned s)
    (hi : InHand s info.id)
    (honce : ¬ (target = .process ∧ act.handler = .dfl ∧ sigTerminate info.signo = true)) :
    Owned (Signal.dispatch s t info act target oset).2 := by
  have hframes : ({ s.thread t with exited := true } : Thread).frames.filterMap Frame.id? =
      (s.thread t).frames.filterMap Frame.id? := rfl
  rcases (dispatch_cases s t info act target oset).2 with hend | ⟨hterm, hend⟩ | hend | hend
  · rw [hend]
    exact (h.setSigmask t _).siginfoFree (hi.setSigmask t _)
  · exact absurd hterm honce
  · rw [hend]
    exact (h.siginfoFree hi).setThread hframes
  · rw [hend]
    refine h.put hi ?_ (ids_setThread s t _) rfl h.unlinked
    exact List.Perm.refl _

end Functions

/-- The next signal of `t` is one of the process that terminates by default: `t` has none of its own,
and the lowest one of the process has neither a handler nor another default action. -/
def terminatesProcess (s : State T) (t : T) : Bool :=
  (match firstUnblocked s t (some t) with
    | none => true
    | some n => (s.level (some t)).queue n = []) &&
  match firstUnblocked s t none with
  | none => false
  | some n =>
    (s.level none).queue n ≠ [] && (s.sigAction n).handler = .dfl && sigTerminate n

/-- The step is neither a send to a thread whose wake-up fails, nor a check that takes a signal of
the process that terminates by default. -/
def ownsKept (s : State T) : Act T → Bool
  | .threadSendSiginfo _ _ room wakeup => wakeup = .ok || !room
  | .threadSendSignal _ signo _ _ memory room wakeup =>
    wakeup = .ok || !room || !memory || (Signo.ofInt signo).isNone
  | .signalCheckPending t =>
    (s.thread t).nsigNested > ARCH_NSIG_NESTED || !terminatesProcess s t
  | _ => true

section Steps

variable {s s' : State T}

theorem Owned.signalCheckPending {t : T} (h : Owned s) (hfiled : Filed s)
    (ha : ownsKept s (.signalCheckPending t) = true) : Owned (Signal.signalCheckPending s t).2 := by
  rcases signalCheckPending_cases s t with
    ⟨-, hsame⟩ | ⟨target, n, info, rest, set, uctxMask, hnested, hn, hq, hprev, hdispatch⟩
  · rw [hsame]
    exact h
  obtain ⟨howned, hhand⟩ := h.leave hq
  have hsigno : info.signo = n := hfiled (Target.level t target) n info (by simp [hq])
  rw [hdispatch]
  refine Owned.dispatch (howned.setThread (t := t) rfl) (hhand.setThread (t := t) rfl) ?_
  rintro ⟨rfl, hdfl, hterm⟩
  have hthread : (match firstUnblocked s t (some t) with
      | none => true
      | some n => decide ((s.level (some t)).queue n = [])) = true := by
    cases hfirst : firstUnblocked s t (some t) with
    | none => rfl
    | some m => exact decide_eq_true (hprev rfl m hfirst)
  have hprocess : firstUnblocked s t none = some n := hn
  have hqueue : (s.level none).queue n = info :: rest := hq
  rw [hsigno] at hterm
  rw [ownsKept, terminatesProcess, hthread, hprocess] at ha
  simp [hqueue, hdfl, hterm] at ha
  omega

theorem Owned.sigaction {groupLocked : Bool} {signo : Int} {act : Option Sigaction}
    {r : Except Errno Sigaction} (h : Owned s)
    (hact : Signal.sigaction s groupLocked signo act = .ok (r, s')) : Owned s' := by
  rcases sigaction_cases hact with rfl | ⟨n, new, -, -, ⟨-, rfl⟩ | ⟨-, rfl⟩⟩
  · exact h
  · exact h.same rfl rfl rfl
  · have hset : Owned (s.setAction n new) := h.same rfl rfl rfl
    exact List.foldlRecOn s.group _ (hset.sigqueueFlush none n) fun _ hs t _ => hs.flushThread n t

theorem Owned.handlerReturn (h : Owned s) (t : T) : Owned (Signal.handlerReturn s t) := by
  rw [Signal.handlerReturn]
  rcases hframes : (s.thread t).frames with _ | ⟨⟨info, oset⟩ | ⟨oset⟩, frames⟩
  · exact h
  · have htake : Owned (s.setThread t
          { s.thread t with nsigNested := (s.thread t).nsigNested - 1, frames := frames }) ∧
        InHand (s.setThread t
          { s.thread t with nsigNested := (s.thread t).nsigNested - 1, frames := frames }) info.id := by
      refine h.take (p := Place.frames t) ?_ (ids_setThread s t _) rfl rfl
      rw [ids, hframes]
      exact List.Perm.refl _
    exact (htake.1.setSigmask t _).siginfoFree (htake.2.setSigmask t _)
  · exact h

theorem Owned.sigsuspend (h : Owned s) (t : T) (mask : Option Sigset) :
    Owned (Signal.sigsuspend s t mask).2 := by
  cases mask with
  | none => exact h
  | some mask =>
    rw [Signal.sigsuspend]
    rcases sigmask (s.thread t).sigmask SIG_SETMASK (some mask) with ⟨_ | e, mask'⟩
    · exact h.setThread rfl
    · exact h

theorem Owned.sigsuspendReturn (h : Owned s) (t : T) : Owned (Signal.sigsuspendReturn s t) := by
  rw [Signal.sigsuspendReturn]
  rcases hframes : (s.thread t).frames with _ | ⟨⟨info, oset⟩ | ⟨oset⟩, frames⟩
  · exact h
  · exact h
  · have hpop : Owned (s.setThread t { s.thread t with frames := frames }) := by
      refine h.setThread ?_
      rw [hframes]
      rfl
    exact hpop.setSigmask t _

theorem Owned.signalReset (h : Owned s) : Owned (Signal.signalReset s) := by
  have hflush := h.flushAll none (List.finRange NSIG)
  rw [Signal.signalReset]
  generalize List.foldl _ s (List.finRange NSIG) = s₁ at hflush ⊢
  have hreset : Owned { s₁ with sigAction := fun _ => .default, sigMask := sigsetempty } :=
    hflush.same rfl rfl rfl
  exact hreset.setPending _

theorem Owned.threadResetSignal (h : Owned s) (t : T) : Owned (Signal.threadResetSignal s t) := by
  have hflush := h.flushAll (some t) (List.finRange NSIG)
  rw [Signal.threadResetSignal]
  generalize List.foldl _ s (List.finRange NSIG) = s₁ at hflush ⊢
  exact (hflush.setSigmask t _).setPending _

theorem Owned.step {a : Act T} (h : Owned s) (hfiled : Filed s) (ha : ownsKept s a = true)
    (hstep : Signal.step s a = .ok s') : Owned s' := by
  rcases step_cases hstep with rfl | hperform
  · exact h
  cases a with
  | siginfoCreate signo value pid memory =>
    obtain ⟨howned, hhand⟩ := h.grown
    simp only [perform] at hperform
    rcases siginfoCreate_cases s signo value pid memory with hnew | hnew | ⟨n, -, -, hnew⟩
    · rw [hnew] at hperform
      obtain rfl := Except.ok.inj hperform
      exact h
    · rw [hnew] at hperform
      obtain rfl := Except.ok.inj hperform
      exact howned.siginfoFree hhand
    · rw [hnew] at hperform
      obtain rfl := Except.ok.inj hperform
      exact howned.hold hhand
  | siginfoFree id =>
    obtain rfl := Except.ok.inj hperform
    refine h.handOver ?_
    intro s s' info r hs hi hfree
    obtain ⟨rfl, rfl⟩ := Prod.mk.inj hfree
    exact ⟨hs.siginfoFree hi, fun hne => absurd rfl hne⟩
  | signalEnqueue id room =>
    obtain rfl := Except.ok.inj hperform
    exact h.handOver fun s s' info r hs hi hsend => hs.signalEnqueue hi hsend
  | threadSendSiginfo t id room wakeup =>
    obtain rfl := Except.ok.inj hperform
    have hwake : wakeup = .ok ∨ room = false := by simpa [ownsKept] using ha
    exact h.handOver fun s s' info r hs hi hsend => hs.threadSendSiginfo hi hwake hsend
  | threadSendSignal t signo value pid memory room wakeup =>
    obtain rfl := Except.ok.inj hperform
    refine h.threadSendSignal ?_
    intro n hmem hn
    simpa [ownsKept, hmem, hn] using ha
  | procSendSignal signo value pid memory room =>
    obtain rfl := Except.ok.inj hperform
    exact h.procSendSignal signo value pid memory room
  | signalDequeue t =>
    simp only [perform] at hperform
    rcases signalDequeue_cases s t with ⟨hdeq, -⟩ | ⟨target, n, info, rest, -, hq, -, hdeq⟩
    · rw [hdeq] at hperform
      obtain rfl := Except.ok.inj hperform
      exact h
    · rw [hdeq] at hperform
      obtain rfl := Except.ok.inj hperform
      obtain ⟨howned, hhand⟩ := h.leave hq
      exact howned.hold hhand
  | sigtimedwait t set =>
    obtain rfl := Except.ok.inj hperform
    rcases sigtimedwaitTurn_cases s t set with hturn | ⟨l, n, info, rest, hq, hturn⟩
    · rw [hturn]
      exact h
    · obtain ⟨howned, hhand⟩ := h.leave hq
      rw [hturn]
      exact howned.siginfoFree hhand
  | threadSigmask t how set =>
    obtain rfl := Except.ok.inj hperform
    exact h.setSigmask t _
  | sigprocmask t how set =>
    obtain rfl := Except.ok.inj hperform
    exact h.same rfl rfl rfl
  | sigaction groupLocked signo act =>
    simp only [perform, bind_ok_iff] at hperform
    obtain ⟨⟨r, s₁⟩, hact, hret⟩ := hperform
    obtain rfl := Except.ok.inj hret
    exact h.sigaction hact
  | signalCheckPending t =>
    obtain rfl := Except.ok.inj hperform
    exact h.signalCheckPending hfiled ha
  | handlerReturn t =>
    obtain rfl := Except.ok.inj hperform
    exact h.handlerReturn t
  | sigsuspend t mask =>
    obtain rfl := Except.ok.inj hperform
    exact h.sigsuspend t mask
  | sigsuspendReturn t =>
    obtain rfl := Except.ok.inj hperform
    exact h.sigsuspendReturn t
  | signalReset =>
    obtain rfl := Except.ok.inj hperform
    exact h.signalReset
  | threadResetSignal t =>
    obtain rfl := Except.ok.inj hperform
    exact h.threadResetSignal t

end Steps

theorem init_owned (group : List T) (uctxMask : T → Option Sigset) :
    Owned (State.init group uctxMask) := by
  have hempty : ∀ p, ids (State.init group uctxMask) p = [] := by
    intro p
    cases p <;> rfl
  refine ⟨⟨?_, ?_⟩, ?_, ?_⟩
  · intro p
    rw [hempty]
    exact List.nodup_nil
  · intro p q i hi
    rw [hempty] at hi
    cases hi
  · intro p i hi
    rw [hempty] at hi
    cases hi
  · intro e he
    cases he

/-- In every run without such steps each `siginfo_t` is freed at most once, and is in no queue when
it is freed. -/
theorem siginfo_freed_once (group : List T) (uctxMask : T → Option Sigset) (acts : List (Act T))
    (hrun : guarded step ownsKept (State.init group uctxMask) acts = true) :
    Safe Asserted (runs step (State.init group uctxMask) acts) fun s =>
      (s.freed.map Free.id).Nodup ∧ (∀ e ∈ s.freed, e.id < s.created) ∧
      ∀ e ∈ s.freed, ∀ l n, ∀ info ∈ (e.level l).queue n, info.id ≠ e.id := by
  have hsafe : Safe Asserted (runs step (State.init group uctxMask) acts) fun s =>
      Owned s ∧ Filed s := by
    refine Safe.runs ?_ ⟨init_owned group uctxMask, fun _ => Level.init_filed⟩ hrun
    rintro s a ⟨howned, hfiled⟩ ha
    exact step_safe fun s' hstep => ⟨howned.step hfiled ha hstep, hfiled.step hstep⟩
  refine hsafe.mono ?_
  rintro s ⟨howned, -⟩
  refine ⟨howned.exclusive.nodup .freed, ?_, ?_⟩
  · intro e he
    exact howned.below .freed e.id (List.mem_map_of_mem he)
  · intro e he l n info hinfo hid
    exact howned.unlinked e he ⟨l, n, info, hinfo, hid⟩

/-- Signals for a thread and for its process: one ignored, one handled, one that terminates the
thread, and one that `sigaction` flushes. -/
@[irreducible] def ownedRun : List (Act Nat) :=
  [.sigaction true 27 (some { handler := .user 1, flags := 0, mask := sigsetempty }),
    .procSendSignal 26 0 1 true true, .procSendSignal 27 0 1 true true,
    .signalCheckPending 0, .signalCheckPending 0, .handlerReturn 0,
    .threadSendSignal 1 28 0 1 true true .ok,
    .sigaction true 28 (some { handler := .ign, flags := 0, mask := sigsetempty }),
    .threadSendSignal 0 21 0 1 true true .ok, .signalCheckPending 0]

theorem siginfo_freed_once_two_threads :
    guarded step ownsKept (State.init [0, 1] fun _ => none) ownedRun = true ∧
    Safe Asserted (runs step (State.init [0, 1] fun _ => none) ownedRun) fun s =>
      (s.freed.map Free.id).Nodup ∧ (∀ e ∈ s.freed, e.id < s.created) ∧
      ∀ e ∈ s.freed, ∀ l n, ∀ info ∈ (e.level l).queue n, info.id ≠ e.id := by
  have hrun : guarded step ownsKept (State.init [0, 1] fun _ => none) ownedRun = true := by
    decide +kernel
  exact ⟨hrun, siginfo_freed_once [0, 1] (fun _ => none) ownedRun hrun⟩

/-- A `SIGTERM` of the process is freed twice. -/
theorem process_signal_freed_twice :
    ∃ s, runs step (State.init [0] fun _ => none)
        [.procSendSignal 21 0 1 true true, .signalCheckPending 0] = .ok s ∧
      ¬ (s.freed.map Free.id).Nodup :=
  ⟨outcome (runs step (State.init [0] fun _ => none)
      [.procSendSignal 21 0 1 true true, .signalCheckPending 0]) (State.init [0] fun _ => none),
    eq_ok_outcome (by decide +kernel), by decide +kernel⟩

end Signal
end XytherOS
