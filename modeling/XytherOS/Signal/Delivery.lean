import Mathlib.Logic.Function.Basic
import XytherOS.Signal.Sigset

/-!
# Delivery — sending, selecting and dispatching signals

The signal code of one process: `sys/signal/signal.c`, `kill.c`, `dispatch.c`, `sigaction.c`,
`sigmask.c`, `sigsuspend.c` and `sigtimedwait.c`.

* `T` are the threads.  `level none` is the process level of pending signals (`sigpending` and
  `sig_queue` of the `signal_t`), and `level (some t)` that of the thread `t` (`t_sigpending` and
  `t_sigqueue`).
* A `siginfo_t` has its address as `id`.  `held` are the ones in the hands of a kernel function that
  called `siginfo_create` or `signal_dequeue` itself, and `freed` is the record of all calls of
  `siginfo_free`, with what the queues held then.
* A call that is left for a user handler, or that waits, is a `Frame` of its thread; the newest frame
  is the first.
* What memory allocation and `thread_wakeup` answer is up to the step that calls them.
* Locks are left out, but for the lock of the thread group that `foreach_thread` asserts in
  `do_sigaction`: `sigaction` does not take it, so its caller must have it.
-/

namespace XytherOS
namespace Signal

open Function

/-! ## Data -/

structure Siginfo where
  id : Nat
  signo : Signo
  value : Int
  pid : Int
  deriving DecidableEq, Repr

/-- `sighandler_t`: `SIG_DFL`, `SIG_IGN` or the entry of a function. -/
inductive Handler
  | dfl
  | ign
  | user (entry : Nat)
  deriving DecidableEq, Repr

def SA_NODEFER : Nat := 2 ^ 2

structure Sigaction where
  handler : Handler
  flags : Nat
  mask : Sigset
  deriving DecidableEq, Repr

/-- The action of a signal nobody has called `sigaction` for. -/
def Sigaction.default : Sigaction := { handler := .dfl, flags := 0, mask := sigsetempty }

inductive DefaultAction
  | ignore
  | abrt
  | term
  | termCore
  | stop
  | cont
  deriving DecidableEq, Repr

def sigDefaults : Vector DefaultAction NSIG :=
  #v[.termCore, .term, .termCore, .ignore, .ignore, .cont, .termCore, .termCore,
    .term, .termCore, .term, .term, .termCore, .term, .term, .term,
    .termCore, .termCore, .stop, .termCore, .term, .termCore, .stop, .stop,
    .stop, .ignore, .term, .term, .term, .ignore, .term, .term]

def sigDefaultAction (n : Signo) : DefaultAction := sigDefaults.get n

def sigTerminate (n : Signo) : Bool := sigDefaultAction n = .term

def sigHandlerIgnored (handler : Handler) (n : Signo) : Bool :=
  handler = .ign || (handler = .dfl && sigDefaultAction n = .ignore)

inductive Target
  | thread
  | process
  deriving DecidableEq, Repr

/-- What a call still has to do when its thread comes back to it: `signal_check_pending` after the
handler, and `sigsuspend` after its loop. -/
inductive Frame
  | handler (info : Siginfo) (oset : Sigset)
  | suspend (oset : Sigset)
  deriving DecidableEq, Repr

def Frame.oset : Frame → Sigset
  | .handler _ oset => oset
  | .suspend oset => oset

/-- The fields of a thread that signals have to do with, without its pending signals. -/
structure Thread where
  sigmask : Sigset
  uctxMask : Option Sigset
  nsigNested : Nat
  frames : List Frame
  exited : Bool

def Thread.init (uctxMask : Option Sigset) : Thread :=
  { sigmask := sigsetempty, uctxMask := uctxMask, nsigNested := 0, frames := [], exited := false }

structure Level where
  pending : Sigset
  queue : Signo → List Siginfo

def Level.init : Level := { pending := sigsetempty, queue := fun _ => [] }

structure Free (T : Type) where
  id : Nat
  level : Option T → Level

structure State (T : Type) where
  level : Option T → Level
  sigMask : Sigset
  sigAction : Signo → Sigaction
  thread : T → Thread
  group : List T
  held : List Siginfo
  created : Nat
  freed : List (Free T)

variable {T : Type} [DecidableEq T]

/-- `signal_alloc`, and threads that nobody has sent a signal to. -/
def State.init (group : List T) (uctxMask : T → Option Sigset) : State T :=
  { level := fun _ => .init
    sigMask := sigsetempty
    sigAction := fun _ => .default
    thread := fun t => .init (uctxMask t)
    group := group
    held := []
    created := 0
    freed := [] }

namespace State

def setQueue (s : State T) (l : Option T) (n : Signo) (q : List Siginfo) : State T :=
  { s with
    level := update s.level l
      { s.level l with queue := update (s.level l).queue n q } }

def setPending (s : State T) (l : Option T) (set : Sigset) : State T :=
  { s with level := update s.level l { s.level l with pending := set } }

def mark (s : State T) (l : Option T) (n : Signo) : State T :=
  s.setPending l (sigsetadd (s.level l).pending n)

def unmark (s : State T) (l : Option T) (n : Signo) : State T :=
  s.setPending l (sigsetdel (s.level l).pending n)

def setThread (s : State T) (t : T) (th : Thread) : State T :=
  { s with thread := update s.thread t th }

def setSigmask (s : State T) (t : T) (mask : Sigset) : State T :=
  s.setThread t { s.thread t with sigmask := mask }

end State

/-! ## Siginfos and their queues -/

def siginfoFree (s : State T) (id : Nat) : State T :=
  { s with freed := ⟨id, s.level⟩ :: s.freed }

/-- `siginfo_create`; `memory` says whether `kzalloc` has any.  A `siginfo_t` for a bad number is
freed at once. -/
def siginfoCreate (s : State T) (signo value pid : Int) (memory : Bool) :
    Except Errno Siginfo × State T :=
  if !memory then
    (.error .ENOMEM, s)
  else
    let id := s.created
    let s := { s with created := id + 1 }
    match Signo.ofInt signo with
    | none => (.error .EINVAL, siginfoFree s id)
    | some n => (.ok { id := id, signo := n, value := value, pid := pid }, s)

/-- `sigqueue_enqueue`: a unique `enqueue`, whose node `kmalloc` has to find `room` for. -/
def sigqueueEnqueue (q : List Siginfo) (info : Siginfo) (room : Bool) : Ret × List Siginfo :=
  if q.any (fun other => other.id = info.id) then
    (.err .EEXIST, q)
  else if !room then
    (.err .ENOMEM, q)
  else
    (.ok, q ++ [info])

/-- The loop of `sigqueue_flush`: the node is removed, then the `siginfo_t` is freed. -/
def flushLoop (s : State T) (l : Option T) (n : Signo) : List Siginfo → State T
  | [] => s
  | info :: rest => flushLoop (siginfoFree (s.setQueue l n rest) info.id) l n rest

def sigqueueFlush (s : State T) (l : Option T) (n : Signo) : State T :=
  flushLoop s l n ((s.level l).queue n)

/-- `rest` is left in the queue; its pending bit is cleared if that is nothing. -/
def State.leave (s : State T) (l : Option T) (n : Signo) (rest : List Siginfo) : State T :=
  let s := s.setQueue l n rest
  if rest = [] then s.unmark l n else s

/-- `sigqueue_dequeue`, and what follows it wherever it is called. -/
def sigqueueTake (s : State T) (l : Option T) (n : Signo) : Except Errno Siginfo × State T :=
  match (s.level l).queue n with
  | [] => (.error .ENOENT, s)
  | info :: rest => (.ok info, s.leave l n rest)

/-! ## Sending -/

def signalEnqueue (s : State T) (info : Siginfo) (room : Bool) : Ret × State T :=
  let s := s.mark none info.signo
  match sigqueueEnqueue ((s.level none).queue info.signo) info room with
  | (.ok, q) => (.ok, s.setQueue none info.signo q)
  | (.err e, q) => (.err e, if q = [] then s.unmark none info.signo else s)

def threadSendSiginfo (s : State T) (t : T) (info : Siginfo) (room : Bool) (wakeup : Ret) :
    Ret × State T :=
  match sigqueueEnqueue ((s.level (some t)).queue info.signo) info room with
  | (.err e, _) => (.err e, s)
  | (.ok, q) =>
    let s := s.setQueue (some t) info.signo q
    match wakeup with
    | .err e => (.err e, s)
    | .ok => (.ok, s.mark (some t) info.signo)

def threadSendSignal (s : State T) (t : T) (signo value pid : Int) (memory room : Bool)
    (wakeup : Ret) : Ret × State T :=
  if sigbad signo then
    (.err .EINVAL, s)
  else
    match siginfoCreate s signo value pid memory with
    | (.error e, s) => (.err e, s)
    | (.ok info, s) =>
      match threadSendSiginfo s t info room wakeup with
      | (.ok, s) => (.ok, s)
      | (.err e, s) => (.err e, siginfoFree s info.id)

def signalDescSendSignal (s : State T) (signo value pid : Int) (memory room : Bool) :
    Ret × State T :=
  if sigbad signo then
    (.err .EINVAL, s)
  else
    match siginfoCreate s signo value pid memory with
    | (.error e, s) => (.err e, s)
    | (.ok info, s) =>
      match signalEnqueue s info room with
      | (.ok, s) => (.ok, s)
      | (.err e, s) => (.err e, siginfoFree s info.id)

def procSendSignal (s : State T) (signo value pid : Int) (memory room : Bool) : Ret × State T :=
  if sigbad signo then (.err .EINVAL, s) else signalDescSendSignal s signo value pid memory room

/-! ## Selecting -/

/-- The signal `try_dequeue_signal` selects: the lowest pending one that the thread does not
block. -/
def firstUnblocked (s : State T) (t : T) (l : Option T) : Option Signo :=
  sigsetFirst (sigmask (s.level l).pending SIG_UNBLOCK (some (s.thread t).sigmask)).2

def tryDequeueSignal (s : State T) (t : T) (l : Option T) :
    Except Errno (Siginfo × Sigaction) × State T :=
  match firstUnblocked s t l with
  | none => (.error .ENOENT, s)
  | some n =>
    match sigqueueTake s l n with
    | (.error e, s) => (.error e, s)
    | (.ok info, s) => (.ok (info, s.sigAction n), s)

def signalDequeue (s : State T) (t : T) :
    Except Errno (Siginfo × Sigaction × Target) × State T :=
  match tryDequeueSignal s t (some t) with
  | (.ok (info, act), s) => (.ok (info, act, .thread), s)
  | (.error e, s) =>
    if e ≠ .ENOENT then
      (.error e, s)
    else
      match tryDequeueSignal s t none with
      | (.ok (info, act), s) => (.ok (info, act, .process), s)
      | (.error e, s) => (.error e, s)

def checkLevel (s : State T) (l : Option T) (set : Sigset) : Option Siginfo × State T :=
  match sigsetFirst (sigsetand set (s.level l).pending) with
  | none => (none, s)
  | some n =>
    match sigqueueTake s l n with
    | (.error _, s) => (none, s)
    | (.ok info, s) => (some info, s)

def checkSignals (s : State T) (t : T) (set : Sigset) : Option Siginfo × State T :=
  match checkLevel s (some t) set with
  | (some info, s) => (some info, s)
  | (none, s) => checkLevel s none set

/-- One turn of the loop of `sigtimedwait`: what is found is copied to the caller and freed. -/
def sigtimedwaitTurn (s : State T) (t : T) (set : Sigset) : Option Siginfo × State T :=
  match checkSignals s t (sigsetdelmask set (sigBit SIGKILL ||| sigBit SIGSTOP)) with
  | (none, s) => (none, s)
  | (some info, s) => (some info, siginfoFree s info.id)

/-! ## Masks and actions -/

def threadSigmask (s : State T) (t : T) (how : Int) (set : Option Sigset) : Ret × State T :=
  let (err, mask) := sigmask (s.thread t).sigmask how set
  (err, s.setSigmask t mask)

def sigprocmask (s : State T) (how : Int) (set : Option Sigset) : Ret × State T :=
  let (err, mask) := sigmask s.sigMask how set
  (err, { s with sigMask := mask })

/-- `*p_act = *act`, less the two signals that cannot be blocked. -/
def State.setAction (s : State T) (n : Signo) (act : Sigaction) : State T :=
  let mask := sigsetdelmask act.mask (sigBit SIGKILL ||| sigBit SIGSTOP)
  { s with sigAction := update s.sigAction n { act with mask := mask } }

/-- The body of the loop of `do_sigaction` over the thread group. -/
def flushThread (n : Signo) (s : State T) (t : T) : State T :=
  if sigismember (s.level (some t)).pending n then
    (sigqueueFlush s (some t) n).unmark (some t) n
  else
    s

/-- `sigaction`, with the old action; `groupLocked` says whether the caller has the lock of the
thread group. -/
def sigaction (s : State T) (groupLocked : Bool) (signo : Int) (act : Option Sigaction) :
    Except Fault (Except Errno Sigaction × State T) :=
  match Signo.ofInt signo with
  | none => .ok (.error .EINVAL, s)
  | some n =>
    match act with
    | none => .ok (.ok (s.sigAction n), s)
    | some act => do
        let oact := s.sigAction n
        let s := s.setAction n act
        if sigHandlerIgnored (s.sigAction n).handler n then
          let s := sigqueueFlush s none n
          assert (groupLocked = true) "Spinlock must be held.\n"
          return (.ok oact, s.group.foldl (flushThread n) s)
        else
          return (.ok oact, s)

def signalReset (s : State T) : State T :=
  let s := (List.finRange NSIG).foldl (fun s n => sigqueueFlush s none n) s
  let s := { s with sigAction := fun _ => .default, sigMask := sigsetempty }
  s.setPending none sigsetempty

def threadResetSignal (s : State T) (t : T) : State T :=
  let s := (List.finRange NSIG).foldl (fun s n => sigqueueFlush s (some t) n) s
  (s.setSigmask t sigsetempty).setPending (some t) sigsetempty

/-! ## Dispatching -/

def ARCH_NSIG_NESTED : Nat := 8

def signalMaskBlock (s : State T) (t : T) (n : Signo) (act : Sigaction) : State T :=
  let set := (sigmask sigsetempty SIG_SETMASK (some act.mask)).2
  let set := if act.flags &&& SA_NODEFER = 0 then sigsetadd set n else set
  s.setSigmask t (sigmask (s.thread t).sigmask SIG_BLOCK (some set)).2

def signalMaskRestore (s : State T) (t : T) (oset : Sigset) : State T :=
  s.setSigmask t (sigmask (s.thread t).sigmask SIG_SETMASK (some oset)).2

/-- `do_default_action`: it terminates the thread, or returns `false`.  A signal of the process
frees the `siginfo_t` all the same. -/
def doDefaultAction (s : State T) (t : T) (info : Siginfo) (target : Target) : Bool × State T :=
  if sigTerminate info.signo then
    let s := siginfoFree s info.id
    match target with
    | .thread => (true, s.setThread t { s.thread t with exited := true })
    | .process => (false, s)
  else
    (false, s)

/-- What `signal_check_pending` has come to: too many handlers, no signal, or a signal that was
ignored, that its default action was taken for, or that the thread left for the handler of. -/
inductive Checked
  | nested
  | nothing
  | ignored (info : Siginfo)
  | defaulted (info : Siginfo)
  | handling (info : Siginfo)
  deriving DecidableEq, Repr

def Checked.taken : Checked → Option Siginfo
  | .nested => none
  | .nothing => none
  | .ignored info => some info
  | .defaulted info => some info
  | .handling info => some info

/-- `signal_check_pending`, once it has a signal and has blocked what it must not be interrupted
by. -/
def dispatch (s : State T) (t : T) (info : Siginfo) (act : Sigaction) (target : Target)
    (oset : Sigset) : Checked × State T :=
  if sigHandlerIgnored act.handler info.signo then
    (.ignored info, siginfoFree (signalMaskRestore s t oset) info.id)
  else if act.handler = .dfl then
    match doDefaultAction s t info target with
    | (true, s) => (.defaulted info, s)
    | (false, s) => (.defaulted info, siginfoFree (signalMaskRestore s t oset) info.id)
  else
    let th := s.thread t
    (.handling info, s.setThread t
      { th with
        nsigNested := th.nsigNested + 1
        frames := .handler info oset :: th.frames })

def setUctxMask (s : State T) (t : T) (oset : Sigset) : State T :=
  s.setThread t
    { s.thread t with
      uctxMask := (s.thread t).uctxMask.map fun mask => (sigmask mask SIG_SETMASK (some oset)).2 }

def signalCheckPending (s : State T) (t : T) : Checked × State T :=
  if (s.thread t).nsigNested > ARCH_NSIG_NESTED then
    (.nested, s)
  else
    match signalDequeue s t with
    | (.error _, s) => (.nothing, s)
    | (.ok (info, act, target), s) =>
      let oset := (s.thread t).sigmask
      dispatch (setUctxMask (signalMaskBlock s t info.signo act) t oset) t info act target oset

def handlerReturn (s : State T) (t : T) : State T :=
  match (s.thread t).frames with
  | .handler info oset :: frames =>
    let th := s.thread t
    let s := s.setThread t { th with nsigNested := th.nsigNested - 1, frames := frames }
    siginfoFree (signalMaskRestore s t oset) info.id
  | _ => s

/-- `sigsuspend` up to its loop, which calls `signal_check_pending` until that finds a signal or the
wait fails. -/
def sigsuspend (s : State T) (t : T) (mask : Option Sigset) : Ret × State T :=
  match mask with
  | none => (.err .EINVAL, s)
  | some mask =>
    match sigmask (s.thread t).sigmask SIG_SETMASK (some mask) with
    | (.err e, _) => (.err e, s)
    | (.ok, mask) =>
      let th := s.thread t
      (.ok, s.setThread t
        { th with sigmask := mask, frames := .suspend th.sigmask :: th.frames })

def sigsuspendReturn (s : State T) (t : T) : State T :=
  match (s.thread t).frames with
  | .suspend oset :: frames =>
    let th := s.thread t
    let s := s.setThread t { th with frames := frames }
    s.setSigmask t (sigmask (s.thread t).sigmask SIG_SETMASK (some oset)).2
  | _ => s

inductive Act (T : Type)
  | siginfoCreate (signo value pid : Int) (memory : Bool)
  | siginfoFree (id : Nat)
  | signalEnqueue (id : Nat) (room : Bool)
  | threadSendSiginfo (t : T) (id : Nat) (room : Bool) (wakeup : Ret)
  | threadSendSignal (t : T) (signo value pid : Int) (memory room : Bool) (wakeup : Ret)
  | procSendSignal (signo value pid : Int) (memory room : Bool)
  | signalDequeue (t : T)
  | sigtimedwait (t : T) (set : Sigset)
  | threadSigmask (t : T) (how : Int) (set : Option Sigset)
  | sigprocmask (t : T) (how : Int) (set : Option Sigset)
  | sigaction (groupLocked : Bool) (signo : Int) (act : Option Sigaction)
  | signalCheckPending (t : T)
  | handlerReturn (t : T)
  | sigsuspend (t : T) (mask : Option Sigset)
  | sigsuspendReturn (t : T)
  | signalReset
  | threadResetSignal (t : T)
  deriving DecidableEq, Repr

def Act.caller : Act T → Option T
  | .signalDequeue t => some t
  | .sigtimedwait t _ => some t
  | .sigprocmask t _ _ => some t
  | .signalCheckPending t => some t
  | .handlerReturn t => some t
  | .sigsuspend t _ => some t
  | .sigsuspendReturn t => some t
  | _ => none

/-- Hand a held `siginfo_t` to `send`, which gives it back if it fails. -/
def handOver (s : State T) (id : Nat) (send : State T → Siginfo → Ret × State T) : State T :=
  match s.held.find? fun info => info.id = id with
  | none => s
  | some info =>
    match send { s with held := s.held.erase info } info with
    | (.ok, s) => s
    | (.err _, s) => { s with held := info :: s.held }

def perform (s : State T) : Act T → Except Fault (State T)
  | .siginfoCreate signo value pid memory =>
    match Signal.siginfoCreate s signo value pid memory with
    | (.ok info, s) => .ok { s with held := info :: s.held }
    | (.error _, s) => .ok s
  | .siginfoFree id => .ok (handOver s id fun s info => (.ok, Signal.siginfoFree s info.id))
  | .signalEnqueue id room => .ok (handOver s id fun s info => Signal.signalEnqueue s info room)
  | .threadSendSiginfo t id room wakeup =>
    .ok (handOver s id fun s info => Signal.threadSendSiginfo s t info room wakeup)
  | .threadSendSignal t signo value pid memory room wakeup =>
    .ok (Signal.threadSendSignal s t signo value pid memory room wakeup).2
  | .procSendSignal signo value pid memory room =>
    .ok (Signal.procSendSignal s signo value pid memory room).2
  | .signalDequeue t =>
    match Signal.signalDequeue s t with
    | (.ok (info, _, _), s) => .ok { s with held := info :: s.held }
    | (.error _, s) => .ok s
  | .sigtimedwait t set => .ok (sigtimedwaitTurn s t set).2
  | .threadSigmask t how set => .ok (Signal.threadSigmask s t how set).2
  | .sigprocmask _ how set => .ok (Signal.sigprocmask s how set).2
  | .sigaction groupLocked signo act => do
      let (_, s) ← Signal.sigaction s groupLocked signo act
      return s
  | .signalCheckPending t => .ok (Signal.signalCheckPending s t).2
  | .handlerReturn t => .ok (Signal.handlerReturn s t)
  | .sigsuspend t mask => .ok (Signal.sigsuspend s t mask).2
  | .sigsuspendReturn t => .ok (Signal.sigsuspendReturn s t)
  | .signalReset => .ok (Signal.signalReset s)
  | .threadResetSignal t => .ok (Signal.threadResetSignal s t)

def step (s : State T) (a : Act T) : Except Fault (State T) :=
  match a.caller with
  | none => perform s a
  | some t => if (s.thread t).exited then .ok s else perform s a

end Signal
end XytherOS
