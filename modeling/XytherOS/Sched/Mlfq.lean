import Mathlib.Data.BitVec
import XytherOS.Ds.EmbeddedMove

/-!
# Mlfq — the run queues of `sys/sched/scheduler.c` and `sys/sched/load_balancer.c`

Every CPU has one run queue for each of its four priority levels.  A thread that is able to run is
linked in one of them through its `t_run_qnode`, so the threads `T` are the nodes here.

* `Fin ncpu` names the CPUs; the CPU that executes a function is its argument `me`.
* Queues that a function locks with `queue_lock` are free when it asks; every `queue_trylock` may
  have any outcome, which the caller of the model chooses.
* `ts_age` is an `int` that does not overflow here.
-/

namespace XytherOS
namespace Sched

open Links Ds

inductive TState
  | embryo
  | ready
  | running
  | sleep
  | stopped
  | zombie
  | terminated
  deriving DecidableEq, Repr

structure CpuAffin where
  hard : Bool
  cpuSet : BitVec 32
  deriving DecidableEq, Repr

structure Thread (ncpu : Nat) where
  state : TState
  priority : Int
  age : Int
  timeslice : Nat
  proc : Option (Fin ncpu)
  affin : CpuAffin
  shortHolds : Nat
  longHolds : Nat
  scheduler : Bool
  deriving DecidableEq

abbrev Level := Fin 4

abbrev RunQueue (ncpu : Nat) := Fin ncpu × Level

def mlfqHigh : Int := 3

def agingThreshold : Int := 5

structure State (ncpu : Nat) (T : Type) where
  rq : Queues (RunQueue ncpu) T
  thread : T → Thread ncpu
  quantum : RunQueue ncpu → Nat

variable {ncpu : Nat} {T : Type} [DecidableEq T]

def State.init (thread : T → Thread ncpu) (quantum : RunQueue ncpu → Nat) : State ncpu T :=
  { rq := .init, thread := thread, quantum := quantum }

def State.setThread (s : State ncpu T) (t : T) (th : Thread ncpu) : State ncpu T :=
  { s with thread := Function.update s.thread t th }

def foreachLevel : List Level := [3, 2, 1, 0]

def foreachLevelReverse : List Level := [0, 1, 2, 3]

def queueLength (s : State ncpu T) (q : RunQueue ncpu) : Nat := (s.rq.queue q).qCount

def mlfqLoad (s : State ncpu T) (c : Fin ncpu) : Nat :=
  (foreachLevel.map fun l => queueLength s (c, l)).sum

def mlfqGetLevel (i : Int) : Option Level :=
  if h : 0 ≤ i ∧ i ≤ mlfqHigh then some ⟨i.toNat, by unfold mlfqHigh at h; omega⟩ else none

def threadSetPrio (th : Thread ncpu) (prio : Int) : Thread ncpu :=
  if prio < 0 ∨ mlfqHigh < prio then th else { th with priority := prio }

/-! ## Placement -/

/-- The loop by which `MLFQ_least_loaded` and `MLFQ_enqueue` choose: a later CPU of the list
replaces the choice if its load is not above the least. -/
def leastLoaded (s : State ncpu T) (least : Nat) (target : Fin ncpu) :
    List (Fin ncpu) → Fin ncpu
  | [] => target
  | c :: cs =>
    if mlfqLoad s c ≤ least then leastLoaded s (mlfqLoad s c) c cs
    else leastLoaded s least target cs

def mlfqLeastLoaded (s : State ncpu T) (me : Fin ncpu) : Fin ncpu :=
  leastLoaded s (mlfqLoad s me) me (List.finRange ncpu)

def CpuAffin.allows (affin : CpuAffin) (c : Fin ncpu) : Bool := affin.cpuSet.getLsbD c.val

def mlfqTarget (s : State ncpu T) (me : Fin ncpu) (affin : CpuAffin) : Fin ncpu :=
  if affin.hard then
    leastLoaded s (mlfqLoad s me) me ((List.finRange ncpu).filter fun c => affin.allows c)
  else
    mlfqLeastLoaded s me

variable [Fintype T]

def mlfqEnqueue (s : State ncpu T) (me : Fin ncpu) (t : T) :
    Except Fault (Ret × State ncpu T) :=
  match mlfqGetLevel (s.thread t).priority with
  | none => .ok (.err .EINVAL, s)
  | some level => do
      let target := mlfqTarget s me (s.thread t).affin
      let (err, rq) ← embeddedEnqueue s.rq (target, level) t .unique
      return (err, { s with rq := rq })

def schedEnqueue (s : State ncpu T) (me : Fin ncpu) (t : T) :
    Except Fault (Ret × State ncpu T) :=
  mlfqEnqueue
    (s.setThread t { threadSetPrio (s.thread t) mlfqHigh with state := .ready }) me t

omit [Fintype T] in
def nextThread (s : State ncpu T) (me : Fin ncpu) : List Level → Option T × State ncpu T
  | [] => (none, s)
  | level :: levels =>
    match (s.rq.queue (me, level)).head with
    | none => nextThread s me levels
    | some t =>
      let s := { s with rq := (embeddedQueueDetach s.rq (me, level) t).2 }
      (some t, s.setThread t
        { s.thread t with
          timeslice := s.quantum (me, level)
          proc := some me
          state := .running })

omit [Fintype T] in
def mlfqGetNextThread (s : State ncpu T) (me : Fin ncpu) : Option T × State ncpu T :=
  nextThread s me foreachLevel

/-! ## Giving up the CPU -/

def schedPromoteThread (th : Thread ncpu) : Thread ncpu :=
  if th.priority < mlfqHigh ∧ th.priority + 4 ≤ th.shortHolds then
    { th with priority := th.priority + 1, shortHolds := 0, longHolds := 0 }
  else
    { th with shortHolds := th.shortHolds + 1 }

def schedDemoteThread (th : Thread ncpu) : Thread ncpu :=
  if 0 < th.priority ∧ 8 ≤ th.longHolds then
    { th with priority := th.priority - 1, shortHolds := 0, longHolds := 0 }
  else
    { th with longHolds := th.longHolds + 1 }

/-- What `sched` does to the thread that leaves the CPU; a thread of the scheduler stays at the
highest level. -/
def schedLeave (th : Thread ncpu) : Thread ncpu :=
  if th.scheduler then
    { th with priority := mlfqHigh, shortHolds := 0, longHolds := 0 }
  else if th.timeslice = 0 then
    schedDemoteThread th
  else
    schedPromoteThread th

/-- `sched_yield` on the way to the scheduler, which puts the thread into a run queue
(`hanlde_thread_state`); `left` is what is left of its timeslice. -/
def schedYield (s : State ncpu T) (me : Fin ncpu) (t : T) (left : Nat) :
    Except Fault (State ncpu T) := do
  let (err, s) ← mlfqEnqueue
    (s.setThread t (schedLeave { s.thread t with timeslice := left, state := .ready })) me t
  assert (err = .ok) "Failed to enqueue current thread"
  return s

/-! ## Balancing -/

section Balance

omit [Fintype T]

/-- The outcomes of the two `queue_trylock`s at each level. -/
abbrev Trylocks := Level → Bool × Bool

/-- The first loop of `MLFQ_pull`: the most loaded CPU other than `me`. -/
def pullTarget (s : State ncpu T) (me : Fin ncpu) :
    List (Fin ncpu) → Nat → Option (Fin ncpu) → Nat × Option (Fin ncpu)
  | [], load, target => (load, target)
  | c :: cs, load, target =>
    if c = me then pullTarget s me cs load target
    else if load < mlfqLoad s c then pullTarget s me cs (mlfqLoad s c) (some c)
    else pullTarget s me cs load target

def pullLoop (me target : Fin ncpu) (targetLoad : Nat) (locks : Trylocks) :
    List Level → State ncpu T → Nat → Nat → Except Fault (State ncpu T)
  | [], s, _, _ => .ok s
  | level :: levels, s, count, pulled =>
    if targetLoad / 2 ≤ pulled then
      .ok s
    else if !(locks level).1 || !(locks level).2 then
      pullLoop me target targetLoad locks levels s count pulled
    else
      let length := queueLength s (target, level)
      if length = 0 then
        pullLoop me target targetLoad locks levels s count pulled
      else do
        let count :=
          if length = 1 then
            if pulled < targetLoad / 2 then 1 else count
          else length / 2
        let (err, rq) ←
          embeddedQueueMigrate s.rq (me, level) (target, level) (length / 2) count .tail
        let s := { s with rq := rq }
        if err = .ok then
          pullLoop me target targetLoad locks levels s count (pulled + count)
        else
          pullLoop me target targetLoad locks levels s count pulled

def mlfqPull (s : State ncpu T) (me : Fin ncpu) (locks : Trylocks) :
    Except Fault (State ncpu T) :=
  match pullTarget s me (List.finRange ncpu) 0 none with
  | (_, none) => .ok s
  | (targetLoad, some target) =>
    if targetLoad < 2 then .ok s
    else pullLoop me target targetLoad locks foreachLevelReverse s 0 0

/-- The first loop of `MLFQ_push`; the load starts at `0`, so only an idle CPU is found. -/
def pushTarget (s : State ncpu T) (me : Fin ncpu) :
    List (Fin ncpu) → Nat → Option (Fin ncpu) → Nat × Option (Fin ncpu)
  | [], load, target => (load, target)
  | c :: cs, load, target =>
    if c = me then pushTarget s me cs load target
    else if mlfqLoad s c ≤ load then pushTarget s me cs (mlfqLoad s c) (some c)
    else pushTarget s me cs load target

/-- The second loop of `MLFQ_push`; `my_load` is never set and stays `0`. -/
def pushLoop (me target : Fin ncpu) (myLoad : Nat) (locks : Trylocks) :
    List Level → State ncpu T → Nat → Except Fault (State ncpu T)
  | [], s, _ => .ok s
  | level :: levels, s, pushed =>
    if !(locks level).1 || !(locks level).2 then
      pushLoop me target myLoad locks levels s pushed
    else
      let length := queueLength s (me, level)
      if length < 2 ∧ (length = 0 ∨ myLoad / 2 ≤ pushed) then
        pushLoop me target myLoad locks levels s pushed
      else do
        let count := if 2 ≤ length then length / 2 else length
        let (err, rq) ←
          embeddedQueueMigrate s.rq (target, level) (me, level) (length / 2) count .head
        let s := { s with rq := rq }
        if err = .ok then
          pushLoop me target myLoad locks levels s (pushed + count)
        else
          pushLoop me target myLoad locks levels s pushed

def mlfqPush (s : State ncpu T) (me : Fin ncpu) (locks : Trylocks) :
    Except Fault (State ncpu T) :=
  match pushTarget s me (List.finRange ncpu) 0 none with
  | (_, none) => .ok s
  | (targetLoad, some target) =>
    if mlfqLoad s me ≤ targetLoad then .ok s
    else pushLoop me target 0 locks foreachLevel s 0

def mlfqBalance (s : State ncpu T) (me : Fin ncpu) (locks : Trylocks) :
    Except Fault (State ncpu T) :=
  let total := ((List.finRange ncpu).map fun c => mlfqLoad s c).sum
  let avg := total / ncpu
  if avg + 2 < mlfqLoad s me then
    mlfqPush s me locks
  else if mlfqLoad s me < (avg + 2 ^ 64 - 2) % 2 ^ 64 then
    mlfqPull s me locks
  else
    .ok s

end Balance

/-! ## Aging -/

/-- The body of the loop of `MLFQ_aging` for one thread; `free` is the outcome of its
`queue_trylock`. -/
def ageThread (s : State ncpu T) (c : Fin ncpu) (level : Level) (t : T) (free : Bool) :
    Except Fault (State ncpu T) :=
  let th := { s.thread t with age := (s.thread t).age + 1 }
  if agingThreshold < th.age then
    let old := th.priority
    -- `thread_bump_priority(thread, THREAD_PRIO_INC, 1, ..)`, cut off at the highest level
    let new := if mlfqHigh < old + 1 then mlfqHigh else old + 1
    let th := { th with priority := new }
    if !free then
      .ok (s.setThread t (threadSetPrio th old))
    else
      match mlfqGetLevel new with
      | none => .error .wildAccess
      | some target => do
          let (err, rq) ← embeddedQueueRelloc s.rq (c, target) (c, level) t .unique .tail
          let s := { s with rq := rq }
          if err = .ok then
            return s.setThread t { th with age := 0 }
          else
            return s.setThread t (threadSetPrio th old)
  else
    .ok (s.setThread t th)

/-- The loop of `MLFQ_aging` over one queue; the node after the thread is read before the thread is
moved. -/
def agingLoop (c : Fin ncpu) (level : Level) (free : T → Bool) :
    Nat → State ncpu T → Option T → Except Fault (State ncpu T)
  | _, s, none => .ok s
  | 0, _, some _ => .error .hang
  | n + 1, s, some t => do
      let next := (s.rq.node t).next
      let s ← ageThread s c level t (free t)
      agingLoop c level free n s next

def agingQueues (free : RunQueue ncpu → T → Bool) :
    List (RunQueue ncpu) → State ncpu T → Except Fault (State ncpu T)
  | [], s => .ok s
  | (c, level) :: qs, s =>
    if (level.val : Int) = mlfqHigh then
      agingQueues free qs s
    else do
      let s ← agingLoop c level (free (c, level)) (Fintype.card T) s
        (s.rq.queue (c, level)).head
      agingQueues free qs s

def mlfqAging (s : State ncpu T) (free : RunQueue ncpu → T → Bool) :
    Except Fault (State ncpu T) :=
  agingQueues free
    ((List.finRange ncpu).flatMap fun c => foreachLevelReverse.map fun l => (c, l)) s

inductive Act (ncpu : Nat) (T : Type)
  | enqueue (me : Fin ncpu) (t : T)
  | next (me : Fin ncpu)
  | yield (me : Fin ncpu) (t : T) (left : Nat)
  | pull (me : Fin ncpu) (locks : Trylocks)
  | push (me : Fin ncpu) (locks : Trylocks)
  | balance (me : Fin ncpu) (locks : Trylocks)
  | aging (free : RunQueue ncpu → T → Bool)

def step (s : State ncpu T) : Act ncpu T → Except Fault (State ncpu T)
  | .enqueue me t => do
      let (_, s) ← schedEnqueue s me t
      return s
  | .next me => return (mlfqGetNextThread s me).2
  | .yield me t left => if (s.thread t).state = .running then schedYield s me t left else return s
  | .pull me locks => mlfqPull s me locks
  | .push me locks => mlfqPush s me locks
  | .balance me locks => mlfqBalance s me locks
  | .aging free => mlfqAging s free

end Sched
end XytherOS
