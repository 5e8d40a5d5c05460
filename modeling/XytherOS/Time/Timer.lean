import Mathlib
import XytherOS.Ds.EmbeddedSorted

/-!
# Timer — the POSIX timers of `core/timer.c`

Armed timers are in `ktimer_queue`, sorted by their expiry; the worker takes out a timer that has
expired, delivers its event and, if it is periodic, puts it in again with its next expiry.

* `N` are the places in memory for timers, with the links of their `knode`, and `T` the threads.
  `kmalloc` does not clear what it returns, so a new timer has any links (`junk`).
* `add_timer_to_kernel_queue` drops what `embedded_enqueue_sorted` returns, and `timer_settime` returns
  `0` all the same.  `armed` records the calls: a timer is armed by a `timer_settime` that returns `0`,
  until it has expired for good or is deleted.
* The worker holds the lock of the timer that it has taken out (`firing`) until it has put it in
  again; a call that comes to this lock waits, which is a step that changes nothing.  The locks are
  taken to be free at first, although `timer_create_r` does not initialise them.
* What is delivered touches no timer and is left out.
-/

namespace XytherOS
namespace Time

open Function Links Ds

/-! ## Data -/

inductive Notify
  | none
  | signal
  | thread
  | threadId
  | callback
  deriving DecidableEq, Repr

structure Sigevent where
  notify : Notify
  function : Option Nat
  deriving DecidableEq, Repr

structure Timespec where
  sec : Int
  nsec : Int
  deriving DecidableEq, Repr

structure Itimerspec where
  interval : Timespec
  value : Timespec
  deriving DecidableEq, Repr

def JIFFIES : Nat := 2 ^ 64

def SYS_Hz : Int := 1000

def jiffiesFromTimespec (ts : Timespec) : Nat :=
  ((ts.sec * SYS_Hz + ts.nsec.tdiv 1000000) % JIFFIES).toNat

def jiffiesToTimespec (jiffies : Nat) : Timespec :=
  { sec := (jiffies / 1000 : Nat), nsec := (jiffies % 1000 * 1000000 : Nat) }

structure PosixTimer (T : Type) where
  id : Nat
  clockid : Int
  expiryTime : Nat
  interval : Nat
  event : Sigevent
  owner : T

structure State (T N : Type) where
  ktimerQueue : Queues Unit N
  timer : N → PosixTimer T
  live : N → Bool
  timers : T → List N
  timerId : Nat
  firing : Option N
  armed : N → Bool

variable {T N : Type} [DecidableEq T] [DecidableEq N] [Fintype N]

/-- No timer has been created; `memory` is what is in the places for timers. -/
def State.init (memory : N → PosixTimer T) : State T N :=
  { ktimerQueue := .init
    timer := memory
    live := fun _ => false
    timers := fun _ => []
    timerId := 0
    firing := none
    armed := fun _ => false }

def State.setTimer (s : State T N) (x : N) (timer : PosixTimer T) : State T N :=
  { s with timer := update s.timer x timer }

/-! ## Functions of `timer.c` -/

def compareTimerExpiry (s : State T N) (x y : N) : Ordering :=
  compare (s.timer x).expiryTime (s.timer y).expiryTime

def addTimerToKernelQueue (s : State T N) (x : N) : Except Fault (State T N) := do
  let (_, kq) ← embeddedEnqueueSorted s.ktimerQueue () x .unique .ascending (compareTimerExpiry s)
  return { s with ktimerQueue := kq }

def removeTimerFromKernelQueue (s : State T N) (x : N) : State T N :=
  { s with ktimerQueue := (embeddedQueueDetach s.ktimerQueue () x).2 }

/-- What `find_timer_by_id` comes to; `waits` is a lock that the worker has. -/
inductive Found (N : Type)
  | timer (x : N)
  | nothing
  | waits

def findLoop (s : State T N) (id : Nat) : List N → Found N
  | [] => .nothing
  | x :: xs =>
    if s.firing = some x then .waits
    else if (s.timer x).id = id then .timer x
    else findLoop s id xs

def findTimerById (s : State T N) (current : T) (id : Nat) : Found N :=
  findLoop s id (s.timers current)

/-- The loop of `get_expired_timer`; `now` is what `jiffies_get` returns when it looks at a timer. -/
def getExpiredTimer (s : State T N) (now : N → Nat) : Except Fault (Option N × State T N) :=
  match scan (nexts s.ktimerQueue.node) (fun x => decide ((s.timer x).expiryTime ≤ now x))
      (Fintype.card N) none (s.ktimerQueue.queue ()).head with
  | none => .error .hang
  | some (_, none) => .ok (none, s)
  | some (_, some x) => .ok (some x, removeTimerFromKernelQueue s x)

def posixTimerValidateClockid (clockid : Int) : Bool :=
  clockid = 1 || clockid = 2 || clockid = 3 || clockid = 4

/-- `timer_create_r`; `place` is what `kmalloc` returns, with the links `junk`. -/
def timerCreate (s : State T N) (owner : T) (clockid : Int) (sevp : Option Sigevent)
    (place : Option N) (junk : QueueNode N) : Except Errno Nat × State T N :=
  if !posixTimerValidateClockid clockid then
    (.error .EINVAL, s)
  else
    match place with
    | none => (.error .ENOMEM, s)
    | some x =>
      let event := sevp.getD { notify := .signal, function := none }
      let s := { s with
        ktimerQueue := { s.ktimerQueue with node := update s.ktimerQueue.node x junk } }
      if (event.notify = .callback ∨ event.notify = .thread) ∧ event.function = none then
        (.error .EINVAL, s)
      else
        let timer :=
          { id := s.timerId, clockid := clockid, expiryTime := 0, interval := 0, event := event
            owner := owner }
        (.ok s.timerId,
          { s.setTimer x timer with
            live := update s.live x true
            timers := update s.timers owner (s.timers owner ++ [x])
            timerId := s.timerId + 1 })

def newExpiry (value : Itimerspec) (abstime : Bool) (now : Nat) : Nat :=
  (jiffiesFromTimespec value.value + if abstime then 0 else now) % JIFFIES

def invalidValue (value : Itimerspec) : Bool :=
  value.value.sec < 0 || (value.value.nsec < 0 || value.value.nsec > 999999999)

def PosixTimer.set (timer : PosixTimer T) (value : Itimerspec) (abstime : Bool) (now : Nat) :
    PosixTimer T :=
  { timer with
    expiryTime := newExpiry value abstime now
    interval := jiffiesFromTimespec value.interval }

/-- `timer_settime`, with the old value; nothing is returned while it waits for a lock. -/
def timerSettime (s : State T N) (current : T) (id : Nat) (abstime : Bool)
    (newValue : Option Itimerspec) (now : Nat) :
    Except Fault (Option (Except Errno Itimerspec) × State T N) :=
  match newValue with
  | none => .ok (some (.error .EFAULT), s)
  | some value =>
    if invalidValue value then
      .ok (some (.error .EINVAL), s)
    else
      match findTimerById s current id with
      | .nothing => .ok (some (.error .EINVAL), s)
      | .waits => .ok (none, s)
      | .timer x => do
          let old :=
            { interval := jiffiesToTimespec (s.timer x).interval
              value := jiffiesToTimespec (s.timer x).expiryTime }
          let s ← addTimerToKernelQueue (s.setTimer x ((s.timer x).set value abstime now)) x
          return (some (.ok old), { s with armed := update s.armed x true })

def timerDelete (s : State T N) (current : T) (id : Nat) : Option Ret × State T N :=
  match findTimerById s current id with
  | .nothing => (some (.err .EINVAL), s)
  | .waits => (none, s)
  | .timer x =>
    let s := removeTimerFromKernelQueue s x
    let owner := (s.timer x).owner
    (some .ok, { s with
      timers := update s.timers owner ((s.timers owner).erase x)
      live := update s.live x false
      armed := update s.armed x false })

/-- The first half of a turn of `timer_worker`: an expired timer is taken out.  A one-shot timer is
armed no longer. -/
def workerExpire (s : State T N) (now : N → Nat) : Except Fault (State T N) := do
  match ← getExpiredTimer s now with
  | (none, s) => return s
  | (some x, s) =>
    return { s with
      firing := some x
      armed := update s.armed x (s.armed x && decide (0 < (s.timer x).interval)) }

def nextExpiry (timer : PosixTimer T) : Nat := (timer.expiryTime + timer.interval) % JIFFIES

def PosixTimer.next (timer : PosixTimer T) : PosixTimer T :=
  { timer with expiryTime := nextExpiry timer }

def workerRearm (s : State T N) (x : N) : Except Fault (State T N) :=
  if 0 < (s.timer x).interval then do
    let s ← addTimerToKernelQueue (s.setTimer x (s.timer x).next) x
    return { s with firing := none }
  else
    .ok { s with firing := none }

inductive Act (T N : Type)
  | create (owner : T) (clockid : Int) (sevp : Option Sigevent) (place : Option N)
      (junk : QueueNode N)
  | settime (current : T) (id : Nat) (abstime : Bool) (newValue : Option Itimerspec) (now : Nat)
  | delete (current : T) (id : Nat)
  | expire (now : N → Nat)
  | rearm

/-- One step; `kmalloc` returns no place that is in use, and the worker does one half of its turn
after the other. -/
def step (s : State T N) : Act T N → Except Fault (State T N)
  | .create owner clockid sevp place junk =>
    if place.all fun x => !s.live x then
      .ok (timerCreate s owner clockid sevp place junk).2
    else
      .ok s
  | .settime current id abstime newValue now => do
      let (_, s) ← timerSettime s current id abstime newValue now
      return s
  | .delete current id => .ok (timerDelete s current id).2
  | .expire now => if s.firing = none then workerExpire s now else .ok s
  | .rearm =>
    match s.firing with
    | none => .ok s
    | some x => workerRearm s x

/-- The step puts no timer into the queue that is there, unless it is the only one, or whose expiry
another timer there has, and deletes none that is not there. -/
def keepsTimers (s : State T N) : Act T N → Bool
  | .settime current id abstime (some value) now =>
    invalidValue value ||
      match findTimerById s current id with
      | .timer x =>
        decide (nodeSequence s.ktimerQueue () = [x]) ||
          decide (x ∉ nodeSequence s.ktimerQueue ()) &&
            (nodeSequence s.ktimerQueue ()).all fun y =>
              decide ((s.timer y).expiryTime ≠ newExpiry value abstime now)
      | _ => true
  | .delete current id =>
    match findTimerById s current id with
    | .timer x => decide (x ∈ nodeSequence s.ktimerQueue ())
    | _ => true
  | .rearm =>
    match s.firing with
    | none => true
    | some x =>
      decide ((s.timer x).interval = 0) ||
        (nodeSequence s.ktimerQueue ()).all fun y =>
          decide ((s.timer y).expiryTime ≠ nextExpiry (s.timer x))
  | _ => true

/-! ## The timers in the queue -/

/-- The queue holds the list `l` of the timers that are armed, but for the one that the worker has
taken out. -/
structure Sound (s : State T N) (l : List N) : Prop where
  queue : Inv s.ktimerQueue fun _ => l
  sorted : l.Pairwise fun x y => (s.timer x).expiryTime < (s.timer y).expiryTime
  armed : ∀ x, x ∈ l ↔ s.armed x = true ∧ s.firing ≠ some x
  live : ∀ x ∈ l, s.live x = true
  firing : ∀ x, s.firing = some x →
    s.live x = true ∧ (s.armed x = true ↔ 0 < (s.timer x).interval)
  listed : ∀ t, ∀ x ∈ s.timers t, s.live x = true ∧ (s.timer x).owner = t
  nodup : ∀ t, (s.timers t).Nodup

section Sound

variable {s s' : State T N} {l : List N} {x : N}

theorem Sound.init (memory : N → PosixTimer T) : Sound (State.init memory : State T N) [] where
  queue := inv_init
  sorted := List.Pairwise.nil
  armed := by simp [State.init]
  live := by simp
  firing := by simp [State.init]
  listed := by simp [State.init]
  nodup := by simp [State.init]

theorem Sound.nodeSequence_eq (h : Sound s l) : nodeSequence s.ktimerQueue () = l :=
  (h.queue.holds ()).nodeSequence_eq

theorem findLoop_timer {id : Nat} {xs : List N} (h : findLoop s id xs = .timer x) :
    x ∈ xs ∧ s.firing ≠ some x := by
  induction xs with
  | nil => simp [findLoop] at h
  | cons y ys ih =>
    rw [findLoop] at h
    split_ifs at h with hfiring hid
    · obtain rfl := Found.timer.inj h
      exact ⟨List.mem_cons_self, hfiring⟩
    · obtain ⟨hmem, hne⟩ := ih h
      exact ⟨List.mem_cons_of_mem y hmem, hne⟩

theorem addTimer_spec (hqueue : Inv s.ktimerQueue fun _ => l)
    (hsorted : l.Pairwise fun x y => (s.timer x).expiryTime < (s.timer y).expiryTime)
    (hx : x ∉ l) (hne : ∀ y ∈ l, (s.timer y).expiryTime ≠ (s.timer x).expiryTime) :
    ∃ kq l', addTimerToKernelQueue s x = .ok { s with ktimerQueue := kq } ∧
      Inv kq (fun _ => l') ∧ l'.Perm (x :: l) ∧
      l'.Pairwise fun x y => (s.timer x).expiryTime < (s.timer y).expiryTime := by
  obtain ⟨l', hinsert, hperm, hsorted'⟩ := listInsertSorted_sorted hsorted hne
  have hrefines := enqueueSorted_refines hqueue (fun _ => hx) () .unique .ascending
    (compareTimerExpiry s)
  have hcmp : queueCmpNodes (compareTimerExpiry s) .ascending x =
      fun y => compare (s.timer x).expiryTime (s.timer y).expiryTime := rfl
  rw [hcmp, hinsert] at hrefines
  obtain ⟨kq, hrun, hinv⟩ := hrefines
  refine ⟨kq, l', ?_, ?_, hperm, hsorted'⟩
  · rw [addTimerToKernelQueue, hrun]
    rfl
  · have hupdate : update (fun _ : Unit => l) () l' = fun _ => l' := by
      funext u
      simp
    rw [hupdate] at hinv
    exact hinv

theorem addTimer_only (hqueue : Inv s.ktimerQueue fun _ => [x]) :
    ∃ kq, addTimerToKernelQueue s x = .ok { s with ktimerQueue := kq } ∧ Inv kq fun _ => [x] := by
  have hclear : Inv (clearLinks s.ktimerQueue x) fun _ => [x] := by
    refine ⟨?_, hqueue.apart⟩
    intro q
    have h := hqueue.holds q
    refine ⟨?_, h.head, h.tail, h.count⟩
    simp [Chain, clearLinks, setLink_apply]
  have hhead : ((clearLinks s.ktimerQueue x).queue ()).head ≠ none := by
    rw [(hclear.holds ()).head]
    simp
  have hcontains := contains_spec (hclear.holds ()) x
  rw [if_pos (List.mem_singleton_self x)] at hcontains
  refine ⟨clearLinks s.ktimerQueue x, ?_, hclear⟩
  rw [addTimerToKernelQueue, embeddedEnqueueSorted, if_neg hhead, hcontains]
  rfl

theorem sorted_setTimer {timer : PosixTimer T}
    (hsorted : l.Pairwise fun x y => (s.timer x).expiryTime < (s.timer y).expiryTime)
    (hx : x ∉ l) :
    l.Pairwise fun y z => ((s.setTimer x timer).timer y).expiryTime <
      ((s.setTimer x timer).timer z).expiryTime := by
  refine hsorted.imp_of_mem ?_
  intro y z hy hz hlt
  have hyx : y ≠ x := by
    rintro rfl
    exact hx hy
  have hzx : z ≠ x := by
    rintro rfl
    exact hx hz
  simpa [State.setTimer, hyx, hzx] using hlt

theorem inv_unlink {kq : Queues Unit N} (h : Inv kq fun _ => l) (hx : x ∈ l) :
    Inv (unlinkNode kq () x) fun _ => l.erase x := by
  have hunlink := unlink_refines h (q := ()) hx
  have hupdate : update (fun _ : Unit => l) () (l.erase x) = fun _ => l.erase x := by
    funext u
    simp
  rw [hupdate] at hunlink
  exact hunlink

theorem Sound.expire {now : N → Nat} (h : Sound s l) (hfiring : s.firing = none) :
    Safe (fun _ => False) (workerExpire s now) fun s' => ∃ l', Sound s' l' := by
  obtain ⟨last, hscan⟩ := scan_chain_find
    (fun x => decide ((s.timer x).expiryTime ≤ now x)) none (h.queue.holds ()).chain
    (h.queue.holds ()).length_le
  rw [workerExpire, getExpiredTimer, (h.queue.holds ()).head, hscan]
  cases hfind : l.find? fun x => decide ((s.timer x).expiryTime ≤ now x) with
  | none => exact ⟨l, h⟩
  | some x =>
    have hx : x ∈ l := List.mem_of_find?_eq_some hfind
    have hnodup : l.Nodup := (h.queue.holds ()).chain.nodup
    have harmed : s.armed x = true := ((h.armed x).mp hx).1
    refine ⟨l.erase x, ?_⟩
    exact
      { queue := inv_unlink h.queue hx
        sorted := h.sorted.sublist List.erase_sublist
        armed := by
          intro y
          dsimp only [removeTimerFromKernelQueue]
          rw [hnodup.mem_erase_iff, h.armed y, hfiring]
          by_cases hy : y = x
          · subst hy
            simp
          · have hxy : x ≠ y := fun hxy => hy hxy.symm
            simp [hy, hxy]
        live := fun y hy => h.live y (List.mem_of_mem_erase hy)
        firing := by
          intro y hy
          obtain rfl := Option.some.inj hy
          refine ⟨h.live x hx, ?_⟩
          simp only [removeTimerFromKernelQueue, update_self, harmed, Bool.true_and]
          exact decide_eq_true_iff
        listed := h.listed
        nodup := h.nodup }

theorem Sound.insert (h : Sound s l) (timer : PosixTimer T) (armed : N → Bool) (firing : Option N)
    (hx : x ∉ l) (hlive : s.live x = true) (howner : timer.owner = (s.timer x).owner)
    (hne : ∀ y ∈ l, (s.timer y).expiryTime ≠ timer.expiryTime)
    (harmed : ∀ y, armed y = true ∧ firing ≠ some y ↔
      y = x ∨ s.armed y = true ∧ s.firing ≠ some y)
    (hfiring : ∀ y, firing = some y → y ≠ x ∧ s.firing = some y ∧ armed y = s.armed y) :
    ∃ kq l', addTimerToKernelQueue (s.setTimer x timer) x =
        .ok { s.setTimer x timer with ktimerQueue := kq } ∧
      Sound { s.setTimer x timer with ktimerQueue := kq, armed, firing } l' := by
  have hself : (s.setTimer x timer).timer x = timer := by simp [State.setTimer]
  have hother : ∀ y, y ≠ x → (s.setTimer x timer).timer y = s.timer y := by
    intro y hy
    simp [State.setTimer, hy]
  have hexpiry : ∀ y ∈ l, ((s.setTimer x timer).timer y).expiryTime ≠
      ((s.setTimer x timer).timer x).expiryTime := by
    intro y hy
    have hyx : y ≠ x := by
      rintro rfl
      exact hx hy
    rw [hself, hother y hyx]
    exact hne y hy
  have hqueue : Inv (s.setTimer x timer).ktimerQueue fun _ => l := h.queue
  obtain ⟨kq, l', hadd, hqueue', hperm, hsorted⟩ :=
    addTimer_spec hqueue (sorted_setTimer h.sorted hx) hx hexpiry
  refine ⟨kq, l', hadd, ?_⟩
  exact
    { queue := hqueue'
      sorted := hsorted
      armed := by
        intro y
        rw [hperm.mem_iff, List.mem_cons, h.armed y, ← harmed y]
      live := by
        intro y hy
        rcases List.mem_cons.mp (hperm.mem_iff.mp hy) with rfl | hy
        · exact hlive
        · exact h.live y hy
      firing := by
        intro y hy
        obtain ⟨hyx, hold, hsame⟩ := hfiring y hy
        dsimp only
        rw [hother y hyx, hsame]
        exact h.firing y hold
      listed := by
        intro t y hy
        refine ⟨(h.listed t y hy).1, ?_⟩
        dsimp only
        by_cases hyx : y = x
        · subst hyx
          rw [hself, howner]
          exact (h.listed t y hy).2
        · rw [hother y hyx]
          exact (h.listed t y hy).2
      nodup := h.nodup }

theorem Sound.rearm (h : Sound s l) (hfiring : s.firing = some x)
    (ha : keepsTimers s .rearm = true) :
    Safe (fun _ => False) (workerRearm s x) fun s' => ∃ l', Sound s' l' := by
  obtain ⟨hlive, harmed⟩ := h.firing x hfiring
  have hx : x ∉ l := fun hmem => ((h.armed x).mp hmem).2 hfiring
  have hothers : ∀ y, y ≠ x → s.firing ≠ some y := by
    intro y hy hs
    rw [hfiring] at hs
    exact hy (Option.some.inj hs).symm
  rw [workerRearm]
  by_cases hinterval : 0 < (s.timer x).interval
  · have hne : ∀ y ∈ l, (s.timer y).expiryTime ≠ (s.timer x).next.expiryTime := by
      have hzero : ¬ (s.timer x).interval = 0 := by omega
      rw [keepsTimers, hfiring, h.nodeSequence_eq] at ha
      simpa [hzero, PosixTimer.next] using ha
    have hon : s.armed x = true := harmed.mpr hinterval
    have hin : ∀ y, s.armed y = true ∧ (none : Option N) ≠ some y ↔
        y = x ∨ s.armed y = true ∧ s.firing ≠ some y := by
      intro y
      by_cases hy : y = x
      · subst hy
        simp [hon]
      · simp [hy, hothers y hy]
    obtain ⟨kq, l', hadd, hsound⟩ :=
      h.insert (s.timer x).next s.armed none hx hlive rfl hne hin (by simp)
    rw [if_pos hinterval, hadd]
    exact ⟨l', hsound⟩
  · rw [if_neg hinterval]
    refine ⟨l, ?_⟩
    exact
      { queue := h.queue
        sorted := h.sorted
        armed := by
          intro y
          rw [h.armed y]
          by_cases hy : y = x
          · subst hy
            simp [harmed, hinterval, hfiring]
          · simp [hothers y hy]
        live := h.live
        firing := by simp
        listed := h.listed
        nodup := h.nodup }

theorem Sound.settime_only (h : Sound s [x]) (timer : PosixTimer T)
    (howner : timer.owner = (s.timer x).owner) :
    ∃ kq, addTimerToKernelQueue (s.setTimer x timer) x =
        .ok { s.setTimer x timer with ktimerQueue := kq } ∧
      Sound { s.setTimer x timer with
        ktimerQueue := kq, armed := update s.armed x true } [x] := by
  obtain ⟨harmed, hfiring⟩ := (h.armed x).mp (List.mem_singleton_self x)
  have hqueue : Inv (s.setTimer x timer).ktimerQueue fun _ => [x] := h.queue
  obtain ⟨kq, hadd, hqueue'⟩ := addTimer_only hqueue
  have hsame : update s.armed x true = s.armed := by
    rw [← harmed, update_eq_self]
  refine ⟨kq, hadd, ?_⟩
  exact
    { queue := hqueue'
      sorted := List.pairwise_singleton _ _
      armed := by
        intro y
        dsimp only [State.setTimer]
        rw [hsame]
        exact h.armed y
      live := h.live
      firing := by
        intro y hy
        have hyx : y ≠ x := by
          rintro rfl
          exact hfiring hy
        dsimp only [State.setTimer]
        rw [hsame, update_of_ne hyx]
        exact h.firing y hy
      listed := by
        intro t y hy
        refine ⟨(h.listed t y hy).1, ?_⟩
        dsimp only [State.setTimer]
        by_cases hyx : y = x
        · subst hyx
          rw [update_self, howner]
          exact (h.listed t y hy).2
        · rw [update_of_ne hyx]
          exact (h.listed t y hy).2
      nodup := h.nodup }

theorem Sound.settime {current : T} {id : Nat} {abstime : Bool} {newValue : Option Itimerspec}
    {now : Nat} (h : Sound s l)
    (ha : keepsTimers s (.settime current id abstime newValue now) = true) :
    Safe (fun _ => False) (timerSettime s current id abstime newValue now) fun r =>
      ∃ l', Sound r.2 l' := by
  rw [timerSettime.eq_def]
  cases newValue with
  | none => exact ⟨l, h⟩
  | some value =>
    dsimp only
    by_cases hinvalid : invalidValue value = true
    · rw [if_pos hinvalid]
      exact ⟨l, h⟩
    rw [if_neg hinvalid]
    rw [keepsTimers, h.nodeSequence_eq] at ha
    cases hfind : findTimerById s current id with
    | nothing => exact ⟨l, h⟩
    | waits => exact ⟨l, h⟩
    | timer x =>
      obtain ⟨hlisted, hfiring⟩ := findLoop_timer hfind
      dsimp only
      have hkeeps : l = [x] ∨
          (x ∉ l ∧ ∀ y ∈ l, (s.timer y).expiryTime ≠ newExpiry value abstime now) := by
        rw [hfind] at ha
        simpa [hinvalid] using ha
      rcases hkeeps with rfl | ⟨hx, hne⟩
      · obtain ⟨kq, hadd, hsound⟩ := h.settime_only ((s.timer x).set value abstime now) rfl
        rw [hadd]
        exact ⟨[x], hsound⟩
      have hin : ∀ y, update s.armed x true y = true ∧ s.firing ≠ some y ↔
          y = x ∨ s.armed y = true ∧ s.firing ≠ some y := by
        intro y
        by_cases hy : y = x
        · subst hy
          simp [hfiring]
        · simp [hy]
      have hhold : ∀ y, s.firing = some y →
          y ≠ x ∧ s.firing = some y ∧ update s.armed x true y = s.armed y := by
        intro y hy
        have hyx : y ≠ x := by
          rintro rfl
          exact hfiring hy
        exact ⟨hyx, hy, update_of_ne hyx _ _⟩
      obtain ⟨kq, l', hadd, hsound⟩ :=
        h.insert ((s.timer x).set value abstime now) (update s.armed x true) s.firing hx
          (h.listed current x hlisted).1 rfl hne hin hhold
      rw [hadd]
      exact ⟨l', hsound⟩

theorem Sound.delete {current : T} {id : Nat} (h : Sound s l)
    (ha : keepsTimers s (.delete current id) = true) :
    ∃ l', Sound (timerDelete s current id).2 l' := by
  rw [keepsTimers, h.nodeSequence_eq] at ha
  rw [timerDelete]
  cases hfind : findTimerById s current id with
  | nothing => exact ⟨l, h⟩
  | waits => exact ⟨l, h⟩
  | timer x =>
    obtain ⟨hlisted, hfiring⟩ := findLoop_timer hfind
    have hx : x ∈ l := by
      rw [hfind] at ha
      simpa using ha
    have hnodup : l.Nodup := (h.queue.holds ()).chain.nodup
    refine ⟨l.erase x, ?_⟩
    exact
      { queue := inv_unlink h.queue hx
        sorted := h.sorted.sublist List.erase_sublist
        armed := by
          intro y
          dsimp only [removeTimerFromKernelQueue]
          rw [hnodup.mem_erase_iff, h.armed y]
          by_cases hy : y = x
          · subst hy
            simp
          · simp [hy]
        live := by
          intro y hy
          obtain ⟨hyx, hyl⟩ := hnodup.mem_erase_iff.mp hy
          simpa [removeTimerFromKernelQueue, hyx] using h.live y hyl
        firing := by
          intro y hy
          have hyx : y ≠ x := by
            rintro rfl
            exact hfiring hy
          dsimp only [removeTimerFromKernelQueue]
          rw [update_of_ne hyx, update_of_ne hyx]
          exact h.firing y hy
        listed := by
          intro t y hy
          dsimp only [removeTimerFromKernelQueue] at hy ⊢
          by_cases ht : t = (s.timer x).owner
          · subst ht
            rw [update_self, (h.nodup _).mem_erase_iff] at hy
            rw [update_of_ne hy.1]
            exact h.listed _ y hy.2
          · rw [update_of_ne ht] at hy
            have hyx : y ≠ x := by
              rintro rfl
              exact ht (h.listed t y hy).2.symm
            rw [update_of_ne hyx]
            exact h.listed t y hy
        nodup := by
          intro t
          dsimp only [removeTimerFromKernelQueue]
          by_cases ht : t = (s.timer x).owner
          · subst ht
            rw [update_self]
            exact (h.nodup _).erase x
          · rw [update_of_ne ht]
            exact h.nodup t }

theorem Sound.enlist (h : Sound s l) (hdead : s.live x = false) (junk : QueueNode N)
    (timer : PosixTimer T) (timerId : Nat) :
    Sound { s.setTimer x timer with
      ktimerQueue := { s.ktimerQueue with node := update s.ktimerQueue.node x junk }
      live := update s.live x true
      timers := update s.timers timer.owner (s.timers timer.owner ++ [x])
      timerId } l := by
  have hlive : ∀ y, s.live y = true → y ≠ x := by
    rintro y hy rfl
    rw [hdead] at hy
    exact Bool.noConfusion hy
  have hx : x ∉ l := fun hmem => hlive x (h.live x hmem) rfl
  exact
    { queue := h.queue.update_node (fun _ => hx) junk
      sorted := sorted_setTimer h.sorted hx
      armed := h.armed
      live := by
        intro y hy
        dsimp only
        rw [update_of_ne (hlive y (h.live y hy))]
        exact h.live y hy
      firing := by
        intro y hy
        have hyx : y ≠ x := hlive y (h.firing y hy).1
        dsimp only [State.setTimer]
        rw [update_of_ne hyx, update_of_ne hyx]
        exact h.firing y hy
      listed := by
        intro t y hy
        dsimp only [State.setTimer] at hy ⊢
        have hold : y ∈ s.timers t →
            update s.live x true y = true ∧
              (update s.timer x timer y).owner = t := by
          intro hmem
          obtain ⟨hl, ho⟩ := h.listed t y hmem
          rw [update_of_ne (hlive y hl), update_of_ne (hlive y hl)]
          exact ⟨hl, ho⟩
        by_cases ht : t = timer.owner
        · subst ht
          rw [update_self, List.mem_append, List.mem_singleton] at hy
          rcases hy with hy | rfl
          · exact hold hy
          · simp
        · rw [update_of_ne ht] at hy
          exact hold hy
      nodup := by
        intro t
        dsimp only [State.setTimer]
        by_cases ht : t = timer.owner
        · subst ht
          rw [update_self]
          refine List.nodup_append.mpr ⟨h.nodup _, List.nodup_singleton x, ?_⟩
          intro y hy z hz
          rw [List.mem_singleton.mp hz]
          exact hlive y (h.listed _ y hy).1
        · rw [update_of_ne ht]
          exact h.nodup t }

theorem Sound.create {owner : T} {clockid : Int} {sevp : Option Sigevent} {place : Option N}
    {junk : QueueNode N} (h : Sound s l) (hplace : ∀ x, place = some x → s.live x = false) :
    ∃ l', Sound (timerCreate s owner clockid sevp place junk).2 l' := by
  refine ⟨l, ?_⟩
  rw [timerCreate.eq_def]
  split_ifs with hclock
  · exact h
  cases place with
  | none => exact h
  | some x =>
    have hdead : s.live x = false := hplace x rfl
    have hx : x ∉ l := by
      intro hmem
      rw [h.live x hmem] at hdead
      exact Bool.noConfusion hdead
    dsimp only
    split_ifs with hevent
    · exact { h with queue := h.queue.update_node (fun _ => hx) junk }
    · exact h.enlist hdead junk _ _

theorem Sound.step {a : Act T N} (h : Sound s l) (ha : keepsTimers s a = true) :
    Safe (fun _ => False) (step s a) fun s' => ∃ l', Sound s' l' := by
  cases a with
  | create owner clockid sevp place junk =>
    rw [Time.step]
    split_ifs with hplace
    · refine h.create ?_
      rintro x rfl
      simpa using hplace
    · exact ⟨l, h⟩
  | settime current id abstime newValue now =>
    exact (h.settime ha).bind fun r hr => hr
  | delete current id => exact h.delete ha
  | expire now =>
    rw [Time.step]
    split_ifs with hfiring
    · exact h.expire hfiring
    · exact ⟨l, h⟩
  | rearm =>
    rw [Time.step.eq_def]
    cases hfiring : s.firing with
    | none => exact ⟨l, h⟩
    | some x => exact h.rearm hfiring ha

end Sound

/-- In every run of such steps the queue is a well-formed list, sorted by expiry, of exactly the
timers that are armed and are not in the hands of the worker. -/
theorem armed_timers_queued (memory : N → PosixTimer T) (acts : List (Act T N))
    (hrun : guarded step keepsTimers (State.init memory) acts = true) :
    Safe (fun _ => False) (runs step (State.init memory) acts) fun s =>
      WellLinked s.ktimerQueue () ∧
      (s.ktimerQueue.queue ()).qCount = (nodeSequence s.ktimerQueue ()).length ∧
      ((nodeSequence s.ktimerQueue ()).Pairwise fun x y =>
        (s.timer x).expiryTime ≤ (s.timer y).expiryTime) ∧
      (nodeSequence s.ktimerQueue ()).Nodup ∧
      ∀ x, x ∈ nodeSequence s.ktimerQueue () ↔ s.armed x = true ∧ s.firing ≠ some x := by
  have hsafe : Safe (fun _ => False) (runs step (State.init memory) acts) fun s =>
      ∃ l, Sound s l := by
    refine Safe.runs ?_ ⟨[], Sound.init memory⟩ hrun
    rintro s a ⟨l, hsound⟩ ha
    exact hsound.step ha
  refine hsafe.mono ?_
  rintro s ⟨l, hsound⟩
  have hholds := hsound.queue.holds ()
  rw [hsound.nodeSequence_eq]
  refine ⟨hholds.wellLinked, hholds.count, ?_, hholds.chain.nodup, hsound.armed⟩
  exact hsound.sorted.imp fun hlt => le_of_lt hlt

/-- The settings of a timer that expires after `sec` seconds, and then every `interval` seconds. -/
def afterSeconds (sec interval : Int) : Option Itimerspec :=
  some { interval := { sec := interval, nsec := 0 }, value := { sec := sec, nsec := 0 } }

/-- A periodic timer before and after a one-shot timer, which is then deleted. -/
-- not unfolded when the theorem is applied to it, so that the run is not evaluated there
@[irreducible] def timerRun : List (Act Nat (Fin 2)) :=
  [.create 0 1 none (some 0) { prev := some 1, next := some 1 },
    .create 0 1 none (some 1) { prev := none, next := some 0 },
    .settime 0 0 false (afterSeconds 1 3) 0, .settime 0 0 true (afterSeconds 1 3) 0,
    .settime 0 1 false (afterSeconds 2 0) 0, .expire fun _ => 1000, .settime 0 0 true none 0,
    .rearm, .expire fun _ => 1500, .delete 0 1]

def timerMemory : Fin 2 → PosixTimer Nat := fun _ =>
  { id := 7, clockid := 0, expiryTime := 5, interval := 5
    event := { notify := .none, function := none }, owner := 3 }

theorem armed_timers_queued_periodic :
    guarded step keepsTimers (State.init timerMemory) timerRun = true ∧
    Safe (fun _ => False) (runs step (State.init timerMemory) timerRun) fun s =>
      WellLinked s.ktimerQueue () ∧
      (s.ktimerQueue.queue ()).qCount = (nodeSequence s.ktimerQueue ()).length ∧
      ((nodeSequence s.ktimerQueue ()).Pairwise fun x y =>
        (s.timer x).expiryTime ≤ (s.timer y).expiryTime) ∧
      (nodeSequence s.ktimerQueue ()).Nodup ∧
      ∀ x, x ∈ nodeSequence s.ktimerQueue () ↔ s.armed x = true ∧ s.firing ≠ some x := by
  have hrun : guarded step keepsTimers (State.init timerMemory) timerRun = true := by
    decide +kernel
  exact ⟨hrun, armed_timers_queued timerMemory timerRun hrun⟩

/-- Two timers with the same expiry: the second one is armed, and not in the queue. -/
theorem equal_expiry_loses_timer :
    ∃ s, runs step (State.init timerMemory)
        [.create 0 1 none (some 0) { prev := none, next := none },
          .create 0 1 none (some 1) { prev := none, next := none },
          .settime 0 0 true (afterSeconds 1 0) 0, .settime 0 1 true (afterSeconds 1 0) 0] = .ok s ∧
      s.armed 1 = true ∧ s.firing ≠ some 1 ∧ 1 ∉ nodeSequence s.ktimerQueue () :=
  ⟨outcome (runs step (State.init timerMemory)
      [.create 0 1 none (some 0) { prev := none, next := none },
        .create 0 1 none (some 1) { prev := none, next := none },
        .settime 0 0 true (afterSeconds 1 0) 0, .settime 0 1 true (afterSeconds 1 0) 0])
      (State.init timerMemory),
    eq_ok_outcome (by decide +kernel), by decide +kernel⟩

end Time
end XytherOS
