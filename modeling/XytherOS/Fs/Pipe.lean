import XytherOS.Core.Status
import XytherOS.Ds.Ringbuf

/-!
# Pipe — the pipes of `fs/pipefs/pipefs.c`

`pipefs_iread` and `pipefs_iwrite` move bytes between the caller and a ring buffer under the lock of
the pipe, and give the lock up only to wait.  What a call does from one wait to the next is one
step.

* A call that waits has a thread, and the number of bytes that it has moved so far.
* `readers` and `writers` are the threads that wait and have not been woken.  A wait may also end
  without a wakeup: by a signal, with an error, or because `cond_wait` does not block.
* The `SIGPIPE` that a call raises for itself leaves the pipe alone and is left out.
* Every call has a number.  The history of a pipe holds the bytes that went into the buffer and out
  of it, each with the call that moved it, and what every call has returned.
-/

namespace XytherOS
namespace Fs

open Ds Function

/-- A `pipe_t`: the flags `PIPE_R` and `PIPE_W`, the threads that wait in `p_readers` and
`p_writers`, and the buffer. -/
structure Pipe where
  pipeR : Bool
  pipeW : Bool
  readers : List Nat
  writers : List Nat
  ring : Ringbuf

namespace Pipe

def mkpipe (buf : Nat → Byte) : Pipe :=
  { pipeR := true, pipeW := true, readers := [], writers := [], ring := .init 4096 buf }

def wakeReader (p : Pipe) : Pipe := { p with readers := p.readers.tail }

def wakeWriter (p : Pipe) : Pipe := { p with writers := p.writers.tail }

def wakeAll (p : Pipe) : Pipe := { p with readers := [], writers := [] }

def leave (p : Pipe) (tid : Nat) : Pipe :=
  { p with readers := p.readers.erase tid, writers := p.writers.erase tid }

end Pipe

/-- A call of `pipefs_iread` or, with the bytes `buf`, of `pipefs_iwrite`. -/
inductive Kind
  | read
  | write (buf : Nat → Byte)

/-- A call: its number, what it was called with, and the bytes it has moved so far. -/
structure PipeCall where
  id : Nat
  kind : Kind
  nb : BitVec 64
  moved : Nat

/-- What a call does up to its next wait: the bytes that it moves, and what it returns unless it
waits. -/
structure Stretch where
  pipe : Pipe
  moved : List Byte
  ret : Option (Except Errno Nat)

def orEpipe (moved : Nat) : Except Errno Nat := if moved = 0 then .error .EPIPE else .ok moved

/-! ## Moving bytes -/

/-- What `pipefs_iread` and `pipefs_iwrite` have of their own: the end of the pipe that they check,
the state of the buffer in which they wait, how `n` bytes move after `moved` others, whom they wake,
and where they wait. -/
structure PipeEnd where
  isOpen : Pipe → Bool
  blocked : Ringbuf → Bool
  transfer : Nat → Nat → Ringbuf → List Byte × Ringbuf
  wakePeer : Pipe → Pipe
  enqueue : Nat → Pipe → Pipe

namespace PipeEnd

/-- The bytes that move under the lock of the buffer, and the wakeup after it. -/
def moveSome (e : PipeEnd) (p : Pipe) (moved n : Nat) : List Byte × Pipe :=
  let (bs, ring) := e.transfer moved n p.ring
  (bs, e.wakePeer { p with ring := ring })

/-- The loop.  What can be moved at all is moved at once, so that the call is through or waits at
its second turn. -/
def loop (e : PipeEnd) (tid : Nat) (nb : BitVec 64) : Nat → Pipe → Nat → Except Fault Stretch
  | 0, _, _ => throw .hang
  | k + 1, p, moved =>
    if (moved : Int) < nb.toInt then
      if !e.isOpen p then return ⟨e.wakePeer p, [], some (orEpipe moved)⟩
      else if e.blocked p.ring then return ⟨e.enqueue tid (e.wakePeer p), [], none⟩
      else do
        let (bs, p) := e.moveSome p moved (nb.toNat - moved)
        let st ← loop e tid nb k p (moved + bs.length)
        return { st with moved := bs ++ st.moved }
    else return ⟨p, [], some (.ok moved)⟩

/-- The loop from a wait on that has ended without an error: the turn in which it waited is
finished first. -/
def resume (e : PipeEnd) (tid : Nat) (nb : BitVec 64) (p : Pipe) (moved : Nat) :
    Except Fault Stretch := do
  let (bs, p) := e.moveSome p moved (nb.toNat - moved)
  let st ← loop e tid nb 2 p (moved + bs.length)
  return { st with moved := bs ++ st.moved }

end PipeEnd

/-- `pipefs_iread`: `pipe_isreadable`, `ringbuf_isempty`, `ringbuf_read`, `pipe_wake_writer` and
`pipe_reader_wait`. -/
def readEnd : PipeEnd :=
  { isOpen := Pipe.pipeR
    blocked := Ringbuf.isEmpty
    transfer := fun _ n => ringbufRead n
    wakePeer := Pipe.wakeWriter
    enqueue := fun tid p => { p with readers := p.readers ++ [tid] } }

def slice (buf : Nat → Byte) (off n : Nat) : List Byte := (List.range n).map fun i => buf (off + i)

/-- `pipefs_iwrite`: `pipe_iswritable`, `ringbuf_isfull`, `ringbuf_write`, `pipe_wake_reader` and
`pipe_writer_wait`. -/
def writeEnd (buf : Nat → Byte) : PipeEnd :=
  { isOpen := Pipe.pipeW
    blocked := Ringbuf.isFull
    transfer := fun written n ring =>
      let (k, ring) := ringbufWrite (fun i => buf (written + i)) n ring
      (slice buf written k, ring)
    wakePeer := Pipe.wakeReader
    enqueue := fun tid p => { p with writers := p.writers ++ [tid] } }

def Kind.pipeEnd : Kind → PipeEnd
  | .read => readEnd
  | .write buf => writeEnd buf

/-! ## Closing -/

def pipefsIclose (p : Pipe) (writeEnd : Bool) : Pipe :=
  if writeEnd then Pipe.wakeAll { p with pipeW := false }
  else Pipe.wakeAll { p with pipeR := false }

/-! ## Histories -/

structure Entry where
  call : Nat
  idx : Nat
  byte : Byte

/-- The entries of the bytes that a call moves after `idx` others. -/
def entries (call : Nat) : Nat → List Byte → List Entry
  | _, [] => []
  | idx, b :: bs => ⟨call, idx, b⟩ :: entries call (idx + 1) bs

/-- The bytes that went into the buffer and out of it, in this order, and what the calls have
returned. -/
structure History where
  wrote : List Entry
  read : List Entry
  reports : Nat → Option (Except Errno Nat)
  calls : Nat

namespace History

/-- An entry is among the bytes that its call reports: the call has not returned yet, or it has
returned a number that covers the entry. -/
def reported (h : History) (e : Entry) : Bool :=
  match h.reports e.call with
  | none => true
  | some (.ok n) => e.idx < n
  | some (.error _) => false

/-- The bytes that reads report as returned, in the order in which they left the buffer. -/
def returned (h : History) : List Byte := (h.read.filter h.reported).map Entry.byte

def accepted (h : History) : List Byte := (h.wrote.filter h.reported).map Entry.byte

end History

structure PipeWorld where
  pipe : Pipe
  waiting : Nat → Option PipeCall
  history : History

/-- A thread starts a call; its wait ends, with an error or without; an end is closed. -/
inductive PipeAct
  | start (tid : Nat) (kind : Kind) (nb : BitVec 64)
  | resume (tid : Nat) (err : Option Errno)
  | close (writeEnd : Bool)

namespace PipeWorld

def init (buf : Nat → Byte) : PipeWorld :=
  { pipe := .mkpipe buf, waiting := fun _ => none, history := ⟨[], [], fun _ => none, 0⟩ }

def record (h : History) (c : PipeCall) (bs : List Byte) : History :=
  match c.kind with
  | .read => { h with read := h.read ++ entries c.id c.moved bs }
  | .write _ => { h with wrote := h.wrote ++ entries c.id c.moved bs }

def report (h : History) (id : Nat) (ret : Except Errno Nat) : History :=
  { h with reports := update h.reports id (some ret) }

/-- The state after a stretch of the call `c` of the thread `tid`. -/
def settle (w : PipeWorld) (tid : Nat) (c : PipeCall) (st : Stretch) : PipeWorld :=
  match st.ret with
  | none =>
    { pipe := st.pipe
      waiting := update w.waiting tid
        (some { c with moved := c.moved + st.moved.length })
      history := record w.history c st.moved }
  | some ret =>
    { pipe := st.pipe
      waiting := update w.waiting tid none
      history := report (record w.history c st.moved) c.id ret }

def count (w : PipeWorld) : PipeWorld :=
  { w with history := { w.history with calls := w.history.calls + 1 } }

/-- `pipefs_iread` or `pipefs_iwrite`, up to its first wait. -/
def start (w : PipeWorld) (tid : Nat) (kind : Kind) (nb : BitVec 64) : Except Fault PipeWorld := do
  let st ← kind.pipeEnd.loop tid nb 2 w.pipe 0
  return w.count.settle tid ⟨w.history.calls, kind, nb, 0⟩ st

def resume (w : PipeWorld) (tid : Nat) (c : PipeCall) : Option Errno → Except Fault PipeWorld
  | some e => return w.settle tid c ⟨w.pipe.leave tid, [], some (.error e)⟩
  | none => do
      let st ← c.kind.pipeEnd.resume tid c.nb (w.pipe.leave tid) c.moved
      return w.settle tid c st

end PipeWorld

/-- One step.  A thread that waits does not start another call, and one that does not wait is not
resumed. -/
def pipeStep (w : PipeWorld) : PipeAct → Except Fault PipeWorld
  | .start tid kind nb =>
    match w.waiting tid with
    | some _ => return w
    | none => w.start tid kind nb
  | .resume tid err =>
    match w.waiting tid with
    | none => return w
    | some c => w.resume tid c err
  | .close writeEnd => return { w with pipe := pipefsIclose w.pipe writeEnd }

end Fs
end XytherOS
