import XytherOS.Ds.Ringbuf
import XytherOS.Core.Printf

/-!
# XTty — the line discipline of `dev/chr/term/ldisc/x_tty.c`

The bytes that the driver receives are edited in the line buffer `in`; a finished line goes to the
ring buffer `t_inputbuf`, from which `x_tty_read` takes it.

* `tp`, its line data and the buffer of a reader exist.  The locks are left out, and so is the
  output side of the line discipline (`out`, `outpos`, `outlen`).
* A pair of a list of bytes and its length is the list.  What the driver is given to write is
  appended to `written`.
* `__USE_MISC` is not defined, and without it there is no `ECHOCTL`.
* An access outside `in`, or outside the local buffer of an echo, is a fault.
-/

namespace XytherOS
namespace XTty

open Fs (Byte)
open Ds (Ringbuf ringbufRead ringbufWrite)

/-! ## Bytes -/

def XTTYFBMAX : Int := 4096

def byte (c : Char) : Byte := BitVec.ofNat 8 c.toNat

def bytes (s : String) : List Byte := s.toList.map byte

def BS : Byte := 0x08

def NL : Byte := 0x0a

def CR : Byte := 0x0d

def ESC : Byte := 0x1b

def ttyIsprint (c : Byte) : Bool := 0x20 ≤ c.toInt && c.toInt ≤ 0x7e

/-! ## The settings -/

def ISIG : BitVec 32 := 0o1

def ICANON : BitVec 32 := 0o2

def ECHO : BitVec 32 := 0o10

def ECHOE : BitVec 32 := 0o20

def ECHOK : BitVec 32 := 0o40

def ECHONL : BitVec 32 := 0o100

def INLCR : BitVec 32 := 0o100

def IGNCR : BitVec 32 := 0o200

def ICRNL : BitVec 32 := 0o400

def VINTR : Nat := 0

def VQUIT : Nat := 1

def VERASE : Nat := 2

def VKILL : Nat := 3

def VEOF : Nat := 4

def VSUSP : Nat := 10

def VEOL : Nat := 11

def VDISCARD : Nat := 13

def VWERASE : Nat := 14

def VEOL2 : Nat := 16

structure Termios where
  cIflag : BitVec 32
  cLflag : BitVec 32
  cCc : Nat → Byte

namespace Termios

variable (tio : Termios)

def lflag (flag : BitVec 32) : Bool := tio.cLflag &&& flag != 0

def iflag (flag : BitVec 32) : Bool := tio.cIflag &&& flag != 0

def is (v : Nat) (c : Byte) : Bool := c.toInt == (tio.cCc v).toNat

def isNL (c : Byte) : Bool := c == NL || tio.is VEOL c || tio.is VEOL2 c

def isSignal (c : Byte) : Bool :=
  tio.lflag ISIG && (tio.is VINTR c || tio.is VQUIT c || tio.is VSUSP c)

end Termios

/-! ## The input buffer -/

def TTYBUFSZ : BitVec 64 := 32 * 1024

structure Inputbuf where
  ring : Ringbuf
  wf : ring.Wf
  size : ring.size = TTYBUFSZ

namespace Inputbuf

def init (memory : Nat → Byte) : Inputbuf where
  ring := Ringbuf.init TTYBUFSZ memory
  wf := Ringbuf.Wf.init (by decide) memory
  size := rfl

def isEmpty (b : Inputbuf) : Bool := b.ring.isEmpty

def contents (b : Inputbuf) : List Byte := b.ring.contents

def read (b : Inputbuf) (n : Nat) : List Byte := (ringbufRead n b.ring).1

def afterRead (b : Inputbuf) (n : Nat) : Inputbuf where
  ring := (ringbufRead n b.ring).2
  wf := (b.wf.read n).2.2.1
  size := (b.wf.read n).2.2.2.trans b.size

def write (b : Inputbuf) (src : List Byte) : Inputbuf where
  ring := (ringbufWrite (fun i => src.getD i 0) src.length b.ring).2
  wf := (b.wf.write _ _).2.2.1
  size := (b.wf.write _ _).2.2.2.trans b.size

variable (b : Inputbuf)

theorem isEmpty_iff : b.isEmpty = true ↔ b.contents = [] := Ringbuf.isEmpty_iff b.ring

theorem read_eq (n : Nat) : b.read n = b.contents.take n := (b.wf.read n).1

@[simp] theorem contents_afterRead (n : Nat) :
    (b.afterRead n).contents = b.contents.drop n := (b.wf.read n).2.1

theorem contents_write (src : List Byte) :
    (b.write src).contents =
      b.contents ++ src.take (TTYBUFSZ.toNat - b.contents.length) := by
  rcases b.wf.write (fun i => src.getD i 0) src.length with ⟨hcount, hcontents, -, -⟩
  have hmap : ∀ n ≤ src.length, (List.range n).map (fun i => src.getD i 0) = src.take n := by
    intro n hn
    refine List.ext_getElem (by simp [hn]) fun i hi _ => ?_
    have hlt : i < src.length := by
      rw [List.length_map, List.length_range] at hi
      exact Nat.lt_of_lt_of_le hi hn
    simp [List.getElem?_eq_getElem hlt]
  have hroom : b.ring.size.toNat - b.ring.count.toNat =
      TTYBUFSZ.toNat - b.contents.length := by
    rw [b.size, contents, Ringbuf.contents_length]
  calc
    (b.write src).contents
        = b.contents ++ src.take (min src.length (b.ring.size.toNat - b.ring.count.toNat)) := by
          rw [← hmap _ (Nat.min_le_left _ _), ← hcount]
          exact hcontents
    _ = b.contents ++ src.take (TTYBUFSZ.toNat - b.contents.length) := by
          rw [hroom, ← List.take_take, List.take_of_length_le (List.length_take_le' _ _)]

end Inputbuf

/-! ## The line buffer -/

structure Ldata where
  inpos : Int
  inlen : Int
  inbuf : Int → Byte
  flush : Bool

def within (i n : Int) : Except Fault Unit :=
  if 0 ≤ i ∧ 0 ≤ n ∧ i + n ≤ XTTYFBMAX then .ok () else .error .wildAccess

namespace Ldata

variable (ld : Ldata)

def store (i : Int) (c : Byte) : Except Fault Ldata := do
  within i 1
  return { ld with inbuf := Function.update ld.inbuf i c }

def memmove (dest src n : Int) : Except Fault Ldata := do
  within src n
  within dest n
  return { ld with
    inbuf := fun i =>
      if dest ≤ i ∧ i < dest + n then ld.inbuf (i - dest + src) else ld.inbuf i }

def reset : Ldata := { ld with inpos := 0, inlen := 0 }

def clear : Except Fault Ldata := do
  within 0 ld.inlen
  let zeroed := fun i => if 0 ≤ i ∧ i < ld.inlen then 0 else ld.inbuf i
  return reset { ld with inbuf := zeroed }

def bytes (n : Nat) : List Byte := (List.range n).map fun i : Nat => ld.inbuf i

/-- The string at `in + i`, of which at most `n` bytes lie in the array. -/
def cstring : Nat → Int → Except Fault (List Byte)
  | 0, _ => .error .wildAccess
  | n + 1, i =>
    if ld.inbuf i = 0 then .ok []
    else do
      let cs ← cstring n (i + 1)
      return ld.inbuf i :: cs

def stringAt (i : Int) : Except Fault (List Byte) := do
  within i 1
  ld.cstring (XTTYFBMAX - i).toNat i

def skipBack (p : Byte → Bool) : Nat → Except Fault Nat
  | 0 => .ok 0
  | k + 1 => do
      within k 1
      if p (ld.inbuf k) then skipBack p k else return k + 1

end Ldata

/-! ## The terminal -/

structure Tty where
  tTermios : Termios
  tInputbuf : Inputbuf
  tLdata : Ldata
  written : List Byte

namespace Tty

variable (tp : Tty)

def write (cs : List Byte) : Tty := { tp with written := tp.written ++ cs }

def writeIf (flag : BitVec 32) (cs : List Byte) : Tty :=
  if tp.tTermios.lflag flag then tp.write cs else tp

def setLdata (ld : Ldata) : Tty := { tp with tLdata := ld }

def deliver (cs : List Byte) : Tty := { tp with tInputbuf := tp.tInputbuf.write cs }

end Tty

/-- `sprintf` to a local buffer of `size` bytes, which is then written to the terminal. -/
def echoString (size : Int) (text : List Byte) (tp : Tty) : Except Fault Tty := do
  let _ ← Printf.snprintf 0 0 (2 ^ 64 - 1) text (List.replicate size.toNat none)
  return tp.write text

def xTtyProcessEsc (tp : Tty) : List Byte → Nat × Tty
  | seq :: cmd :: _ =>
    let ld := tp.tLdata
    if seq ≠ byte '[' then (1, tp)
    else if cmd = byte 'C' ∧ ld.inpos < ld.inlen then
      (2, (tp.setLdata { ld with inpos := ld.inpos + 1 }).writeIf ECHO (ESC :: bytes "[1C"))
    else if cmd = byte 'D' ∧ 0 < ld.inpos then
      (2, (tp.setLdata { ld with inpos := ld.inpos - 1 }).writeIf ECHO (ESC :: bytes "[1D"))
    else (2, tp)
  | _ => (0, tp)

def ttyEchoInput (tp : Tty) (c : Byte) : Except Fault Tty :=
  let ld := tp.tLdata
  if tp.tTermios.lflag ECHO && ttyIsprint c then
    if ld.inpos = ld.inlen then .ok (tp.write [c])
    else if ld.inpos < ld.inlen then do
      let delta := ld.inlen - ld.inpos + 1
      let s ← ld.stringAt (ld.inpos - 1)
      echoString (delta + 16)
        (ESC :: bytes "[K" ++ ESC :: bytes "[s" ++ s ++ ESC :: bytes "[u" ++ ESC :: bytes "[1C") tp
    else .ok tp
  else if tp.tTermios.isNL c then .ok (tp.writeIf ECHONL [NL])
  else .ok tp

/-- The move of the text behind the cursor in `tty_insert_input`. -/
def Ldata.makeRoom (ld : Ldata) : Except Fault Ldata :=
  if ld.inpos < ld.inlen then ld.memmove (ld.inpos + 1) ld.inpos (ld.inlen - ld.inpos) else .ok ld

/-- The part of `tty_insert_input` for which there is space. -/
def Ldata.insert (ld : Ldata) (c : Byte) : Except Fault Ldata :=
  if c = NL then do
    -- a newline goes behind the line, wherever the cursor is
    let ld ← ld.store ld.inlen c
    return { ld with inlen := ld.inlen + 1 }
  else do
    let ld ← ld.makeRoom
    let ld ← ld.store ld.inpos c
    return { ld with inpos := ld.inpos + 1, inlen := ld.inlen + 1 }

def ttyInsertInput (ld : Ldata) (c : Byte) : Except Fault Ldata := do
  let ld ← (if ld.inpos < XTTYFBMAX - 3 then ld.insert c else .ok ld : Except Fault Ldata)
  return if ld.inpos = XTTYFBMAX - 3 then { ld with flush := true } else ld

/-! ## `x_tty_receive_buf` -/

namespace Tty

variable (tp : Tty)

/-- The case of `VERASE`, with the cursor on the character that goes. -/
def eraseAt (ld : Ldata) : Except Fault Tty := do
  if ld.inpos < ld.inlen - 1 then
    let delta := ld.inlen - ld.inpos
    let ld ← ld.memmove ld.inpos (ld.inpos + 1) (delta - 1)
    let ld ← ld.store (ld.inpos + (delta - 1)) 0
    if tp.tTermios.lflag ECHO then
      let s ← ld.stringAt ld.inpos
      echoString (delta + 16)
        (ESC :: bytes "[1D" ++ ESC :: bytes "[K" ++ ESC :: bytes "[s" ++ s ++ ESC :: bytes "[u")
        (tp.setLdata ld)
    else return tp.setLdata ld
  else if ld.inpos = ld.inlen - 1 then
    let ld ← ld.store ld.inlen 0
    return (tp.setLdata ld).writeIf ECHO [BS, byte ' ', BS]
  else return tp.setLdata ld

def erase : Except Fault Tty := do
  let ld := tp.tLdata
  if 0 < ld.inpos then
    let tp ← tp.eraseAt { ld with inpos := ld.inpos - 1 }
    return tp.setLdata { tp.tLdata with inlen := tp.tLdata.inlen - 1 }
  else return tp

def rubout (n : Int) : List Byte := (List.replicate n.toNat [BS, byte ' ', BS]).flatten

def kill : Except Fault Tty := do
  let ld ← tp.tLdata.clear
  return (tp.writeIf ECHOK (rubout tp.tLdata.inpos)).setLdata ld

def eof (c : Byte) : Tty := if tp.tLdata.inlen = 0 then tp.deliver [c] else tp

def wordStart (ld : Ldata) : Except Fault Nat := do
  let k ← ld.skipBack (fun c => c == byte ' ' || !ttyIsprint c) ld.inpos.toNat
  ld.skipBack ttyIsprint k

def werase : Except Fault Tty := do
  let ld := tp.tLdata
  let k ← wordStart ld
  return (tp.writeIf ECHOE (rubout (ld.inpos - k))).setLdata { ld with inpos := k, inlen := k }

def discard : Except Fault Tty := do
  let ld ← tp.tLdata.clear
  return (tp.setLdata ld).writeIf ECHOK [NL]

def deliverLine : Except Fault Tty := do
  within 0 tp.tLdata.inlen
  let ld ← tp.tLdata.clear
  return (tp.deliver (tp.tLdata.bytes tp.tLdata.inlen.toNat)).setLdata ld

def ordinary (c : Byte) : Except Fault Tty := do
  let isNL := tp.tTermios.isNL c
  let ld ← (if ttyIsprint c || isNL then ttyInsertInput tp.tLdata c else .ok tp.tLdata :
    Except Fault Ldata)
  let tp ← ttyEchoInput (tp.setLdata ld) c
  if isNL || tp.tLdata.flush then tp.deliverLine else return tp

/-- The body of the loop for the character `c`, with what follows it in the buffer: how many
bytes are consumed behind it, or `none` where the loop ends. -/
def receiveChar (c : Byte) (rest : List Byte) : Except Fault (Option Nat × Tty) :=
  let tio := tp.tTermios
  let next (x : Except Fault Tty) := x.map fun tp => (some 0, tp)
  if tio.isSignal c then .ok (some 0, tp.setLdata tp.tLdata.reset)
  else if !tio.lflag ICANON then .ok (some 0, tp.deliver [c])
  else if c == BS || tio.is VERASE c then next tp.erase
  else if tio.is VKILL c then next tp.kill
  else if tio.is VEOF c then .ok (some 0, tp.eof c)
  else if tio.is VWERASE c then next tp.werase
  else if tio.is VDISCARD c then next tp.discard
  else if c == CR && tio.iflag IGNCR then .ok (some 0, tp)
  else if c == CR && tio.iflag ICRNL then next (tp.ordinary NL)
  else if c == NL && tio.iflag INLCR then do
    let ld ← ttyInsertInput tp.tLdata CR
    next ((tp.setLdata ld).ordinary c)
  else if c == ESC then
    if rest.isEmpty then .ok (none, tp)
    else
      let (consumed, tp) := xTtyProcessEsc tp rest
      .ok (some consumed, tp)
  else next (tp.ordinary c)

/-- The loop of `x_tty_receive_buf`, with the number of bytes that are skipped. -/
def receiveLoop : Nat → List Byte → Tty → Except Fault Tty
  | _, [], tp => .ok tp
  | skip + 1, _ :: rest, tp => receiveLoop skip rest tp
  | 0, c :: rest, tp =>
    if c = 0 then .ok tp
    else do
      match ← tp.receiveChar c rest with
      | (some consumed, tp) => receiveLoop consumed rest tp
      | (none, tp) => .ok tp

end Tty

def xTtyReceiveBuf (tp : Tty) (cp : List Byte) : Except Fault Tty := tp.receiveLoop 0 cp

end XTty
end XytherOS
