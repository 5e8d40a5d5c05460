import XytherOS.Ds.RingbufFifo

/-!
# Console — the console of `dev/chr/term/console.c`

A console has a shadow buffer with two bytes for each cell of the window.  The drawing functions
change the shadow buffer and remember one dirty range; `console_flush`, which runs after every byte
that is written, copies that range to the video memory.

* The video memory is as large as the shadow buffer.
* `int` is a 32-bit word and overflows as one; positions and sizes are 64-bit words.  An access
  outside the shadow buffer or outside `t_esc_seq` is a fault, and so is a division by zero.
* The position of the hardware cursor, its visibility (`ESC [ ? 25 h`) and the locks of the ring
  buffers are left out.
-/

namespace XytherOS
namespace Dev

open Fs (Byte)
open Ds (Ringbuf ringbufReadAt ringbufWriteAt)

/-! ## Words -/

@[irreducible] def int32 (x : Int) : Int := x.bmod (2 ^ 32)

@[irreducible] def usize (x : Int) : Nat := (x % 2 ^ 64).toNat

def ch (c : Char) : Int := c.toNat

/-! ## Colours -/

def ansiColors : List (Int × Int × Int) :=
  [(0, 0, 0), (170, 0, 0), (0, 170, 0), (170, 85, 0), (0, 0, 170), (170, 0, 170), (0, 170, 170),
    (170, 170, 170), (85, 85, 85), (255, 85, 85), (85, 255, 85), (255, 255, 85), (85, 85, 255),
    (255, 85, 255), (85, 255, 255), (255, 255, 255)]

def colorDistance (a b : Int × Int × Int) : Int :=
  (a.1 - b.1) ^ 2 + (a.2.1 - b.2.1) ^ 2 + (a.2.2 - b.2.2) ^ 2

def nearest (rgb : Int × Int × Int) :
    List (Int × Int × Int) → Nat → Nat → Int → Nat
  | [], _, best, _ => best
  | color :: colors, i, best, distance =>
    let d := colorDistance rgb color
    if d < distance then nearest rgb colors (i + 1) i d
    else nearest rgb colors (i + 1) best distance

def rgbToAnsi16 (rgb : Int × Int × Int) : Nat :=
  nearest rgb ansiColors.tail 1 0 (colorDistance rgb (0, 0, 0))

def convertColorToAnsi (color : Int) : Nat :=
  if 0 ≤ color ∧ color ≤ 15 then color.toNat
  else if 16 ≤ color ∧ color ≤ 21 then 1
  else if 22 ≤ color ∧ color ≤ 51 then 2
  else if 52 ≤ color ∧ color ≤ 87 then 3
  else if 88 ≤ color ∧ color ≤ 123 then 4
  else if 124 ≤ color ∧ color ≤ 159 then 5
  else if 160 ≤ color ∧ color ≤ 195 then 6
  else if 196 ≤ color ∧ color ≤ 231 then 7
  else if 232 ≤ color ∧ color ≤ 243 then 0
  else if 244 ≤ color ∧ color ≤ 255 then 7
  else rgbToAnsi16 (color % 256, color / 256 % 256, color / 65536 % 256)

def TA_BOLD : BitVec 32 := 0x001
def TA_ITALIC : BitVec 32 := 0x002
def TA_UNDLN : BitVec 32 := 0x004
def TA_UNDSCR : BitVec 32 := 0x008
def TA_REVVID : BitVec 32 := 0x010
def TA_META : BitVec 32 := 0x020
def TA_DISPCTRL : BitVec 32 := 0x040
def TA_BRTFRG : BitVec 32 := 0x080
def TA_BRTBCK : BitVec 32 := 0x100
def TA_BLINK : BitVec 32 := 0x200
def TA_DIM : BitVec 32 := 0x400
def TA_UPDATED : BitVec 32 := 0x800

structure Attr where
  taFlags : BitVec 32
  taForeg : Int
  taBackg : Int

namespace Attr

def has (a : Attr) (bit : BitVec 32) : Bool := a.taFlags &&& bit != 0

def set (a : Attr) (bit : BitVec 32) : Attr := { a with taFlags := a.taFlags ||| bit }

def clear (a : Attr) (bit : BitVec 32) : Attr := { a with taFlags := a.taFlags &&& ~~~bit }

def withForeg (a : Attr) (color : Int) : Attr := { a with taForeg := color }

def withBackg (a : Attr) (color : Int) : Attr := { a with taBackg := color }

end Attr

structure CgaAttrib where
  c : Byte
  fg : BitVec 4
  bg : BitVec 4

def CgaAttrib.byte (a : CgaAttrib) (high : Bool) : Byte := if high then a.bg ++ a.fg else a.c

/-! ## The console -/

structure Winsize where
  wsRow : BitVec 16
  wsCol : BitVec 16

namespace Winsize

def rows (w : Winsize) : Nat := w.wsRow.toNat

def cols (w : Winsize) : Nat := w.wsCol.toNat

def bytes (w : Winsize) : Nat := 2 * (w.rows * w.cols)

end Winsize

/-- The fields of a `tty_t` that the console uses, with the bits `TF_ESC`, `TF_CSI` and `TF_DIRTY` of
`t_flags` and `OPOST`, `ONOCR` and `ONLRET` of `c_oflag`, and with the video memory. -/
structure Tty where
  esc : Bool
  csi : Bool
  dirty : Bool
  opost : Bool
  onocr : Bool
  onlret : Bool
  win : Winsize
  attrib : Attr
  defaultAttrib : Attr
  cga : CgaAttrib
  escSeq : Nat → Int
  escSeqcnt : Nat
  escSeqpos : Nat
  savedCursorPos : Nat
  cursorPos : Nat
  upbuf : Ringbuf
  downbuf : Ringbuf
  shadow : Nat → Byte
  vga : Nat → Byte
  dirtyPos : Nat
  dirtySize : Nat

def ESC_SEQ_COUNT : Nat := 256

def TABSIZE : Nat := 8

/-- `memcpy` and `memmove` within one memory, from the offset `src` to the offset `dst`. -/
def memmove (mem from' : Nat → Byte) (dst src n : Nat) : Nat → Byte :=
  fun k => if dst ≤ k ∧ k < dst + n then from' (src + (k - dst)) else mem k

namespace Tty

def span (tp : Tty) (off n : Nat) : Except Fault Unit :=
  if n = 0 ∨ off + n ≤ tp.win.bytes then .ok () else .error .wildAccess

def divide (tp : Tty) : Except Fault Unit :=
  if tp.win.cols = 0 then .error .divideByZero else .ok ()

def seqAt (tp : Tty) (i : Nat) : Except Fault Int := do
  inBounds i ESC_SEQ_COUNT
  return tp.escSeq i

/-! ## Drawing -/

def flush (tp : Tty) : Except Fault Tty :=
  if tp.dirty then do
    tp.span (2 * tp.dirtyPos) tp.dirtySize
    return { tp with
      vga := memmove tp.vga tp.shadow (2 * tp.dirtyPos) (2 * tp.dirtyPos) tp.dirtySize
      dirty := false }
  else .ok tp

/-- The `if (attrib->ta_flags & TA_UPDATED)` of `console_write_char` and of `console_erase`, with the
character that is going to be drawn. -/
def refresh (tp : Tty) (c : Int) : Tty :=
  let a := tp.attrib
  let drawn : CgaAttrib := { tp.cga with c := BitVec.ofInt 8 c }
  if a.has TA_UPDATED then
    let fg : BitVec 4 := if a.has TA_BRTFRG then 8 else 0
    let bg : BitVec 4 := if a.has TA_BRTBCK then 8 else 0
    { tp with
      attrib := a.clear TA_UPDATED
      cga := { drawn with
        fg := fg ||| BitVec.ofNat 4 (convertColorToAnsi a.taForeg)
        bg := bg ||| BitVec.ofNat 4 (convertColorToAnsi a.taBackg) } }
  else { tp with cga := drawn }

/-- `n` cells from the cell `off` on with the current attribute. -/
def paint (tp : Tty) (off n : Nat) : Nat → Byte :=
  fun k => if 2 * off ≤ k ∧ k < 2 * (off + n) then tp.cga.byte (k % 2 = 1) else tp.shadow k

def mark (tp : Tty) (pos size : Nat) : Tty :=
  { tp with dirty := true, dirtyPos := pos, dirtySize := size }

def writeChar (tp : Tty) (c : Int) : Except Fault Tty := do
  let tp := tp.refresh c
  tp.span (2 * tp.cursorPos) 2
  if tp.shadow (2 * tp.cursorPos) = tp.cga.byte false ∧
      tp.shadow (2 * tp.cursorPos + 1) = tp.cga.byte true then return tp
  else return { tp with shadow := tp.paint tp.cursorPos 1 }.mark tp.cursorPos 2

def erase (tp : Tty) (off sz : Nat) : Except Fault Tty := do
  let tp := tp.refresh (ch ' ')
  tp.span (2 * off) (2 * sz)
  return { tp with shadow := tp.paint off sz }.mark off (usize (sz * 2))

def lastLine (tp : Tty) : Nat := usize (int32 ((tp.win.rows - 1) * tp.win.cols))

def scrollSize (tp : Tty) : Nat :=
  usize (int32 (int32 (tp.win.cols * (tp.win.rows - 1)) * 2))

/-- A line that `ringbuf_read` has found, at the start of the cell `off`, or else blanks. -/
def putLine (tp : Tty) (bytes : List Byte) (off : Nat) : Except Fault Tty := do
  tp.span (2 * off) bytes.length
  if bytes = [] then tp.erase off tp.win.cols
  else return { tp with shadow := memmove tp.shadow (fun k => bytes.getD k 0) (2 * off) 0 bytes.length }

def lineDown (tp : Tty) : Except Fault Tty := do
  let line := (List.range (2 * tp.win.cols)).map fun i => tp.shadow (2 * tp.lastLine + i)
  let (k, downbuf) ← ringbufWriteAt line tp.downbuf
  tp.span (2 * tp.lastLine) k
  tp.span 0 tp.scrollSize
  tp.span (2 * tp.win.cols) tp.scrollSize
  let (bytes, upbuf) ← ringbufReadAt (2 * tp.win.cols) tp.upbuf
  let moved : Tty :=
    { tp with
      downbuf := downbuf
      upbuf := upbuf
      shadow := memmove tp.shadow tp.shadow (2 * tp.win.cols) 0 tp.scrollSize }
  moved.putLine bytes 0

def lineUp (tp : Tty) : Except Fault Tty := do
  let line := (List.range (2 * tp.win.cols)).map fun i => tp.shadow i
  let (k, upbuf) ← ringbufWriteAt line tp.upbuf
  tp.span 0 k
  tp.span (2 * tp.win.cols) tp.scrollSize
  tp.span 0 tp.scrollSize
  let (bytes, downbuf) ← ringbufReadAt (2 * tp.win.cols) tp.downbuf
  let moved : Tty :=
    { tp with
      upbuf := upbuf
      downbuf := downbuf
      shadow := memmove tp.shadow tp.shadow 0 (2 * tp.win.cols) tp.scrollSize }
  moved.putLine bytes tp.lastLine

def scrollLines (down : Bool) : Nat → Tty → Except Fault Tty
  | 0, tp => .ok tp
  | n + 1, tp => do
      let tp ← if down then tp.lineDown else tp.lineUp
      scrollLines down n tp

def scroll (tp : Tty) (down : Bool) (lines : Nat) : Except Fault Tty := do
  let tp ← scrollLines down lines tp
  return tp.mark 0 (usize (int32 (int32 (tp.win.cols * tp.win.rows) * 2)))

/-! ## The cursor -/

def screenSize (tp : Tty) : Nat := usize (int32 (tp.win.cols * tp.win.rows))

def updateCursor (tp : Tty) (off : Nat) : Except Fault Tty :=
  if tp.screenSize ≤ off then do
    let tp ← { tp with cursorPos := off }.scroll false 1
    return { tp with cursorPos := usize (tp.screenSize - tp.win.cols) }
  else .ok { tp with cursorPos := off }

/-- A coordinate inside the window, as far as `console_set_cursor_cordinates` looks. -/
def clamp (x : Int) (n : Nat) : Int := if x < 0 then 0 else if n < x then n - 1 else x

def setCursorCordinates (tp : Tty) (x y : Int) : Except Fault Tty :=
  tp.updateCursor (usize (int32 (int32 (clamp y tp.win.rows * tp.win.cols) + clamp x tp.win.cols)))

def moveCursor (tp : Tty) (dx dy : Int) : Except Fault Tty := do
  tp.divide
  let x : Int := tp.cursorPos % tp.win.cols
  let y : Int := int32 (tp.cursorPos / tp.win.cols)
  tp.setCursorCordinates (int32 (x + dx)) (int32 (y + dy))

def eraseDisplay (tp : Tty) (param : Int) : Except Fault Tty :=
  if param = 0 then do
    let tp ← tp.erase tp.cursorPos (usize (int32 (tp.win.rows * tp.win.cols) - tp.cursorPos))
    tp.updateCursor tp.cursorPos
  else if param = 1 then do
    let tp ← tp.erase 0 tp.cursorPos
    tp.updateCursor 0
  else if param = 2 then do
    let tp ← tp.erase 0 (usize (int32 (tp.win.rows * tp.win.cols)))
    tp.updateCursor 0
  else .ok tp

def eraseLine (tp : Tty) (param : Int) : Except Fault Tty :=
  if param = 0 then do
    tp.divide
    let tp ← tp.erase tp.cursorPos (tp.win.cols - tp.cursorPos % tp.win.cols)
    tp.updateCursor tp.cursorPos
  else if param = 1 then do
    tp.divide
    let off := tp.cursorPos / tp.win.cols * tp.win.cols
    let tp ← tp.erase off (tp.cursorPos - off)
    tp.updateCursor off
  else if param = 2 then do
    tp.divide
    let off := tp.cursorPos / tp.win.cols * tp.win.cols
    let tp ← tp.erase off tp.win.cols
    tp.updateCursor off
  else .ok tp

/-! ## Attributes -/

/-- The codes of `console_set_attributes` other than `38` and `48`. -/
def setAttribute (dflt attr : Attr) (code : Int) : Attr :=
  if code = 0 then dflt
  else if code = 1 then attr.set TA_BOLD
  else if code = 2 then attr.set TA_DIM
  else if code = 3 then attr.set TA_ITALIC
  else if code = 4 then attr.set TA_UNDSCR
  else if code = 5 then attr.set TA_BLINK
  else if code = 7 then attr.set TA_REVVID
  else if code = 10 then attr.clear (TA_DISPCTRL ||| TA_META)
  else if code = 11 then (attr.set TA_DISPCTRL).clear TA_META
  else if code = 12 then attr.set (TA_DISPCTRL ||| TA_META)
  else if code = 21 then attr.set TA_UNDLN
  else if code = 22 then attr.clear (TA_BRTFRG ||| TA_BRTBCK)
  else if code = 23 then attr.clear TA_ITALIC
  else if code = 24 then attr.clear TA_UNDLN
  else if code = 25 then attr.clear TA_BLINK
  else if code = 27 then attr.clear TA_REVVID
  else if 30 ≤ code ∧ code ≤ 37 then attr.withForeg (code - 30)
  else if code = 39 then attr.withForeg dflt.taForeg
  else if 40 ≤ code ∧ code ≤ 47 then attr.withBackg (code - 40)
  else if code = 49 then attr.withBackg dflt.taBackg
  else if 90 ≤ code ∧ code ≤ 97 then (attr.withForeg (code - 90)).set TA_BRTFRG
  else if 100 ≤ code ∧ code ≤ 107 then (attr.withBackg (code - 100)).set TA_BRTBCK
  else attr

/-- `code == 38 || code == 48`: the code is followed by a colour. -/
def isColor (code : Int) : Bool := code = 38 || code = 48

def setColor (attr : Attr) (code color : Int) : Attr :=
  if code = 38 then attr.withForeg color else attr.withBackg color

def trueColor (r g b : Int) : Int :=
  (BitVec.ofInt 32 r ||| BitVec.ofInt 32 g <<< 8 ||| BitVec.ofInt 32 b <<< 16).toInt

/-- The loop of `console_set_attributes`, in at most as many turns as there are codes. -/
def attributeLoop (tp : Tty) : Nat → Nat → Attr → Except Fault Attr
  | 0, _, attr => .ok attr
  | n + 1, i, attr =>
    if i < tp.escSeqcnt then do
      let code ← tp.seqAt i
      if isColor code then
        let mode ← tp.seqAt (i + 1)
        if mode = 2 then
          let r ← tp.seqAt (i + 2)
          let g ← tp.seqAt (i + 3)
          let b ← tp.seqAt (i + 4)
          tp.attributeLoop n (i + 5) (setColor attr code (trueColor r g b))
        else if mode = 5 then
          let color ← tp.seqAt (i + 2)
          tp.attributeLoop n (i + 3) (setColor attr code color)
        else tp.attributeLoop n (i + 2) attr
      else tp.attributeLoop n (i + 1) (setAttribute tp.defaultAttrib attr code)
    else .ok attr

def setAttributes (tp : Tty) : Except Fault Tty := do
  let attr ← tp.attributeLoop tp.escSeqcnt 0 (tp.attrib.set TA_UPDATED)
  return { tp with attrib := attr }

/-! ## Control sequences -/

inductive Csi
  | up
  | down
  | right
  | left
  | nextLine
  | prevLine
  | column
  | position
  | eraseDisplay
  | eraseLine
  | scroll (down : Bool)
  | line
  | mode
  | save
  | restore
  | attributes
  | unknown

def csiOf (c : Int) : Csi :=
  if c = ch 'A' then .up
  else if c = ch 'B' then .down
  else if c = ch 'C' then .right
  else if c = ch 'D' then .left
  else if c = ch 'E' then .nextLine
  else if c = ch 'F' then .prevLine
  else if c = ch 'G' then .column
  else if c = ch 'H' ∨ c = ch 'f' then .position
  else if c = ch 'J' then .eraseDisplay
  else if c = ch 'K' then .eraseLine
  else if c = ch 'S' then .scroll false
  else if c = ch 'T' then .scroll true
  else if c = ch 'd' then .line
  else if c = ch 'h' ∨ c = ch 'l' then .mode
  else if c = ch 's' then .save
  else if c = ch 'u' then .restore
  else if c = ch 'm' then .attributes
  else .unknown

def param0 (tp : Tty) : Int := if 0 < tp.escSeqcnt then tp.escSeq 0 else 0

def command (tp : Tty) : Csi → Except Fault Tty
  | .up => tp.moveCursor 0 (-tp.param0)
  | .down => tp.moveCursor 0 tp.param0
  | .right => tp.moveCursor tp.param0 0
  | .left => tp.moveCursor (-tp.param0) 0
  | .nextLine => do
      tp.divide
      let curY := int32 (tp.cursorPos / tp.win.cols + tp.param0)
      tp.setCursorCordinates 0 (int32 (curY - 1))
  | .prevLine => do
      tp.divide
      let curY := int32 (tp.cursorPos / tp.win.cols - tp.param0)
      tp.setCursorCordinates 0 (int32 (curY - 1))
  | .column =>
    -- the line is `t_cursor_pos / t_cursor_pos`
    if tp.cursorPos = 0 then .error .divideByZero
    else tp.setCursorCordinates (int32 (tp.param0 - 1)) 1
  | .position =>
    let curX := if 1 ≤ tp.escSeqpos then int32 (tp.escSeq 1 - 1) else 1
    tp.setCursorCordinates curX (int32 (tp.escSeq 0 - 1))
  | .eraseDisplay => tp.eraseDisplay tp.param0
  | .eraseLine => tp.eraseLine tp.param0
  | .scroll down => tp.scroll down (if 0 < tp.param0 then tp.param0.toNat else 1)
  | .line => do
      tp.divide
      tp.setCursorCordinates (tp.cursorPos % tp.win.cols) (int32 (tp.param0 - 1))
  | .mode => .ok tp
  | .save => .ok { tp with savedCursorPos := tp.cursorPos }
  | .restore => .ok { tp with cursorPos := tp.savedCursorPos }
  | .attributes => tp.setAttributes
  | .unknown => .ok tp

def endEsc (tp : Tty) : Tty := { tp with esc := false, csi := false }

def handleCsi (tp : Tty) (c : Int) : Except Fault (Ret × Tty) :=
  match csiOf c with
  | .unknown => .ok (.err .EINVAL, tp.endEsc)
  | cmd => do
      let tp ← tp.command cmd
      return (.ok, tp.endEsc)

def setSeq (tp : Tty) (value : Int) : Except Fault Tty := do
  inBounds tp.escSeqpos ESC_SEQ_COUNT
  return { tp with escSeq := Function.update tp.escSeq tp.escSeqpos value }

def handleEsc (tp : Tty) (c : Int) : Except Fault (Ret × Tty) :=
  if c = ch '[' ∧ tp.csi = false then .ok (.ok, { tp with csi := true })
  else if ch '0' ≤ c ∧ c ≤ ch '9' then do
    let value ← tp.seqAt tp.escSeqpos
    let tp ← tp.setSeq (int32 (int32 (value * 10) + c - ch '0'))
    return (.ok, tp)
  else if c = ch '?' then do
    let tp ← tp.setSeq c
    return (.ok, { tp with escSeqpos := tp.escSeqpos + 1, escSeqcnt := tp.escSeqcnt + 1 })
  else if c = ch ';' then
    if tp.escSeqpos < ESC_SEQ_COUNT then
      .ok (.ok, { tp with escSeqpos := tp.escSeqpos + 1, escSeqcnt := tp.escSeqcnt + 1 })
    else .ok (.ok, tp)
  else { tp with escSeqcnt := tp.escSeqcnt + 1 }.handleCsi c

/-! ## Characters -/

def handleSpecial (tp : Tty) (c : Int) : Except Fault Tty :=
  if c = ch '\n' then do
    if tp.onlret then tp.divide
    let start := if tp.onlret then tp.cursorPos - tp.cursorPos % tp.win.cols else tp.cursorPos
    tp.updateCursor ((start + tp.win.cols) % 2 ^ 64)
  else if c = ch '\r' then do
    tp.divide
    tp.updateCursor (tp.cursorPos - tp.cursorPos % tp.win.cols)
  else if c = ch '\t' then
    tp.updateCursor ((tp.cursorPos + TABSIZE) % 2 ^ 64 / TABSIZE * TABSIZE)
  else if c = 8 then
    if 0 < tp.cursorPos then do
      let off := tp.cursorPos - 1
      let tp ← tp.updateCursor off
      tp.updateCursor off
    else tp.updateCursor tp.cursorPos
  else if c = 12 then tp.eraseDisplay 2
  else if c = 11 then do
    let tp ← if tp.opost then pure tp else tp.writeChar c
    tp.updateCursor tp.cursorPos
  else if ch ' ' ≤ c ∧ c ≤ ch '~' then do
    let tp ← tp.writeChar c
    tp.updateCursor ((tp.cursorPos + 1) % 2 ^ 64)
  else tp.updateCursor tp.cursorPos

/-- The loop body of `console_write` outside an escape sequence. -/
def putPlain (tp : Tty) (c : Int) : Except Fault Tty :=
  if c = 27 then
    .ok { tp with esc := true, escSeqpos := 0, escSeqcnt := 0, escSeq := fun _ => 0 }
  else if tp.opost = true ∧ c = ch '\r' ∧ tp.onocr = true then do
    tp.divide
    if tp.cursorPos % tp.win.cols = 0 then return tp else tp.handleSpecial c
  else tp.handleSpecial c

def put (tp : Tty) (c : Int) : Except Fault Tty :=
  if tp.esc then do
    match ← tp.handleEsc c with
    | (.ok, tp) => return tp
    | (.err _, tp) => tp.endEsc.putPlain c
  else tp.putPlain c

/-- One turn of the loop of `console_write`; a `char` is signed. -/
def putByte (tp : Tty) (b : Byte) : Except Fault Tty := do
  let tp ← tp.put b.toInt
  tp.flush

/-- The loop of `console_write` from `buf[i]` on, with `n` more turns; what is returned is
`written`. -/
def writeLoop (buf : Nat → Byte) : Nat → Nat → Tty → Except Fault (Nat × Tty)
  | 0, i, tp => .ok (i, tp)
  | n + 1, i, tp =>
    if buf i = 0 then .ok (i, tp)
    else do
      let tp ← tp.putByte (buf i)
      writeLoop buf n (i + 1) tp

def consoleWrite (tp : Tty) (buf : Nat → Byte) (count : Nat) :
    Except Fault (Except Errno Nat × Tty) :=
  if count = 0 then .ok (.error .EINVAL, tp)
  else do
    let (written, tp) ← writeLoop buf count 0 tp
    return (.ok written, tp)

/-- A console behind `console_create` and `console_open`.  The second `if` of `console_open` looks at
the wrong ring buffer, so that `downbuf` has no memory. -/
def opened (win : Winsize) (opost onocr onlret : Bool) (vga mem : Nat → Byte) : Tty where
  esc := false
  csi := false
  dirty := false
  opost := opost
  onocr := onocr
  onlret := onlret
  win := win
  attrib := ⟨TA_UPDATED, 7, 0⟩
  defaultAttrib := ⟨TA_UPDATED, 7, 0⟩
  cga := ⟨0, 0, 0⟩
  escSeq _ := 0
  escSeqcnt := 0
  escSeqpos := 0
  savedCursorPos := 0
  cursorPos := 0
  upbuf := .init (BitVec.ofInt 64 (int32 (int32 (win.rows * win.cols) * 16))) mem
  downbuf := .init 0 mem
  shadow k := if k % 2 = 0 then 0x20 else 0x07
  vga := vga
  dirtyPos := 0
  dirtySize := 0

end Tty

end Dev
end XytherOS
