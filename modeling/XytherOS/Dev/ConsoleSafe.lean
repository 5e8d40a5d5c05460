import XytherOS.Dev.ConsoleMirror

/-!
# ConsoleSafe — which bytes keep the console inside its buffers

Whatever is written, the cursor stays in the window and all that is drawn stays in the shadow
buffer, as long as the products of the window's sizes fit into an `int`.  Some escape sequences go
wrong: a digit or a `?` behind 256 parameters, `ESC [ G` with the cursor in the first cell, and an
`ESC [ m` that reads a code or a component of a colour behind the last of 256 parameters.  A run of
bytes is safe exactly if it meets none of them.
-/

namespace XytherOS

open Fs (Byte)

/-! ## Ring buffers -/

namespace Ds

def Ringbuf.Usable (r : Ringbuf) : Prop := r.size = 0 → r.count = 0

variable {r : Ringbuf}

theorem Ringbuf.index_ok (hsize : r.size ≠ 0) (i : BitVec 64) :
    r.index i = .ok (i.toNat % r.size.toNat) := by
  have hpos : 0 < r.size.toNat := by
    rw [Nat.pos_iff_ne_zero]
    exact fun h => hsize (BitVec.eq_of_toNat_eq h)
  have hin : inBounds (i.toNat % r.size.toNat) r.size.toNat = .ok () := if_pos (Nat.mod_lt _ hpos)
  rw [Ringbuf.index, if_neg hsize, hin]
  rfl

theorem ringbufReadAt_usable {F : Fault → Prop} (h : r.Usable) (n : Nat) :
    Safe F (ringbufReadAt n r) fun out =>
      out.1.length ≤ n ∧ out.2.Usable := by
  induction n generalizing r with
  | zero => exact ⟨Nat.le_refl 0, h⟩
  | succ n ih =>
    rw [ringbufReadAt]
    cases hempty : r.isEmpty with
    | true => exact ⟨Nat.zero_le _, h⟩
    | false =>
      have hcount : r.count ≠ 0 := by simpa [Ringbuf.isEmpty] using hempty
      have hsize : r.size ≠ 0 := fun hzero => hcount (h hzero)
      have hpop : r.pop.Usable := fun hzero => absurd hzero hsize
      rw [if_neg (by simp), Ringbuf.index_ok hsize, ok_bind]
      exact (ih hpop).bind fun out hout => ⟨Nat.succ_le_succ hout.1, hout.2⟩

theorem ringbufWriteAt_usable {F : Fault → Prop} (h : r.Usable) (bs : List Byte) :
    Safe F (ringbufWriteAt bs r) fun out =>
      out.1 ≤ bs.length ∧ out.2.Usable := by
  induction bs generalizing r with
  | nil => exact ⟨Nat.le_refl 0, h⟩
  | cons b bs ih =>
    rw [ringbufWriteAt]
    cases hfull : r.isFull with
    | true => exact ⟨Nat.zero_le _, h⟩
    | false =>
      have hcount : r.count ≠ r.size := by simpa [Ringbuf.isFull] using hfull
      have hsize : r.size ≠ 0 := fun hzero => hcount (by rw [h hzero, hzero])
      have hpush : (r.push b).Usable := fun hzero => absurd hzero hsize
      rw [if_neg (by simp), Ringbuf.index_ok hsize, ok_bind]
      exact (ih hpush).bind fun out hout => ⟨Nat.succ_le_succ hout.1, hout.2⟩

end Ds

namespace Dev

open Ds (Ringbuf ringbufReadAt_usable ringbufWriteAt_usable)

/-! ## Windows -/

namespace Winsize

def cells (w : Winsize) : Nat := w.rows * w.cols

def above (w : Winsize) : Nat := (w.rows - 1) * w.cols

/-- A window with a cell, whose sizes can be multiplied as `int`. -/
structure Fits (w : Winsize) : Prop where
  rows : 0 < w.rows
  cols : 0 < w.cols
  bytes : w.bytes < 2 ^ 31

variable {w : Winsize}

theorem Fits.cells_eq (h : w.Fits) : w.cells = w.above + w.cols := by
  have hrows : w.rows = w.rows - 1 + 1 := (Nat.sub_add_cancel h.rows).symm
  calc w.rows * w.cols = (w.rows - 1 + 1) * w.cols := by rw [← hrows]
    _ = w.above + w.cols := by rw [above, Nat.succ_mul]

theorem bytes_eq (w : Winsize) : w.bytes = 2 * w.cells := rfl

end Winsize

namespace Tty

def NoFault (_ : Fault) : Prop := False

/-- What holds of the console while it handles a byte, wherever the cursor is. -/
structure Framed (w : Winsize) (tp : Tty) : Prop where
  win : tp.win = w
  saved : tp.savedCursorPos < w.cells
  upbuf : tp.upbuf.Usable
  downbuf : tp.downbuf.Usable
  marked : tp.dirty = true → 2 * tp.dirtyPos + tp.dirtySize ≤ w.bytes

structure Steady (w : Winsize) (tp : Tty) : Prop extends Framed w tp where
  cursor : tp.cursorPos < w.cells

/-- A drawing function keeps the console in its frame and does not move the cursor. -/
structure Draws (w : Winsize) (tp tp' : Tty) : Prop extends Framed w tp' where
  still : tp'.cursorPos = tp.cursorPos

variable {w : Winsize} {tp tp' tp'' : Tty}

theorem Draws.trans (h : Draws w tp tp') (h' : Draws w tp' tp'') : Draws w tp tp'' :=
  ⟨h'.toFramed, h'.still.trans h.still⟩

theorem Draws.steady (h : Draws w tp tp') (hs : Steady w tp) : Steady w tp' :=
  ⟨h.toFramed, h.still ▸ hs.cursor⟩

/-! ## Sizes -/

theorem int32_nat {n : Nat} (h : n < 2 ^ 31) : int32 n = n := by
  rw [int32]
  exact Int.bmod_eq_of_le (by omega) (by omega)

theorem usize_nat {n : Nat} (h : n < 2 ^ 31) : usize n = n := by
  rw [usize_of_lt (by omega) (by omega), Int.toNat_natCast]

structure Measured (w : Winsize) (tp : Tty) : Prop where
  screen : tp.screenSize = w.cells
  display : int32 (tp.win.rows * tp.win.cols) = (w.cells : Nat)
  last : tp.lastLine = w.above
  scroll : tp.scrollSize = 2 * w.above
  mark : tp.markSize = w.bytes

theorem measured (hw : w.Fits) (hwin : tp.win = w) : Measured w tp := by
  have hbytes := hw.bytes
  have hcells := hw.cells_eq
  rw [Winsize.bytes_eq] at hbytes
  have hmul : (w.rows : Int) * w.cols = (w.cells : Nat) := by
    rw [Winsize.cells]
    push_cast
    rfl
  have habove : ((w.rows : Int) - 1) * w.cols = (w.above : Nat) := by
    rw [Winsize.above, ← Nat.cast_pred hw.rows]
    push_cast
    rfl
  have hdouble (n : Nat) : ((n : Int)) * 2 = (2 * n : Nat) := by
    push_cast
    ring
  refine ⟨?_, ?_, ?_, ?_, ?_⟩
  · rw [screenSize, hwin, mul_comm, hmul, int32_nat (by omega), usize_nat (by omega)]
  · rw [hwin, hmul, int32_nat (by omega)]
  · rw [lastLine, hwin, habove, int32_nat (by omega), usize_nat (by omega)]
  · rw [scrollSize, int32_mul_two, hwin, mul_comm (w.cols : Int), habove, hdouble,
      int32_nat (by omega), usize_nat (by omega)]
  · rw [markSize, int32_mul_two, hwin, mul_comm (w.cols : Int), hmul, hdouble,
      int32_nat (by omega), usize_nat (by omega), Winsize.bytes_eq]

/-! ## Drawing -/

theorem span_ok {off n : Nat} (hwin : tp.win = w) (h : off + n ≤ w.bytes) :
    tp.span off n = .ok () := by
  rw [span, hwin, if_pos (Or.inr h)]

theorem divide_ok (hw : w.Fits) (hwin : tp.win = w) : tp.divide = .ok () := by
  rw [divide, hwin, if_neg (Nat.pos_iff_ne_zero.1 hw.cols)]

theorem Framed.refresh (h : Framed w tp) (c : Int) : Draws w tp (tp.refresh c) := by
  rw [Tty.refresh]
  split
  · exact ⟨⟨h.win, h.saved, h.upbuf, h.downbuf, h.marked⟩, rfl⟩
  · exact ⟨⟨h.win, h.saved, h.upbuf, h.downbuf, h.marked⟩, rfl⟩

theorem Framed.writeChar (h : Framed w tp) (hcursor : tp.cursorPos < w.cells) (c : Int) :
    Safe NoFault (tp.writeChar c) (Draws w tp) := by
  have hr := h.refresh c
  have hfits : 2 * (tp.refresh c).cursorPos + 2 ≤ w.bytes := by
    rw [hr.still, Winsize.bytes_eq]
    omega
  rw [Tty.writeChar, span_ok hr.win hfits, ok_bind]
  split
  · exact hr
  · exact Draws.trans hr ⟨⟨hr.win, hr.saved, hr.upbuf, hr.downbuf, fun _ => hfits⟩, rfl⟩

theorem Framed.erase (hw : w.Fits) (h : Framed w tp) {off sz : Nat} (hfits : off + sz ≤ w.cells) :
    Safe NoFault (tp.erase off sz) (Draws w tp) := by
  have hr := h.refresh (ch ' ')
  have hbytes := hw.bytes
  rw [Winsize.bytes_eq] at hbytes
  have hspan : 2 * off + 2 * sz ≤ w.bytes := by
    rw [Winsize.bytes_eq]
    omega
  have hsize : usize ((sz : Int) * 2) = 2 * sz := by
    rw [usize_of_lt (by omega) (by omega)]
    omega
  rw [Tty.erase, span_ok hr.win hspan, ok_bind]
  refine Draws.trans hr ⟨⟨hr.win, hr.saved, hr.upbuf, hr.downbuf, fun _ => ?_⟩, rfl⟩
  rw [mark_dirtyPos, mark_dirtySize, hsize]
  exact hspan

/-! ## Scrolling -/

theorem Framed.putLine (hw : w.Fits) (h : Framed w tp) {bytes : List Byte} (off : Nat)
    (hlen : bytes.length ≤ 2 * w.cols) (hoff : off + w.cols ≤ w.cells) :
    Safe NoFault (tp.putLine bytes off) (Draws w tp) := by
  have hspan : 2 * off + bytes.length ≤ w.bytes := by
    rw [Winsize.bytes_eq]
    omega
  rw [Tty.putLine, span_ok h.win hspan, ok_bind]
  split
  · rw [h.win]
    exact h.erase hw hoff
  · exact ⟨⟨h.win, h.saved, h.upbuf, h.downbuf, h.marked⟩, rfl⟩

theorem Framed.lineDown (hw : w.Fits) (h : Framed w tp) :
    Safe NoFault tp.lineDown (Draws w tp) := by
  have hwin := h.win
  subst hwin
  have hm := measured hw rfl
  have hcells := hw.cells_eq
  have hbytes := Winsize.bytes_eq tp.win
  rw [Tty.lineDown, hm.last, hm.scroll]
  refine (ringbufWriteAt_usable h.downbuf _).bind fun ⟨k, downbuf⟩ hk => ?_
  have hlen : k ≤ 2 * tp.win.cols := by simpa using hk.1
  dsimp only
  rw [span_ok rfl (by omega), ok_bind, span_ok rfl (by omega), ok_bind,
    span_ok rfl (by omega), ok_bind]
  refine (ringbufReadAt_usable h.upbuf _).bind fun ⟨bytes, upbuf⟩ hread => ?_
  have hmoved : Draws tp.win tp
      { tp with
        downbuf := downbuf
        upbuf := upbuf
        shadow := memmove tp.shadow tp.shadow (2 * tp.win.cols) 0 (2 * tp.win.above) } :=
    ⟨⟨rfl, h.saved, hread.2, hk.2, h.marked⟩, rfl⟩
  exact (hmoved.putLine hw 0 hread.1 (by omega)).mono fun tp' h' => hmoved.trans h'

theorem Framed.lineUp (hw : w.Fits) (h : Framed w tp) :
    Safe NoFault tp.lineUp (Draws w tp) := by
  have hwin := h.win
  subst hwin
  have hm := measured hw rfl
  have hcells := hw.cells_eq
  have hbytes := Winsize.bytes_eq tp.win
  rw [Tty.lineUp, hm.last, hm.scroll]
  refine (ringbufWriteAt_usable h.upbuf _).bind fun ⟨k, upbuf⟩ hk => ?_
  have hlen : k ≤ 2 * tp.win.cols := by simpa using hk.1
  dsimp only
  rw [span_ok rfl (by omega), ok_bind, span_ok rfl (by omega), ok_bind,
    span_ok rfl (by omega), ok_bind]
  refine (ringbufReadAt_usable h.downbuf _).bind fun ⟨bytes, downbuf⟩ hread => ?_
  have hmoved : Draws tp.win tp
      { tp with
        upbuf := upbuf
        downbuf := downbuf
        shadow := memmove tp.shadow tp.shadow 0 (2 * tp.win.cols) (2 * tp.win.above) } :=
    ⟨⟨rfl, h.saved, hk.2, hread.2, h.marked⟩, rfl⟩
  exact (hmoved.putLine hw tp.win.above hread.1 (by omega)).mono fun tp' h' => hmoved.trans h'

theorem Framed.scrollLines (hw : w.Fits) (down : Bool) (n : Nat) (h : Framed w tp) :
    Safe NoFault (scrollLines down n tp) (Draws w tp) := by
  induction n generalizing tp with
  | zero => exact ⟨h, rfl⟩
  | succ n ih =>
    have hrest {tp1 : Tty} (h₁ : Draws w tp tp1) :
        Safe NoFault (Tty.scrollLines down n tp1) (Draws w tp) :=
      (ih h₁.toFramed).mono fun tp' h' => h₁.trans h'
    cases down with
    | true => exact (h.lineDown hw).bind fun tp1 h₁ => hrest h₁
    | false => exact (h.lineUp hw).bind fun tp1 h₁ => hrest h₁

theorem Framed.scroll (hw : w.Fits) (h : Framed w tp) (down : Bool) (lines : Nat) :
    Safe NoFault (tp.scroll down lines) (Draws w tp) := by
  rw [scroll_eq]
  refine (h.scrollLines hw down lines).bind fun tp1 h₁ => ?_
  refine h₁.trans ⟨⟨h₁.win, h₁.saved, h₁.upbuf, h₁.downbuf, fun _ => ?_⟩, rfl⟩
  rw [mark_dirtyPos, mark_dirtySize, (measured hw h₁.win).mark]
  omega

/-! ## The cursor -/

theorem Framed.updateCursor (hw : w.Fits) (h : Framed w tp) (off : Nat) :
    Safe NoFault (tp.updateCursor off) (Steady w) := by
  have hm := measured hw h.win
  have hcells := hw.cells_eq
  have hcols := hw.cols
  have hmoved : Framed w { tp with cursorPos := off } :=
    ⟨h.win, h.saved, h.upbuf, h.downbuf, h.marked⟩
  rw [Tty.updateCursor, hm.screen]
  split
  · refine (hmoved.scroll hw false 1).bind fun tp1 h₁ => ?_
    have hpos : usize ((tp1.screenSize : Int) - tp1.win.cols) = w.above := by
      rw [(measured hw h₁.win).screen, h₁.win, usize_of_lt (by omega)
        (by have := hw.bytes; rw [Winsize.bytes_eq] at this; omega)]
      omega
    refine ⟨⟨h₁.win, h₁.saved, h₁.upbuf, h₁.downbuf, h₁.marked⟩, ?_⟩
    show usize ((tp1.screenSize : Int) - tp1.win.cols) < w.cells
    omega
  · exact ⟨hmoved, Nat.lt_of_not_le ‹_›⟩

theorem Framed.setCursorCordinates (hw : w.Fits) (h : Framed w tp) (x y : Int) :
    Safe NoFault (tp.setCursorCordinates x y) (Steady w) := h.updateCursor hw _

theorem Framed.moveCursor (hw : w.Fits) (h : Framed w tp) (dx dy : Int) :
    Safe NoFault (tp.moveCursor dx dy) (Steady w) := by
  rw [Tty.moveCursor, divide_ok hw h.win, ok_bind]
  exact h.setCursorCordinates hw _ _

theorem Framed.eraseThen (hw : w.Fits) (h : Framed w tp) {off sz : Nat} (next : Tty → Nat)
    (hfits : off + sz ≤ w.cells) :
    Safe NoFault (tp.erase off sz >>= fun tp' => tp'.updateCursor (next tp')) (Steady w) :=
  (h.erase hw hfits).bind fun _ h' => h'.updateCursor hw _

theorem Steady.eraseDisplay (hw : w.Fits) (h : Steady w tp) (param : Int) :
    Safe NoFault (tp.eraseDisplay param) (Steady w) := by
  have hm := measured hw h.win
  have hcursor := h.cursor
  have hbytes := hw.bytes
  rw [Winsize.bytes_eq] at hbytes
  have hrest : usize ((w.cells : Nat) - tp.cursorPos) = w.cells - tp.cursorPos := by
    rw [usize_of_lt (by omega) (by omega)]
    omega
  rw [Tty.eraseDisplay, hm.display, hrest, usize_nat (by omega)]
  split
  · exact h.eraseThen hw (fun tp' => tp'.cursorPos) (by omega)
  split
  · exact h.eraseThen hw (fun _ => 0) (by omega)
  split
  · exact h.eraseThen hw (fun _ => 0) (by omega)
  · exact h

theorem Steady.line_fits (hw : w.Fits) (h : Steady w tp) :
    tp.cursorPos / w.cols * w.cols + w.cols ≤ w.cells := by
  have hrow : tp.cursorPos / w.cols < w.rows := by
    rw [Nat.div_lt_iff_lt_mul hw.cols]
    exact h.cursor
  calc tp.cursorPos / w.cols * w.cols + w.cols = (tp.cursorPos / w.cols + 1) * w.cols := by
        rw [Nat.succ_mul]
    _ ≤ w.rows * w.cols := Nat.mul_le_mul_right _ hrow

theorem Steady.eraseLine (hw : w.Fits) (h : Steady w tp) (param : Int) :
    Safe NoFault (tp.eraseLine param) (Steady w) := by
  have hline := h.line_fits hw
  have hcol := Nat.mod_lt tp.cursorPos hw.cols
  have hsplit := Nat.div_add_mod' tp.cursorPos w.cols
  rw [Tty.eraseLine, divide_ok hw h.win, h.win]
  split
  · exact h.eraseThen hw (fun tp' => tp'.cursorPos) (by omega)
  split
  · exact h.eraseThen hw (fun _ => tp.cursorPos / w.cols * w.cols) (by omega)
  split
  · exact h.eraseThen hw (fun _ => tp.cursorPos / w.cols * w.cols) (by omega)
  · exact h

/-! ## Attributes -/

/-- The codes from the index `i` on, at most `n` of them, and the components of their colours are
all inside `t_esc_seq`. -/
def codesFit (tp : Tty) : Nat → Nat → Bool
  | 0, _ => true
  | n + 1, i =>
    if i < tp.escSeqcnt then
      i < ESC_SEQ_COUNT &&
        if isColor (tp.escSeq i) then
          i + 1 < ESC_SEQ_COUNT &&
            if tp.escSeq (i + 1) = 2 then i + 4 < ESC_SEQ_COUNT && tp.codesFit n (i + 5)
            else if tp.escSeq (i + 1) = 5 then i + 2 < ESC_SEQ_COUNT && tp.codesFit n (i + 3)
            else tp.codesFit n (i + 2)
        else tp.codesFit n (i + 1)
    else true

theorem seqAt_of_lt {i : Nat} (h : i < ESC_SEQ_COUNT) : tp.seqAt i = .ok (tp.escSeq i) := by
  rw [seqAt, inBounds, if_pos h, ok_bind, pure_eq_ok]

theorem seqAt_of_le {i : Nat} (h : ESC_SEQ_COUNT ≤ i) : tp.seqAt i = .error .wildAccess := by
  rw [seqAt, inBounds, if_neg (Nat.not_lt.2 h), error_bind]

theorem seqAt_isOk {α : Type} {i : Nat} {f : Int → Except Fault α} :
    (tp.seqAt i >>= f).isOk = (decide (i < ESC_SEQ_COUNT) && (f (tp.escSeq i)).isOk) := by
  by_cases h : i < ESC_SEQ_COUNT
  · rw [seqAt_of_lt h, ok_bind, decide_eq_true h, Bool.true_and]
  · rw [seqAt_of_le (Nat.not_lt.1 h), error_bind, decide_eq_false h, Bool.false_and]
    rfl

theorem attributeLoop_isOk (n i : Nat) (attr : Attr) :
    (tp.attributeLoop n i attr).isOk = tp.codesFit n i := by
  induction n generalizing i attr with
  | zero => rfl
  | succ n ih =>
    rw [attributeLoop, codesFit]
    split
    · rw [seqAt_isOk]
      congr 1
      split
      · rw [seqAt_isOk]
        congr 1
        split
        · rw [seqAt_isOk, seqAt_isOk, seqAt_isOk, ih]
          have hlast : i + 4 < ESC_SEQ_COUNT → i + 2 < ESC_SEQ_COUNT ∧ i + 3 < ESC_SEQ_COUNT := by
            omega
          by_cases h4 : i + 4 < ESC_SEQ_COUNT
          · simp [h4, hlast h4]
          · simp [h4]
        split
        · rw [seqAt_isOk, ih]
        · exact ih _ _
      · exact ih _ _
    · rfl

/-! ## Bytes -/

def commandFine (tp : Tty) : Csi → Bool
  | .column => tp.cursorPos ≠ 0
  | .attributes => tp.codesFit tp.escSeqcnt 0
  | _ => true

theorem Steady.command (hw : w.Fits) (h : Steady w tp) {cmd : Csi}
    (hfine : tp.commandFine cmd = true) : Safe NoFault (tp.command cmd) (Steady w) := by
  cases cmd with
  | up => exact h.moveCursor hw _ _
  | down => exact h.moveCursor hw _ _
  | right => exact h.moveCursor hw _ _
  | left => exact h.moveCursor hw _ _
  | nextLine =>
    rw [Tty.command, divide_ok hw h.win, ok_bind]
    exact h.setCursorCordinates hw _ _
  | prevLine =>
    rw [Tty.command, divide_ok hw h.win, ok_bind]
    exact h.setCursorCordinates hw _ _
  | column =>
    have hne : tp.cursorPos ≠ 0 := by simpa [commandFine] using hfine
    rw [Tty.command, if_neg hne]
    exact h.setCursorCordinates hw _ _
  | position => exact h.setCursorCordinates hw _ _
  | eraseDisplay => exact h.eraseDisplay hw _
  | eraseLine => exact h.eraseLine hw _
  | scroll down => exact (h.scroll hw down _).mono fun tp' h' => h'.steady h
  | line =>
    rw [Tty.command, divide_ok hw h.win, ok_bind]
    exact h.setCursorCordinates hw _ _
  | mode => exact h
  | save => exact ⟨⟨h.win, h.cursor, h.upbuf, h.downbuf, h.marked⟩, h.cursor⟩
  | restore => exact ⟨⟨h.win, h.saved, h.upbuf, h.downbuf, h.marked⟩, h.saved⟩
  | attributes =>
    have hok : (tp.attributeLoop tp.escSeqcnt 0 (tp.attrib.set TA_UPDATED)).isOk = true := by
      rw [attributeLoop_isOk]
      exact hfine
    rw [Tty.command, setAttributes, eq_ok_outcome (d := tp.attrib) hok, ok_bind]
    exact ⟨⟨h.win, h.saved, h.upbuf, h.downbuf, h.marked⟩, h.cursor⟩
  | unknown => exact h

theorem command_wrong {cmd : Csi} (hfine : tp.commandFine cmd = false) :
    ∃ e, tp.command cmd = .error e := by
  cases cmd with
  | column =>
    have heq : tp.cursorPos = 0 := by simpa [commandFine] using hfine
    exact ⟨_, if_pos heq⟩
  | attributes =>
    have hbad : (tp.attributeLoop tp.escSeqcnt 0 (tp.attrib.set TA_UPDATED)).isOk = false := by
      rw [attributeLoop_isOk]
      exact hfine
    rw [Tty.command, setAttributes]
    cases hrun : tp.attributeLoop tp.escSeqcnt 0 (tp.attrib.set TA_UPDATED) with
    | error e => exact ⟨e, rfl⟩
    | ok attr =>
      rw [hrun] at hbad
      cases hbad
  | _ => exact absurd hfine (by simp [commandFine])

def escFine (tp : Tty) (c : Int) : Bool :=
  if c = ch '[' ∧ tp.csi = false then true
  else if ch '0' ≤ c ∧ c ≤ ch '9' then tp.escSeqpos < ESC_SEQ_COUNT
  else if c = ch '?' then tp.escSeqpos < ESC_SEQ_COUNT
  else if c = ch ';' then true
  else Tty.commandFine { tp with escSeqcnt := tp.escSeqcnt + 1 } (csiOf c)

def fine (tp : Tty) (b : Byte) : Bool := !tp.esc || tp.escFine b.toInt

theorem Steady.handleCsi (hw : w.Fits) (h : Steady w tp) {c : Int}
    (hfine : tp.commandFine (csiOf c) = true) :
    Safe NoFault (tp.handleCsi c) fun out => Steady w out.2 := by
  rw [Tty.handleCsi]
  split
  · exact ⟨⟨h.win, h.saved, h.upbuf, h.downbuf, h.marked⟩, h.cursor⟩
  · refine (h.command hw hfine).bind fun tp1 h₁ => ?_
    exact ⟨⟨h₁.win, h₁.saved, h₁.upbuf, h₁.downbuf, h₁.marked⟩, h₁.cursor⟩

theorem handleCsi_wrong {c : Int} (hfine : tp.commandFine (csiOf c) = false) :
    ∃ e, tp.handleCsi c = .error e := by
  rcases command_wrong hfine with ⟨e, he⟩
  rw [Tty.handleCsi]
  split
  · rename_i hunknown
    rw [hunknown] at hfine
    cases hfine
  · exact ⟨e, by rw [he, error_bind]⟩

theorem Steady.setSeq (h : Steady w tp) (hpos : tp.escSeqpos < ESC_SEQ_COUNT) (value : Int) :
    Safe NoFault (tp.setSeq value) (Steady w) := by
  rw [Tty.setSeq, inBounds, if_pos hpos, ok_bind]
  exact ⟨⟨h.win, h.saved, h.upbuf, h.downbuf, h.marked⟩, h.cursor⟩

theorem setSeq_wrong (hpos : ESC_SEQ_COUNT ≤ tp.escSeqpos) (value : Int) :
    tp.setSeq value = .error .wildAccess := by
  rw [setSeq, inBounds, if_neg (Nat.not_lt.2 hpos), error_bind]

theorem Steady.handleEsc (hw : w.Fits) (h : Steady w tp) {c : Int} (hfine : tp.escFine c = true) :
    Safe NoFault (tp.handleEsc c) fun out => Steady w out.2 := by
  rw [escFine] at hfine
  rw [Tty.handleEsc]
  split
  · exact ⟨⟨h.win, h.saved, h.upbuf, h.downbuf, h.marked⟩, h.cursor⟩
  rw [if_neg ‹_›] at hfine
  split
  · rw [if_pos ‹_›] at hfine
    have hpos := of_decide_eq_true hfine
    rw [seqAt_of_lt hpos, ok_bind]
    exact (h.setSeq hpos _).bind fun tp1 h₁ => h₁
  rw [if_neg ‹_›] at hfine
  split
  · rw [if_pos ‹_›] at hfine
    refine (h.setSeq (of_decide_eq_true hfine) _).bind fun tp1 h₁ => ?_
    exact ⟨⟨h₁.win, h₁.saved, h₁.upbuf, h₁.downbuf, h₁.marked⟩, h₁.cursor⟩
  rw [if_neg ‹_›] at hfine
  split
  · split
    · exact ⟨⟨h.win, h.saved, h.upbuf, h.downbuf, h.marked⟩, h.cursor⟩
    · exact h
  rw [if_neg ‹_›] at hfine
  have hnext : Steady w { tp with escSeqcnt := tp.escSeqcnt + 1 } :=
    ⟨⟨h.win, h.saved, h.upbuf, h.downbuf, h.marked⟩, h.cursor⟩
  exact hnext.handleCsi hw hfine

theorem handleEsc_wrong {c : Int} (hfine : tp.escFine c = false) :
    ∃ e, tp.handleEsc c = .error e := by
  rw [escFine] at hfine
  rw [Tty.handleEsc]
  split
  · rw [if_pos ‹_›] at hfine
    cases hfine
  rw [if_neg ‹_›] at hfine
  split
  · rw [if_pos ‹_›] at hfine
    have hpos := Nat.not_lt.1 (of_decide_eq_false hfine)
    exact ⟨_, by rw [seqAt_of_le hpos, error_bind]⟩
  rw [if_neg ‹_›] at hfine
  split
  · rw [if_pos ‹_›] at hfine
    have hpos := Nat.not_lt.1 (of_decide_eq_false hfine)
    exact ⟨_, by rw [setSeq_wrong hpos, error_bind]⟩
  rw [if_neg ‹_›] at hfine
  split
  · rw [if_pos ‹_›] at hfine
    cases hfine
  rw [if_neg ‹_›] at hfine
  exact handleCsi_wrong hfine

theorem Steady.handleSpecial (hw : w.Fits) (h : Steady w tp) (c : Int) :
    Safe NoFault (tp.handleSpecial c) (Steady w) := by
  rw [Tty.handleSpecial, divide_ok hw h.win]
  split
  · dsimp only
    split
    · rw [ok_bind]
      exact h.updateCursor hw _
    · exact h.updateCursor hw _
  split
  · rw [ok_bind]
    exact h.updateCursor hw _
  split
  · exact h.updateCursor hw _
  split
  · split
    · exact (h.updateCursor hw _).bind fun tp1 h₁ => h₁.updateCursor hw _
    · exact h.updateCursor hw _
  split
  · exact h.eraseDisplay hw 2
  split
  · split
    · rw [pure_eq_ok, ok_bind]
      exact h.updateCursor hw _
    · exact (h.writeChar h.cursor c).bind fun tp1 h₁ => h₁.updateCursor hw _
  split
  · exact (h.writeChar h.cursor c).bind fun tp1 h₁ => h₁.updateCursor hw _
  · exact h.updateCursor hw _

theorem Steady.putPlain (hw : w.Fits) (h : Steady w tp) (c : Int) :
    Safe NoFault (tp.putPlain c) (Steady w) := by
  rw [Tty.putPlain, divide_ok hw h.win]
  split
  · exact ⟨⟨h.win, h.saved, h.upbuf, h.downbuf, h.marked⟩, h.cursor⟩
  split
  · rw [ok_bind]
    split
    · exact h
    · exact h.handleSpecial hw c
  · exact h.handleSpecial hw c

theorem Steady.flush (h : Steady w tp) : Safe NoFault tp.flush (Steady w) := by
  rw [Tty.flush]
  split
  · rw [span_ok h.win (h.marked ‹_›), ok_bind]
    exact ⟨⟨h.win, h.saved, h.upbuf, h.downbuf, fun hdirty => by cases hdirty⟩, h.cursor⟩
  · exact h

theorem Steady.put (hw : w.Fits) (h : Steady w tp) {b : Byte} (hfine : tp.fine b = true) :
    Safe NoFault (tp.put b.toInt) (Steady w) := by
  rw [Tty.put]
  split
  · have hok : tp.escFine b.toInt = true := by simpa [fine, ‹tp.esc = true›] using hfine
    refine (h.handleEsc hw hok).bind fun out h₁ => ?_
    rcases out with ⟨ret, tp1⟩
    cases ret with
    | ok => exact h₁
    | err e =>
      have hend : Steady w tp1.endEsc :=
        ⟨⟨h₁.win, h₁.saved, h₁.upbuf, h₁.downbuf, h₁.marked⟩, h₁.cursor⟩
      exact hend.putPlain hw _
  · exact h.putPlain hw _

theorem Steady.putByte (hw : w.Fits) (h : Steady w tp) {b : Byte} (hfine : tp.fine b = true) :
    Safe NoFault (tp.putByte b) (Steady w) :=
  (h.put hw hfine).bind fun _ h' => h'.flush

theorem putByte_wrong {b : Byte} (hfine : tp.fine b = false) : ∃ e, tp.putByte b = .error e := by
  rw [fine, Bool.or_eq_false_iff, Bool.not_eq_false'] at hfine
  rcases handleEsc_wrong hfine.2 with ⟨e, he⟩
  exact ⟨e, by rw [putByte, put, if_pos hfine.1, he, error_bind, error_bind]⟩

/-! ## Chunks -/

/-- The bytes that `console_write` handles of a chunk: it stops at a null byte. -/
def handled (chunk : List Byte) : List Byte := chunk.takeWhile (· ≠ 0)

/-- `console_write` with one chunk after the other; what it returns does not matter. -/
def writes (tp : Tty) : List (List Byte) → Except Fault Tty
  | [] => .ok tp
  | chunk :: chunks => do
      let (_, tp) ← tp.consoleWrite (fun i => chunk.getD i 0) chunk.length
      tp.writes chunks

theorem writeLoop_eq (buf : Nat → Byte) (n i : Nat) (tp : Tty) :
    (writeLoop buf n i tp).map Prod.snd =
      runs putByte tp (handled ((List.range n).map fun k => buf (i + k))) := by
  induction n generalizing i tp with
  | zero => rfl
  | succ n ih =>
    have hrest : (List.range (n + 1)).map (fun k => buf (i + k)) =
        buf i :: (List.range n).map fun k => buf (i + 1 + k) := by
      rw [List.range_succ_eq_map, List.map_cons, List.map_map]
      refine congrArg _ (List.map_congr_left fun k _ => congrArg buf ?_)
      show i + (k + 1) = i + 1 + k
      omega
    rw [writeLoop, hrest, handled, List.takeWhile_cons]
    by_cases hzero : buf i = 0
    · rw [if_pos hzero, if_neg (by simp [hzero])]
      rfl
    · rw [if_neg hzero, if_pos (by simpa using hzero), runs]
      cases putByte tp (buf i) with
      | error e => rfl
      | ok tp1 => exact ih (i + 1) tp1

theorem consoleWrite_eq (chunk : List Byte) (tp : Tty) :
    (tp.consoleWrite (fun i => chunk.getD i 0) chunk.length).map Prod.snd =
      runs putByte tp (handled chunk) := by
  cases chunk with
  | nil => rfl
  | cons b chunk =>
    have hbytes : (List.range (b :: chunk).length).map (fun k => (b :: chunk).getD (0 + k) 0) =
        b :: chunk := by
      refine List.ext_getElem (by simp) fun k hk _ => ?_
      simp only [List.length_map, List.length_range] at hk
      rw [List.getElem_map, List.getElem_range, Nat.zero_add, List.getD_eq_getElem?_getD,
        List.getElem?_eq_getElem hk, Option.getD_some]
    have hloop := writeLoop_eq (fun k => (b :: chunk).getD k 0) (b :: chunk).length 0 tp
    rw [hbytes] at hloop
    rw [consoleWrite, if_neg (by simp), ← hloop]
    cases writeLoop (fun k => (b :: chunk).getD k 0) (b :: chunk).length 0 tp with
    | error e => rfl
    | ok out => rfl

theorem writes_eq_runs (tp : Tty) (chunks : List (List Byte)) :
    tp.writes chunks = runs putByte tp (chunks.flatMap handled) := by
  induction chunks generalizing tp with
  | nil => rfl
  | cons chunk chunks ih =>
    rw [writes, List.flatMap_cons, runs_append, ← consoleWrite_eq]
    cases tp.consoleWrite (fun i => chunk.getD i 0) chunk.length with
    | error e => rfl
    | ok out => exact ih out.2

theorem Steady.opened (hw : w.Fits) (opost onocr onlret : Bool) (vga mem : Nat → Byte) :
    Steady w (opened w opost onocr onlret vga mem) := by
  have hcells : 0 < w.cells := Nat.mul_pos hw.rows hw.cols
  exact ⟨⟨rfl, hcells, fun _ => rfl, fun _ => rfl, fun hdirty => by cases hdirty⟩, hcells⟩

/-- For a console that has been opened, whatever is written to it in whatever chunks: the handling of
each byte returns, with the cursor in the window, exactly if each byte is a fine one where it is
handled.  Handling includes every access to the shadow buffer and to `t_esc_seq` and every
division. -/
theorem console_safe_iff (w : Winsize) (opost onocr onlret : Bool) (vga mem : Nat → Byte)
    (chunks : List (List Byte)) (hrows : 0 < w.rows) (hcols : 0 < w.cols)
    (hbytes : w.bytes < 2 ^ 31) :
    (opened w opost onocr onlret vga mem).writes chunks =
        runs putByte (opened w opost onocr onlret vga mem) (chunks.flatMap handled) ∧
      (Stepwise NoFault putByte (fun _ _ tp => tp.cursorPos < w.rows * w.cols)
          (opened w opost onocr onlret vga mem) (chunks.flatMap handled) ↔
        guarded putByte fine (opened w opost onocr onlret vga mem) (chunks.flatMap handled) =
          true) := by
  have hw : w.Fits := ⟨hrows, hcols, hbytes⟩
  refine ⟨writes_eq_runs _ _, stepwise_iff_guarded ?_ ?_ (Steady.opened hw _ _ _ _ _)⟩
  · exact fun tp b h hfine => (h.putByte hw hfine).mono fun tp' h' => ⟨h'.cursor, h'⟩
  · intro tp b _ hfine hsafe
    rcases putByte_wrong hfine with ⟨e, he⟩
    rw [he] at hsafe
    exact hsafe

theorem console_safe_iff_clear :
    (opened ⟨25, 80⟩ true true true (fun _ => 0) fun _ => 0).writes [[27, 0x5b, 0x32], [0x4a]] =
        runs putByte (opened ⟨25, 80⟩ true true true (fun _ => 0) fun _ => 0)
          ([[27, 0x5b, 0x32], [0x4a]].flatMap handled) ∧
      (Stepwise NoFault putByte (fun _ _ tp => tp.cursorPos < 25 * 80)
          (opened ⟨25, 80⟩ true true true (fun _ => 0) fun _ => 0)
          ([[27, 0x5b, 0x32], [0x4a]].flatMap handled) ↔
        guarded putByte fine (opened ⟨25, 80⟩ true true true (fun _ => 0) fun _ => 0)
          ([[27, 0x5b, 0x32], [0x4a]].flatMap handled) = true) :=
  console_safe_iff ⟨25, 80⟩ true true true (fun _ => 0) (fun _ => 0) [[27, 0x5b, 0x32], [0x4a]]
    (by decide) (by decide) (by decide)

/-- `ESC [ 5 G` in the first cell divides by the position; the 257th parameter is stored behind
`t_esc_seq`; a `38` that is the last of 256 parameters is followed by a colour outside of it. -/
theorem console_unsafe :
    ((opened ⟨25, 80⟩ true true true (fun _ => 0) fun _ => 0).writes
      [[27, 0x5b, 0x35, 0x47]]).map (fun _ => ()) = .error .divideByZero ∧
    ((opened ⟨25, 80⟩ true true true (fun _ => 0) fun _ => 0).writes
      [[27, 0x5b] ++ List.replicate 256 0x3b ++ [0x31]]).map (fun _ => ()) = .error .wildAccess ∧
    ((opened ⟨25, 80⟩ true true true (fun _ => 0) fun _ => 0).writes
      [[27, 0x5b] ++ List.replicate 255 0x3b ++ [0x33, 0x38, 0x6d]]).map (fun _ => ()) =
        .error .wildAccess := by
  refine ⟨?_, ?_, ?_⟩ <;> decide +kernel

end Tty
end Dev
end XytherOS
