import XytherOS.Dev.XTtySafe
import XytherOS.Dev.XTtyChunks

/-!
# XTtyEdit — the line discipline as a line editor

What canonical input is for: an editor of one line with a cursor, which delivers the line at a
newline or when it is full.  `Editor` is that editor; `agrees` says where a turn of
`x_tty_receive_buf` does what the editor does, and `receive_edits` takes runs of such turns.

* The flush flag of a full line is never reset, and every turn behind it delivers.
* `VWERASE` takes the text behind the cursor along, and all the words in front of it.
* `VEOF` on an empty line delivers itself, `INLCR` puts a carriage return into the line, the byte
  behind an `ESC` is lost, and an extra end-of-line character goes in at the cursor.
-/

namespace XytherOS
namespace XTty

open Fs (Byte)

/-! ## The editor -/

inductive Command
  | insert (c : Byte)
  | erase
  | moveRight
  | moveLeft
  | eraseWord
  | clear
  | newline (c : Byte)
  | eof
  | nothing
  deriving DecidableEq, Repr

def arrow : List Byte → Command
  | seq :: cmd :: _ =>
    if seq ≠ byte '[' then .nothing
    else if cmd = byte 'C' then .moveRight
    else if cmd = byte 'D' then .moveLeft
    else .nothing
  | _ => .nothing

/-- The meaning of the character `c` with the settings `tio`. -/
def command (tio : Termios) (c : Byte) (rest : List Byte) : Command :=
  if tio.isSignal c then .clear
  else if c == BS || tio.is VERASE c then .erase
  else if tio.is VKILL c then .clear
  else if tio.is VEOF c then .eof
  else if tio.is VWERASE c then .eraseWord
  else if tio.is VDISCARD c then .clear
  else if c == CR && tio.iflag IGNCR then .nothing
  else if c == CR && tio.iflag ICRNL then .newline NL
  else if c == ESC then arrow rest
  else if tio.isNL c then .newline c
  else if ttyIsprint c then .insert c
  else .nothing

/-- How many bytes behind the character belong to it: those of a sequence `ESC [ x`. -/
def sequenceLength (tio : Termios) (c : Byte) : List Byte → Nat
  | seq :: _ :: _ => if tio.readsEsc c ∧ seq = byte '[' then 2 else 0
  | _ => 0

structure Editor where
  left : List Byte
  right : List Byte
  deriving DecidableEq, Repr

namespace Editor

variable (e : Editor)

def empty : Editor := ⟨[], []⟩

def length : Nat := e.left.length + e.right.length

def full : Bool := e.length + 3 == XTTYFBMAX.toNat

def withoutWord (cs : List Byte) : List Byte :=
  (cs.rdropWhile (· == byte ' ')).rdropWhile (· != byte ' ')

def step : Command → Option (List Byte) × Editor
  | .insert c =>
    let e' : Editor := ⟨e.left ++ [c], e.right⟩
    if e'.full then (some (e'.left ++ e'.right), empty) else (none, e')
  | .erase => (none, ⟨e.left.dropLast, e.right⟩)
  | .moveRight =>
    match e.right with
    | [] => (none, e)
    | c :: right => (none, ⟨e.left ++ [c], right⟩)
  | .moveLeft =>
    match e.left.getLast? with
    | none => (none, e)
    | some c => (none, ⟨e.left.dropLast, c :: e.right⟩)
  | .eraseWord => (none, ⟨withoutWord e.left, e.right⟩)
  | .clear => (none, empty)
  | .newline c => (some (e.left ++ e.right ++ [c]), empty)
  | .eof => (none, e)
  | .nothing => (none, e)

/-- The editor over a buffer of input, with the number of bytes that are skipped: the lines that it
delivers. -/
def run (tio : Termios) : Nat → List Byte → Editor → List (List Byte) × Editor
  | _, [], e => ([], e)
  | skip + 1, _ :: rest, e => run tio skip rest e
  | 0, c :: rest, e =>
    let next := e.step (command tio c rest)
    let later := run tio (sequenceLength tio c rest) rest next.2
    (next.1.toList ++ later.1, later.2)

def runCalls (tio : Termios) : List (List Byte) → Editor → List (List Byte) × Editor
  | [], e => ([], e)
  | cp :: cps, e =>
    let next := run tio 0 cp e
    let later := runCalls tio cps next.2
    (next.1 ++ later.1, later.2)

end Editor

/-! ## Where a turn does what the editor does -/

def Ldata.line (ld : Ldata) : Line where
  left := (ld.bytes ld.inlen.toNat).take ld.inpos.toNat
  right := (ld.bytes ld.inlen.toNat).drop ld.inpos.toNat
  flush := ld.flush

def Line.agrees (l : Line) (tio : Termios) (c : Byte) (rest : List Byte) : Bool :=
  (!tio.readsEsc c || escLength rest != 1) &&
    match command tio c rest with
    | .insert _ => !l.flush && (l.right == [] || l.length + 4 < XTTYFBMAX.toNat)
    | .newline d => if d == NL then !(c == NL && tio.iflag INLCR) else l.right == []
    | .eraseWord => l.right == [] && Editor.withoutWord l.left == []
    | .eof => l.length != 0
    | .nothing => !l.flush
    | _ => true

/-- The turn does what the editor does, and the input buffer has room for a line. -/
def Tty.agrees (tp : Tty) (c : Byte) (rest : List Byte) : Bool :=
  tp.fits c && tp.tLdata.line.agrees tp.tTermios c rest &&
    tp.tInputbuf.contents.length + XTTYFBMAX.toNat ≤ TTYBUFSZ.toNat

def Line.editor (l : Line) : Editor := ⟨l.left, l.right⟩

/-- The bytes delivered and the text left behind are those of the editor. -/
def Follows (x : List Byte × Line) (y : Option (List Byte) × Editor) : Prop :=
  x.1 = y.1.getD [] ∧ x.2.editor = y.2

section Turn

variable {tio : Termios} {l : Line} {c : Byte}

theorem put_short (hshort : l.length + 3 < XTTYFBMAX.toNat) (c : Byte) :
    l.put c = if c = NL then (l.left, l.right ++ [NL]) else (l.left ++ [c], l.right) := by
  rw [Line.length] at hshort
  rw [Line.put, if_pos (by omega)]

theorem ordinary_newline (hshort : l.length + 3 < XTTYFBMAX.toNat) (hnl : tio.isNL c = true)
    (hend : c ≠ NL → l.right = []) :
    Follows (l.ordinary tio c) (l.editor.step (.newline c)) := by
  have htyped : l.typed tio c = l.insert c := by
    rw [Line.typed, hnl, Bool.or_true, if_pos rfl]
  rw [Line.ordinary, htyped, hnl, Bool.true_or, if_pos rfl, Line.insert, put_short hshort]
  refine ⟨?_, rfl⟩
  by_cases hc : c = NL
  · rw [if_pos hc, hc]
    exact (List.append_assoc ..).symm
  · rw [if_neg hc]
    simp [Editor.step, Line.editor, hend hc]

theorem ordinary_insert (hshort : l.length + 3 < XTTYFBMAX.toNat) (hprint : ttyIsprint c = true)
    (hnl : tio.isNL c = false) (hflush : l.flush = false)
    (hroom : l.right = [] ∨ l.length + 4 < XTTYFBMAX.toNat) :
    Follows (l.ordinary tio c) (l.editor.step (.insert c)) := by
  have hc : c ≠ NL := by
    rintro rfl
    exact absurd hprint (by decide)
  have htyped : l.typed tio c = l.insert c := by
    rw [Line.typed, hprint, Bool.true_or, if_pos rfl]
  have hput : l.put c = (l.left ++ [c], l.right) := by
    rw [put_short hshort, if_neg hc]
  -- the cursor is at the end of a full line
  have hfull : decide ((l.left ++ [c]).length + 3 = XTTYFBMAX.toNat) =
      (⟨l.left ++ [c], l.right⟩ : Editor).full := by
    rw [Editor.full, Editor.length, Bool.eq_iff_iff, decide_eq_true_eq, beq_iff_eq]
    rw [Line.length] at hroom hshort
    simp only [List.length_append, List.length_singleton]
    rcases hroom with hright | hroom
    · rw [hright, List.length_nil, Nat.add_zero]
    · omega
  have hstep : l.editor.step (.insert c) =
      if (⟨l.left ++ [c], l.right⟩ : Editor).full then (some (l.left ++ [c] ++ l.right), .empty)
      else (none, ⟨l.left ++ [c], l.right⟩) := rfl
  rw [Line.ordinary, htyped, Line.insert, hput, hnl, hflush, Bool.false_or, Bool.false_or, hfull,
    hstep]
  by_cases hf : (⟨l.left ++ [c], l.right⟩ : Editor).full = true
  · rw [if_pos hf, if_pos hf]
    exact ⟨rfl, rfl⟩
  · rw [if_neg hf, if_neg hf]
    exact ⟨rfl, rfl⟩

theorem ordinary_other (hprint : ttyIsprint c = false) (hnl : tio.isNL c = false)
    (hflush : l.flush = false) : Follows (l.ordinary tio c) (l.editor.step .nothing) := by
  have htyped : l.typed tio c = l := by
    rw [Line.typed, hprint, hnl, Bool.or_self, if_neg (by simp)]
  rw [Line.ordinary, htyped, hnl, hflush, Bool.or_self, if_neg (by simp)]
  exact ⟨rfl, rfl⟩

theorem werase_follows (hprint : ∀ c ∈ l.left, ttyIsprint c = true) (hright : l.right = [])
    (hword : Editor.withoutWord l.left = []) :
    Follows ([], l.werase) (l.editor.step .eraseWord) := by
  have hcode : (l.left.rdropWhile fun c => c == byte ' ' || !ttyIsprint c).rdropWhile ttyIsprint =
      [] := by
    rw [List.rdropWhile_eq_nil_iff]
    intro c hc
    exact hprint c ((List.rdropWhile_prefix _ _).subset hc)
  refine ⟨rfl, ?_⟩
  rw [Line.werase, hcode]
  simp [Line.editor, Editor.step, hright, hword]

theorem escape_follows (rest : List Byte) :
    Follows ([], l.escape rest) (l.editor.step (arrow rest)) := by
  rcases rest with _ | ⟨seq, _ | ⟨cmd, rest⟩⟩
  · exact ⟨rfl, rfl⟩
  · exact ⟨rfl, rfl⟩
  rw [Line.escape, arrow]
  by_cases hseq : seq ≠ byte '['
  · rw [if_pos hseq, if_pos hseq]
    exact ⟨rfl, rfl⟩
  rw [if_neg hseq, if_neg hseq]
  by_cases hC : cmd = byte 'C'
  · rw [if_pos hC, if_pos hC, Editor.step]
    rcases l with ⟨left, _ | ⟨c, right⟩, flush⟩
    · exact ⟨rfl, rfl⟩
    · exact ⟨rfl, rfl⟩
  rw [if_neg hC, if_neg hC]
  by_cases hD : cmd = byte 'D'
  · rw [if_pos hD, if_pos hD, Editor.step, Line.editor]
    cases l.left.getLast? with
    | none => exact ⟨rfl, rfl⟩
    | some c => exact ⟨rfl, rfl⟩
  · rw [if_neg hD, if_neg hD]
    exact ⟨rfl, rfl⟩

theorem receive_follows (hcanon : tio.lflag ICANON = true) (hshort : l.length + 3 < XTTYFBMAX.toNat)
    (hprint : ∀ c ∈ l.left, ttyIsprint c = true) {rest : List Byte}
    (hagrees : l.agrees tio c rest = true) :
    Follows (l.receive tio c rest) (l.editor.step (command tio c rest)) := by
  rw [Line.agrees, Bool.and_eq_true] at hagrees
  have hmatch := hagrees.2
  rw [command] at hmatch ⊢
  rw [Line.receive, if_neg (by rw [hcanon]; decide : ¬ (!tio.lflag ICANON) = true)]
  by_cases hsignal : tio.isSignal c = true
  · rw [if_pos hsignal, if_pos hsignal]
    exact ⟨rfl, rfl⟩
  rw [if_neg hsignal] at hmatch
  rw [if_neg hsignal, if_neg hsignal]
  by_cases herase : (c == BS || tio.is VERASE c) = true
  · rw [if_pos herase, if_pos herase]
    exact ⟨rfl, rfl⟩
  rw [if_neg herase] at hmatch
  rw [if_neg herase, if_neg herase]
  by_cases hkill : tio.is VKILL c = true
  · rw [if_pos hkill, if_pos hkill]
    exact ⟨rfl, rfl⟩
  rw [if_neg hkill] at hmatch
  rw [if_neg hkill, if_neg hkill]
  by_cases heof : tio.is VEOF c = true
  · rw [if_pos heof] at hmatch
    rw [if_pos heof, if_pos heof, if_neg (by simpa using hmatch)]
    exact ⟨rfl, rfl⟩
  rw [if_neg heof] at hmatch
  rw [if_neg heof, if_neg heof]
  by_cases hwerase : tio.is VWERASE c = true
  · rw [if_pos hwerase, Bool.and_eq_true, beq_iff_eq, beq_iff_eq] at hmatch
    rw [if_pos hwerase, if_pos hwerase]
    exact werase_follows hprint hmatch.1 hmatch.2
  rw [if_neg hwerase] at hmatch
  rw [if_neg hwerase, if_neg hwerase]
  by_cases hdiscard : tio.is VDISCARD c = true
  · rw [if_pos hdiscard, if_pos hdiscard]
    exact ⟨rfl, rfl⟩
  rw [if_neg hdiscard] at hmatch
  rw [if_neg hdiscard, if_neg hdiscard]
  by_cases hign : (c == CR && tio.iflag IGNCR) = true
  · rw [if_pos hign, if_pos hign]
    exact ⟨rfl, rfl⟩
  rw [if_neg hign] at hmatch
  rw [if_neg hign, if_neg hign]
  by_cases hcr : (c == CR && tio.iflag ICRNL) = true
  · rw [if_pos hcr, if_pos hcr]
    exact ordinary_newline hshort rfl fun hne => absurd rfl hne
  rw [if_neg hcr] at hmatch
  rw [if_neg hcr, if_neg hcr]
  by_cases hinlcr : (c == NL && tio.iflag INLCR) = true
  · -- the carriage return that goes in first is none of the editor's
    exfalso
    rw [Bool.and_eq_true, beq_iff_eq] at hinlcr
    obtain ⟨rfl, hflag⟩ := hinlcr
    have hnl : tio.isNL NL = true := rfl
    rw [if_neg (by decide), if_pos hnl] at hmatch
    simp [hflag] at hmatch
  rw [if_neg hinlcr]
  by_cases hesc : (c == ESC) = true
  · rw [if_pos hesc, if_pos hesc]
    exact escape_follows rest
  rw [if_neg hesc] at hmatch
  rw [if_neg hesc, if_neg hesc]
  by_cases hnl : tio.isNL c = true
  · rw [if_pos hnl] at hmatch
    rw [if_pos hnl]
    refine ordinary_newline hshort hnl fun hne => ?_
    simpa [hne] using hmatch
  rw [if_neg hnl] at hmatch
  rw [if_neg hnl]
  have hnl' := Bool.eq_false_iff.2 hnl
  by_cases hp : ttyIsprint c = true
  · rw [if_pos hp, Bool.and_eq_true, Bool.not_eq_true', Bool.or_eq_true, beq_iff_eq,
      decide_eq_true_eq] at hmatch
    rw [if_pos hp]
    exact ordinary_insert hshort hp hnl' hmatch.1 hmatch.2
  · rw [if_neg hp, Bool.not_eq_true'] at hmatch
    rw [if_neg hp]
    exact ordinary_other (Bool.eq_false_iff.2 hp) hnl' hmatch

end Turn

/-! ## Runs of the editor -/

namespace Editor

structure Sound (e : Editor) : Prop where
  short : e.length + 3 < XTTYFBMAX.toNat
  printable : ∀ c ∈ e.left ++ e.right, ttyIsprint c = true

variable {e : Editor}

theorem sound_empty : empty.Sound where
  short := by decide
  printable c hc := absurd hc (by simp [empty])

theorem Sound.less {e' : Editor} (h : e.Sound) (hlen : e'.length ≤ e.length)
    (hsub : ∀ c ∈ e'.left ++ e'.right, c ∈ e.left ++ e.right) : e'.Sound where
  short := by
    have := h.short
    omega
  printable c hc := h.printable c (hsub c hc)

theorem withoutWord_start (cs : List Byte) : withoutWord cs <+: cs :=
  (List.rdropWhile_prefix _ _).trans (List.rdropWhile_prefix _ _)

theorem Sound.step (h : e.Sound) {cmd : Command}
    (hins : ∀ c, cmd = .insert c → ttyIsprint c = true) : (e.step cmd).2.Sound := by
  cases cmd with
  | insert c =>
    rw [Editor.step]
    dsimp only
    split
    · exact sound_empty
    · rename_i hroom
      refine ⟨?_, fun d hd => ?_⟩
      · have hshort := h.short
        rw [full, beq_iff_eq, length] at hroom
        rw [length] at hshort ⊢
        simp only [List.length_append, List.length_singleton] at hroom ⊢
        omega
      · simp only [List.mem_append, List.mem_singleton] at hd
        rcases hd with (hd | rfl) | hd
        · exact h.printable d (List.mem_append_left _ hd)
        · exact hins d rfl
        · exact h.printable d (List.mem_append_right _ hd)
  | erase =>
    refine h.less ?_ fun d hd => ?_
    · simp only [Editor.step, length, List.length_dropLast]
      omega
    · rcases List.mem_append.1 hd with hd | hd
      · exact List.mem_append_left _ (List.dropLast_subset _ hd)
      · exact List.mem_append_right _ hd
  | moveRight =>
    rcases e with ⟨left, _ | ⟨c, right⟩⟩
    · exact h
    · refine h.less ?_ fun d hd => ?_
      · simp only [Editor.step, length, List.length_append, List.length_cons, List.length_nil]
        omega
      · simpa [Editor.step] using hd
  | moveLeft =>
    rcases e with ⟨left, right⟩
    rcases List.eq_nil_or_concat left with rfl | ⟨left, c, rfl⟩
    · exact h
    · rw [Editor.step, List.concat_eq_append]
      dsimp only
      rw [List.getLast?_concat, List.dropLast_concat]
      refine h.less ?_ fun d hd => ?_
      · simp only [length, List.length_concat, List.length_cons]
        omega
      · simpa using hd
  | eraseWord =>
    refine h.less ?_ fun d hd => ?_
    · have := (withoutWord_start e.left).length_le
      simp only [Editor.step, length]
      omega
    · rcases List.mem_append.1 hd with hd | hd
      · exact List.mem_append_left _ ((withoutWord_start e.left).subset hd)
      · exact List.mem_append_right _ hd
  | clear => exact sound_empty
  | newline c => exact sound_empty
  | eof => exact h
  | nothing => exact h

theorem Sound.line_length (h : e.Sound) (cmd : Command) :
    ((e.step cmd).1.getD []).length ≤ XTTYFBMAX.toNat := by
  have hshort := h.short
  rw [length] at hshort
  cases cmd with
  | insert c =>
    rw [Editor.step]
    dsimp only
    split
    · simp only [Option.getD_some, List.length_append, List.length_singleton]
      omega
    · exact Nat.zero_le _
  | newline c =>
    simp only [Editor.step, Option.getD_some, List.length_append, List.length_singleton]
    omega
  | moveRight =>
    rw [Editor.step]
    split <;> exact Nat.zero_le _
  | moveLeft =>
    rw [Editor.step]
    split <;> exact Nat.zero_le _
  | erase => exact Nat.zero_le _
  | eraseWord => exact Nat.zero_le _
  | clear => exact Nat.zero_le _
  | eof => exact Nat.zero_le _
  | nothing => exact Nat.zero_le _

end Editor

def Command.Printable (cmd : Command) : Prop := ∀ c, cmd = .insert c → ttyIsprint c = true

theorem Command.Printable.ite {p : Prop} [Decidable p] {cmd cmd' : Command}
    (h : p → cmd.Printable) (h' : ¬p → cmd'.Printable) : (if p then cmd else cmd').Printable := by
  by_cases hp : p
  · rw [if_pos hp]
    exact h hp
  · rw [if_neg hp]
    exact h' hp

theorem Command.Printable.other {cmd : Command} (h : ∀ c, cmd ≠ .insert c) : cmd.Printable :=
  fun c hc => absurd hc (h c)

theorem arrow_printable (rest : List Byte) : (arrow rest).Printable := by
  have hnone : Command.Printable .nothing := .other fun _ => by simp
  rcases rest with _ | ⟨seq, _ | ⟨cmd, rest⟩⟩
  · exact hnone
  · exact hnone
  · refine .ite (fun _ => hnone) fun _ => .ite (fun _ => ?_) fun _ => ?_
    · exact .other fun _ => by simp
    · exact .ite (fun _ => .other fun _ => by simp) fun _ => hnone

theorem command_printable (tio : Termios) (c : Byte) (rest : List Byte) :
    (command tio c rest).Printable := by
  have hclear : Command.Printable .clear := .other fun _ => by simp
  have hnone : Command.Printable .nothing := .other fun _ => by simp
  refine .ite (fun _ => hclear) fun _ => .ite (fun _ => .other fun _ => by simp) fun _ => ?_
  refine .ite (fun _ => hclear) fun _ => .ite (fun _ => .other fun _ => by simp) fun _ => ?_
  refine .ite (fun _ => .other fun _ => by simp) fun _ => .ite (fun _ => hclear) fun _ => ?_
  refine .ite (fun _ => hnone) fun _ => .ite (fun _ => .other fun _ => by simp) fun _ => ?_
  refine .ite (fun _ => arrow_printable rest) fun _ => ?_
  refine .ite (fun _ => .other fun _ => by simp) fun _ => ?_
  refine .ite (fun hprint => ?_) fun _ => hnone
  intro d hd
  rw [← Command.insert.inj hd]
  exact hprint

theorem receiveChar_consumed {tp tp' : Tty} {c : Byte} {rest : List Byte} {k : Option Nat}
    (h : tp.receiveChar c rest = .ok (k, tp')) :
    k = if tp.tTermios.readsEsc c then (if rest.isEmpty then none else some (escLength rest))
      else some 0 := by
  cases hesc : tp.tTermios.readsEsc c with
  | true =>
    rw [receiveChar_esc hesc] at h
    rw [if_pos rfl]
    by_cases hrest : rest.isEmpty = true
    · rw [if_pos hrest] at h ⊢
      exact (Prod.mk.inj (Except.ok.inj h)).1.symm
    · rw [if_neg hrest] at h ⊢
      exact (Prod.mk.inj (Except.ok.inj h)).1.symm
  | false =>
    rcases receiveChar_other hesc with ⟨x, -, hx⟩
    rw [hx] at h
    rw [if_neg Bool.false_ne_true]
    cases x with
    | error e => exact absurd h (by simp [Except.map])
    | ok tp'' => exact (Prod.mk.inj (Except.ok.inj h)).1.symm

structure Shares (tp : Tty) (e : Editor) : Prop where
  shows : ∃ flush, tp.tLdata.Shows ⟨e.left, e.right, flush⟩
  sound : e.Sound

theorem Ldata.Shows.line_eq {ld : Ldata} {l : Line} (h : ld.Shows l) : ld.line = l := by
  have hpos : ld.inpos.toNat = l.left.length := by
    rw [h.inpos]
    rfl
  rw [Ldata.line, h.holds.bytes, hpos, List.take_left, List.drop_left, h.flush]

theorem consumed_eq {tio : Termios} {c : Byte} {rest : List Byte}
    (h : (!tio.readsEsc c || escLength rest != 1) = true) :
    (if tio.readsEsc c then escLength rest else 0) = sequenceLength tio c rest := by
  rcases rest with _ | ⟨seq, _ | ⟨cmd, rest⟩⟩
  · simp [escLength, sequenceLength]
  · simp [escLength, sequenceLength]
  rw [sequenceLength]
  cases hesc : tio.readsEsc c with
  | false => rfl
  | true =>
    rw [hesc, Bool.not_true, Bool.false_or, bne_iff_ne, escLength] at h
    rw [escLength]
    by_cases hseq : seq = byte '['
    · simp [hseq]
    · simp [hseq] at h

theorem Inputbuf.contents_write_of_le {b : Inputbuf} {out : List Byte}
    (h : b.contents.length + out.length ≤ TTYBUFSZ.toNat) :
    (b.write out).contents = b.contents ++ out := by
  rw [b.contents_write, List.take_of_length_le (by omega)]

theorem Shares.turn {tp : Tty} {e : Editor} {c : Byte} {rest : List Byte} (h : Shares tp e)
    (hcanon : tp.tTermios.lflag ICANON = true) (hagrees : tp.agrees c rest = true) :
    ∃ k tp', tp.receiveChar c rest = .ok (k, tp') ∧
      (rest ≠ [] → k = some (sequenceLength tp.tTermios c rest)) ∧
      tp'.tTermios = tp.tTermios ∧
      tp'.tInputbuf.contents = tp.tInputbuf.contents ++
        (e.step (command tp.tTermios c rest)).1.getD [] ∧
      Shares tp' (e.step (command tp.tTermios c rest)).2 := by
  rcases h with ⟨⟨flush, hshows⟩, hsound⟩
  rw [Tty.agrees, Bool.and_eq_true, Bool.and_eq_true, decide_eq_true_eq, hshows.line_eq] at hagrees
  rcases hagrees with ⟨⟨hfits, hline⟩, hroom⟩
  have hshort := hsound.short
  have hleft : ∀ c ∈ e.left, ttyIsprint c = true :=
    fun c hc => hsound.printable c (List.mem_append_left _ hc)
  have hfollows : Follows (Line.receive ⟨e.left, e.right, flush⟩ tp.tTermios c rest)
      (e.step (command tp.tTermios c rest)) :=
    receive_follows (l := ⟨e.left, e.right, flush⟩) hcanon hshort hleft hline
  have hless : Line.length ⟨e.left, e.right, flush⟩ < XTTYFBMAX.toNat :=
    Nat.lt_of_le_of_lt (Nat.le_add_right _ 3) hshort
  rcases receiveChar_turns hshows hless hfits rest with ⟨⟨ld, w, hmap, hld⟩, -⟩
  rcases hstep : tp.receiveChar c rest with err | ⟨k, tp'⟩
  · rw [hstep] at hmap
    exact absurd hmap (by simp [Except.map])
  rw [hstep] at hmap
  have htp : tp' = _ := Except.ok.inj hmap
  refine ⟨k, tp', rfl, fun hne => ?_, ?_, ?_, ?_, ?_⟩
  · have hk := receiveChar_consumed hstep
    have hrest : rest.isEmpty = false := by simpa using hne
    rw [Line.agrees, Bool.and_eq_true] at hline
    rw [hk, ← consumed_eq hline.1, hrest, if_neg Bool.false_ne_true]
    split <;> rfl
  · rw [htp]
  · rw [htp, hfollows.1]
    refine Inputbuf.contents_write_of_le ?_
    have hle := hsound.line_length (command tp.tTermios c rest)
    exact Nat.le_trans (Nat.add_le_add_left hle _) hroom
  · rw [htp, ← hfollows.2]
    exact ⟨_, hld⟩
  · exact hsound.step (command_printable _ c rest)

/-- Turn by turn, the line buffer is the editor's and the bytes delivered are the editor's line. -/
def lockstep : Nat → List Byte → Tty → Editor → Prop
  | _, [], tp, e => tp.tLdata.line.editor = e
  | skip + 1, _ :: rest, tp, e => lockstep skip rest tp e
  | 0, c :: rest, tp, e =>
    tp.tLdata.line.editor = e ∧
      match tp.receiveChar c rest with
      | .ok (k, tp') =>
        tp'.tInputbuf.contents = tp.tInputbuf.contents ++
            (e.step (command tp.tTermios c rest)).1.getD [] ∧
          lockstep (k.getD 0) rest tp' (e.step (command tp.tTermios c rest)).2
      | .error _ => False

def lockstepCalls : List (List Byte) → Tty → Editor → Prop
  | [], tp, e => tp.tLdata.line.editor = e
  | cp :: cps, tp, e =>
    lockstep 0 cp tp e ∧ ∀ tp', xTtyReceiveBuf tp cp = .ok tp' →
      lockstepCalls cps tp' (Editor.run tp.tTermios 0 cp e).2

theorem Shares.editor_eq {tp : Tty} {e : Editor} (h : Shares tp e) : tp.tLdata.line.editor = e := by
  rcases h.shows with ⟨flush, hshows⟩
  rw [hshows.line_eq]
  rfl

theorem receiveLoop_lockstep {tp : Tty} {e : Editor} {skip : Nat} {cp : List Byte} (h : Shares tp e)
    (hcanon : tp.tTermios.lflag ICANON = true) (hnul : (0 : Byte) ∉ cp)
    (hagrees : everyTurn Tty.agrees skip cp tp = true) : lockstep skip cp tp e := by
  induction cp generalizing skip tp e with
  | nil => exact h.editor_eq
  | cons c rest ih =>
    have hnul' : (0 : Byte) ∉ rest := fun hmem => hnul (List.mem_cons_of_mem c hmem)
    cases skip with
    | succ skip => exact @ih tp e skip h hcanon hnul' hagrees
    | zero =>
      have hc : c ≠ 0 := fun hzero => hnul (by simp [hzero])
      rw [everyTurn, beq_false_of_ne hc, Bool.false_or, Bool.and_eq_true] at hagrees
      rcases h.turn hcanon hagrees.1 with ⟨k, tp', hstep, hk, htio, hcontents, hshares⟩
      have hlater := hagrees.2
      rw [hstep] at hlater
      refine ⟨h.editor_eq, ?_⟩
      rw [hstep]
      refine ⟨hcontents, ?_⟩
      cases rest with
      | nil => exact hshares.editor_eq
      | cons d rest =>
        have hsome := hk (by simp)
        subst hsome
        exact ih hshares (by rw [htio]; exact hcanon) hnul' hlater

theorem receiveLoop_edits {tp : Tty} {e : Editor} {skip : Nat} {cp : List Byte} (h : Shares tp e)
    (hcanon : tp.tTermios.lflag ICANON = true) (hnul : (0 : Byte) ∉ cp)
    (hagrees : everyTurn Tty.agrees skip cp tp = true) :
    ∃ tp', Tty.receiveLoop skip cp tp = .ok tp' ∧ tp'.tTermios = tp.tTermios ∧
      tp'.tInputbuf.contents =
        tp.tInputbuf.contents ++ (Editor.run tp.tTermios skip cp e).1.flatten ∧
      Shares tp' (Editor.run tp.tTermios skip cp e).2 := by
  induction cp generalizing skip tp e with
  | nil =>
    rw [Tty.receiveLoop]
    exact ⟨tp, rfl, rfl, (List.append_nil _).symm, h⟩
  | cons c rest ih =>
    have hnul' : (0 : Byte) ∉ rest := fun hmem => hnul (List.mem_cons_of_mem c hmem)
    cases skip with
    | succ skip =>
      rw [Tty.receiveLoop]
      exact @ih tp e skip h hcanon hnul' hagrees
    | zero =>
      have hc : c ≠ 0 := fun hzero => hnul (by simp [hzero])
      rw [everyTurn, beq_false_of_ne hc, Bool.false_or, Bool.and_eq_true] at hagrees
      rcases h.turn hcanon hagrees.1 with ⟨k, tp', hstep, hk, htio, hcontents, hshares⟩
      have hlater := hagrees.2
      rw [hstep] at hlater
      rw [Tty.receiveLoop, if_neg hc, hstep, ok_bind, Editor.run]
      -- what the later turns do
      have htail : ∃ tp'', (k.elim (.ok tp') fun consumed => Tty.receiveLoop consumed rest tp') =
          .ok tp'' ∧ tp''.tTermios = tp'.tTermios ∧
          tp''.tInputbuf.contents = tp'.tInputbuf.contents ++
            (Editor.run tp'.tTermios (sequenceLength tp.tTermios c rest) rest
              (e.step (command tp.tTermios c rest)).2).1.flatten ∧
          Shares tp'' (Editor.run tp'.tTermios (sequenceLength tp.tTermios c rest) rest
            (e.step (command tp.tTermios c rest)).2).2 := by
        cases rest with
        | nil =>
          refine ⟨tp', ?_, rfl, (List.append_nil _).symm, hshares⟩
          cases k with
          | none => rfl
          | some consumed => rfl
        | cons d rest =>
          have hsome := hk (by simp)
          subst hsome
          exact ih hshares (by rw [htio]; exact hcanon) hnul' hlater
      rcases htail with ⟨tp'', hrun, htio', hcontents', hshares'⟩
      rw [htio] at htio' hcontents' hshares'
      refine ⟨tp'', ?_, htio', ?_, hshares'⟩
      · rw [← hrun]
        cases k <;> rfl
      · rw [hcontents', hcontents, List.flatten_append, List.append_assoc]
        cases (e.step (command tp.tTermios c rest)).1 with
        | none => rfl
        | some line => simp

theorem receiveCalls_edits {tp : Tty} {e : Editor} {cps : List (List Byte)} (h : Shares tp e)
    (hcanon : tp.tTermios.lflag ICANON = true) (hnul : ∀ cp ∈ cps, (0 : Byte) ∉ cp)
    (hagrees : everyCall Tty.agrees cps tp = true) :
    ∃ tp', runs xTtyReceiveBuf tp cps = .ok tp' ∧
      tp'.tInputbuf.contents =
        tp.tInputbuf.contents ++ (Editor.runCalls tp.tTermios cps e).1.flatten ∧
      Shares tp' (Editor.runCalls tp.tTermios cps e).2 ∧ lockstepCalls cps tp e := by
  induction cps generalizing tp e with
  | nil =>
    rw [runs]
    exact ⟨tp, rfl, (List.append_nil _).symm, h, h.editor_eq⟩
  | cons cp cps ih =>
    rw [everyCall, Bool.and_eq_true] at hagrees
    rcases receiveLoop_edits h hcanon (hnul cp List.mem_cons_self) hagrees.1 with
      ⟨tp', hloop, htio, hcontents, hshares⟩
    have hlater := hagrees.2
    have hcall : xTtyReceiveBuf tp cp = .ok tp' := hloop
    rw [hcall] at hlater
    have hrest := ih hshares (by rw [htio]; exact hcanon)
      (fun cp' hcp' => hnul cp' (List.mem_cons_of_mem cp hcp')) hlater
    rw [htio] at hrest
    rcases hrest with ⟨tp'', hruns, hcontents', hshares', hsteps⟩
    rw [runs, hcall, ok_bind, Editor.runCalls]
    refine ⟨tp'', hruns, ?_, hshares', ?_, fun tp1 htp1 => ?_⟩
    · rw [hcontents', hcontents, List.flatten_append, List.append_assoc]
    · exact receiveLoop_lockstep h hcanon (hnul cp List.mem_cons_self) hagrees.1
    · rw [← Except.ok.inj (hcall.symm.trans htp1)]
      exact hsteps

/-- In canonical mode the line discipline is a line editor, in the runs whose turns agree with it. -/
theorem receive_edits {tp : Tty} (hopen : tp.tLdata = Ldata.kzalloc)
    (hcanon : tp.tTermios.lflag ICANON = true) {cps : List (List Byte)}
    (hnul : ∀ cp ∈ cps, (0 : Byte) ∉ cp) (hagrees : everyCall Tty.agrees cps tp = true) :
    lockstepCalls cps tp .empty ∧
      ∃ tp', runs xTtyReceiveBuf tp cps = .ok tp' ∧
        tp'.tInputbuf.contents =
          tp.tInputbuf.contents ++ (Editor.runCalls tp.tTermios cps .empty).1.flatten ∧
        tp'.tLdata.line.editor = (Editor.runCalls tp.tTermios cps .empty).2 := by
  have hshares : Shares tp .empty := by
    refine ⟨⟨false, ⟨⟨?_, ?_, fun i hi => absurd hi (by simp [Editor.empty])⟩, ?_⟩⟩,
      Editor.sound_empty⟩
    · rw [hopen]
      rfl
    · rw [hopen]
      rfl
    · rw [hopen]
      rfl
  rcases receiveCalls_edits hshares hcanon hnul hagrees with
    ⟨tp', hruns, hcontents, hend, hsteps⟩
  exact ⟨hsteps, tp', hruns, hcontents, hend.editor_eq⟩

/-! An arrow key and an erased character, and a word that is erased with the one in front of it. -/

def wordTty : Tty where
  tTermios := { cIflag := 0, cLflag := ICANON, cCc := fun v => if v = VWERASE then 0x17 else 0 }
  tInputbuf := .init fun _ => 0
  tLdata := .kzalloc
  written := []

theorem arrow_edits :
    lockstepCalls [bytes "ab" ++ ESC :: bytes "[D", BS :: bytes "c\n"] wordTty .empty :=
  (receive_edits rfl rfl (by decide) (by decide +kernel)).1

theorem werase_takes_all :
    ((xTtyReceiveBuf wordTty (bytes "a b" ++ [0x17, NL])).toOption.map fun tp =>
      tp.tInputbuf.contents) ≠
    some (Editor.runCalls wordTty.tTermios [bytes "a b" ++ [0x17, NL]] .empty).1.flatten := by
  decide +kernel

end XTty
end XytherOS
