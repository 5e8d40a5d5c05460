import XytherOS.Dev.XTty

/-!
# XTtyChunks — the pieces in which `x_tty_receive_buf` gets its input

An escape sequence is recognised by looking at the two bytes behind the `ESC`, as far as they are in
the same buffer; nothing of it is remembered for the next call.  The driver sends a sequence in one
call.  Input may be cut anywhere else: the calls then do what one call with all of it does.

* `readsEsc`: which characters are read as the start of a sequence;
* `uncut`: no cut falls among the bytes that such a character looks at;
* `receiveLoop_append`: the loop over two pieces.
-/

namespace XytherOS
namespace XTty

open Fs (Byte)

/-! ## Where a cut matters -/

def Termios.readsEsc (tio : Termios) (c : Byte) : Bool :=
  c == ESC && tio.lflag ICANON && !tio.isSignal c &&
    !(tio.is VERASE c || tio.is VKILL c || tio.is VEOF c || tio.is VWERASE c || tio.is VDISCARD c)

def escLength : List Byte → Nat
  | seq :: _ :: _ => if seq ≠ byte '[' then 1 else 2
  | _ => 0

/-- Each `ESC` of a piece that has two bytes behind it has them in the piece; `more` bytes follow
the piece. -/
def uncut (tio : Termios) (more : Nat) : Nat → List Byte → Bool
  | _, [] => true
  | skip + 1, _ :: rest => uncut tio more skip rest
  | 0, c :: rest =>
    if tio.readsEsc c then
      (2 ≤ rest.length || rest.length + more < 2) && uncut tio more (escLength rest) rest
    else uncut tio more 0 rest

/-- No cut between the pieces separates an `ESC` from what it looks at. -/
def uncutPieces (tio : Termios) : List (List Byte) → Bool
  | [] => true
  | piece :: pieces => uncut tio pieces.flatten.length 0 piece && uncutPieces tio pieces

/-! ## The settings stay -/

def Keeps (tio : Termios) (x : Except Fault Tty) : Prop :=
  Safe AnyFault x fun tp => tp.tTermios = tio

namespace Tty

variable (tp : Tty)

@[simp] theorem write_termios (cs : List Byte) : (tp.write cs).tTermios = tp.tTermios := rfl

@[simp] theorem setLdata_termios (ld : Ldata) : (tp.setLdata ld).tTermios = tp.tTermios := rfl

@[simp] theorem deliver_termios (cs : List Byte) : (tp.deliver cs).tTermios = tp.tTermios := rfl

@[simp] theorem writeIf_termios (flag : BitVec 32) (cs : List Byte) :
    (tp.writeIf flag cs).tTermios = tp.tTermios := by
  rw [writeIf]
  split <;> rfl

end Tty

section Keeps

variable {tio : Termios} {tp : Tty}

theorem Keeps.of_bind {α : Type} {x : Except Fault α} {f : α → Except Fault Tty}
    (h : ∀ a, Keeps tio (f a)) : Keeps tio (x >>= f) :=
  Safe.bind (Safe.any fun _ _ => trivial) fun a (_ : True) => h a

theorem echoString_keeps (size : Int) (text : List Byte) (h : tp.tTermios = tio) :
    Keeps tio (echoString size text tp) :=
  Keeps.of_bind fun _ => h

theorem ttyEchoInput_keeps (c : Byte) (h : tp.tTermios = tio) : Keeps tio (ttyEchoInput tp c) := by
  rw [ttyEchoInput]
  split
  · split
    · exact h
    · split
      · exact Keeps.of_bind fun _ => echoString_keeps _ _ h
      · exact h
  · split
    · exact (tp.writeIf_termios _ _).trans h
    · exact h

theorem eraseAt_keeps (ld : Ldata) (h : tp.tTermios = tio) : Keeps tio (tp.eraseAt ld) := by
  rw [Tty.eraseAt]
  split
  · refine Keeps.of_bind fun ld => Keeps.of_bind fun ld => ?_
    split
    · exact Keeps.of_bind fun _ => echoString_keeps _ _ h
    · exact h
  · split
    · exact Keeps.of_bind fun _ => ((tp.setLdata _).writeIf_termios _ _).trans h
    · exact h

theorem erase_keeps (h : tp.tTermios = tio) : Keeps tio tp.erase := by
  rw [Tty.erase]
  split
  · exact (eraseAt_keeps _ h).bind fun _ htp => htp
  · exact h

theorem kill_keeps (h : tp.tTermios = tio) : Keeps tio tp.kill :=
  Keeps.of_bind fun _ => (tp.writeIf_termios _ _).trans h

theorem werase_keeps (h : tp.tTermios = tio) : Keeps tio tp.werase :=
  Keeps.of_bind fun _ => (tp.writeIf_termios _ _).trans h

theorem discard_keeps (h : tp.tTermios = tio) : Keeps tio tp.discard :=
  Keeps.of_bind fun _ => ((tp.setLdata _).writeIf_termios _ _).trans h

theorem deliverLine_keeps (h : tp.tTermios = tio) : Keeps tio tp.deliverLine :=
  Keeps.of_bind fun _ => Keeps.of_bind fun _ => h

theorem ordinary_keeps (c : Byte) (h : tp.tTermios = tio) : Keeps tio (tp.ordinary c) := by
  rw [Tty.ordinary]
  refine Keeps.of_bind fun ld => ?_
  have hecho : Keeps tio (ttyEchoInput (tp.setLdata ld) c) := ttyEchoInput_keeps c h
  refine hecho.bind fun tp htp => ?_
  split
  · exact deliverLine_keeps htp
  · exact htp

theorem xTtyProcessEsc_termios (tp : Tty) (seq : List Byte) :
    (xTtyProcessEsc tp seq).2.tTermios = tp.tTermios := by
  rcases seq with _ | ⟨seq, _ | ⟨cmd, rest⟩⟩
  · rfl
  · rfl
  · simp only [xTtyProcessEsc]
    split
    · rfl
    · split
      · exact Tty.writeIf_termios ..
      · split
        · exact Tty.writeIf_termios ..
        · rfl

end Keeps

/-! ## One character -/

section Character

variable {tp : Tty} {c : Byte}

theorem xTtyProcessEsc_length (tp : Tty) (seq : List Byte) :
    (xTtyProcessEsc tp seq).1 = escLength seq := by
  rcases seq with _ | ⟨seq, _ | ⟨cmd, rest⟩⟩
  · rfl
  · rfl
  · simp only [xTtyProcessEsc, escLength]
    split
    · rfl
    · split
      · rfl
      · split <;> rfl

theorem receiveChar_esc (h : tp.tTermios.readsEsc c = true) (rest : List Byte) :
    tp.receiveChar c rest =
      if rest.isEmpty then .ok (none, tp)
      else .ok (some (escLength rest), (xTtyProcessEsc tp rest).2) := by
  simp only [Termios.readsEsc, Bool.and_eq_true, Bool.not_eq_true', Bool.or_eq_false_iff,
    beq_iff_eq] at h
  rcases h with ⟨⟨⟨rfl, hcanon⟩, hsignal⟩, ⟨⟨⟨herase, hkill⟩, heof⟩, hwerase⟩, hdiscard⟩
  have hBS : (ESC == BS) = false := by decide
  have hCR : (ESC == CR) = false := by decide
  have hNL : (ESC == NL) = false := by decide
  have hESC : (ESC == ESC) = true := by decide
  simp only [Tty.receiveChar, hsignal, hcanon, herase, hkill, heof, hwerase, hdiscard, hBS, hCR,
    hNL, hESC, Bool.not_true, Bool.false_and, Bool.or_self, Bool.false_eq_true, if_false, if_true,
    xTtyProcessEsc_length]

/-- `f` consumes nothing and does not depend on what follows. -/
def Blind (tio : Termios) (f : List Byte → Except Fault (Option Nat × Tty)) : Prop :=
  ∃ x, Keeps tio x ∧ ∀ rest, f rest = x.map fun tp => (some 0, tp)

theorem Blind.next {tio : Termios} {x : Except Fault Tty} (h : Keeps tio x) :
    Blind tio fun _ => x.map fun tp => (some 0, tp) :=
  ⟨x, h, fun _ => rfl⟩

theorem Blind.ite {tio : Termios} {p : Prop} [Decidable p]
    {f g : List Byte → Except Fault (Option Nat × Tty)} (hf : p → Blind tio f)
    (hg : ¬p → Blind tio g) : Blind tio fun rest => if p then f rest else g rest := by
  by_cases hp : p
  · simpa only [if_pos hp] using hf hp
  · simpa only [if_neg hp] using hg hp

theorem receiveChar_other (h : tp.tTermios.readsEsc c = false) :
    Blind tp.tTermios (tp.receiveChar c) := by
  have hkeep : ∀ tp' : Tty, tp'.tTermios = tp.tTermios → Keeps tp.tTermios (.ok tp') :=
    fun _ htp => htp
  refine Blind.ite (fun _ => Blind.next (hkeep (tp.setLdata tp.tLdata.reset) rfl)) fun hsignal => ?_
  refine Blind.ite (fun _ => Blind.next (hkeep (tp.deliver [c]) rfl)) fun hcanon => ?_
  refine Blind.ite (fun _ => Blind.next (erase_keeps rfl)) fun herase => ?_
  refine Blind.ite (fun _ => Blind.next (kill_keeps rfl)) fun hkill => ?_
  refine Blind.ite (fun _ => Blind.next (hkeep (tp.eof c) ?_)) fun heof => ?_
  · rw [Tty.eof]
    split <;> rfl
  refine Blind.ite (fun _ => Blind.next (werase_keeps rfl)) fun hwerase => ?_
  refine Blind.ite (fun _ => Blind.next (discard_keeps rfl)) fun hdiscard => ?_
  refine Blind.ite (fun _ => Blind.next (hkeep _ rfl)) fun _ => ?_
  refine Blind.ite (fun _ => Blind.next (ordinary_keeps NL rfl)) fun _ => ?_
  refine Blind.ite (fun _ => ?_) fun _ => Blind.ite (fun hesc => ?_) fun _ =>
    Blind.next (ordinary_keeps c rfl)
  · refine ⟨ttyInsertInput tp.tLdata CR >>= fun ld => (tp.setLdata ld).ordinary c,
      Keeps.of_bind fun ld => ordinary_keeps c rfl, fun _ => ?_⟩
    cases ttyInsertInput tp.tLdata CR with
    | error e => rfl
    | ok ld => rfl
  · -- the character is an `ESC` that none of the cases above has taken
    exfalso
    simp_all [Termios.readsEsc]

end Character

/-! ## The loop over two pieces -/

theorem escLength_le (rest : List Byte) : escLength rest ≤ rest.length := by
  rcases rest with _ | ⟨seq, _ | ⟨cmd, rest⟩⟩
  · exact Nat.le_refl _
  · exact Nat.zero_le _
  · simp only [escLength, List.length_cons]
    split <;> omega

theorem receiveChar_esc_append {tp : Tty} {c : Byte} (h : tp.tTermios.readsEsc c = true)
    {rest : List Byte} (hrest : 2 ≤ rest.length) (more : List Byte) :
    tp.receiveChar c (rest ++ more) = tp.receiveChar c rest := by
  rw [receiveChar_esc h, receiveChar_esc h]
  rcases rest with _ | ⟨seq, _ | ⟨cmd, rest⟩⟩
  · simp at hrest
  · simp at hrest
  · rfl

theorem receiveLoop_esc {tp : Tty} {c : Byte} (h : tp.tTermios.readsEsc c = true) (hc : c ≠ 0)
    {rest : List Byte} (hrest : rest.length < 2) :
    Tty.receiveLoop 0 (c :: rest) tp = Tty.receiveLoop 0 rest tp := by
  rw [Tty.receiveLoop, if_neg hc, receiveChar_esc h]
  rcases rest with _ | ⟨seq, _ | ⟨cmd, rest⟩⟩
  · rfl
  · rfl
  · simp only [List.length_cons] at hrest
    omega

theorem receiveLoop_append {tp : Tty} {skip : Nat} {piece more : List Byte}
    (hskip : skip ≤ piece.length) (hnul : (0 : Byte) ∉ piece)
    (hcut : uncut tp.tTermios more.length skip piece = true) :
    Tty.receiveLoop skip (piece ++ more) tp =
      Tty.receiveLoop skip piece tp >>= Tty.receiveLoop 0 more := by
  induction piece generalizing skip tp with
  | nil =>
    obtain rfl : skip = 0 := Nat.le_zero.1 hskip
    rw [List.nil_append, Tty.receiveLoop, ok_bind]
  | cons c rest ih =>
    have hnul' : (0 : Byte) ∉ rest := fun hmem => hnul (List.mem_cons_of_mem c hmem)
    cases skip with
    | succ skip =>
      rw [List.cons_append, Tty.receiveLoop, Tty.receiveLoop]
      exact ih (Nat.le_of_succ_le_succ hskip) hnul' hcut
    | zero =>
      have hc : c ≠ 0 := fun hzero => hnul (by simp [hzero])
      cases hesc : tp.tTermios.readsEsc c with
      | false =>
        rw [uncut, hesc] at hcut
        rcases receiveChar_other hesc with ⟨x, hkeep, hx⟩
        rw [List.cons_append, Tty.receiveLoop, Tty.receiveLoop, if_neg hc, if_neg hc, hx, hx]
        cases x with
        | error e => rfl
        | ok tp' =>
          have htp : tp'.tTermios = tp.tTermios := hkeep
          exact ih (Nat.zero_le _) hnul' (by rwa [htp])
      | true =>
        rw [uncut, if_pos hesc, Bool.and_eq_true, Bool.or_eq_true, decide_eq_true_eq,
          decide_eq_true_eq] at hcut
        rcases hcut with ⟨hwhole | hshort, hcut⟩
        · -- the sequence is read in the piece
          have hne : rest.isEmpty = false := by
            cases rest with
            | nil => simp at hwhole
            | cons => rfl
          rw [List.cons_append, Tty.receiveLoop, Tty.receiveLoop, if_neg hc, if_neg hc,
            receiveChar_esc_append hesc hwhole, receiveChar_esc hesc, hne]
          have htp := xTtyProcessEsc_termios tp rest
          exact ih (escLength_le rest) hnul' (by rwa [htp])
        · -- there is no sequence to read
          have hzero : escLength rest = 0 := by
            rcases rest with _ | ⟨seq, _ | ⟨cmd, rest⟩⟩
            · rfl
            · rfl
            · simp only [List.length_cons] at hshort
              omega
          have hboth : (rest ++ more).length < 2 := by rwa [List.length_append]
          rw [List.cons_append, receiveLoop_esc hesc hc hboth,
            receiveLoop_esc hesc hc (by omega)]
          rw [hzero] at hcut
          exact ih (Nat.zero_le _) hnul' hcut

theorem receiveLoop_keeps (tp : Tty) (skip : Nat) (cp : List Byte) :
    Keeps tp.tTermios (Tty.receiveLoop skip cp tp) := by
  induction cp generalizing skip tp with
  | nil =>
    rw [Tty.receiveLoop]
    exact rfl
  | cons c rest ih =>
    cases skip with
    | succ skip =>
      rw [Tty.receiveLoop]
      exact ih tp skip
    | zero =>
      rw [Tty.receiveLoop]
      split
      · exact rfl
      cases hesc : tp.tTermios.readsEsc c with
      | false =>
        rcases receiveChar_other hesc with ⟨x, hkeep, hx⟩
        rw [hx]
        cases x with
        | error e => exact trivial
        | ok tp' =>
          have htp : tp'.tTermios = tp.tTermios := hkeep
          rw [← htp]
          exact ih tp' 0
      | true =>
        rw [receiveChar_esc hesc]
        cases rest with
        | nil => exact rfl
        | cons seq rest =>
          have htp := xTtyProcessEsc_termios tp (seq :: rest)
          rw [← htp]
          exact ih _ _

/-! ## Any number of pieces -/

/-- Input may be cut into pieces anywhere but between an `ESC` and what it looks at. -/
theorem receive_pieces {tp : Tty} {pieces : List (List Byte)} (hnul : (0 : Byte) ∉ pieces.flatten)
    (hcut : uncutPieces tp.tTermios pieces = true) :
    runs xTtyReceiveBuf tp pieces = xTtyReceiveBuf tp pieces.flatten := by
  induction pieces generalizing tp with
  | nil =>
    rw [runs, List.flatten_nil, xTtyReceiveBuf, Tty.receiveLoop]
  | cons piece pieces ih =>
    rw [List.flatten_cons, List.mem_append, not_or] at hnul
    rw [uncutPieces, Bool.and_eq_true] at hcut
    have hkeep := receiveLoop_keeps tp 0 piece
    rw [runs, List.flatten_cons, xTtyReceiveBuf, xTtyReceiveBuf,
      receiveLoop_append (Nat.zero_le _) hnul.1 hcut.1]
    cases hone : Tty.receiveLoop 0 piece tp with
    | error e => rfl
    | ok tp' =>
      rw [hone] at hkeep
      have htp : tp'.tTermios = tp.tTermios := hkeep
      exact ih hnul.2 (by rw [htp]; exact hcut.2)

/-! A cut in front of a sequence, and a cut behind its `ESC`. -/

def quietTty : Tty where
  tTermios := { cIflag := 0, cLflag := ICANON, cCc := fun _ => 0 }
  tInputbuf := .init fun _ => 0
  tLdata := { inpos := 0, inlen := 0, inbuf := fun _ => 0, flush := false }
  written := []

theorem receive_cut_before :
    runs xTtyReceiveBuf quietTty [[byte 'a'], [ESC, byte '[', byte 'D', byte 'b']] =
      xTtyReceiveBuf quietTty [byte 'a', ESC, byte '[', byte 'D', byte 'b'] :=
  @receive_pieces quietTty [[byte 'a'], [ESC, byte '[', byte 'D', byte 'b']] (by decide) (by decide)

theorem receive_cut_inside : ((runs xTtyReceiveBuf quietTty
      [[byte 'a', ESC], [byte '[', byte 'D']]).toOption.map fun tp => tp.tLdata.inlen) ≠
    (xTtyReceiveBuf quietTty [byte 'a', ESC, byte '[', byte 'D']).toOption.map fun tp =>
      tp.tLdata.inlen := by
  decide +kernel

end XTty
end XytherOS
