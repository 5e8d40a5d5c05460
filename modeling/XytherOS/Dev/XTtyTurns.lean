import XytherOS.Dev.XTtyLine

/-!
# XTtyTurns — the turns of `x_tty_receive_buf` on the line

Every command and every other character does to the line buffer what `Line.receive` does to the
line.  `Tty.fits` is what a turn needs for that: room for what goes into the line, and a NUL where
the echo looks for the end of the text.  `receiveChar_turns` puts the turns together.
-/

namespace XytherOS
namespace XTty

open Function

open Fs (Byte)

/-! ## The editing commands -/

/-- `x` delivers `e.1` and leaves the line `e.2`; the settings stay. -/
def Yields (tp : Tty) (e : List Byte × Line) (x : Except Fault Tty) : Prop :=
  ∃ ld w, x = .ok { tp with tLdata := ld, tInputbuf := tp.tInputbuf.write e.1, written := w } ∧
    ld.Shows e.2

section Commands

variable {tp : Tty} {l : Line} {left right : List Byte} {c : Byte}

theorem writeIf_eq (tp : Tty) (flag : BitVec 32) (cs : List Byte) :
    ∃ w, tp.writeIf flag cs = { tp with written := w } := by
  rw [Tty.writeIf]
  split
  · exact ⟨_, rfl⟩
  · exact ⟨_, rfl⟩

theorem Yields.same (h : tp.tLdata.Shows l) : Yields tp ([], l) (.ok tp) :=
  ⟨tp.tLdata, tp.written, rfl, h⟩

theorem Yields.setLdata {ld : Ldata} (h : ld.Shows l) : Yields tp ([], l) (.ok (tp.setLdata ld)) :=
  ⟨ld, tp.written, rfl, h⟩

theorem Yields.writeIf {ld : Ldata} (h : ld.Shows l) (flag : BitVec 32) (cs : List Byte) :
    Yields tp ([], l) (.ok ((tp.setLdata ld).writeIf flag cs)) := by
  rcases writeIf_eq (tp.setLdata ld) flag cs with ⟨w, hw⟩
  rw [hw]
  exact ⟨ld, w, rfl, h⟩

theorem clear_shows (h : tp.tLdata.Shows l) (hlen : l.length ≤ XTTYFBMAX) :
    ∃ ld, tp.tLdata.clear = .ok ld ∧ ld.Shows l.clear := by
  have hinlen := h.inlen
  rcases @Ldata.clear_ok tp.tLdata (by omega) (by omega) with ⟨ld, hclear, hld, hflush⟩
  exact ⟨ld, hclear, hld, hflush.trans h.flush⟩

theorem kill_yields (h : tp.tLdata.Shows l) (hlen : l.length ≤ XTTYFBMAX) :
    Yields tp ([], l.clear) tp.kill := by
  rcases clear_shows h hlen with ⟨ld, hclear, hld⟩
  rcases writeIf_eq tp ECHOK (Tty.rubout tp.tLdata.inpos) with ⟨w, hw⟩
  rw [Tty.kill, hclear, ok_bind, hw]
  exact ⟨ld, w, rfl, hld⟩

theorem discard_yields (h : tp.tLdata.Shows l) (hlen : l.length ≤ XTTYFBMAX) :
    Yields tp ([], l.clear) tp.discard := by
  rcases clear_shows h hlen with ⟨ld, hclear, hld⟩
  rw [Tty.discard, hclear, ok_bind]
  exact Yields.writeIf hld ECHOK [NL]

theorem closeUp_spec {ld : Ldata} (h : ld.Holds left (c :: right))
    (hlen : left.length + 1 + right.length < XTTYFBMAX) :
    ∃ moved ld', ld.memmove ld.inpos (ld.inpos + 1) (ld.inlen - ld.inpos - 1) = .ok moved ∧
      moved.inpos = ld.inpos ∧ moved.store (ld.inpos + (ld.inlen - ld.inpos - 1)) 0 = .ok ld' ∧
      ld'.inpos = ld.inpos ∧ Ldata.Holds { ld' with inlen := ld'.inlen - 1 } left right ∧
      ld'.inbuf (ld.inlen - 1) = 0 ∧ ld'.flush = ld.flush := by
  have hpos := h.inpos
  have hinlen := h.inlen
  rw [List.length_cons] at hinlen
  have hstore : ld.inpos + (ld.inlen - ld.inpos - 1) = ld.inlen - 1 := by omega
  rw [Ldata.memmove_ok (by omega) (by omega) (by omega) (by omega) (by omega), hstore]
  refine ⟨_, _, rfl, rfl, Ldata.store_ok (by omega) (by omega) 0, rfl, ?_,
    update_self .., rfl⟩
  refine h.erase rfl rfl (fun j hj => ?_) fun j hj hj' => ?_
  · exact (update_of_ne (by omega) _ _).trans (if_neg (by omega))
  · refine (update_of_ne (by omega) _ _).trans
      ((if_pos ⟨hj, by omega⟩).trans (congrArg ld.inbuf ?_))
    omega

theorem eraseAt_spec (tp : Tty) {ld : Ldata} (h : ld.Holds left (c :: right))
    (hlen : left.length + 1 + right.length < XTTYFBMAX) :
    ∃ ld' w, tp.eraseAt ld = .ok { tp with tLdata := ld', written := w } ∧
      Ldata.Holds { ld' with inlen := ld'.inlen - 1 } left right ∧ ld'.flush = ld.flush := by
  have hpos := h.inpos
  have hinlen := h.inlen
  rw [List.length_cons] at hinlen
  rw [Tty.eraseAt]
  by_cases hmid : ld.inpos < ld.inlen - 1
  · rcases closeUp_spec h hlen with ⟨moved, ld', hmove, hat, hstore, hinpos, hholds, hnul, hflush⟩
    rw [if_pos hmid]
    dsimp only
    rw [hmove, ok_bind, hat, hstore, ok_bind]
    by_cases hecho : tp.tTermios.lflag ECHO = true
    · rcases stringAt_ok (i := ld'.inpos) (by omega) (by omega) (by omega) hnul with ⟨s, hs, hslen⟩
      rw [if_pos hecho, hs, ok_bind, echoString_ok]
      · exact ⟨ld', _, rfl, hholds, hflush⟩
      · have hD : (bytes "[1D").length = 3 := rfl
        have hK : (bytes "[K").length = 2 := rfl
        have hS : (bytes "[s").length = 2 := rfl
        have hU : (bytes "[u").length = 2 := rfl
        simp only [List.length_append, List.length_cons, hD, hK, hS, hU]
        omega
    · rw [if_neg hecho]
      exact ⟨ld', tp.written, rfl, hholds, hflush⟩
  · have hlast : ld.inpos = ld.inlen - 1 := by omega
    rw [if_neg hmid, if_pos hlast, Ldata.store_ok (by omega) (by omega), ok_bind]
    rcases writeIf_eq (tp.setLdata { ld with inbuf := update ld.inbuf ld.inlen 0 }) ECHO
      [BS, byte ' ', BS] with ⟨w, hw⟩
    rw [hw]
    refine ⟨_, w, rfl, ?_, rfl⟩
    refine h.erase rfl rfl (fun j hj => ?_) fun j hj hj' => by omega
    exact update_of_ne (by omega) _ _

theorem erase_yields (h : tp.tLdata.Shows l) (hlen : l.length < XTTYFBMAX) :
    Yields tp ([], l.erase) tp.erase := by
  have hpos := h.inpos
  rw [Tty.erase]
  rcases List.eq_nil_or_concat l.left with hnil | ⟨left, c, hleft⟩
  · -- there is nothing in front of the cursor
    have hsame : l.erase = l := by
      rw [Line.erase, hnil, List.dropLast_nil, ← hnil]
    rw [hnil, List.length_nil] at hpos
    rw [if_neg (by omega), hsame]
    exact Yields.same h
  · have hholds := h.holds
    rw [hleft, List.concat_eq_append] at hholds
    have hlen' : (left.length : Int) + 1 + l.right.length < XTTYFBMAX := by
      rw [Line.length, hleft, List.length_concat] at hlen
      omega
    rcases eraseAt_spec tp hholds.moveBack hlen' with ⟨ld, w, hat, hld, hflush⟩
    rw [hleft, List.length_concat] at hpos
    rw [if_pos (by omega), hat]
    refine ⟨_, w, rfl, ⟨?_, hflush.trans h.flush⟩⟩
    rw [Line.erase, hleft, List.concat_eq_append, List.dropLast_concat]
    exact hld

theorem skipBack_eq {ld : Ldata} (p : Byte → Bool) {cs : List Byte}
    (htext : ∀ i : Nat, i < cs.length → cs[i]? = some (ld.inbuf i))
    (hlen : cs.length ≤ XTTYFBMAX) : ld.skipBack p cs.length = .ok (cs.rdropWhile p).length := by
  induction cs using List.reverseRecOn with
  | nil => rfl
  | append_singleton cs c ih =>
    rw [List.length_append, List.length_singleton] at hlen
    have hcell : ld.inbuf cs.length = c := by
      have hlast := htext cs.length (by simp)
      rw [List.getElem?_concat_length] at hlast
      exact (Option.some.inj hlast).symm
    have hrest : ld.skipBack p cs.length = .ok (cs.rdropWhile p).length := by
      refine ih (fun i hi => ?_) (by omega)
      rw [← htext i (by rw [List.length_append]; omega), List.getElem?_append_left hi]
    rw [List.length_append, List.length_singleton, Ldata.skipBack,
      Ldata.within_of (by omega) (by decide) (by omega), ok_bind, hcell, List.rdropWhile_concat]
    by_cases hp : p c = true
    · rw [if_pos hp, if_pos hp, hrest]
    · rw [if_neg hp, if_neg hp, List.length_append, List.length_singleton]
      rfl

theorem Ldata.Holds.take {ld : Ldata} (h : ld.Holds left right) {cs : List Byte}
    (hcs : cs <+: left) :
    ∀ i : Nat, i < cs.length → cs[i]? = some (ld.inbuf i) := by
  intro i hi
  rcases hcs with ⟨tail, rfl⟩
  rw [← h.text i (by rw [List.length_append]; omega), List.append_assoc,
    List.getElem?_append_left hi]

theorem werase_yields (h : tp.tLdata.Shows l) (hlen : l.length ≤ XTTYFBMAX) :
    Yields tp ([], l.werase) tp.werase := by
  have hpos : tp.tLdata.inpos.toNat = l.left.length := by
    rw [h.inpos]
    rfl
  rw [Line.length] at hlen
  set blank : Byte → Bool := fun c => c == byte ' ' || !ttyIsprint c with hblank
  have hfirst := List.rdropWhile_prefix blank l.left
  have hsecond := (List.rdropWhile_prefix ttyIsprint (l.left.rdropWhile blank)).trans hfirst
  have hstart : Tty.wordStart tp.tLdata =
      .ok ((l.left.rdropWhile blank).rdropWhile ttyIsprint).length := by
    have hle := hfirst.length_le
    rw [Tty.wordStart, hpos, skipBack_eq blank (h.holds.take List.prefix_rfl) (by omega), ok_bind]
    exact skipBack_eq ttyIsprint (h.holds.take hfirst) (by omega)
  rcases writeIf_eq tp ECHOE (Tty.rubout (tp.tLdata.inpos -
    ((l.left.rdropWhile blank).rdropWhile ttyIsprint).length)) with ⟨w, hw⟩
  rw [Tty.werase, hstart, ok_bind, hw]
  refine ⟨_, w, rfl, ⟨⟨rfl, ?_, ?_⟩, h.flush⟩⟩
  · simp [Line.werase, hblank]
  · intro i hi
    rw [Line.werase, List.append_nil]
    rw [Line.werase, List.length_nil, Nat.add_zero] at hi
    exact h.holds.take hsecond i hi

theorem deliverLine_yields (h : tp.tLdata.Shows l) (hlen : l.length ≤ XTTYFBMAX) :
    Yields tp (l.left ++ l.right, l.clear) tp.deliverLine := by
  have hinlen := h.inlen
  rcases clear_shows h hlen with ⟨ld, hclear, hld⟩
  rw [Tty.deliverLine, Ldata.within_of (by omega) (by omega) (by omega), ok_bind, hclear, ok_bind,
    h.holds.bytes]
  exact ⟨ld, tp.written, rfl, hld⟩

end Commands

/-! ## Typing -/

def Line.Roomy (l : Line) : Prop :=
  l.left.length + 3 < XTTYFBMAX.toNat → l.length + 1 < XTTYFBMAX.toNat

section Typing

variable {tp : Tty} {l : Line} {c : Byte}

theorem Line.insert_length (hlen : l.length < XTTYFBMAX.toNat) (hroom : l.Roomy) :
    (l.insert c).length < XTTYFBMAX.toNat := by
  rw [Line.length] at hlen
  rw [Line.length, Line.insert, Line.put]
  by_cases hspace : l.left.length + 3 < XTTYFBMAX.toNat
  · have hmore := hroom hspace
    rw [Line.length] at hmore
    rw [if_pos hspace]
    split
    · simp only [List.length_append, List.length_singleton]
      omega
    · simp only [List.length_append, List.length_singleton]
      omega
  · rw [if_neg hspace]
    exact hlen

theorem Line.typed_length {tio : Termios} (hlen : l.length < XTTYFBMAX.toNat)
    (hroom : (ttyIsprint c || tio.isNL c) = true → l.Roomy) :
    (l.typed tio c).length < XTTYFBMAX.toNat := by
  rw [Line.typed]
  split
  · rename_i htyped
    exact Line.insert_length hlen (hroom htyped)
  · exact hlen

theorem Line.ordinary_length {tio : Termios} (hlen : l.length < XTTYFBMAX.toNat)
    (hroom : (ttyIsprint c || tio.isNL c) = true → l.Roomy) :
    (l.ordinary tio c).2.length < XTTYFBMAX.toNat := by
  have hmore := Line.typed_length hlen hroom
  rw [Line.ordinary]
  split
  · rw [Line.clear_length]
    omega
  · exact hmore

theorem typed_shows (h : tp.tLdata.Shows l)
    (hlen : l.length < XTTYFBMAX.toNat) (c : Byte) :
    ∃ ld, (if ttyIsprint c || tp.tTermios.isNL c then ttyInsertInput tp.tLdata c
        else .ok tp.tLdata) = .ok ld ∧ ld.Shows (l.typed tp.tTermios c) ∧
      (c ≠ NL → ∀ j, ld.inlen ≤ j → ld.inbuf j = tp.tLdata.inbuf j) := by
  rw [Line.typed]
  by_cases htyped : (ttyIsprint c || tp.tTermios.isNL c) = true
  · rw [if_pos htyped, if_pos htyped]
    exact ttyInsertInput_spec h c fun _ => by omega
  · rw [if_neg htyped, if_neg htyped]
    exact ⟨tp.tLdata, rfl, h, fun _ _ _ => rfl⟩

theorem Line.insert_left_ne_nil (hc : c ≠ NL) : (l.insert c).left ≠ [] := by
  rw [Line.insert, Line.put]
  by_cases hspace : l.left.length + 3 < XTTYFBMAX.toNat
  · rw [if_pos hspace, if_neg hc]
    simp
  · rw [if_neg hspace]
    intro hnil
    have hnil' : l.left = [] := hnil
    have hmax : 3 < XTTYFBMAX.toNat := by decide
    exact hspace (by rw [hnil']; exact hmax)

theorem Line.insert_right_eq (hc : c ≠ NL) : (l.insert c).right = l.right := by
  rw [Line.insert, Line.put, if_neg hc]
  split <;> rfl

theorem ordinary_yields (h : tp.tLdata.Shows l) (hlen : l.length < XTTYFBMAX.toNat)
    (hroom : (ttyIsprint c || tp.tTermios.isNL c) = true → l.Roomy)
    (hecho : tp.tTermios.lflag ECHO = true → ttyIsprint c = true → l.right ≠ [] →
      tp.tLdata.echoEnds (l.insert c).length = true) :
    Yields tp (l.ordinary tp.tTermios c) (tp.ordinary c) := by
  have hmore := Line.typed_length hlen hroom
  rcases typed_shows h hlen c with ⟨ld, hins, hld, hrest⟩
  -- the echo finds the end of the text that it found before the insertion
  have hends : ∃ w, ttyEchoInput (tp.setLdata ld) c =
      .ok { tp with tLdata := ld, written := w } := by
    refine ttyEchoInput_ok hld.holds c fun hflag hprint hright => ?_
    have hc : c ≠ NL := by
      rintro rfl
      exact absurd hprint (by decide)
    have htyped : l.typed tp.tTermios c = l.insert c := by
      rw [Line.typed, hprint, Bool.true_or, if_pos rfl]
    have hinlen := hld.inlen
    rw [htyped] at hright hinlen ⊢
    rw [Line.insert_right_eq hc] at hright
    refine ⟨Line.insert_left_ne_nil hc, ?_⟩
    change ld.echoEnds ld.inlen = true
    rw [echoEnds_congr (hrest hc), hinlen]
    exact hecho hflag hprint hright
  rcases hends with ⟨w, hw⟩
  rw [Tty.ordinary, hins, ok_bind, hw, ok_bind, Line.ordinary, ← hld.flush]
  change Yields tp _ (if tp.tTermios.isNL c || ld.flush then
    Tty.deliverLine { tp with tLdata := ld, written := w }
    else .ok { tp with tLdata := ld, written := w })
  by_cases hdeliver : (tp.tTermios.isNL c || ld.flush) = true
  · rw [if_pos hdeliver, if_pos hdeliver]
    exact @deliverLine_yields { tp with tLdata := ld, written := w } _ hld (by omega)
  · rw [if_neg hdeliver, if_neg hdeliver]
    exact ⟨ld, w, rfl, hld⟩

end Typing

/-! ## One turn of the loop -/

/-- The characters that the character `c` puts into the line. -/
def Termios.puts (tio : Termios) (c : Byte) : List Byte :=
  if tio.isSignal c || !tio.lflag ICANON || (c == BS || tio.is VERASE c) || tio.is VKILL c ||
      tio.is VEOF c || tio.is VWERASE c || tio.is VDISCARD c || (c == CR && tio.iflag IGNCR) then []
  else if c == CR && tio.iflag ICRNL then [NL]
  else if c == NL && tio.iflag INLCR then [CR, NL]
  else if c == ESC then []
  else if ttyIsprint c || tio.isNL c then [c]
  else []

/-- The line has room for `n` characters, as far as they are inserted. -/
def Ldata.roomFor (ld : Ldata) (n : Nat) : Bool :=
  (List.range n).all fun i : Nat =>
    !(ld.inpos + i < XTTYFBMAX - 3) || ld.inlen + i + 1 < XTTYFBMAX

/-- What `c` puts into the line has room in it; where it goes in front of other text and is echoed,
that text ends with a NUL, or at most two bytes behind its end there is one. -/
def Tty.fits (tp : Tty) (c : Byte) : Bool :=
  let ld := tp.tLdata
  let puts := tp.tTermios.puts c
  ld.roomFor puts.length &&
    (!(tp.tTermios.lflag ECHO && ttyIsprint c && puts == [c] && ld.inpos < ld.inlen) ||
      ld.echoEnds (if ld.inpos < XTTYFBMAX - 3 then ld.inlen + 1 else ld.inlen))

section Turn

variable {tp : Tty} {l : Line} {c : Byte}

theorem roomFor_iff {ld : Ldata} {n : Nat} :
    ld.roomFor n = true ↔
      ∀ i : Nat, i < n → ld.inpos + i < XTTYFBMAX - 3 → ld.inlen + i + 1 < XTTYFBMAX := by
  simp only [Ldata.roomFor, List.all_eq_true, List.mem_range, Bool.or_eq_true, Bool.not_eq_true',
    decide_eq_false_iff_not, decide_eq_true_eq, or_iff_not_imp_left, not_not]

theorem Ldata.Shows.roomy {ld : Ldata} (h : ld.Shows l) {n : Nat}
    (hroom : ld.roomFor (n + 1) = true) :
    l.Roomy := by
  intro hspace
  have hpos := h.inpos
  have hlen := h.inlen
  have hone := roomFor_iff.1 hroom 0 (Nat.succ_pos n)
  omega

theorem Ldata.Shows.roomy_insert {ld : Ldata} (h : ld.Shows l) (hroom : ld.roomFor 2 = true)
    (hc : c ≠ NL) : (l.insert c).Roomy := by
  intro hspace
  have hpos := h.inpos
  have hlen := h.inlen
  have htwo := roomFor_iff.1 hroom 1 (by decide)
  rw [Line.length] at hlen
  rw [Line.insert, Line.put] at hspace
  rw [Line.length, Line.insert, Line.put]
  by_cases hin : l.left.length + 3 < XTTYFBMAX.toNat
  · rw [if_pos hin, if_neg hc] at hspace
    rw [if_pos hin, if_neg hc]
    simp only [List.length_append, List.length_singleton] at hspace ⊢
    omega
  · rw [if_neg hin] at hspace
    exact absurd hspace hin

theorem insert_length_eq (hc : c ≠ NL) :
    (l.insert c).length =
      if l.left.length + 3 < XTTYFBMAX.toNat then l.length + 1 else l.length := by
  rw [Line.length, Line.length, Line.insert, Line.put]
  by_cases hin : l.left.length + 3 < XTTYFBMAX.toNat
  · rw [if_pos hin, if_pos hin, if_neg hc]
    simp only [List.length_append, List.length_singleton]
    omega
  · rw [if_neg hin, if_neg hin]

theorem escape_yields (h : tp.tLdata.Shows l) (rest : List Byte) :
    Yields tp ([], l.escape rest) (.ok (xTtyProcessEsc tp rest).2) := by
  rcases rest with _ | ⟨seq, _ | ⟨cmd, rest⟩⟩
  · exact Yields.same h
  · exact Yields.same h
  have hpos := h.inpos
  have hlen := h.inlen
  rw [Line.length] at hlen
  rw [xTtyProcessEsc, Line.escape]
  by_cases hseq : seq ≠ byte '['
  · rw [if_pos hseq, if_pos hseq]
    exact Yields.same h
  rw [if_neg hseq, if_neg hseq]
  by_cases hC : cmd = byte 'C'
  · have hD : ¬ (cmd = byte 'D' ∧ 0 < tp.tLdata.inpos) := by
      rintro ⟨rfl, -⟩
      exact absurd hC (by decide)
    rw [if_pos hC]
    cases hright : l.right with
    | nil =>
      rw [hright, List.length_nil] at hlen
      rw [if_neg (by omega), if_neg hD]
      exact Yields.same h
    | cons c right =>
      have hholds := h.holds
      rw [hright] at hholds
      rw [hright, List.length_cons] at hlen
      rw [if_pos ⟨hC, by omega⟩]
      exact Yields.writeIf (l := ⟨_, _, _⟩) ⟨hholds.move, h.flush⟩ _ _
  · have hnotC : ¬ (cmd = byte 'C' ∧ tp.tLdata.inpos < tp.tLdata.inlen) := fun hboth => hC hboth.1
    rw [if_neg hC, if_neg hnotC]
    by_cases hD : cmd = byte 'D'
    · rw [if_pos hD]
      rcases List.eq_nil_or_concat l.left with hleft | ⟨left, c, hleft⟩
      · rw [hleft, List.length_nil] at hpos
        rw [hleft, List.getLast?_nil, if_neg (by omega)]
        exact Yields.same h
      · have hholds := h.holds
        rw [List.concat_eq_append] at hleft
        rw [hleft] at hholds
        rw [hleft, List.length_append, List.length_singleton] at hpos
        rw [hleft, List.getLast?_concat, List.dropLast_concat, if_pos ⟨hD, by omega⟩]
        exact Yields.writeIf (l := ⟨_, _, _⟩) ⟨hholds.moveBack, h.flush⟩ _ _
    · have hnotD : ¬ (cmd = byte 'D' ∧ 0 < tp.tLdata.inpos) := fun hboth => hD hboth.1
      rw [if_neg hD, if_neg hnotD]
      exact Yields.same h

/-- What a turn leaves, whatever it consumes: a line that does not fill the array. -/
def Turns (tp : Tty) (e : List Byte × Line) (y : Except Fault (Option Nat × Tty)) : Prop :=
  Yields tp e (y.map Prod.snd) ∧ e.2.length < XTTYFBMAX.toNat

theorem Turns.next {e : List Byte × Line} {x : Except Fault Tty} (h : Yields tp e x)
    (hlen : e.2.length < XTTYFBMAX.toNat) : Turns tp e (x.map fun tp => (some 0, tp)) := by
  cases x with
  | error e => exact ⟨h, hlen⟩
  | ok tp' => exact ⟨h, hlen⟩

theorem Turns.ite {p : Prop} [Decidable p] {e e' : List Byte × Line}
    {y y' : Except Fault (Option Nat × Tty)} (hy : p → Turns tp e y) (hy' : ¬p → Turns tp e' y') :
    Turns tp (if p then e else e') (if p then y else y') := by
  by_cases hp : p
  · simpa only [if_pos hp] using hy hp
  · simpa only [if_neg hp] using hy' hp

theorem fits_ordinary (h : tp.tLdata.Shows l) (hfits : tp.fits c = true)
    (hputs : (ttyIsprint c || tp.tTermios.isNL c) = true → tp.tTermios.puts c = [c]) :
    ((ttyIsprint c || tp.tTermios.isNL c) = true → l.Roomy) ∧
      (tp.tTermios.lflag ECHO = true → ttyIsprint c = true → l.right ≠ [] →
        tp.tLdata.echoEnds (l.insert c).length = true) := by
  rw [Tty.fits, Bool.and_eq_true, Bool.or_eq_true, Bool.not_eq_true'] at hfits
  rcases hfits with ⟨hroom, hecho⟩
  refine ⟨fun htyped => ?_, fun hflag hprint hright => ?_⟩
  · rw [hputs htyped] at hroom
    exact h.roomy hroom
  · have hpos := h.inpos
    have hlen := h.inlen
    have hc : c ≠ NL := by
      rintro rfl
      exact absurd hprint (by decide)
    have hone := hputs (by rw [hprint, Bool.true_or])
    have hin : tp.tLdata.inpos < tp.tLdata.inlen := by
      have := List.length_pos_iff.2 hright
      rw [Line.length] at hlen
      omega
    rcases hecho with hecho | hecho
    · rw [hflag, hprint, hone, decide_eq_true hin, beq_self_eq_true] at hecho
      exact absurd hecho (by decide)
    · have hat : ((l.insert c).length : Int) =
          if tp.tLdata.inpos < XTTYFBMAX - 3 then tp.tLdata.inlen + 1 else tp.tLdata.inlen := by
        rw [insert_length_eq hc]
        by_cases hspace : l.left.length + 3 < XTTYFBMAX.toNat
        · rw [if_pos hspace, if_pos (by omega)]
          omega
        · rw [if_neg hspace, if_neg (by omega)]
          omega
      exact (congrArg tp.tLdata.echoEnds hat).trans hecho

theorem receiveChar_turns (h : tp.tLdata.Shows l) (hlen : l.length < XTTYFBMAX.toNat)
    (hfits : tp.fits c = true) (rest : List Byte) :
    Turns tp (l.receive tp.tTermios c rest) (tp.receiveChar c rest) := by
  have hmax : l.length ≤ XTTYFBMAX := by omega
  have hclear : l.clear.length < XTTYFBMAX.toNat := Nat.lt_of_le_of_lt (Nat.zero_le _) hlen
  refine Turns.ite (fun _ => ⟨Yields.setLdata ⟨Ldata.Holds.reset _, h.flush⟩, hclear⟩)
    fun hsignal => ?_
  refine Turns.ite (fun _ => ⟨⟨tp.tLdata, tp.written, rfl, h⟩, hlen⟩) fun hcanon => ?_
  refine Turns.ite (fun _ => Turns.next (erase_yields h (by omega))
    (Nat.lt_of_le_of_lt l.erase_length_le hlen)) fun herase => ?_
  refine Turns.ite (fun _ => Turns.next (kill_yields h hmax) hclear) fun hkill => ?_
  refine Turns.ite (fun _ => ⟨?_, hlen⟩) fun heof => ?_
  · have hinlen := h.inlen
    refine ⟨tp.tLdata, tp.written, ?_, h⟩
    rw [Tty.eof]
    by_cases hzero : l.length = 0
    · rw [if_pos (by omega), if_pos hzero]
      rfl
    · rw [if_neg (by omega), if_neg hzero]
      rfl
  refine Turns.ite (fun _ => Turns.next (werase_yields h hmax)
    (Nat.lt_of_le_of_lt l.werase_length_le hlen)) fun hwerase => ?_
  refine Turns.ite (fun _ => Turns.next (discard_yields h hmax) hclear) fun hdiscard => ?_
  refine Turns.ite (fun _ => ⟨Yields.same h, hlen⟩) fun hign => ?_
  -- what is left over goes into the line
  have hnone : ¬ (tp.tTermios.isSignal c || !tp.tTermios.lflag ICANON ||
      (c == BS || tp.tTermios.is VERASE c) || tp.tTermios.is VKILL c || tp.tTermios.is VEOF c ||
      tp.tTermios.is VWERASE c || tp.tTermios.is VDISCARD c ||
      (c == CR && tp.tTermios.iflag IGNCR)) = true := by
    simp only [Bool.or_eq_true, not_or]
    exact ⟨⟨⟨⟨⟨⟨⟨hsignal, hcanon⟩, by simpa using herase⟩, hkill⟩, heof⟩, hwerase⟩, hdiscard⟩, hign⟩
  have hputs : tp.tTermios.puts c =
      if c == CR && tp.tTermios.iflag ICRNL then [NL]
      else if c == NL && tp.tTermios.iflag INLCR then [CR, NL]
      else if c == ESC then []
      else if ttyIsprint c || tp.tTermios.isNL c then [c]
      else [] := if_neg hnone
  have hroom : tp.tLdata.roomFor (tp.tTermios.puts c).length = true := by
    rw [Tty.fits, Bool.and_eq_true] at hfits
    exact hfits.1
  refine Turns.ite (fun hcr => ?_) fun hcr => ?_
  · rw [hputs, if_pos hcr] at hroom
    have hroomy : (ttyIsprint NL || tp.tTermios.isNL NL) = true → l.Roomy := fun _ => h.roomy hroom
    exact Turns.next (ordinary_yields h hlen hroomy fun _ hprint => absurd hprint (by decide))
      (Line.ordinary_length hlen hroomy)
  rw [if_neg hcr] at hputs
  refine Turns.ite (fun hnl => ?_) fun hnl => ?_
  · -- a carriage return goes in first
    rw [hputs, if_pos hnl] at hroom
    rw [Bool.and_eq_true, beq_iff_eq] at hnl
    obtain ⟨rfl, -⟩ := hnl
    rcases ttyInsertInput_spec h CR fun _ => by omega with ⟨ld, hins, hld, -⟩
    rw [hins, ok_bind]
    have hmore := Line.insert_length (c := CR) hlen (h.roomy hroom)
    have hroomy : (ttyIsprint NL || tp.tTermios.isNL NL) = true → (l.insert CR).Roomy :=
      fun _ => h.roomy_insert hroom (by decide)
    have hsecond : Yields (tp.setLdata ld) ((l.insert CR).ordinary tp.tTermios NL)
        ((tp.setLdata ld).ordinary NL) :=
      ordinary_yields hld hmore hroomy fun _ hprint => absurd hprint (by decide)
    exact Turns.next hsecond (Line.ordinary_length hmore hroomy)
  rw [if_neg hnl] at hputs
  refine Turns.ite (fun hesc => ⟨?_, by rwa [Line.escape_length]⟩) fun hesc => ?_
  · cases rest with
    | nil => exact Yields.same h
    | cons seq rest => exact escape_yields h (seq :: rest)
  rw [if_neg hesc] at hputs
  rcases fits_ordinary h hfits fun htyped => by rw [hputs, if_pos htyped] with ⟨hroomy, hecho⟩
  exact Turns.next (ordinary_yields h hlen hroomy hecho) (Line.ordinary_length hlen hroomy)

end Turn

end XTty
end XytherOS
