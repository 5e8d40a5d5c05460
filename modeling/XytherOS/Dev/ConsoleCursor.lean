import XytherOS.Dev.ConsoleScroll

/-!
# ConsoleCursor — the control sequences that move the cursor

`console_set_cursor_cordinates` lets the coordinates `ws_col` and `ws_row` through, which are one
past the end: the first is the start of the next line, and behind the end of the screen
`console_update_cursor` scrolls.  A scroll changes nothing only if the display is blank, `upbuf` full
and `downbuf` empty.
-/

namespace XytherOS

/-! ## What moves in a ring buffer -/

namespace Ds

open Fs (Byte)

variable {r r' : Ringbuf}

theorem ringbufWriteAt_tail {src : List Byte} {k : Nat} (h : ringbufWriteAt src r = .ok (k, r')) :
    r'.tail = r.tail + BitVec.ofNat 64 k ∧ k ≤ src.length ∧
      (src ≠ [] → r.count ≠ r.size → 0 < k) := by
  induction src generalizing r r' k with
  | nil =>
    cases h
    exact ⟨(BitVec.add_zero _).symm, Nat.le_refl 0, fun hne => absurd rfl hne⟩
  | cons b src ih =>
    rw [ringbufWriteAt] at h
    split at h
    · rename_i hfull
      cases h
      exact ⟨(BitVec.add_zero _).symm, Nat.zero_le _,
        fun _ hcount => absurd (by simpa [Ringbuf.isFull] using hfull) hcount⟩
    · rcases bind_ok_iff.1 h with ⟨i, -, h⟩
      rcases bind_ok_iff.1 h with ⟨⟨k', r''⟩, hrest, h⟩
      cases h
      rcases ih hrest with ⟨htail, hle, -⟩
      refine ⟨?_, Nat.succ_le_succ hle, fun _ _ => Nat.succ_pos _⟩
      rw [htail, Ringbuf.push]
      bv_omega

theorem full_of_writeAt {src : List Byte} {k : Nat} (h : ringbufWriteAt src r = .ok (k, r))
    (hne : src ≠ []) (hlen : src.length < 2 ^ 64) : r.count = r.size := by
  rcases ringbufWriteAt_tail h with ⟨htail, hle, hpos⟩
  by_contra hcount
  have hk := hpos hne hcount
  bv_omega

theorem ringbufReadAt_head {n : Nat} {bs : List Byte} (h : ringbufReadAt n r = .ok (bs, r')) :
    r'.head = r.head + BitVec.ofNat 64 bs.length ∧ (0 < n → r.count ≠ 0 → 0 < bs.length) := by
  induction n generalizing r r' bs with
  | zero =>
    cases h
    exact ⟨(BitVec.add_zero _).symm, fun hn => absurd hn (by decide)⟩
  | succ n ih =>
    rw [ringbufReadAt] at h
    split at h
    · rename_i hempty
      cases h
      exact ⟨(BitVec.add_zero _).symm,
        fun _ hcount => absurd (by simpa [Ringbuf.isEmpty] using hempty) hcount⟩
    · rcases bind_ok_iff.1 h with ⟨i, -, h⟩
      rcases bind_ok_iff.1 h with ⟨⟨rest, r''⟩, hrest, h⟩
      cases h
      refine ⟨?_, fun _ _ => Nat.succ_pos _⟩
      rw [(ih hrest).1, Ringbuf.pop, List.length_cons]
      bv_omega

theorem empty_of_readAt {n : Nat} {bs : List Byte} (h : ringbufReadAt n r = .ok (bs, r))
    (hpos : 0 < n) (hlen : n < 2 ^ 64) : r.count = 0 := by
  rcases ringbufReadAt_head h with ⟨hhead, hread⟩
  have hle := ringbufReadAt_length h
  by_contra hcount
  have hbs := hread hpos hcount
  bv_omega

end Ds

namespace Dev
namespace Tty

open Fs (Byte)
open Ds (Ringbuf ringbufReadAt ringbufWriteAt full_of_writeAt empty_of_readAt)

variable {w : Winsize} {tp tp' : Tty}

/-! ## A scroll that changes nothing -/

structure Unchanged (w : Winsize) (tp tp' : Tty) : Prop where
  shadow : ∀ k < w.bytes, tp'.shadow k = tp.shadow k
  upbuf : tp'.upbuf = tp.upbuf
  downbuf : tp'.downbuf = tp.downbuf

/-- The display is blank in the current attribute, there is no room in `upbuf`, and nothing in
`downbuf`. -/
structure Quiet (w : Winsize) (tp : Tty) : Prop where
  blank : ∀ j < w.rows, row w tp j = blankLine w tp
  full : tp.upbuf.count = tp.upbuf.size
  empty : tp.downbuf.count = 0

theorem scroll_one (tp : Tty) :
    tp.scroll false 1 = tp.lineUp >>= fun tp' => .ok (tp'.mark 0 tp'.markSize) := by
  rw [scroll_eq, scrollLines, if_neg (by decide)]
  cases tp.lineUp <;> rfl

theorem putLine_buffers {bytes : List Byte} {off : Nat} (h : tp.putLine bytes off = .ok tp') :
    tp'.upbuf = tp.upbuf ∧ tp'.downbuf = tp.downbuf := by
  rw [putLine] at h
  rcases bind_ok_iff.1 h with ⟨_, -, h⟩
  split at h
  · rw [erase] at h
    rcases bind_ok_iff.1 h with ⟨_, -, h⟩
    cases h
    exact ⟨refresh_upbuf tp _, refresh_downbuf tp _⟩
  · cases h
    exact ⟨rfl, rfl⟩

theorem buffers_of_lineUp (hw : w.Fits) (hwin : tp.win = w) (hrun : tp.lineUp = .ok tp')
    (hup : tp'.upbuf = tp.upbuf) (hdown : tp'.downbuf = tp.downbuf) :
    tp.upbuf.count = tp.upbuf.size ∧ tp.downbuf.count = 0 := by
  subst hwin
  have hcols := hw.cols
  have hsmall : 2 * tp.win.cols < 2 ^ 64 := by
    have hlt : tp.win.cols < 2 ^ 16 := tp.win.wsCol.isLt
    omega
  rw [lineUp] at hrun
  rcases bind_ok_iff.1 hrun with ⟨⟨k, upbuf⟩, hwrite, hrun⟩
  rcases bind_ok_iff.1 hrun with ⟨_, -, hrun⟩
  rcases bind_ok_iff.1 hrun with ⟨_, -, hrun⟩
  rcases bind_ok_iff.1 hrun with ⟨_, -, hrun⟩
  rcases bind_ok_iff.1 hrun with ⟨⟨bytes, downbuf⟩, hread, hput⟩
  rcases putLine_buffers hput with ⟨hup', hdown'⟩
  obtain rfl : upbuf = tp.upbuf := hup'.symm.trans hup
  obtain rfl : downbuf = tp.downbuf := hdown'.symm.trans hdown
  refine ⟨full_of_writeAt hwrite ?_ (by simpa using hsmall),
    empty_of_readAt hread (by omega) hsmall⟩
  rw [← List.length_pos_iff]
  simpa using hcols

theorem MovedUp.same_iff (hw : w.Fits) (h : MovedUp w tp tp') :
    (∀ k < w.bytes, tp'.shadow k = tp.shadow k) ↔ ∀ j < w.rows, row w tp j = blankLine w tp := by
  have hrows := hw.rows
  constructor
  · intro hsame j hj
    -- from the last line upwards
    obtain ⟨d, hd⟩ : ∃ d, j + d = w.rows - 1 := ⟨w.rows - 1 - j, by omega⟩
    induction d generalizing j with
    | zero =>
      obtain rfl : j = w.rows - 1 := hd
      exact (rows_of_same hsame hj).symm.trans h.last
    | succ d ih =>
      have hnext : j + 1 < w.rows := by omega
      calc row w tp j = row w tp' j := (rows_of_same hsame hj).symm
        _ = row w tp (j + 1) := h.moved j hnext
        _ = blankLine w tp := ih (j + 1) hnext (by omega)
  · intro hblank
    refine same_of_rows hw fun j hj => ?_
    rw [hblank j hj]
    by_cases hnext : j + 1 < w.rows
    · rw [h.moved j hnext, hblank _ hnext]
    · obtain rfl : j = w.rows - 1 := by omega
      exact h.last

theorem scroll_unchanged_iff (hw : w.Fits) (h : Framed w tp) :
    ∃ tp', tp.scroll false 1 = .ok tp' ∧ tp'.win = w ∧ (Unchanged w tp tp' ↔ Quiet w tp) := by
  have hsafe := h.lineUp hw
  cases hrun : tp.lineUp with
  | error e =>
    rw [hrun] at hsafe
    exact hsafe.elim
  | ok tp1 =>
    rw [hrun] at hsafe
    have hscroll : tp.scroll false 1 = .ok (tp1.mark 0 tp1.markSize) := by
      rw [scroll_one, hrun, ok_bind]
    refine ⟨_, hscroll, hsafe.win, ?_⟩
    have hblank (hfull : tp.upbuf.count = tp.upbuf.size) (hempty : tp.downbuf.count = 0) :
        tp1.upbuf = tp.upbuf ∧ tp1.downbuf = tp.downbuf ∧ MovedUp w tp tp1 := by
      rcases lineUp_blank hw h.win hempty (ringbufWriteAt_full hfull _) (Nat.zero_le _) with
        ⟨tp2, hrun2, -, hup, hdown, hmoved⟩
      obtain rfl := Except.ok.inj (hrun.symm.trans hrun2)
      exact ⟨hup, hdown, hmoved⟩
    constructor
    · intro hsame
      rcases buffers_of_lineUp hw h.win hrun hsame.upbuf hsame.downbuf with ⟨hfull, hempty⟩
      exact ⟨((hblank hfull hempty).2.2.same_iff hw).1 hsame.shadow, hfull, hempty⟩
    · intro hquiet
      rcases hblank hquiet.full hquiet.empty with ⟨hup, hdown, hmoved⟩
      exact ⟨(hmoved.same_iff hw).2 hquiet.blank, hup, hdown⟩

/-! ## Coordinates -/

def within (x : Int) (n : Nat) : Nat := min x.toNat (n - 1)

/-- A coordinate that `console_set_cursor_cordinates` clamps as it should: it is an `int` and not
one past the end. -/
def Reached (x : Int) (n : Nat) : Prop := x ≠ n ∧ (n = 1 ∨ -2 ^ 31 ≤ x ∧ x < 2 ^ 31)

instance (x : Int) (n : Nat) : Decidable (Reached x n) :=
  inferInstanceAs (Decidable (_ ∧ _))

theorem int32_of_range {x : Int} (h : -2 ^ 31 ≤ x) (h' : x < 2 ^ 31) : int32 x = x := by
  rw [int32]
  exact Int.bmod_eq_of_le (by omega) (by omega)

theorem int32_add_two_pow (x : Int) : int32 (x + 2 ^ 32) = int32 x := by
  rw [int32, int32]
  exact Int.add_bmod_right x _

theorem int32_above {x : Int} (h : 2 ^ 31 ≤ x) (h' : x < 2 ^ 32) : int32 x = x - 2 ^ 32 := by
  calc int32 x = int32 (x - 2 ^ 32 + 2 ^ 32) := by rw [sub_add_cancel]
    _ = int32 (x - 2 ^ 32) := int32_add_two_pow _
    _ = x - 2 ^ 32 := int32_of_range (by omega) (by omega)

theorem int32_below {x : Int} (h : -2 ^ 32 ≤ x) (h' : x < -2 ^ 31) : int32 x = x + 2 ^ 32 := by
  calc int32 x = int32 (x + 2 ^ 32) := (int32_add_two_pow x).symm
    _ = x + 2 ^ 32 := int32_of_range (by omega) (by omega)

theorem clamp_nonneg {n : Nat} (hn : 0 < n) (x : Int) : 0 ≤ clamp x n ∧ clamp x n ≤ n := by
  rw [clamp]
  split
  · omega
  · split <;> omega

structure Request (x : Int) : Prop where
  lower : -2 ^ 31 - 1 ≤ x
  upper : x < 2 ^ 31 + 2 ^ 16

theorem Request.clamp_value {x : Int} (hx : Request x) {n : Nat} (hn : 0 < n) (hn' : n < 2 ^ 16) :
    Reached x n ∧ (clamp (int32 x) n).toNat = within x n ∨
      x = n ∧ (clamp (int32 x) n).toNat = n ∨
      n ≠ 1 ∧ 2 ^ 31 ≤ x ∧ (clamp (int32 x) n).toNat = 0 ∨
      n ≠ 1 ∧ x < -2 ^ 31 ∧ (clamp (int32 x) n).toNat = n - 1 := by
  have hlower := hx.lower
  have hupper := hx.upper
  by_cases hlo : x < -2 ^ 31
  · have hvalue : (clamp (int32 x) n).toNat = n - 1 := by
      rw [int32_below (by omega) hlo, clamp, if_neg (by omega), if_pos (by omega)]
      omega
    by_cases hone : n = 1
    · refine Or.inl ⟨⟨by omega, Or.inl hone⟩, ?_⟩
      rw [hvalue, within]
      omega
    · exact Or.inr (Or.inr (Or.inr ⟨hone, hlo, hvalue⟩))
  by_cases hhi : x < 2 ^ 31
  · have hint : n = 1 ∨ -2 ^ 31 ≤ x ∧ x < 2 ^ 31 := Or.inr ⟨not_lt.1 hlo, hhi⟩
    rw [int32_of_range (not_lt.1 hlo) hhi, clamp, within]
    by_cases hneg : x < 0
    · rw [if_pos hneg]
      exact Or.inl ⟨⟨by omega, hint⟩, by omega⟩
    rw [if_neg hneg]
    by_cases hmore : n < x
    · rw [if_pos hmore]
      exact Or.inl ⟨⟨by omega, hint⟩, by omega⟩
    rw [if_neg hmore]
    by_cases hend : x = n
    · exact Or.inr (Or.inl ⟨hend, by omega⟩)
    · exact Or.inl ⟨⟨hend, hint⟩, by omega⟩
  · have hvalue : (clamp (int32 x) n).toNat = 0 := by
      rw [int32_above (by omega) (by omega), clamp, if_pos (by omega)]
      rfl
    by_cases hone : n = 1
    · refine Or.inl ⟨⟨by omega, Or.inl hone⟩, ?_⟩
      rw [hvalue, within]
      omega
    · exact Or.inr (Or.inr (Or.inl ⟨hone, not_lt.1 hhi, hvalue⟩))

/-! ## Where the cursor goes -/

/-- The screen and the scroll-back buffers stay as they are, and the cursor is at the line `y` and
the column `x`, both clamped to the window. -/
structure MovedTo (w : Winsize) (tp : Tty) (y x : Int) (tp' : Tty) : Prop where
  still : Unchanged w tp tp'
  line : tp'.cursorPos / w.cols = within y w.rows
  column : tp'.cursorPos % w.cols = within x w.cols

/-- The cell `(b, a)`, where `a` may be one past the last column and `b` one past the last line, is
the one at `(y, x)`, or the scroll at the end of the screen changes nothing. -/
def Lands (w : Winsize) (tp : Tty) (b a : Nat) (y x : Int) : Prop :=
  b = within y w.rows ∧ a = within x w.cols ∨
    a = w.cols ∧ b + 1 = within y w.rows ∧ within x w.cols = 0 ∨
    (b = w.rows ∨ b + 1 = w.rows ∧ a = w.cols) ∧ within y w.rows + 1 = w.rows ∧
      within x w.cols = 0 ∧ Quiet w tp

theorem within_lt {x : Int} {n : Nat} (hn : 0 < n) : within x n < n := by
  rw [within]
  omega

theorem cell_iff {n a col : Nat} (b line : Nat) (ha : a ≤ n) (hcol : col < n) :
    ((b * n + a) / n = line ∧ (b * n + a) % n = col) ↔
      b = line ∧ a = col ∨ a = n ∧ b + 1 = line ∧ col = 0 := by
  have hn : 0 < n := Nat.zero_lt_of_lt hcol
  rcases Nat.lt_or_eq_of_le ha with hlt | rfl
  · rw [Nat.mul_comm, Nat.mul_add_div hn, Nat.div_eq_of_lt hlt, Nat.mul_add_mod,
      Nat.mod_eq_of_lt hlt]
    omega
  · have hnext : b * a + a = (b + 1) * a := (Nat.succ_mul b a).symm
    rw [hnext, Nat.mul_div_cancel _ hn, Nat.mul_mod_left]
    omega

theorem end_iff {n m a b : Nat} (ha : a ≤ n) (hb : b ≤ m) (hn : 0 < n) (hm : 0 < m) :
    m * n ≤ b * n + a ↔ b = m ∨ b + 1 = m ∧ a = n := by
  constructor
  · intro hle
    rcases Nat.lt_or_eq_of_le hb with hlt | rfl
    · have hline : (b + 1) * n ≤ m * n := Nat.mul_le_mul_right n hlt
      rw [Nat.succ_mul] at hline
      have hlast : b + 1 = m := by
        by_contra hne
        have hfar : (b + 2) * n ≤ m * n := Nat.mul_le_mul_right n (by omega)
        rw [Nat.succ_mul, Nat.succ_mul] at hfar
        omega
      refine Or.inr ⟨hlast, ?_⟩
      omega
    · exact Or.inl rfl
  · rintro (rfl | ⟨rfl, rfl⟩)
    · exact Nat.le_add_right _ _
    · rw [Nat.succ_mul]

theorem Quiet.cursor_iff (off : Nat) : Quiet w { tp with cursorPos := off } ↔ Quiet w tp := by
  have hblank : blankLine w { tp with cursorPos := off } = blankLine w tp := by
    have hcga (tp' : Tty) (hattrib : tp'.attrib = tp.attrib) (hcga : tp'.cga = tp.cga) :
        (tp'.refresh (ch ' ')).cga = (tp.refresh (ch ' ')).cga :=
      (refresh_congr tp (ch ' ') hattrib hcga).2
    rw [blankLine, blankLine, hcga { tp with cursorPos := off } rfl rfl]
  constructor
  · exact fun h => ⟨fun j hj => (h.blank j hj).trans hblank, h.full, h.empty⟩
  · exact fun h => ⟨fun j hj => (h.blank j hj).trans hblank.symm, h.full, h.empty⟩

theorem updateCursor_iff (hw : w.Fits) (h : Framed w tp) {a b : Nat} (ha : a ≤ w.cols)
    (hb : b ≤ w.rows) (y x : Int) :
    (∃ tp', tp.updateCursor (b * w.cols + a) = .ok tp' ∧ MovedTo w tp y x tp') ↔
      Lands w tp b a y x := by
  have hcols := hw.cols
  have hrows := hw.rows
  have hcell := cell_iff b (within y w.rows) ha (within_lt (x := x) hcols)
  have hend := end_iff ha hb hcols hrows
  have hcells := hw.cells_eq
  rw [updateCursor, (measured hw h.win).screen, Lands]
  by_cases hpast : w.cells ≤ b * w.cols + a
  · have hmoved : Framed w { tp with cursorPos := b * w.cols + a } :=
      ⟨h.win, h.saved, h.upbuf, h.downbuf, h.marked⟩
    rcases scroll_unchanged_iff hw hmoved with ⟨tp1, hrun, hwin1, hsame⟩
    have hpos : usize ((tp1.screenSize : Int) - tp1.win.cols) = w.above := by
      have hbytes := hw.bytes
      rw [Winsize.bytes_eq] at hbytes
      rw [(measured hw hwin1).screen, hwin1, usize_of_lt (by omega) (by omega)]
      omega
    have hplace : (w.above / w.cols = within y w.rows ∧ w.above % w.cols = within x w.cols) ↔
        within y w.rows + 1 = w.rows ∧ within x w.cols = 0 := by
      rw [Winsize.above, Nat.mul_div_cancel _ hcols, Nat.mul_mod_left]
      omega
    have hlast := hend.1 hpast
    rw [if_pos hpast, hrun, ok_bind]
    constructor
    · rintro ⟨tp', htp', hto⟩
      cases htp'
      have hline := hto.line
      have hcolumn := hto.column
      rw [hpos] at hline hcolumn
      have hquiet : Unchanged w { tp with cursorPos := b * w.cols + a } tp1 :=
        ⟨hto.still.shadow, hto.still.upbuf, hto.still.downbuf⟩
      rcases hplace.1 ⟨hline, hcolumn⟩ with ⟨hrow, hcol⟩
      exact Or.inr (Or.inr ⟨hlast, hrow, hcol, (Quiet.cursor_iff _).1 (hsame.1 hquiet)⟩)
    · rintro (⟨rfl, rfl⟩ | ⟨rfl, hnext, hzero⟩ | ⟨-, hrow, hcol, hquiet⟩)
      · -- a cell of the window is not past its end
        have hlt := within_lt (x := y) hrows
        have hlt' := within_lt (x := x) hcols
        omega
      · have hlt := within_lt (x := y) hrows
        omega
      · have hstill := hsame.2 ((Quiet.cursor_iff _).2 hquiet)
        rcases hplace.2 ⟨hrow, hcol⟩ with ⟨hline, hcolumn⟩
        refine ⟨_, rfl, ⟨⟨hstill.shadow, hstill.upbuf, hstill.downbuf⟩, ?_, ?_⟩⟩
        · rw [hpos]
          exact hline
        · rw [hpos]
          exact hcolumn
  · have hin : ¬ (b = w.rows ∨ b + 1 = w.rows ∧ a = w.cols) := fun hlast => hpast (hend.2 hlast)
    rw [if_neg hpast]
    constructor
    · rintro ⟨tp', htp', hto⟩
      cases htp'
      rcases hcell.1 ⟨hto.line, hto.column⟩ with hhere | hnext
      · exact Or.inl hhere
      · exact Or.inr (Or.inl hnext)
    · rintro (hhere | hnext | ⟨hlast, -⟩)
      · rcases hcell.2 (Or.inl hhere) with ⟨hline, hcolumn⟩
        exact ⟨_, rfl, ⟨⟨fun _ _ => rfl, rfl, rfl⟩, hline, hcolumn⟩⟩
      · rcases hcell.2 (Or.inr hnext) with ⟨hline, hcolumn⟩
        exact ⟨_, rfl, ⟨⟨fun _ _ => rfl, rfl, rfl⟩, hline, hcolumn⟩⟩
      · exact absurd hlast hin

theorem setCursorCordinates_iff (hw : w.Fits) (h : Framed w tp) (x' y' y x : Int) :
    (∃ tp', tp.setCursorCordinates x' y' = .ok tp' ∧ MovedTo w tp y x tp') ↔
      Lands w tp (clamp y' w.rows).toNat (clamp x' w.cols).toNat y x := by
  rcases clamp_nonneg hw.rows y' with ⟨hy, hrows⟩
  rcases clamp_nonneg hw.cols x' with ⟨hx, hcols⟩
  obtain ⟨b, hb⟩ := Int.eq_ofNat_of_zero_le hy
  obtain ⟨a, ha⟩ := Int.eq_ofNat_of_zero_le hx
  rw [hb] at hrows
  rw [ha] at hcols
  have hb' : b ≤ w.rows := by omega
  have ha' : a ≤ w.cols := by omega
  have hbytes := hw.bytes
  have hcells := hw.cells_eq
  rw [Winsize.bytes_eq] at hbytes
  have hle : b * w.cols ≤ w.cells := Nat.mul_le_mul_right _ hb'
  have hplace : usize (int32 (int32 (clamp y' w.rows * w.cols) + clamp x' w.cols)) =
      b * w.cols + a := by
    rw [hb, ha, ← Nat.cast_mul, int32_nat (by omega), ← Nat.cast_add, int32_nat (by omega),
      usize_nat (by omega)]
  rw [setCursorCordinates, h.win, hplace, hb, ha]
  exact updateCursor_iff hw h ha' hb' y x

/-! ## Requests -/

def line (w : Winsize) (tp : Tty) : Nat := tp.cursorPos / w.cols

def col (w : Winsize) (tp : Tty) : Nat := tp.cursorPos % w.cols

/-- The line and the column, counted from `0`, that a control sequence asks for; a coordinate that
is not given is the first one. -/
def requested (w : Winsize) (tp : Tty) : Csi → Option (Int × Int)
  | .up => some (line w tp - tp.param0, col w tp)
  | .down => some (line w tp + tp.param0, col w tp)
  | .right => some (line w tp, col w tp + tp.param0)
  | .left => some (line w tp, col w tp - tp.param0)
  | .nextLine => some (line w tp + tp.param0, 0)
  | .prevLine => some (line w tp - tp.param0, 0)
  | .column => some (line w tp, tp.param0 - 1)
  | .position => some (tp.escSeq 0 - 1, if 1 ≤ tp.escSeqpos then tp.escSeq 1 - 1 else 0)
  | .line => some (tp.param0 - 1, col w tp)
  | .save => some (line w tp, col w tp)
  | .restore => some ((tp.savedCursorPos / w.cols : Nat), (tp.savedCursorPos % w.cols : Nat))
  | _ => none

def Ints (tp : Tty) : Prop := ∀ i, -2 ^ 31 ≤ tp.escSeq i ∧ tp.escSeq i < 2 ^ 31

/-- A place that a scroll would put right: it is one past the end of the screen, and clamped it is
the start of the last line. -/
def AtCorner (w : Winsize) (y x : Int) : Prop :=
  y = w.rows ∧ (x ≤ 0 ∨ w.cols = 1) ∨
    w.cols = 1 ∧ x = 1 ∧ (w.rows = 1 ∨ w.rows ≤ y + 1)

/-- A place that `console_set_cursor_cordinates` clamps as it should. -/
def Addressable (w : Winsize) (tp : Tty) (y x : Int) : Prop :=
  Reached y w.rows ∧ Reached x w.cols ∨ Quiet w tp ∧ AtCorner w y x

/-- The line `y`, where the code goes to the start of the line `y - 1`. -/
def Shifted (w : Winsize) (tp : Tty) (y : Int) : Prop :=
  -2 ^ 31 < y ∧ y ≤ 0 ∨ w.rows ≤ y ∧ y ≤ 2 ^ 31 ∧ y ≠ w.rows + 1 ∨ w.rows = 1 ∧ y ≠ 2 ∨
    y = w.rows + 1 ∧ Quiet w tp

/-- The column `x` of the line of the cursor, where the code goes to the line `1`, if the cursor is
not in the cell `0`. -/
def InLineOne (w : Winsize) (tp : Tty) (x : Int) : Prop :=
  tp.cursorPos ≠ 0 ∧
    (line w tp = 1 ∧ Reached x w.cols ∨
      w.cols = 1 ∧ x = 1 ∧ line w tp = 2 ∨
      Quiet w tp ∧ (w.rows = 1 ∧ (x ≤ 0 ∨ w.cols = 1) ∨
        w.rows = 2 ∧ w.cols = 1 ∧ x = 1 ∧ line w tp = 1))

/-- The line `y` without a column, where the code goes to the column `1`. -/
def WithoutColumn (w : Winsize) (tp : Tty) (y : Int) : Prop :=
  Quiet w tp ∧ (y = w.rows ∨ w.cols = 1 ∧ (w.rows = 1 ∨ w.rows ≤ y + 1))

def Addressed (w : Winsize) (tp : Tty) : Csi → Prop
  | .up => Addressable w tp (line w tp - tp.param0) (col w tp)
  | .down => Addressable w tp (line w tp + tp.param0) (col w tp)
  | .right => Addressable w tp (line w tp) (col w tp + tp.param0)
  | .left => Addressable w tp (line w tp) (col w tp - tp.param0)
  | .nextLine => Shifted w tp (line w tp + tp.param0)
  | .prevLine => Shifted w tp (line w tp - tp.param0)
  | .column => InLineOne w tp (tp.param0 - 1)
  | .position =>
    if 1 ≤ tp.escSeqpos then Addressable w tp (tp.escSeq 0 - 1) (tp.escSeq 1 - 1)
    else WithoutColumn w tp (tp.escSeq 0 - 1)
  | .line => Addressable w tp (tp.param0 - 1) (col w tp)
  | _ => True

/-! ## Each request -/

theorem sizes_lt (w : Winsize) : w.rows < 2 ^ 16 ∧ w.cols < 2 ^ 16 :=
  ⟨w.wsRow.isLt, w.wsCol.isLt⟩

theorem Steady.place (hw : w.Fits) (h : Steady w tp) : line w tp < w.rows ∧ col w tp < w.cols :=
  ⟨(Nat.div_lt_iff_lt_mul hw.cols).2 h.cursor, Nat.mod_lt _ hw.cols⟩

theorem Ints.param0 (h : Ints tp) : -2 ^ 31 ≤ tp.param0 ∧ tp.param0 < 2 ^ 31 := by
  rw [Tty.param0]
  split
  · exact h 0
  · decide

theorem Request.of_lt {n m : Nat} (hn : n < m) (hm : m < 2 ^ 16) : Request n :=
  ⟨by omega, by omega⟩

theorem Request.moved {n m : Nat} {d : Int} (hn : n < m) (hm : m < 2 ^ 16) (hd : -2 ^ 31 ≤ d)
    (hd' : d ≤ 2 ^ 31) : Request (n + d) :=
  ⟨by omega, by omega⟩

theorem Request.pred {d : Int} (hd : -2 ^ 31 ≤ d) (hd' : d < 2 ^ 31) : Request (d - 1) :=
  ⟨by omega, by omega⟩

theorem within_of_lt {k n : Nat} (h : k < n) : within k n = k := by
  rw [within, Int.toNat_natCast]
  omega

theorem within_zero_iff {x : Int} {n : Nat} (hn : 0 < n) : within x n = 0 ↔ x ≤ 0 ∨ n = 1 := by
  rw [within]
  omega

theorem within_last_iff {x : Int} {n : Nat} (hn : 0 < n) :
    within x n + 1 = n ↔ n = 1 ∨ n ≤ x + 1 := by
  rw [within]
  omega

theorem Request.clamp_iff {x : Int} (hx : Request x) {n : Nat} (hn : 0 < n) (hn' : n < 2 ^ 16) :
    (clamp (int32 x) n).toNat = within x n ↔ Reached x n := by
  have hvalue := hx.clamp_value hn hn'
  rw [Reached, within] at hvalue ⊢
  omega

theorem Request.past_iff {x : Int} (hx : Request x) {n : Nat} (hn : 0 < n) (hn' : n < 2 ^ 16) :
    (clamp (int32 x) n).toNat = n ↔ x = n := by
  have hvalue := hx.clamp_value hn hn'
  rw [Reached, within] at hvalue
  omega

theorem Request.within_le {x : Int} (hx : Request x) {n : Nat} (hn : 0 < n) (hn' : n < 2 ^ 16)
    (hint : x < 2 ^ 31) : within x n ≤ (clamp (int32 x) n).toNat := by
  have hvalue := hx.clamp_value hn hn'
  rw [Reached, within] at hvalue
  rw [within]
  omega

theorem Request.last_iff {x : Int} (hx : Request x) {n : Nat} (hn : 0 < n) (hn' : n < 2 ^ 16)
    (hint : x < 2 ^ 31) :
    (clamp (int32 x) n).toNat + 1 = n ∧ within x n + 1 = n ↔ x ≠ n ∧ (n = 1 ∨ n ≤ x + 1) := by
  have hvalue := hx.clamp_value hn hn'
  have hpast := hx.past_iff hn hn'
  rw [within_last_iff hn]
  rw [Reached, within] at hvalue
  omega

theorem addressable_iff (hw : w.Fits) (h : Framed w tp) {y x : Int} (hy : Request y)
    (hx : Request x) (hone : y < 2 ^ 31 ∨ x ≠ w.cols) :
    (∃ tp', tp.setCursorCordinates (int32 x) (int32 y) = .ok tp' ∧ MovedTo w tp y x tp') ↔
      Addressable w tp y x := by
  rcases sizes_lt w with ⟨hrows', hcols'⟩
  have hrows := hw.rows
  have hcols := hw.cols
  rw [setCursorCordinates_iff hw h, Lands, Addressable, hy.clamp_iff hrows hrows',
    hx.clamp_iff hcols hcols', hy.past_iff hrows hrows', hx.past_iff hcols hcols',
    within_zero_iff hcols]
  -- the next line instead of the last column
  have hnext : ¬ (x = w.cols ∧ (clamp (int32 y) w.rows).toNat + 1 = within y w.rows) := by
    rintro ⟨hpast, hline⟩
    have hle := hy.within_le hrows hrows' (hone.resolve_right fun hne => hne hpast)
    omega
  have hcorner : (y = w.rows ∨ (clamp (int32 y) w.rows).toNat + 1 = w.rows ∧ x = w.cols) ∧
      within y w.rows + 1 = w.rows ∧ (x ≤ 0 ∨ w.cols = 1) ↔ AtCorner w y x := by
    rw [AtCorner]
    constructor
    · rintro ⟨rfl | ⟨hlast, hpast⟩, hline, hzero⟩
      · exact Or.inl ⟨rfl, hzero⟩
      · have hin := (hy.last_iff hrows hrows' (hone.resolve_right fun hne => hne hpast)).1
          ⟨hlast, hline⟩
        omega
    · rintro (⟨rfl, hzero⟩ | ⟨hcol, hpast, hline⟩)
      · exact ⟨Or.inl rfl, (within_last_iff hrows).2 (by omega), hzero⟩
      · refine ⟨?_, (within_last_iff hrows).2 hline, Or.inr hcol⟩
        by_cases hend : y = w.rows
        · exact Or.inl hend
        · have hpast' : x = w.cols := by omega
          exact Or.inr ⟨((hy.last_iff hrows hrows'
            (hone.resolve_right fun hne => hne hpast')).2 ⟨hend, hline⟩).1, hpast'⟩
  constructor
  · rintro (hin | ⟨hpast, hline, -⟩ | ⟨hend, hline, hzero, hquiet⟩)
    · exact Or.inl hin
    · exact absurd ⟨hpast, hline⟩ hnext
    · exact Or.inr ⟨hquiet, hcorner.1 ⟨hend, hline, hzero⟩⟩
  · rintro (hin | ⟨hquiet, hat⟩)
    · exact Or.inl hin
    · rcases hcorner.2 hat with ⟨hend, hline, hzero⟩
      exact Or.inr (Or.inr ⟨hend, hline, hzero, hquiet⟩)

theorem clamp_one {n : Nat} (hn : 0 < n) : (clamp 1 n).toNat = 1 := by
  rw [clamp, if_neg (by decide), if_neg (by omega)]
  rfl

theorem clamp_zero (n : Nat) : (clamp 0 n).toNat = 0 := by
  rw [clamp, if_neg (by decide), if_neg (by omega)]
  rfl

theorem shifted_iff (hw : w.Fits) (h : Framed w tp) {y : Int} (hlower : -2 ^ 31 ≤ y)
    (hupper : y < 2 ^ 31 + 2 ^ 16) :
    (∃ tp', tp.setCursorCordinates 0 (int32 (y - 1)) = .ok tp' ∧ MovedTo w tp y 0 tp') ↔
      Shifted w tp y := by
  rcases sizes_lt w with ⟨hrows', -⟩
  have hrows := hw.rows
  have hcols := hw.cols
  have hvalue := (Request.mk (x := y - 1) (by omega) (by omega)).clamp_value hrows hrows'
  have hzero : within 0 w.cols = 0 := by
    rw [within_zero_iff hcols]
    exact Or.inl le_rfl
  rw [setCursorCordinates_iff hw h, Lands, Shifted, clamp_zero, hzero]
  have hhere : (clamp (int32 (y - 1)) w.rows).toNat = within y w.rows ↔
      -2 ^ 31 < y ∧ y ≤ 0 ∨ w.rows ≤ y ∧ y ≤ 2 ^ 31 ∧ y ≠ w.rows + 1 ∨ w.rows = 1 ∧ y ≠ 2 := by
    rw [within]
    rcases hvalue with ⟨⟨hnot, hint⟩, hvalue⟩ | ⟨hend, hvalue⟩ | ⟨hnot, habove, hvalue⟩ |
      ⟨hnot, hbelow, hvalue⟩ <;> rw [hvalue]
    · rw [within]
      omega
    all_goals omega
  have hpast : (clamp (int32 (y - 1)) w.rows).toNat = w.rows ↔ y = w.rows + 1 := by
    rcases hvalue with ⟨⟨hnot, -⟩, hvalue⟩ | ⟨hend, hvalue⟩ | ⟨hnot, habove, hvalue⟩ |
      ⟨hnot, hbelow, hvalue⟩ <;> rw [hvalue]
    · rw [within]
      omega
    all_goals omega
  rw [hhere, hpast]
  constructor
  · rintro (⟨hin, -⟩ | ⟨hnone, -⟩ | ⟨hend | ⟨-, hnone⟩, -, -, hquiet⟩)
    · rcases hin with hin | hin | hin
      · exact Or.inl hin
      · exact Or.inr (Or.inl hin)
      · exact Or.inr (Or.inr (Or.inl hin))
    · omega
    · exact Or.inr (Or.inr (Or.inr ⟨hend, hquiet⟩))
    · omega
  · rintro (hin | hin | hin | ⟨hend, hquiet⟩)
    · exact Or.inl ⟨Or.inl hin, rfl⟩
    · exact Or.inl ⟨Or.inr (Or.inl hin), rfl⟩
    · exact Or.inl ⟨Or.inr (Or.inr hin), rfl⟩
    · refine Or.inr (Or.inr ⟨Or.inl hend, (within_last_iff hrows).2 (by omega), rfl, hquiet⟩)

theorem inLineOne_iff (hw : w.Fits) (h : Framed w tp) {n : Nat} {x : Int} (hn : n < w.rows)
    (hx : Request x) :
    (∃ tp', tp.setCursorCordinates (int32 x) 1 = .ok tp' ∧ MovedTo w tp n x tp') ↔
      n = 1 ∧ Reached x w.cols ∨ w.cols = 1 ∧ x = 1 ∧ n = 2 ∨
        Quiet w tp ∧ (w.rows = 1 ∧ (x ≤ 0 ∨ w.cols = 1) ∨
          w.rows = 2 ∧ w.cols = 1 ∧ x = 1 ∧ n = 1) := by
  rcases sizes_lt w with ⟨-, hcols'⟩
  have hrows := hw.rows
  have hcols := hw.cols
  have hline : within n w.rows = n := within_of_lt hn
  rw [setCursorCordinates_iff hw h, Lands, clamp_one hrows, hline, hx.clamp_iff hcols hcols',
    hx.past_iff hcols hcols', within_zero_iff hcols]
  constructor
  · rintro (⟨hhere, hin⟩ | ⟨hpast, hnext, hzero⟩ | ⟨hone | ⟨htwo, hpast⟩, hlast, hzero, hquiet⟩)
    · exact Or.inl ⟨hhere.symm, hin⟩
    · omega
    · exact Or.inr (Or.inr ⟨hquiet, Or.inl ⟨hone.symm, hzero⟩⟩)
    · exact Or.inr (Or.inr ⟨hquiet, Or.inr (by omega)⟩)
  · rintro (⟨hhere, hin⟩ | ⟨hcol, hpast, hnext⟩ |
      ⟨hquiet, ⟨hone, hzero⟩ | ⟨htwo, hcol, hpast, hhere⟩⟩)
    · exact Or.inl ⟨hhere.symm, hin⟩
    · exact Or.inr (Or.inl (by omega))
    · exact Or.inr (Or.inr ⟨Or.inl hone.symm, by omega, hzero, hquiet⟩)
    · exact Or.inr (Or.inr ⟨Or.inr (by omega), by omega, Or.inr hcol, hquiet⟩)

theorem withoutColumn_iff (hw : w.Fits) (h : Framed w tp) {y : Int} (hy : Request y)
    (hint : y < 2 ^ 31) :
    (∃ tp', tp.setCursorCordinates 1 (int32 y) = .ok tp' ∧ MovedTo w tp y 0 tp') ↔
      WithoutColumn w tp y := by
  rcases sizes_lt w with ⟨hrows', -⟩
  have hrows := hw.rows
  have hcols := hw.cols
  have hle := hy.within_le hrows hrows' hint
  have hzero : within 0 w.cols = 0 := by
    rw [within_zero_iff hcols]
    exact Or.inl le_rfl
  rw [setCursorCordinates_iff hw h, Lands, WithoutColumn, clamp_one hcols, hzero,
    hy.past_iff hrows hrows']
  constructor
  · rintro (⟨-, hnone⟩ | ⟨-, hnext, -⟩ | ⟨hend | ⟨hlast, hcol⟩, hline, -, hquiet⟩)
    · omega
    · omega
    · exact ⟨hquiet, Or.inl hend⟩
    · exact ⟨hquiet, Or.inr ⟨hcol.symm, ((hy.last_iff hrows hrows' hint).1 ⟨hlast, hline⟩).2⟩⟩
  · rintro ⟨hquiet, hend | ⟨hcol, hline⟩⟩
    · exact Or.inr (Or.inr ⟨Or.inl hend, (within_last_iff hrows).2 (by omega), rfl, hquiet⟩)
    · refine Or.inr (Or.inr ⟨?_, (within_last_iff hrows).2 hline, rfl, hquiet⟩)
      by_cases hend : y = w.rows
      · exact Or.inl hend
      · exact Or.inr ⟨((hy.last_iff hrows hrows' hint).2 ⟨hend, hline⟩).1, hcol.symm⟩

/-! ## The commands -/

theorem moveCursor_eq (hw : w.Fits) (h : Steady w tp) (dx dy : Int) :
    tp.moveCursor dx dy =
      tp.setCursorCordinates (int32 (col w tp + dx)) (int32 (line w tp + dy)) := by
  have hline := (h.place hw).1
  have hrows := (sizes_lt w).1
  have hy : int32 ((tp.cursorPos : Int) / w.cols) = line w tp := by
    rw [← Int.natCast_ediv]
    exact int32_nat (n := line w tp) (by omega)
  rw [moveCursor, divide_ok hw h.win, ok_bind, h.win, hy, col, Int.natCast_emod]

theorem int32_sub_one (x : Int) : int32 (int32 x - 1) = int32 (x - 1) := by
  rw [int32, int32, int32]
  exact Int.bmod_sub_bmod

theorem Unchanged.movedTo {off : Nat} (hlt : off < w.cells) (hcols : 0 < w.cols)
    (h : Unchanged w tp tp') (hoff : tp'.cursorPos = off) :
    MovedTo w tp (off / w.cols : Nat) (off % w.cols : Nat) tp' := by
  have hline : off / w.cols < w.rows := (Nat.div_lt_iff_lt_mul hcols).2 hlt
  have hcol : off % w.cols < w.cols := Nat.mod_lt _ hcols
  exact ⟨h, by rw [hoff, within_of_lt hline], by rw [hoff, within_of_lt hcol]⟩

theorem command_iff (hw : w.Fits) (h : Steady w tp) (hints : Ints tp) {cmd : Csi} {y x : Int}
    (hreq : requested w tp cmd = some (y, x)) :
    (∃ tp', tp.command cmd = .ok tp' ∧ MovedTo w tp y x tp') ↔ Addressed w tp cmd := by
  rcases sizes_lt w with ⟨hrows', hcols'⟩
  rcases h.place hw with ⟨hline, hcol⟩
  rcases hints.param0 with ⟨hn, hn'⟩
  have hframed := h.toFramed
  have hy := Request.of_lt hline hrows'
  have hx := Request.of_lt hcol hcols'
  have hcol' : (col w tp : Int) ≠ w.cols := by omega
  have hpred := Request.pred hn hn'
  have hdiv : (tp.cursorPos : Int) / w.cols = line w tp := by rw [line, Int.natCast_ediv]
  cases cmd with
  | up =>
    cases hreq
    rw [command, moveCursor_eq hw h, add_zero, ← sub_eq_add_neg]
    exact addressable_iff hw hframed (Request.moved hline hrows' (by omega) (by omega)) hx
      (Or.inr hcol')
  | down =>
    cases hreq
    rw [command, moveCursor_eq hw h, add_zero]
    exact addressable_iff hw hframed (Request.moved hline hrows' hn hn'.le) hx (Or.inr hcol')
  | right =>
    cases hreq
    rw [command, moveCursor_eq hw h, add_zero]
    exact addressable_iff hw hframed hy (Request.moved hcol hcols' hn hn'.le)
      (Or.inl (by omega))
  | left =>
    cases hreq
    rw [command, moveCursor_eq hw h, add_zero, ← sub_eq_add_neg]
    exact addressable_iff hw hframed hy (Request.moved hcol hcols' (by omega) (by omega))
      (Or.inl (by omega))
  | nextLine =>
    cases hreq
    rw [command, divide_ok hw h.win, ok_bind, h.win, hdiv]
    dsimp only
    rw [int32_sub_one]
    exact shifted_iff hw hframed (by omega) (by omega)
  | prevLine =>
    cases hreq
    rw [command, divide_ok hw h.win, ok_bind, h.win, hdiv]
    dsimp only
    rw [int32_sub_one]
    exact shifted_iff hw hframed (by omega) (by omega)
  | column =>
    cases hreq
    rw [command, Addressed, InLineOne]
    by_cases hzero : tp.cursorPos = 0
    · rw [if_pos hzero]
      constructor
      · rintro ⟨tp', hfault, -⟩
        cases hfault
      · exact fun hin => absurd hzero hin.1
    · rw [if_neg hzero, inLineOne_iff hw hframed hline hpred]
      exact (and_iff_right hzero).symm
  | position =>
    cases hreq
    have hfirst := Request.pred (hints 0).1 (hints 0).2
    have hsmall : tp.escSeq 0 - 1 < 2 ^ 31 := by
      have hlt := (hints 0).2
      omega
    rw [command, Addressed]
    by_cases hgiven : 1 ≤ tp.escSeqpos
    · rw [if_pos hgiven, if_pos hgiven, if_pos hgiven]
      exact addressable_iff hw hframed hfirst (Request.pred (hints 1).1 (hints 1).2)
        (Or.inl hsmall)
    · rw [if_neg hgiven, if_neg hgiven, if_neg hgiven]
      exact withoutColumn_iff hw hframed hfirst hsmall
  | line =>
    cases hreq
    have hcolumn : (tp.cursorPos : Int) % w.cols = int32 (col w tp) := by
      rw [int32_nat (by omega), col, Int.natCast_emod]
    rw [command, divide_ok hw h.win, ok_bind, h.win, hcolumn]
    exact addressable_iff hw hframed hpred hx (Or.inr hcol')
  | save =>
    cases hreq
    refine iff_of_true ⟨_, rfl, ?_⟩ trivial
    exact Unchanged.movedTo h.cursor hw.cols ⟨fun _ _ => rfl, rfl, rfl⟩ rfl
  | restore =>
    cases hreq
    refine iff_of_true ⟨_, rfl, ?_⟩ trivial
    exact Unchanged.movedTo h.saved hw.cols ⟨fun _ _ => rfl, rfl, rfl⟩ rfl
  | eraseDisplay => cases hreq
  | eraseLine => cases hreq
  | scroll down => cases hreq
  | mode => cases hreq
  | attributes => cases hreq
  | unknown => cases hreq

theorem handleCsi_eq {c : Int} (hne : csiOf c ≠ .unknown) :
    tp.handleCsi c = tp.command (csiOf c) >>= fun tp' => .ok (.ok, tp'.endEsc) := by
  rw [handleCsi]
  split
  · rename_i hunknown
    exact absurd hunknown hne
  · rfl

theorem handleCsi_movedTo {c y x : Int} (hne : csiOf c ≠ .unknown) :
    (∃ tp', tp.handleCsi c = .ok (.ok, tp') ∧ MovedTo w tp y x tp') ↔
      ∃ tp', tp.command (csiOf c) = .ok tp' ∧ MovedTo w tp y x tp' := by
  rw [handleCsi_eq hne]
  constructor
  · rintro ⟨tp', hrun, hto⟩
    rcases bind_ok_iff.1 hrun with ⟨tp1, hcmd, hend⟩
    cases hend
    exact ⟨tp1, hcmd, ⟨hto.still.shadow, hto.still.upbuf, hto.still.downbuf⟩, hto.line, hto.column⟩
  · rintro ⟨tp', hcmd, hto⟩
    rw [hcmd, ok_bind]
    exact ⟨_, rfl, ⟨hto.still.shadow, hto.still.upbuf, hto.still.downbuf⟩, hto.line, hto.column⟩

/-- A control sequence that addresses the cursor leaves the display and the scroll-back buffers
alone and puts the cursor where it was asked to, clamped to the window, exactly if no coordinate is
one past the end or overflows; `E` and `F`, `G`, and `H` without a column go elsewhere. -/
theorem cursor_addressing_iff (hw : w.Fits) (h : Steady w tp) (hints : Ints tp) {c y x : Int}
    (hreq : requested w tp (csiOf c) = some (y, x)) :
    (∃ tp', tp.handleCsi c = .ok (.ok, tp') ∧ MovedTo w tp y x tp') ↔
      Addressed w tp (csiOf c) := by
  have hne : csiOf c ≠ .unknown := by
    intro hunknown
    rw [hunknown] at hreq
    cases hreq
  rw [handleCsi_movedTo hne, command_iff hw h hints hreq]

/-- The console with the letters, the cursor in the cell `off` and the parameter `1`. -/
def letteredAt (off : Nat) : Tty :=
  { lettered with cursorPos := off, escSeq := fun i => if i = 0 then 1 else 0, escSeqcnt := 1 }

theorem steady_lettered {off : Nat} (hoff : off < 2000) : Steady ⟨25, 80⟩ (letteredAt off) where
  win := rfl
  saved := show 0 < 2000 by decide
  upbuf _ := rfl
  downbuf _ := rfl
  marked h := Bool.noConfusion h
  cursor := hoff

theorem ints_lettered (off : Nat) : Ints (letteredAt off) := by
  intro i
  show -2 ^ 31 ≤ (if i = 0 then 1 else 0 : Int) ∧ (if i = 0 then 1 else 0 : Int) < 2 ^ 31
  split <;> decide

theorem cursor_addressing_second_line :
    ∃ tp', (letteredAt 0).handleCsi (ch 'B') = .ok (.ok, tp') ∧
      MovedTo ⟨25, 80⟩ (letteredAt 0) 1 0 tp' :=
  (cursor_addressing_iff fits_lettered (steady_lettered (by decide)) (ints_lettered 0)
    (c := ch 'B') (y := 1) (x := 0) rfl).2 (Or.inl ⟨by decide, by decide⟩)

/-- From the last line down by one: the display scrolls. -/
theorem cursor_down_scrolls :
    requested ⟨25, 80⟩ (letteredAt 1920) (csiOf (ch 'B')) = some (25, 0) ∧
      ¬ ∃ tp', (letteredAt 1920).handleCsi (ch 'B') = .ok (.ok, tp') ∧
        MovedTo ⟨25, 80⟩ (letteredAt 1920) 25 0 tp' := by
  have hreq : requested ⟨25, 80⟩ (letteredAt 1920) (csiOf (ch 'B')) = some (25, 0) := by decide
  have hdown : csiOf (ch 'B') = .down := rfl
  refine ⟨hreq, fun hmoved => ?_⟩
  rw [handleCsi_movedTo (fun h => Csi.noConfusion (hdown.symm.trans h)),
    command_iff fits_lettered (steady_lettered (by decide)) (ints_lettered 1920) hreq] at hmoved
  rcases hmoved with ⟨⟨hne, -⟩, -⟩ | ⟨hquiet, -⟩
  · exact hne (by decide)
  · -- there is room in `upbuf`
    have hsize := scrollback_lettered.2
    have hfull : (0 : Nat) = lettered.upbuf.size.toNat := congrArg BitVec.toNat hquiet.full
    omega

end Tty
end Dev
end XytherOS
