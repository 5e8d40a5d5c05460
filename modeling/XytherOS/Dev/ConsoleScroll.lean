import Mathlib.Data.List.GetD
import XytherOS.Dev.ConsoleSafe

/-!
# ConsoleScroll — the lines of the display and the scroll-back buffers

A scroll up takes the lines that leave the display into `upbuf`, a scroll down brings lines out of
it again.  A ring buffer gives back the line first that it was given first, so several lines come
back in the wrong order.  `console_open` leaves `downbuf` without memory: nothing is ever read from
it.
-/

namespace XytherOS
namespace Dev

open Fs (Byte)
open Ds (Ringbuf ringbufReadAt ringbufWriteAt)

/-! ## Ring buffers without bytes -/

theorem ringbufReadAt_empty {r : Ringbuf} (h : r.count = 0) (n : Nat) :
    ringbufReadAt n r = .ok ([], r) := by
  cases n with
  | zero => rfl
  | succ n =>
    have hempty : r.isEmpty = true := decide_eq_true h
    rw [ringbufReadAt, if_pos hempty]

theorem ringbufWriteAt_full {r : Ringbuf} (h : r.count = r.size) (src : List Byte) :
    ringbufWriteAt src r = .ok (0, r) := by
  cases src with
  | nil => rfl
  | cons b src =>
    have hfull : r.isFull = true := decide_eq_true h
    rw [ringbufWriteAt, if_pos hfull]

namespace Tty

variable {w : Winsize} {tp tp' : Tty} {q line : List Byte}

/-! ## Lines -/

def row (w : Winsize) (tp : Tty) (j : Nat) : List Byte :=
  (List.range (2 * w.cols)).map fun i => tp.shadow (2 * w.cols * j + i)

def blankLine (w : Winsize) (tp : Tty) : List Byte :=
  (List.range (2 * w.cols)).map fun i => (tp.refresh (ch ' ')).cga.byte (i % 2 = 1)

@[simp] theorem length_row (w : Winsize) (tp : Tty) (j : Nat) :
    (row w tp j).length = 2 * w.cols := by
  simp [row]

theorem row_congr {j j' : Nat}
    (h : ∀ i < 2 * w.cols, tp'.shadow (2 * w.cols * j + i) = tp.shadow (2 * w.cols * j' + i)) :
    row w tp' j = row w tp j' :=
  List.map_congr_left fun i hi => h i (List.mem_range.1 hi)

theorem row_le {j n : Nat} (h : j < n) : 2 * w.cols * j + 2 * w.cols ≤ 2 * (n * w.cols) := by
  calc 2 * w.cols * j + 2 * w.cols = 2 * ((j + 1) * w.cols) := by ring
    _ ≤ 2 * (n * w.cols) := Nat.mul_le_mul_left 2 (Nat.mul_le_mul_right _ h)

theorem same_of_rows (hw : w.Fits) (h : ∀ j < w.rows, row w tp' j = row w tp j) :
    ∀ k < w.bytes, tp'.shadow k = tp.shadow k := by
  intro k hk
  have hpos : 0 < 2 * w.cols := Nat.mul_pos (by decide) hw.cols
  have hj : k / (2 * w.cols) < w.rows := by
    rw [Nat.div_lt_iff_lt_mul hpos]
    calc k < w.bytes := hk
      _ = w.rows * (2 * w.cols) := by rw [Winsize.bytes]; ring
  have hi : k % (2 * w.cols) < 2 * w.cols := Nat.mod_lt _ hpos
  have hline := congrArg (fun l => l.getD (k % (2 * w.cols)) 0) (h _ hj)
  simpa [row, hi, Nat.div_add_mod] using hline

theorem rows_of_same (h : ∀ k < w.bytes, tp'.shadow k = tp.shadow k) {j : Nat} (hj : j < w.rows) :
    row w tp' j = row w tp j := by
  refine row_congr fun i hi => h _ ?_
  have hle : 2 * w.cols * j + 2 * w.cols ≤ 2 * (w.rows * w.cols) := row_le hj
  rw [Winsize.bytes]
  omega

/-! ## The attribute of blank lines -/

section Refresh

variable (tp : Tty) (c : Int)

@[simp] theorem refresh_win : (tp.refresh c).win = tp.win := by
  rw [refresh]
  split <;> rfl

@[simp] theorem refresh_shadow : (tp.refresh c).shadow = tp.shadow := by
  rw [refresh]
  split <;> rfl

@[simp] theorem refresh_upbuf : (tp.refresh c).upbuf = tp.upbuf := by
  rw [refresh]
  split <;> rfl

@[simp] theorem refresh_downbuf : (tp.refresh c).downbuf = tp.downbuf := by
  rw [refresh]
  split <;> rfl

theorem has_clear (a : Attr) (bit : BitVec 32) : (a.clear bit).has bit = false := by
  have hzero : a.taFlags &&& ~~~bit &&& bit = 0 := by
    rw [BitVec.and_assoc, BitVec.and_comm (~~~bit), BitVec.and_not_self]
    exact BitVec.and_zero
  simp [Attr.has, Attr.clear, hzero]

theorem refresh_congr {tp' : Tty} (hattrib : tp'.attrib = tp.attrib) (hcga : tp'.cga = tp.cga) :
    (tp'.refresh c).attrib = (tp.refresh c).attrib ∧ (tp'.refresh c).cga = (tp.refresh c).cga := by
  rw [refresh, refresh, hattrib, hcga]
  split <;> exact ⟨rfl, rfl⟩

theorem refresh_again {tp' : Tty} (hattrib : tp'.attrib = (tp.refresh c).attrib)
    (hcga : tp'.cga = (tp.refresh c).cga) : (tp'.refresh c).cga = (tp.refresh c).cga := by
  have hclean : tp'.attrib.has TA_UPDATED = false := by
    rw [hattrib, refresh]
    split
    · exact has_clear _ _
    · rename_i hno
      exact Bool.eq_false_iff.2 hno
  have hkept : (tp.refresh c).cga.c = BitVec.ofInt 8 c := by
    rw [refresh]
    split <;> rfl
  rw [refresh, if_neg (by simp [hclean]), hcga, ← hkept]

end Refresh

theorem blankLine_kept (hattrib : tp'.attrib = (tp.refresh (ch ' ')).attrib)
    (hcga : tp'.cga = (tp.refresh (ch ' ')).cga) : blankLine w tp' = blankLine w tp := by
  rw [blankLine, refresh_again tp (ch ' ') hattrib hcga, blankLine]

/-! ## One line -/

/-- The console has the scroll-back buffers of `console_open`, and `upbuf` holds `q`. -/
structure Scrollback (w : Winsize) (q : List Byte) (tp : Tty) : Prop where
  win : tp.win = w
  upbuf : tp.upbuf.Holds q
  downsize : tp.downbuf.size = 0
  downcount : tp.downbuf.count = 0

structure MovedUp (w : Winsize) (tp tp' : Tty) : Prop where
  moved : ∀ j, j + 1 < w.rows → row w tp' j = row w tp (j + 1)
  last : row w tp' (w.rows - 1) = blankLine w tp
  blank : blankLine w tp' = blankLine w tp

/-- The lines of the display go down by one, and the first one is `line`. -/
structure MovedDown (w : Winsize) (line : List Byte) (tp tp' : Tty) : Prop where
  moved : ∀ j, j + 1 < w.rows → row w tp' (j + 1) = row w tp j
  first : row w tp' 0 = line

theorem erase_ok (hwin : tp.win = w) {off sz : Nat} (hfits : off + sz ≤ w.cells) :
    tp.erase off sz =
      .ok ({ tp.refresh (ch ' ') with
        shadow := (tp.refresh (ch ' ')).paint off sz }.mark off (usize ((sz : Int) * 2))) := by
  have hspan : 2 * off + 2 * sz ≤ w.bytes := by
    rw [Winsize.bytes_eq]
    omega
  rw [Tty.erase, span_ok ((refresh_win tp _).trans hwin) hspan, ok_bind]
  rfl

theorem putLine_nil (hwin : tp.win = w) {off : Nat} (hfits : off + w.cols ≤ w.cells) :
    tp.putLine [] off = tp.erase off w.cols := by
  have hspan : 2 * off + 0 ≤ w.bytes := by
    rw [Winsize.bytes_eq]
    omega
  rw [Tty.putLine, List.length_nil, span_ok hwin hspan, ok_bind, if_pos rfl, hwin]

theorem putLine_line (hwin : tp.win = w) {off : Nat} (hne : line ≠ [])
    (hfits : 2 * off + line.length ≤ w.bytes) :
    tp.putLine line off =
      .ok { tp with
        shadow := memmove tp.shadow (fun k => line.getD k 0) (2 * off) 0 line.length } := by
  rw [Tty.putLine, span_ok hwin hfits, ok_bind, if_neg hne]
  rfl

theorem lineUp_blank (hw : w.Fits) (hwin : tp.win = w) (hdown : tp.downbuf.count = 0) {k : Nat}
    {upbuf : Ringbuf} (hwrite : ringbufWriteAt (row w tp 0) tp.upbuf = .ok (k, upbuf))
    (hk : k ≤ 2 * w.cols) :
    ∃ tp', tp.lineUp = .ok tp' ∧ tp'.win = w ∧ tp'.upbuf = upbuf ∧ tp'.downbuf = tp.downbuf ∧
      MovedUp w tp tp' := by
  subst hwin
  have hm := measured hw rfl
  have hcells := hw.cells_eq
  have hbytes := Winsize.bytes_eq tp.win
  have hline : (List.range (2 * tp.win.cols)).map (fun i => tp.shadow i) = row tp.win tp 0 := by
    refine List.map_congr_left fun i _ => ?_
    rw [Nat.mul_zero, Nat.zero_add]
  let moved : Tty :=
    { tp with
      upbuf := upbuf
      shadow := memmove tp.shadow tp.shadow 0 (2 * tp.win.cols) (2 * tp.win.above) }
  have hwin' : moved.win = tp.win := rfl
  have hlast : tp.win.above + tp.win.cols ≤ tp.win.cells := hcells.ge
  have hrun : tp.lineUp = moved.erase tp.win.above tp.win.cols := by
    rw [Tty.lineUp, hm.last, hm.scroll, hline, hwrite, ok_bind]
    dsimp only
    rw [span_ok rfl (by omega), ok_bind, span_ok rfl (by omega), ok_bind,
      span_ok rfl (by omega), ok_bind, ringbufReadAt_empty hdown, ok_bind]
    exact putLine_nil hwin' hlast
  rw [erase_ok hwin' hlast] at hrun
  have hattr : (moved.refresh (ch ' ')).attrib = (tp.refresh (ch ' ')).attrib ∧
      (moved.refresh (ch ' ')).cga = (tp.refresh (ch ' ')).cga := refresh_congr tp _ rfl rfl
  have hshadow : ∀ k, (moved.refresh (ch ' ')).paint tp.win.above tp.win.cols k =
      if 2 * tp.win.above ≤ k ∧ k < 2 * (tp.win.above + tp.win.cols) then
        (tp.refresh (ch ' ')).cga.byte (k % 2 = 1)
      else memmove tp.shadow tp.shadow 0 (2 * tp.win.cols) (2 * tp.win.above) k := by
    intro k
    rw [paint, hattr.2, refresh_shadow]
  refine ⟨_, hrun, refresh_win moved _, refresh_upbuf moved _, refresh_downbuf moved _,
    ⟨?_, ?_, ?_⟩⟩
  · intro j hj
    refine row_congr fun i hi => (hshadow _).trans ?_
    have hle : 2 * tp.win.cols * j + 2 * tp.win.cols ≤ 2 * ((tp.win.rows - 1) * tp.win.cols) :=
      row_le (by omega)
    have habove : (tp.win.rows - 1) * tp.win.cols = tp.win.above := rfl
    rw [if_neg (by omega), memmove, if_pos (by omega), Nat.mul_succ]
    congr 1
    omega
  · refine List.map_congr_left fun i hi => (hshadow _).trans ?_
    have hi' := List.mem_range.1 hi
    have hlast' : 2 * tp.win.cols * (tp.win.rows - 1) = 2 * tp.win.above := by
      rw [Winsize.above]
      ring
    rw [hlast', if_pos (by omega), Nat.mul_add_mod]
  · exact blankLine_kept hattr.1 hattr.2

theorem Scrollback.lineUp (hw : w.Fits) (h : Scrollback w q tp)
    (htop : tp.upbuf.tail.toNat + min (2 * w.cols) (tp.upbuf.size.toNat - q.length) < 2 ^ 64) :
    ∃ tp', tp.lineUp = .ok tp' ∧
      Scrollback w (q ++ (row w tp 0).take (tp.upbuf.size.toNat - q.length)) tp' ∧
      tp'.upbuf.size = tp.upbuf.size ∧
      tp'.upbuf.tail.toNat =
        tp.upbuf.tail.toNat + min (2 * w.cols) (tp.upbuf.size.toNat - q.length) ∧
      MovedUp w tp tp' := by
  rcases h.upbuf.writeAt (row w tp 0) (by simpa using htop) with
    ⟨upbuf, hwrite, hupbuf, hsize, htail⟩
  rw [length_row] at hwrite htail
  rcases lineUp_blank hw h.win h.downcount hwrite (Nat.min_le_left _ _) with
    ⟨tp', hrun, hwin, rfl, hdown, hup⟩
  exact ⟨tp', hrun, ⟨hwin, hupbuf, hdown ▸ h.downsize, hdown ▸ h.downcount⟩, hsize, htail, hup⟩

theorem Scrollback.lineDown (hw : w.Fits) (h : Scrollback w (line ++ q) tp)
    (hlen : line.length = 2 * w.cols) :
    ∃ tp', tp.lineDown = .ok tp' ∧ Scrollback w q tp' ∧ MovedDown w line tp tp' := by
  have hwin := h.win
  subst hwin
  have hm := measured hw rfl
  have hcells := hw.cells_eq
  have hbytes := Winsize.bytes_eq tp.win
  have hcols := hw.cols
  have hfull : tp.downbuf.count = tp.downbuf.size := by rw [h.downcount, h.downsize]
  rcases h.upbuf.readAt (2 * tp.win.cols) with ⟨upbuf, hread, hupbuf, -, -⟩
  rw [List.take_left' hlen] at hread
  rw [List.drop_left' hlen] at hupbuf
  have hne : line ≠ [] := by
    rw [← List.length_pos_iff, hlen]
    omega
  let moved : Tty :=
    { tp with
      upbuf := upbuf
      shadow := memmove tp.shadow tp.shadow (2 * tp.win.cols) 0 (2 * tp.win.above) }
  have hwin' : moved.win = tp.win := rfl
  have hfits : 2 * 0 + line.length ≤ tp.win.bytes := by omega
  have hrun : tp.lineDown = moved.putLine line 0 := by
    rw [Tty.lineDown, hm.last, hm.scroll, ringbufWriteAt_full hfull, ok_bind]
    dsimp only
    rw [span_ok rfl (by omega), ok_bind, span_ok rfl (by omega), ok_bind,
      span_ok rfl (by omega), ok_bind, hread, ok_bind]
  rw [putLine_line hwin' hne hfits] at hrun
  refine ⟨_, hrun, ⟨rfl, hupbuf, h.downsize, h.downcount⟩, ⟨?_, ?_⟩⟩
  · intro j hj
    refine row_congr fun i hi => ?_
    have hle : 2 * tp.win.cols * j + 2 * tp.win.cols ≤ 2 * ((tp.win.rows - 1) * tp.win.cols) :=
      row_le (by omega)
    have habove : (tp.win.rows - 1) * tp.win.cols = tp.win.above := rfl
    have hto : 2 * tp.win.cols * (j + 1) + i = 2 * tp.win.cols + (2 * tp.win.cols * j + i) := by
      rw [Nat.mul_succ]
      omega
    -- behind the line that has been read, at the place to which the other lines have moved
    show memmove moved.shadow (fun k => line.getD k 0) (2 * 0) 0 line.length
      (2 * tp.win.cols * (j + 1) + i) = _
    rw [hto, memmove_of_outside (by omega)]
    show memmove tp.shadow tp.shadow (2 * tp.win.cols) 0 (2 * tp.win.above) _ = _
    rw [memmove, if_pos (by omega)]
    congr 1
    omega
  · refine List.ext_getElem (by rw [length_row, hlen]) fun i hi _ => ?_
    rw [length_row] at hi
    have hi' : i < line.length := by omega
    simp only [row, List.getElem_map, List.getElem_range]
    show memmove moved.shadow (fun k => line.getD k 0) (2 * 0) 0 line.length
      (2 * tp.win.cols * 0 + i) = _
    rw [memmove, if_pos (by omega)]
    simp [List.getD_eq_getElem?_getD, List.getElem?_eq_getElem hi']

/-! ## Several lines -/

def leaving (w : Winsize) (tp : Tty) (k : Nat) : List Byte :=
  if k < w.rows then row w tp k else blankLine w tp

theorem MovedUp.leaving (hw : w.Fits) (h : MovedUp w tp tp') (k : Nat) :
    leaving w tp' k = leaving w tp (k + 1) := by
  have hrows := hw.rows
  rw [Tty.leaving, Tty.leaving]
  by_cases hk : k + 1 < w.rows
  · rw [if_pos (by omega), if_pos hk, h.moved k hk]
  · rw [if_neg hk]
    by_cases hlast : k < w.rows
    · obtain rfl : k = w.rows - 1 := by omega
      rw [if_pos hlast, h.last]
    · rw [if_neg hlast, h.blank]

theorem Scrollback.scrollUp (hw : w.Fits) (h : Scrollback w q tp) {n : Nat}
    (hfit : q.length + n * (2 * w.cols) ≤ tp.upbuf.size.toNat)
    (htop : tp.upbuf.tail.toNat + n * (2 * w.cols) < 2 ^ 64) :
    ∃ tp', scrollLines false n tp = .ok tp' ∧
      Scrollback w (q ++ (List.range n).flatMap (leaving w tp)) tp' ∧
      ∀ j < w.rows, row w tp' j = leaving w tp (n + j) := by
  induction n generalizing q tp with
  | zero =>
    refine ⟨tp, rfl, by simpa using h, fun j hj => ?_⟩
    rw [Nat.zero_add, leaving, if_pos hj]
  | succ n ih =>
    rw [Nat.succ_mul] at hfit htop
    have hroom : min (2 * w.cols) (tp.upbuf.size.toNat - q.length) = 2 * w.cols :=
      Nat.min_eq_left (by omega)
    rcases h.lineUp hw (by omega) with ⟨tp1, hline, h₁, hsize, htail, hup⟩
    have hwhole : (row w tp 0).take (tp.upbuf.size.toNat - q.length) = leaving w tp 0 := by
      rw [leaving, if_pos hw.rows]
      exact List.take_of_length_le (by rw [length_row]; omega)
    rw [hwhole] at h₁
    have hlen : (leaving w tp 0).length = 2 * w.cols := by rw [leaving, if_pos hw.rows, length_row]
    rcases ih h₁ (by rw [hsize, List.length_append, hlen]; omega) (by rw [htail]; omega) with
      ⟨tp', hrun, h', hrows⟩
    refine ⟨tp', ?_, ?_, ?_⟩
    · rw [scrollLines, if_neg (by decide), hline]
      exact hrun
    · have hlines : (List.range (n + 1)).flatMap (leaving w tp) =
          leaving w tp 0 ++ (List.range n).flatMap (leaving w tp1) := by
        rw [List.range_succ_eq_map, List.flatMap_cons, List.flatMap_map]
        exact congrArg _ (List.flatMap_congr fun k _ => (hup.leaving hw k).symm)
      rw [hlines, ← List.append_assoc]
      exact h'
    · intro j hj
      rw [hrows j hj, hup.leaving hw, Nat.add_right_comm]

theorem Scrollback.scrollDown (hw : w.Fits) {lines : List (List Byte)}
    (h : Scrollback w (lines.flatten ++ q) tp) (hlines : ∀ line ∈ lines, line.length = 2 * w.cols) :
    ∃ tp', scrollLines true lines.length tp = .ok tp' ∧
      ∀ j < w.rows, row w tp' j =
        if j < lines.length then lines.reverse.getD j [] else row w tp (j - lines.length) := by
  induction lines generalizing tp with
  | nil => exact ⟨tp, rfl, fun j _ => rfl⟩
  | cons line lines ih =>
    rw [List.flatten_cons, List.append_assoc] at h
    rcases h.lineDown hw (hlines line (by simp)) with ⟨tp1, hline, h₁, hdown⟩
    rcases ih h₁ fun l hl => hlines l (List.mem_cons_of_mem _ hl) with ⟨tp', hrun, hrows⟩
    refine ⟨tp', ?_, fun j hj => ?_⟩
    · rw [List.length_cons, scrollLines, if_pos rfl, hline]
      exact hrun
    · rw [hrows j hj, List.length_cons, List.reverse_cons]
      by_cases hlt : j < lines.length
      · have hrev : j < lines.reverse.length := by rwa [List.length_reverse]
        rw [if_pos hlt, if_pos (by omega), List.getD_append _ _ _ _ hrev]
      · rw [if_neg hlt]
        by_cases heq : j = lines.length
        · -- the first line that has been read
          rw [heq, Nat.sub_self, hdown.first, if_pos (Nat.lt_succ_self _),
            List.getD_append_right _ _ _ _ (by simp)]
          simp
        · have hsucc : j - lines.length = (j - (lines.length + 1)) + 1 := by omega
          rw [if_neg (by omega), hsucc, hdown.moved _ (by omega)]

/-! ## Up and down again -/

/-- The `i`-th line that is read from a buffer with the bytes `stored`. -/
def readBack (w : Winsize) (stored : List Byte) (i : Nat) : List Byte :=
  (stored.drop (i * (2 * w.cols))).take (2 * w.cols)

theorem flatten_readBack (w : Winsize) (stored : List Byte) (n : Nat) :
    ((List.range n).map (readBack w stored)).flatten = stored.take (n * (2 * w.cols)) := by
  induction n with
  | zero => simp
  | succ n ih =>
    rw [List.range_succ, List.map_append, List.flatten_append, ih, Nat.succ_mul n, List.take_add]
    simp [readBack]

/-- Scrolling up by `n` lines and down again brings the display back. -/
def Restores (w : Winsize) (n : Nat) (tp : Tty) : Prop :=
  ∃ tp₁ tp₂, tp.scroll false n = .ok tp₁ ∧ tp₁.scroll true n = .ok tp₂ ∧
    ∀ k < w.bytes, tp₂.shadow k = tp.shadow k

theorem Scrollback.mark (h : Scrollback w q tp) (pos size : Nat) :
    Scrollback w q (tp.mark pos size) :=
  ⟨h.win, h.upbuf, h.downsize, h.downcount⟩

theorem length_leaving (w : Winsize) (tp : Tty) (k : Nat) :
    (leaving w tp k).length = 2 * w.cols := by
  rw [leaving]
  split_ifs
  · exact length_row w tp k
  · simp [blankLine]

theorem length_flatMap_leaving (w : Winsize) (tp : Tty) (n : Nat) :
    ((List.range n).flatMap (leaving w tp)).length = n * (2 * w.cols) := by
  simp [List.length_flatMap, length_leaving]

theorem readBack_leaving (w : Winsize) (tp : Tty) {n i : Nat} (hi : i < n) :
    readBack w ((List.range n).flatMap (leaving w tp)) i = leaving w tp i := by
  obtain ⟨d, rfl⟩ : ∃ d, n = i + (d + 1) := ⟨n - i - 1, by omega⟩
  rw [readBack, List.range_add, List.flatMap_append,
    List.drop_left' (length_flatMap_leaving w tp i), List.range_succ_eq_map, List.map_cons,
    List.flatMap_cons, Nat.add_zero, List.take_left' (length_leaving w tp i)]

theorem Scrollback.upAndDown (hw : w.Fits) (h : Scrollback w q tp) {n : Nat}
    (hfit : q.length + n * (2 * w.cols) ≤ tp.upbuf.size.toNat)
    (htop : tp.upbuf.tail.toNat + n * (2 * w.cols) < 2 ^ 64) :
    ∃ tp1 tp2, tp.scroll false n = .ok tp1 ∧ tp1.scroll true n = .ok tp2 ∧
      ∀ j < w.rows, row w tp2 j =
        if j < n then readBack w (q ++ (List.range n).flatMap (leaving w tp)) (n - 1 - j)
        else row w tp j := by
  rcases h.scrollUp hw hfit htop with ⟨tp1, hup, h₁, hrows1⟩
  generalize hstored : q ++ (List.range n).flatMap (leaving w tp) = stored at h₁ ⊢
  have hlen : n * (2 * w.cols) ≤ stored.length := by
    rw [← hstored, List.length_append, length_flatMap_leaving]
    exact Nat.le_add_left _ _
  -- the lines that come back, and what is left behind them
  let lines := (List.range n).map (readBack w stored)
  have hlines : ∀ line ∈ lines, line.length = 2 * w.cols := by
    intro line hline
    rcases List.mem_map.1 hline with ⟨i, hi, rfl⟩
    have hle : (i + 1) * (2 * w.cols) ≤ n * (2 * w.cols) :=
      Nat.mul_le_mul_right _ (List.mem_range.1 hi)
    rw [Nat.succ_mul] at hle
    rw [readBack, List.length_take, List.length_drop]
    omega
  have hn : lines.length = n := by simp [lines]
  have hsplit : Scrollback w (lines.flatten ++ stored.drop (n * (2 * w.cols))) tp1 := by
    rw [flatten_readBack, List.take_append_drop]
    exact h₁
  rcases (hsplit.mark 0 tp1.markSize).scrollDown hw hlines with ⟨tp2, hdown, hrows2⟩
  rw [hn] at hdown hrows2
  refine ⟨tp1.mark 0 tp1.markSize, tp2.mark 0 tp2.markSize, ?_, ?_, fun j hj => ?_⟩
  · rw [scroll_eq, hup]
    rfl
  · rw [scroll_eq, hdown]
    rfl
  · refine (hrows2 j hj).trans ?_
    by_cases hlt : j < n
    · have hrev : j < lines.reverse.length := by rwa [List.length_reverse, hn]
      rw [if_pos hlt, if_pos hlt, List.getD_eq_getElem _ _ hrev, List.getElem_reverse]
      simp [lines]
    · have hback : n + (j - n) = j := by omega
      rw [if_neg hlt, if_neg hlt]
      refine (hrows1 (j - n) (by omega)).trans ?_
      rw [hback, leaving, if_pos hj]

/-- `n` lines that fit in the scroll-back buffer come back exactly when the lines that are read from
it, the last one first, are those of the display. -/
theorem restores_iff (hw : w.Fits) (h : Scrollback w q tp) {n : Nat}
    (hfit : q.length + n * (2 * w.cols) ≤ tp.upbuf.size.toNat)
    (htop : tp.upbuf.tail.toNat + n * (2 * w.cols) < 2 ^ 64) :
    Restores w n tp ↔
      ∀ j < w.rows, j < n →
        readBack w (q ++ (List.range n).flatMap (leaving w tp)) (n - 1 - j) = row w tp j := by
  rcases h.upAndDown hw hfit htop with ⟨tp₁, tp₂, hup, hdown, hrows⟩
  constructor
  · rintro ⟨tp₁', tp₂', hup', hdown', hsame⟩ j hj hlt
    obtain rfl := Except.ok.inj (hup.symm.trans hup')
    obtain rfl := Except.ok.inj (hdown.symm.trans hdown')
    rw [← rows_of_same hsame hj, hrows j hj, if_pos hlt]
  · intro hall
    refine ⟨tp₁, tp₂, hup, hdown, same_of_rows hw fun j hj => ?_⟩
    rw [hrows j hj]
    by_cases hlt : j < n
    · rw [if_pos hlt, hall j hj hlt]
    · rw [if_neg hlt]

/-! ## A window of 25 lines of 80 cells -/

theorem Scrollback.opened (hbytes : 8 * w.bytes < 2 ^ 31) (hpos : 0 < w.bytes)
    (opost onocr onlret : Bool) (vga mem : Nat → Byte) :
    Scrollback w [] (opened w opost onocr onlret vga mem) ∧
      (opened w opost onocr onlret vga mem).upbuf.size.toNat = 8 * w.bytes := by
  have hcells := Winsize.bytes_eq w
  have hmul : (w.rows : Int) * w.cols = (w.cells : Nat) := by
    rw [Winsize.cells]
    push_cast
    rfl
  have hsixteen : ((w.cells : Nat) : Int) * 16 = (8 * w.bytes : Nat) := by
    rw [hcells]
    push_cast
    ring
  have hsize : (Tty.opened w opost onocr onlret vga mem).upbuf.size.toNat = 8 * w.bytes := by
    show (BitVec.ofInt 64 (int32 (int32 (w.rows * w.cols) * 16))).toNat = 8 * w.bytes
    rw [hmul, int32_nat (by omega), hsixteen, int32_nat hbytes, BitVec.ofInt_natCast,
      BitVec.toNat_ofNat]
    omega
  exact ⟨⟨rfl, Ringbuf.Holds.init (lt_of_lt_of_eq (by omega) hsize.symm) mem, rfl, rfl⟩, hsize⟩

/-- A console that has been opened, with the letter `A` in the first line and `B` in the others. -/
def lettered : Tty :=
  { opened ⟨25, 80⟩ true true true (fun _ => 0) fun _ => 0 with
    shadow := fun k => if k % 2 = 1 then 0x07 else if k < 160 then 0x41 else 0x42 }

theorem scrollback_lettered : Scrollback ⟨25, 80⟩ [] lettered ∧
    lettered.upbuf.size.toNat = 32000 := by
  rcases Scrollback.opened (w := ⟨25, 80⟩) (by decide) (by decide) true true true (fun _ => 0)
    fun _ => 0 with ⟨h, hsize⟩
  exact ⟨⟨rfl, h.upbuf, rfl, rfl⟩, hsize⟩

theorem fits_lettered : Winsize.Fits ⟨25, 80⟩ := ⟨by decide, by decide, by decide⟩

theorem restores_one : Restores ⟨25, 80⟩ 1 lettered := by
  rcases scrollback_lettered with ⟨h, hsize⟩
  refine (restores_iff fits_lettered h (by rw [hsize]; decide) (by decide)).2 ?_
  intro j _ hj
  obtain rfl : j = 0 := by omega
  rw [List.nil_append, readBack_leaving _ _ (by decide)]
  rfl

/-- Of two lines the one that left the display first comes back first, as the second line. -/
theorem not_restores_two : ¬ Restores ⟨25, 80⟩ 2 lettered := by
  rcases scrollback_lettered with ⟨h, hsize⟩
  rcases h.upAndDown fits_lettered (n := 2) (by rw [hsize]; decide) (by decide) with
    ⟨tp₁, tp₂, hup, hdown, hrows⟩
  rintro ⟨tp₁', tp₂', hup', hdown', hsame⟩
  obtain rfl := Except.ok.inj (hup.symm.trans hup')
  obtain rfl := Except.ok.inj (hdown.symm.trans hdown')
  have hrow := hrows 0 (by decide)
  rw [if_pos (by decide), List.nil_append, readBack_leaving _ _ (by decide),
    rows_of_same hsame (by decide)] at hrow
  -- the first cell of the display is not that of its second line
  have hcell := congrArg List.head? hrow
  exact absurd hcell (by decide +kernel)

end Tty
end Dev
end XytherOS
