import XytherOS.Dev.Console
import Mathlib.Tactic.Linarith
import Mathlib.Tactic.Ring

/-!
# ConsoleMirror — the video memory is a copy of the shadow buffer

Only one dirty range is remembered, and every drawing function overwrites it.  A byte draws at most
one range of its own, and what may follow is a scroll, whose range is the whole window.  The products
of the window's sizes are computed as `int`; where they overflow, a scroll up is an access out of
range, and a scroll down moves no more lines than it marks.
-/

namespace XytherOS
namespace Dev
namespace Tty

open Fs (Byte)
open Ds (Ringbuf ringbufReadAt ringbufWriteAt ringbufReadAt_length)

/-- The video memory equals the shadow buffer of a console with the window `w`. -/
structure Mirror (w : Winsize) (tp : Tty) : Prop where
  win : tp.win = w
  same : ∀ k < w.bytes, tp.vga k = tp.shadow k

structure Covered (w : Winsize) (tp : Tty) : Prop where
  win : tp.win = w
  same : ∀ k < w.bytes, tp.vga k = tp.shadow k ∨
    tp.dirty = true ∧ 2 * tp.dirtyPos ≤ k ∧ k < 2 * tp.dirtyPos + tp.dirtySize

/-- The two consoles differ at most in the shadow buffer from `lo` up to `hi`, in the dirty range and
in what is not displayed. -/
structure Redrawn (tp : Tty) (lo hi : Nat) (tp' : Tty) : Prop where
  win : tp'.win = tp.win
  vga : tp'.vga = tp.vga
  shadow : ∀ k, k < lo ∨ hi ≤ k → tp'.shadow k = tp.shadow k

variable {w : Winsize} {tp tp' tp'' : Tty}

theorem Mirror.covered (h : Mirror w tp) : Covered w tp :=
  ⟨h.win, fun k hk => Or.inl (h.same k hk)⟩

theorem Redrawn.refl (tp : Tty) (lo hi : Nat) : Redrawn tp lo hi tp := ⟨rfl, rfl, fun _ _ => rfl⟩

theorem Redrawn.mono {lo hi lo' hi' : Nat} (h : Redrawn tp lo hi tp') (hlo : lo' ≤ lo)
    (hhi : hi ≤ hi') : Redrawn tp lo' hi' tp' := by
  refine ⟨h.win, h.vga, fun k hk => h.shadow k ?_⟩
  omega

theorem Redrawn.trans {lo hi : Nat} (h : Redrawn tp lo hi tp') (h' : Redrawn tp' lo hi tp'') :
    Redrawn tp lo hi tp'' :=
  ⟨h'.win.trans h.win, h'.vga.trans h.vga,
    fun k hk => (h'.shadow k hk).trans (h.shadow k hk)⟩

theorem Redrawn.covered {lo hi : Nat} (h : Redrawn tp lo hi tp') (hm : Mirror w tp)
    (hdirty : tp'.dirty = true)
    (hrange : ∀ k < w.bytes, lo ≤ k → k < hi →
      2 * tp'.dirtyPos ≤ k ∧ k < 2 * tp'.dirtyPos + tp'.dirtySize) :
    Covered w tp' := by
  refine ⟨h.win.trans hm.win, fun k hk => ?_⟩
  by_cases hin : lo ≤ k ∧ k < hi
  · exact Or.inr ⟨hdirty, hrange k hk hin.1 hin.2⟩
  · left
    rw [h.vga, h.shadow k (by omega)]
    exact hm.same k hk

/-! ## Words -/

theorem bytes_lt (w : Winsize) : w.bytes < 2 ^ 33 := by
  have hr : w.rows ≤ 65535 := Nat.le_of_lt_succ w.wsRow.isLt
  have hc : w.cols ≤ 65535 := Nat.le_of_lt_succ w.wsCol.isLt
  have hmul : w.rows * w.cols ≤ 65535 * 65535 := Nat.mul_le_mul hr hc
  rw [Winsize.bytes]
  omega

theorem usize_of_lt {x : Int} (h0 : 0 ≤ x) (h : x < 2 ^ 64) : usize x = x.toNat := by
  rw [usize, Int.emod_eq_of_lt h0 h]

theorem usize_int32 {x : Int} (h0 : -2 ^ 31 ≤ x) (h : x < 2 ^ 33) :
    0 ≤ x ∧ x < 2 ^ 31 ∧ (usize (int32 x) : Int) = x ∨
      2 ^ 32 ≤ x ∧ (usize (int32 x) : Int) = x - 2 ^ 32 ∨
      (x < 0 ∨ 2 ^ 31 ≤ x) ∧ 2 ^ 63 ≤ usize (int32 x) := by
  have hmod := Int.bmod_def x (2 ^ 32)
  norm_num at hmod
  rw [int32, usize]
  norm_num
  split at hmod <;> omega

theorem int32_mul_two (x : Int) : int32 (int32 x * 2) = int32 (x * 2) := by
  simp only [int32, Int.bmod_mul_bmod]

def markSize (tp : Tty) : Nat := usize (int32 (int32 (tp.win.cols * tp.win.rows) * 2))

/-! ## Drawing -/

theorem span_safe (tp : Tty) (off n : Nat) :
    Safe AnyFault (tp.span off n) fun _ => n = 0 ∨ off + n ≤ tp.win.bytes := by
  rw [span]
  split
  · assumption
  · trivial

theorem divide_safe (tp : Tty) : Safe AnyFault tp.divide fun _ => 0 < tp.win.cols := by
  rw [divide]
  split
  · trivial
  · exact Nat.pos_of_ne_zero ‹_›

theorem refresh_redrawn (tp : Tty) (c : Int) (lo hi : Nat) : Redrawn tp lo hi (tp.refresh c) := by
  rw [refresh]
  split
  · exact ⟨rfl, rfl, fun _ _ => rfl⟩
  · exact ⟨rfl, rfl, fun _ _ => rfl⟩

theorem paint_of_outside (tp : Tty) {off n k : Nat} (hk : k < 2 * off ∨ 2 * (off + n) ≤ k) :
    tp.paint off n k = tp.shadow k := by
  rw [paint, if_neg (by omega)]

theorem writeChar_safe (hm : Mirror w tp) (c : Int) :
    Safe AnyFault (tp.writeChar c) (Covered w) := by
  have hkeep : Redrawn tp 0 0 (tp.refresh c) := refresh_redrawn tp c 0 0
  have hm' : Mirror w (tp.refresh c) := by
    refine ⟨hkeep.win.trans hm.win, fun k hk => ?_⟩
    rw [hkeep.vga, hkeep.shadow k (Or.inr (Nat.zero_le k))]
    exact hm.same k hk
  refine (span_safe _ _ _).bind fun _ _ => ?_
  split
  · exact hm'.covered
  · have hdrawn : Redrawn (tp.refresh c) (2 * (tp.refresh c).cursorPos)
        (2 * ((tp.refresh c).cursorPos + 1))
        ({ tp.refresh c with
          shadow := (tp.refresh c).paint (tp.refresh c).cursorPos 1 }.mark
            (tp.refresh c).cursorPos 2) :=
      ⟨rfl, rfl, fun k hk => paint_of_outside _ hk⟩
    exact hdrawn.covered hm' rfl fun k _ hlo hhi => ⟨hlo, hhi⟩

structure Erased (tp : Tty) (off sz : Nat) (tp' : Tty) : Prop where
  redrawn : Redrawn tp (2 * off) (2 * (off + sz)) tp'
  dirty : tp'.dirty = true
  pos : tp'.dirtyPos = off
  size : tp'.dirtySize = 2 * sz
  fits : sz = 0 ∨ 2 * off + 2 * sz ≤ tp.win.bytes

theorem erase_safe (tp : Tty) (off sz : Nat) :
    Safe AnyFault (tp.erase off sz) fun tp' => Erased tp off sz tp' := by
  have hkeep := refresh_redrawn tp (ch ' ') (2 * off) (2 * (off + sz))
  refine (span_safe _ _ _).bind fun _ hfits => ?_
  rw [hkeep.win] at hfits
  have hbytes := bytes_lt tp.win
  have hsize : usize ((sz : Int) * 2) = 2 * sz := by
    rw [usize_of_lt (by omega) (by omega)]
    omega
  refine ⟨hkeep.trans ⟨rfl, rfl, fun k hk => paint_of_outside _ hk⟩, rfl, rfl, hsize, ?_⟩
  omega

theorem Erased.covered {off sz : Nat} (h : Erased tp off sz tp') (hm : Mirror w tp) :
    Covered w tp' := by
  refine h.redrawn.covered hm h.dirty fun k _ hlo hhi => ?_
  rw [h.pos, h.size]
  omega

/-! ## Scrolling -/

theorem memmove_of_outside {mem src : Nat → Byte} {dst from' n k : Nat}
    (hk : k < dst ∨ dst + n ≤ k) : memmove mem src dst from' n k = mem k := by
  rw [memmove, if_neg (by omega)]

theorem putLine_safe (tp : Tty) {bytes : List Byte} (off : Nat)
    (hlen : bytes.length ≤ 2 * tp.win.cols) :
    Safe AnyFault (tp.putLine bytes off) fun tp' =>
      Redrawn tp (2 * off) (2 * (off + tp.win.cols)) tp' ∧
        (tp.win.cols = 0 ∨ 2 * off < tp.win.bytes) := by
  refine (span_safe _ _ _).bind fun _ hfits => ?_
  split
  · refine (erase_safe tp off tp.win.cols).mono fun tp' h => ⟨h.redrawn, ?_⟩
    have := h.fits
    omega
  · have hpos : 0 < bytes.length := List.length_pos_iff.2 ‹_›
    refine ⟨⟨rfl, rfl, fun k hk => ?_⟩, by omega⟩
    show memmove tp.shadow (fun k => bytes.getD k 0) (2 * off) 0 bytes.length k = tp.shadow k
    exact memmove_of_outside (by omega)

theorem lineDown_safe (tp : Tty) :
    Safe AnyFault tp.lineDown fun tp' =>
      Redrawn tp 0 (2 * tp.win.cols + tp.scrollSize) tp' ∧
        (tp.scrollSize = 0 ∨ 2 * tp.win.cols + tp.scrollSize ≤ tp.win.bytes) := by
  refine (Safe.any fun _ _ => trivial).bind (P := fun _ => True) fun w _ => ?_
  refine (span_safe _ _ _).bind fun _ _ => ?_
  refine (span_safe _ _ _).bind fun _ _ => ?_
  refine (span_safe _ _ _).bind fun _ hfits => ?_
  refine (Safe.any fun _ h => ringbufReadAt_length h).bind
    (P := fun out => out.1.length ≤ 2 * tp.win.cols) fun ⟨bytes, ring⟩ hlen => ?_
  refine Safe.mono (putLine_safe _ 0 ?_) fun tp' h => ⟨?_, hfits⟩
  · exact hlen
  have hmoved : Redrawn tp 0 (2 * tp.win.cols + tp.scrollSize)
      { tp with
        downbuf := w.2
        upbuf := ring
        shadow := memmove tp.shadow tp.shadow (2 * tp.win.cols) 0 tp.scrollSize } := by
    refine ⟨rfl, rfl, fun k hk => ?_⟩
    show memmove tp.shadow tp.shadow (2 * tp.win.cols) 0 tp.scrollSize k = tp.shadow k
    exact memmove_of_outside (by omega)
  refine hmoved.trans (h.1.mono (Nat.zero_le _) ?_)
  show 2 * (0 + tp.win.cols) ≤ _
  omega

theorem lineUp_safe (tp : Tty) :
    Safe AnyFault tp.lineUp fun tp' =>
      tp'.win = tp.win ∧ (tp.win.cols = 0 ∨ 2 * tp.lastLine < tp.win.bytes) ∧
        (tp.scrollSize = 0 ∨ 2 * tp.win.cols + tp.scrollSize ≤ tp.win.bytes) := by
  refine (Safe.any fun _ _ => trivial).bind (P := fun _ => True) fun w _ => ?_
  refine (span_safe _ _ _).bind fun _ _ => ?_
  refine (span_safe _ _ _).bind fun _ hfits => ?_
  refine (span_safe _ _ _).bind fun _ _ => ?_
  refine (Safe.any fun _ h => ringbufReadAt_length h).bind
    (P := fun out => out.1.length ≤ 2 * tp.win.cols) fun ⟨bytes, ring⟩ hlen => ?_
  refine Safe.mono (putLine_safe _ tp.lastLine ?_) fun tp' h => ⟨h.1.win, h.2, hfits⟩
  exact hlen

theorem sizes (w : Winsize) :
    ((w.rows : Int) - 1) * w.cols = w.rows * w.cols - w.cols ∧ (w.cols : Int) ≤ 65535 ∧
      (w.bytes : Int) = 2 * (w.rows * w.cols) ∧ (w.rows * w.cols : Int) < 2 ^ 32 ∧
      0 ≤ (w.rows * w.cols : Int) := by
  have hbytes := bytes_lt w
  have hc : w.cols ≤ 65535 := Nat.le_of_lt_succ w.wsCol.isLt
  have hb : (w.bytes : Int) = 2 * (w.rows * w.cols) := by
    rw [Winsize.bytes]
    push_cast
    rfl
  refine ⟨by ring, by omega, hb, by omega, by positivity⟩

theorem scrollSize_eq (tp : Tty) :
    tp.scrollSize = usize (int32 (2 * (tp.win.rows * tp.win.cols) - 2 * tp.win.cols)) := by
  rw [scrollSize, int32_mul_two]
  congr 2
  ring

theorem markSize_eq (tp : Tty) :
    tp.markSize = usize (int32 (2 * (tp.win.rows * tp.win.cols))) := by
  rw [markSize, int32_mul_two]
  congr 2
  ring

theorem marked_down (hfits : tp.scrollSize = 0 ∨ 2 * tp.win.cols + tp.scrollSize ≤ tp.win.bytes) :
    tp.win.bytes = 0 ∨ 2 * tp.win.cols + tp.scrollSize ≤ tp.markSize := by
  rcases sizes tp.win with ⟨hlast, hc, hb, hlt, h0⟩
  have hS := scrollSize_eq tp
  have hN := markSize_eq tp
  rcases usize_int32 (x := 2 * (tp.win.rows * tp.win.cols) - 2 * tp.win.cols) (by omega) (by omega)
    with h | h | h <;>
  rcases usize_int32 (x := 2 * (tp.win.rows * tp.win.cols)) (by omega) (by omega)
    with h' | h' | h' <;>
  omega

theorem marked_up (hlast : tp.win.cols = 0 ∨ 2 * tp.lastLine < tp.win.bytes)
    (hfits : tp.scrollSize = 0 ∨ 2 * tp.win.cols + tp.scrollSize ≤ tp.win.bytes) :
    tp.win.bytes = 0 ∨ tp.win.bytes ≤ tp.markSize := by
  rcases sizes tp.win with ⟨hmul, hc, hb, hlt, h0⟩
  rcases hlast with hnone | hlast
  · left
    rw [Winsize.bytes, hnone, Nat.mul_zero]
  have hL : tp.lastLine = usize (int32 (tp.win.rows * tp.win.cols - tp.win.cols)) := by
    rw [lastLine, hmul]
  have hN := markSize_eq tp
  rcases usize_int32 (x := tp.win.rows * tp.win.cols - tp.win.cols) (by omega) (by omega)
    with h | h | h
  · rw [scrollSize_eq] at hfits
    rcases usize_int32 (x := 2 * (tp.win.rows * tp.win.cols) - 2 * tp.win.cols) (by omega) (by omega)
      with h' | h' | h' <;>
    rcases usize_int32 (x := 2 * (tp.win.rows * tp.win.cols)) (by omega) (by omega)
      with h'' | h'' | h'' <;>
    omega
  · omega
  · omega

@[simp] theorem mark_win (tp : Tty) (pos size : Nat) : (tp.mark pos size).win = tp.win := rfl

@[simp] theorem mark_dirtyPos (tp : Tty) (pos size : Nat) : (tp.mark pos size).dirtyPos = pos := rfl

@[simp] theorem mark_dirtySize (tp : Tty) (pos size : Nat) :
    (tp.mark pos size).dirtySize = size := rfl

theorem scroll_eq (tp : Tty) (down : Bool) (lines : Nat) :
    tp.scroll down lines =
      scrollLines down lines tp >>= fun tp' => .ok (tp'.mark 0 tp'.markSize) := rfl

theorem scrollLines_down (n : Nat) (tp : Tty) :
    Safe AnyFault (scrollLines true n tp) fun tp' =>
      Redrawn tp 0 (2 * tp.win.cols + tp.scrollSize) tp' ∧
        (n = 0 ∨ tp.scrollSize = 0 ∨ 2 * tp.win.cols + tp.scrollSize ≤ tp.win.bytes) := by
  induction n generalizing tp with
  | zero => exact ⟨Redrawn.refl tp _ _, Or.inl rfl⟩
  | succ n ih =>
    refine (lineDown_safe tp).bind fun tp1 h₁ => (ih tp1).mono fun tp' h' => ?_
    have hsize : tp1.scrollSize = tp.scrollSize := by rw [scrollSize, scrollSize, h₁.1.win]
    rw [h₁.1.win, hsize] at h'
    exact ⟨h₁.1.trans h'.1, Or.inr h₁.2⟩

theorem scrollLines_up (n : Nat) (tp : Tty) :
    Safe AnyFault (scrollLines false n tp) fun tp' =>
      tp'.win = tp.win ∧ (n = 0 ∨ tp.win.bytes = 0 ∨ tp.win.bytes ≤ tp.markSize) := by
  induction n generalizing tp with
  | zero => exact ⟨rfl, Or.inl rfl⟩
  | succ n ih =>
    refine (lineUp_safe tp).bind fun tp1 h₁ => (ih tp1).mono fun tp' h' => ?_
    exact ⟨h'.1.trans h₁.1, Or.inr (marked_up h₁.2.1 h₁.2.2)⟩

theorem scroll_down_safe (hm : Mirror w tp) {lines : Nat} (hlines : 0 < lines) :
    Safe AnyFault (tp.scroll true lines) (Covered w) := by
  rw [scroll_eq]
  refine (scrollLines_down lines tp).bind fun tp1 ⟨hdrawn, hfits⟩ => ?_
  have hmarked : Redrawn tp1 0 (2 * tp.win.cols + tp.scrollSize) (tp1.mark 0 tp1.markSize) :=
    ⟨rfl, rfl, fun _ _ => rfl⟩
  have hmark : tp1.markSize = tp.markSize := by rw [markSize, markSize, hdrawn.win]
  refine (hdrawn.trans hmarked).covered hm rfl fun k hk _ hhi => ?_
  rw [mark_dirtyPos, mark_dirtySize, hmark]
  have := marked_down (hfits.resolve_left (by omega))
  rw [hm.win] at this hhi
  omega

theorem scroll_up_safe (hw : tp.win = w) {lines : Nat} (hlines : 0 < lines) :
    Safe AnyFault (tp.scroll false lines) (Covered w) := by
  rw [scroll_eq]
  refine (scrollLines_up lines tp).bind fun tp1 ⟨hwin, hfits⟩ => ?_
  have hmark : tp1.markSize = tp.markSize := by rw [markSize, markSize, hwin]
  refine ⟨hwin.trans hw, fun k hk => Or.inr ⟨rfl, ?_⟩⟩
  rw [mark_dirtyPos, mark_dirtySize, hmark]
  rw [hw] at hfits
  omega

/-! ## The cursor -/

/-- Two consoles that look alike: they differ only in what is not displayed. -/
structure Alike (tp tp' : Tty) : Prop where
  win : tp'.win = tp.win
  vga : tp'.vga = tp.vga
  shadow : tp'.shadow = tp.shadow
  dirty : tp'.dirty = tp.dirty
  dirtyPos : tp'.dirtyPos = tp.dirtyPos
  dirtySize : tp'.dirtySize = tp.dirtySize

theorem Covered.alike (hc : Covered w tp) (h : Alike tp tp') : Covered w tp' := by
  refine ⟨h.win.trans hc.win, fun k hk => ?_⟩
  rw [h.vga, h.shadow, h.dirty, h.dirtyPos, h.dirtySize]
  exact hc.same k hk

theorem Mirror.alike (hm : Mirror w tp) (h : Alike tp tp') : Mirror w tp' := by
  refine ⟨h.win.trans hm.win, fun k hk => ?_⟩
  rw [h.vga, h.shadow]
  exact hm.same k hk

theorem updateCursor_safe (hc : Covered w tp) (off : Nat) :
    Safe AnyFault (tp.updateCursor off) (Covered w) := by
  rw [updateCursor]
  split
  · have hw : Tty.win { tp with cursorPos := off } = w := hc.win
    refine (scroll_up_safe hw Nat.one_pos).bind fun tp1 h₁ => ?_
    exact h₁.alike ⟨rfl, rfl, rfl, rfl, rfl, rfl⟩
  · exact hc.alike ⟨rfl, rfl, rfl, rfl, rfl, rfl⟩

theorem setCursorCordinates_safe (hc : Covered w tp) (x y : Int) :
    Safe AnyFault (tp.setCursorCordinates x y) (Covered w) := updateCursor_safe hc _

theorem moveCursor_safe (hc : Covered w tp) (dx dy : Int) :
    Safe AnyFault (tp.moveCursor dx dy) (Covered w) :=
  (divide_safe tp).bind fun _ _ => setCursorCordinates_safe hc _ _

theorem eraseThen_safe (hm : Mirror w tp) (off sz next : Nat) :
    Safe AnyFault (tp.erase off sz >>= fun tp' => tp'.updateCursor next) (Covered w) :=
  (erase_safe tp off sz).bind fun _ h => updateCursor_safe (h.covered hm) next

theorem eraseDisplay_safe (hm : Mirror w tp) (param : Int) :
    Safe AnyFault (tp.eraseDisplay param) (Covered w) := by
  rw [eraseDisplay]
  split
  · exact (erase_safe tp _ _).bind fun _ h => updateCursor_safe (h.covered hm) _
  split
  · exact eraseThen_safe hm _ _ _
  split
  · exact eraseThen_safe hm _ _ _
  · exact hm.covered

theorem eraseLine_safe (hm : Mirror w tp) (param : Int) :
    Safe AnyFault (tp.eraseLine param) (Covered w) := by
  rw [eraseLine]
  split
  · refine (divide_safe tp).bind fun _ _ => ?_
    exact (erase_safe tp _ _).bind fun _ h => updateCursor_safe (h.covered hm) _
  split
  · exact (divide_safe tp).bind fun _ _ => eraseThen_safe hm _ _ _
  split
  · exact (divide_safe tp).bind fun _ _ => eraseThen_safe hm _ _ _
  · exact hm.covered

/-! ## Bytes -/

theorem setAttributes_safe (hm : Mirror w tp) : Safe AnyFault tp.setAttributes (Covered w) :=
  (Safe.any fun _ _ => trivial).bind (P := fun _ => True) fun _ _ =>
    hm.covered.alike ⟨rfl, rfl, rfl, rfl, rfl, rfl⟩

theorem command_safe (hm : Mirror w tp) (cmd : Csi) :
    Safe AnyFault (tp.command cmd) (Covered w) := by
  have hc := hm.covered
  cases cmd with
  | up => exact moveCursor_safe hc _ _
  | down => exact moveCursor_safe hc _ _
  | right => exact moveCursor_safe hc _ _
  | left => exact moveCursor_safe hc _ _
  | nextLine => exact (divide_safe tp).bind fun _ _ => setCursorCordinates_safe hc _ _
  | prevLine => exact (divide_safe tp).bind fun _ _ => setCursorCordinates_safe hc _ _
  | column =>
    rw [command]
    split
    · trivial
    · exact setCursorCordinates_safe hc _ _
  | position => exact setCursorCordinates_safe hc _ _
  | eraseDisplay => exact eraseDisplay_safe hm _
  | eraseLine => exact eraseLine_safe hm _
  | scroll down =>
    have hlines : 0 < if 0 < tp.param0 then tp.param0.toNat else 1 := by
      split <;> omega
    cases down with
    | true => exact scroll_down_safe hm hlines
    | false => exact scroll_up_safe hm.win hlines
  | line => exact (divide_safe tp).bind fun _ _ => setCursorCordinates_safe hc _ _
  | mode => exact hc
  | save => exact hc.alike ⟨rfl, rfl, rfl, rfl, rfl, rfl⟩
  | restore => exact hc.alike ⟨rfl, rfl, rfl, rfl, rfl, rfl⟩
  | attributes => exact setAttributes_safe hm
  | unknown => exact hc

/-- Behind an escape sequence the byte is handled again only if nothing has been drawn. -/
def Handled (w : Winsize) (out : Ret × Tty) : Prop :=
  Covered w out.2 ∧ (out.1 ≠ .ok → Mirror w out.2)

theorem Mirror.handled (hm : Mirror w tp) (ret : Ret) (h : Alike tp tp') :
    Handled w (ret, tp') :=
  ⟨hm.covered.alike h, fun _ => hm.alike h⟩

theorem Covered.handled (hc : Covered w tp) : Handled w (.ok, tp) := ⟨hc, fun h => absurd rfl h⟩

theorem handleCsi_safe (hm : Mirror w tp) (c : Int) :
    Safe AnyFault (tp.handleCsi c) (Handled w) := by
  rw [handleCsi]
  split
  · exact Safe.ok (hm.handled _ ⟨rfl, rfl, rfl, rfl, rfl, rfl⟩)
  · refine (command_safe hm _).bind fun tp1 h₁ => ?_
    exact Covered.handled (h₁.alike ⟨rfl, rfl, rfl, rfl, rfl, rfl⟩)

theorem setSeq_safe (hm : Mirror w tp) (value : Int) :
    Safe AnyFault (tp.setSeq value) (Mirror w) :=
  (Safe.any fun _ _ => trivial).bind (P := fun _ => True) fun _ _ =>
    hm.alike ⟨rfl, rfl, rfl, rfl, rfl, rfl⟩

theorem handleEsc_safe (hm : Mirror w tp) (c : Int) :
    Safe AnyFault (tp.handleEsc c) (Handled w) := by
  rw [handleEsc]
  split
  · exact Safe.ok (hm.handled _ ⟨rfl, rfl, rfl, rfl, rfl, rfl⟩)
  split
  · refine (Safe.any fun _ _ => trivial).bind (P := fun _ => True) fun value _ => ?_
    exact (setSeq_safe hm _).bind fun tp1 h₁ => h₁.handled _ ⟨rfl, rfl, rfl, rfl, rfl, rfl⟩
  split
  · refine (setSeq_safe hm _).bind fun tp1 h₁ => ?_
    exact Safe.ok (h₁.handled _ ⟨rfl, rfl, rfl, rfl, rfl, rfl⟩)
  split
  · split
    · exact Safe.ok (hm.handled _ ⟨rfl, rfl, rfl, rfl, rfl, rfl⟩)
    · exact hm.handled _ ⟨rfl, rfl, rfl, rfl, rfl, rfl⟩
  · have hm1 : Mirror w { tp with escSeqcnt := tp.escSeqcnt + 1 } :=
      hm.alike ⟨rfl, rfl, rfl, rfl, rfl, rfl⟩
    exact handleCsi_safe hm1 c

theorem handleSpecial_safe (hm : Mirror w tp) (c : Int) :
    Safe AnyFault (tp.handleSpecial c) (Covered w) := by
  have hc := hm.covered
  rw [handleSpecial]
  split
  · dsimp only
    split
    · exact (divide_safe tp).bind fun _ _ => updateCursor_safe hc _
    · exact updateCursor_safe hc _
  split
  · exact (divide_safe tp).bind fun _ _ => updateCursor_safe hc _
  split
  · exact updateCursor_safe hc _
  split
  · split
    · exact (updateCursor_safe hc _).bind fun tp1 h₁ => updateCursor_safe h₁ _
    · exact updateCursor_safe hc _
  split
  · exact eraseDisplay_safe hm 2
  split
  · split
    · rw [pure_eq_ok, ok_bind]
      exact updateCursor_safe hc _
    · exact (writeChar_safe hm c).bind fun tp1 h₁ => updateCursor_safe h₁ _
  split
  · exact (writeChar_safe hm c).bind fun tp1 h₁ => updateCursor_safe h₁ _
  · exact updateCursor_safe hc _

theorem putPlain_safe (hm : Mirror w tp) (c : Int) : Safe AnyFault (tp.putPlain c) (Covered w) := by
  rw [putPlain]
  split
  · exact hm.covered.alike ⟨rfl, rfl, rfl, rfl, rfl, rfl⟩
  split
  · refine (divide_safe tp).bind fun _ _ => ?_
    split
    · exact hm.covered
    · exact handleSpecial_safe hm c
  · exact handleSpecial_safe hm c

theorem put_safe (hm : Mirror w tp) (c : Int) : Safe AnyFault (tp.put c) (Covered w) := by
  rw [put]
  split
  · refine (handleEsc_safe hm c).bind fun out h => ?_
    rcases out with ⟨ret, tp1⟩
    cases ret with
    | ok => exact h.1
    | err e =>
      have hm1 : Mirror w tp1.endEsc :=
        (h.2 (by simp)).alike ⟨rfl, rfl, rfl, rfl, rfl, rfl⟩
      exact putPlain_safe hm1 c
  · exact putPlain_safe hm c

theorem flush_safe (hc : Covered w tp) : Safe AnyFault tp.flush (Mirror w) := by
  rw [flush]
  split
  · refine (span_safe tp _ _).bind fun _ _ => ⟨hc.win, fun k hk => ?_⟩
    show memmove tp.vga tp.shadow (2 * tp.dirtyPos) (2 * tp.dirtyPos) tp.dirtySize k = tp.shadow k
    rcases hc.same k hk with heq | ⟨_, hlo, hhi⟩
    · rw [memmove]
      split
      · congr 1
        omega
      · exact heq
    · rw [memmove, if_pos ⟨hlo, hhi⟩]
      congr 1
      omega
  · refine ⟨hc.win, fun k hk => ?_⟩
    rcases hc.same k hk with heq | ⟨hdirty, _⟩
    · exact heq
    · contradiction

theorem putByte_safe (hm : Mirror w tp) (b : Byte) : Safe AnyFault (tp.putByte b) (Mirror w) :=
  (put_safe hm _).bind fun _ h => flush_safe h

theorem writeLoop_safe (buf : Nat → Byte) (n i : Nat) (hm : Mirror w tp) :
    Safe AnyFault (writeLoop buf n i tp) fun out => Mirror w out.2 := by
  induction n generalizing i tp with
  | zero => exact hm
  | succ n ih =>
    rw [writeLoop]
    split
    · exact hm
    · exact (putByte_safe hm _).bind fun tp1 h₁ => ih (i + 1) h₁

theorem consoleWrite_safe (hm : Mirror w tp) (buf : Nat → Byte) (count : Nat) :
    Safe AnyFault (tp.consoleWrite buf count) fun out => Mirror w out.2 := by
  rw [consoleWrite]
  split
  · exact hm
  · exact (writeLoop_safe buf count 0 hm).bind fun out h => h

/-- A `console_write` that returns leaves the video memory equal to the shadow buffer. -/
theorem console_write_mirror (tp tp' : Tty) (buf : Nat → Byte) (count : Nat)
    (ret : Except Errno Nat) (hm : ∀ k < tp.win.bytes, tp.vga k = tp.shadow k)
    (h : tp.consoleWrite buf count = .ok (ret, tp')) :
    tp'.win = tp.win ∧ ∀ k < tp.win.bytes, tp'.vga k = tp'.shadow k := by
  have hout := (consoleWrite_safe ⟨rfl, hm⟩ buf count).of_eq_ok h
  exact ⟨hout.win, hout.same⟩

def small : Tty :=
  opened ⟨1, 2⟩ true true true (fun k => if k % 2 = 0 then 0x20 else 0x07) fun _ => 0

/-- `hi`, which ends at the end of the line: the window scrolls up. -/
def hi : Nat → Byte := fun i => if i = 0 then 0x68 else 0x69

theorem console_write_mirror_hi :
    ∃ out, small.consoleWrite hi 2 = .ok out ∧ out.2.win = small.win ∧
      ∀ k < small.win.bytes, out.2.vga k = out.2.shadow k := by
  have hrun : small.consoleWrite hi 2 =
      .ok (outcome (small.consoleWrite hi 2) (.ok 0, small)) := eq_ok_outcome (by decide +kernel)
  exact ⟨_, hrun, console_write_mirror small _ hi 2 _ (fun k _ => rfl) hrun⟩

end Tty
end Dev
end XytherOS
