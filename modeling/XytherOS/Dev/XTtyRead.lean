import XytherOS.Dev.XTty
import Mathlib.Tactic.NormNum

/-!
# XTtyRead — `x_tty_read` and the lines of the input

In canonical mode a read ends at a newline, which is looked for behind the last byte that
`ringbuf_read` has handed over.  A read is one `ringbuf_read` of as many bytes as there are and fit,
so a newline before the last of them goes unnoticed.

What other threads do while the reader sleeps in `await_event` is a part of its run: the value that
`await_event` returns, and the input buffer that the reader finds.
-/

namespace XytherOS
namespace XTty

open Fs (Byte)

/-! ## `x_tty_read` -/

structure Wake where
  ret : Int
  inputbuf : Inputbuf

/-- What `x_tty_read` returns and has stored, and the buffer that it leaves. -/
structure ReadResult where
  ret : Int
  buf : List Byte
  inputbuf : Inputbuf

theorem Inputbuf.read_length_pos {b : Inputbuf} {n : Nat} (hn : 0 < n) (hb : b.isEmpty = false) :
    0 < (b.read n).length := by
  have hne : b.contents ≠ [] := by
    intro hnil
    simp [b.isEmpty_iff.2 hnil] at hb
  rw [b.read_eq, List.length_take]
  exact Nat.lt_min.2 ⟨hn, List.length_pos_iff.2 hne⟩

/-- The outer loop of `x_tty_read`, with the bytes that are stored already; `none` is a reader that
still sleeps. -/
def readLoop (canon : Bool) (count : BitVec 64) (buf : List Byte) (b : Inputbuf)
    (wakes : List Wake) : Option ReadResult :=
  if _hsz : (buf.length : Int) < count.toInt then
    if _hempty : b.isEmpty then
      -- a partial read does not wait
      if 0 < buf.length then some ⟨buf.length, buf, b⟩
      else
        match wakes with
        | [] => none
        | w :: wakes =>
          if w.ret ≠ 0 then some ⟨w.ret, buf, w.inputbuf⟩
          else readLoop canon count buf w.inputbuf wakes
    else
      let to_read := count.toNat - buf.length
      let got := b.read to_read
      if canon && (buf ++ got).getLast? == some NL then
        some ⟨(buf ++ got).length, buf ++ got, b.afterRead to_read⟩
      else if !canon && got.length == 0 then
        some ⟨(buf ++ got).length, buf ++ got, b.afterRead to_read⟩
      else readLoop canon count (buf ++ got) (b.afterRead to_read) wakes
  else some ⟨buf.length, buf, b⟩
termination_by (wakes.length, count.toNat - buf.length)
decreasing_by
  · exact Prod.Lex.left _ _ (by simp)
  · have hlt : buf.length < count.toNat := by
      have hle : count.toInt ≤ count.toNat := by
        rw [BitVec.toInt_eq_toNat_cond]
        split <;> omega
      omega
    have hpos := Inputbuf.read_length_pos (Nat.sub_pos_of_lt hlt) (Bool.eq_false_iff.2 _hempty)
    refine Prod.Lex.right _ ?_
    rw [List.length_append]
    omega

def xTtyRead (tio : Termios) (count : BitVec 64) (b : Inputbuf) (wakes : List Wake) :
    Except Errno (Option ReadResult) :=
  if count = 0 then .error .EINVAL else .ok (readLoop (tio.lflag ICANON) count [] b wakes)

/-! ## What a read returns -/

/-- The wait of a read: the value that ends it, and the buffer that is found. -/
def awaitInput (b : Inputbuf) : List Wake → Option (Int × Inputbuf)
  | [] => if b.isEmpty then none else some (0, b)
  | w :: wakes =>
    if b.isEmpty then
      if w.ret ≠ 0 then some (w.ret, w.inputbuf) else awaitInput w.inputbuf wakes
    else some (0, b)

def readOnce (n : Nat) (found : Int × Inputbuf) : ReadResult :=
  if found.1 ≠ 0 then ⟨found.1, [], found.2⟩
  else ⟨(found.2.read n).length, found.2.read n, found.2.afterRead n⟩

section Canonical

variable {count : BitVec 64} {b : Inputbuf}

theorem toInt_eq_of_pos (h : 0 < count.toInt) : count.toInt = count.toNat := by
  rw [BitVec.toInt_eq_toNat_cond] at h ⊢
  split at h <;> omega

theorem readLoop_stop (h : 0 < count.toInt) (hb : b.isEmpty = false) (wakes : List Wake) :
    readLoop true count (b.read count.toNat) (b.afterRead count.toNat) wakes =
      some (readOnce count.toNat (0, b)) := by
  have hint := toInt_eq_of_pos h
  have hpos : 0 < (b.read count.toNat).length :=
    Inputbuf.read_length_pos (by omega) hb
  rw [readLoop.eq_def]
  by_cases hsz : ((b.read count.toNat).length : Int) < count.toInt
  · -- fewer bytes than asked for: they were all
    have hrest : (b.afterRead count.toNat).isEmpty = true := by
      rw [Inputbuf.isEmpty_iff, Inputbuf.contents_afterRead, List.drop_eq_nil_iff]
      rw [b.read_eq, List.length_take] at hsz
      omega
    rw [dif_pos hsz, dif_pos hrest, if_pos hpos]
    rfl
  · rw [dif_neg hsz]
    rfl

theorem readLoop_nonempty (h : 0 < count.toInt) (hb : b.isEmpty = false) (wakes : List Wake) :
    readLoop true count [] b wakes = some (readOnce count.toNat (0, b)) := by
  have hsz : (([] : List Byte).length : Int) < count.toInt := h
  rw [readLoop.eq_def, dif_pos hsz, dif_neg (by simp [hb])]
  simp only [List.length_nil, Nat.sub_zero, List.nil_append, Bool.true_and, Bool.not_true,
    Bool.false_and, Bool.false_eq_true, if_false]
  split
  · rfl
  · exact readLoop_stop h hb wakes

theorem readLoop_canon (h : 0 < count.toInt) (b : Inputbuf) (wakes : List Wake) :
    readLoop true count [] b wakes = (awaitInput b wakes).map (readOnce count.toNat) := by
  have hsz : (([] : List Byte).length : Int) < count.toInt := h
  induction wakes generalizing b with
  | nil =>
    cases hb : b.isEmpty with
    | false => rw [readLoop_nonempty h hb, awaitInput, hb]; rfl
    | true => rw [readLoop, dif_pos hsz, dif_pos hb, awaitInput, hb]; rfl
  | cons w wakes ih =>
    cases hb : b.isEmpty with
    | false => rw [readLoop_nonempty h hb, awaitInput, hb]; rfl
    | true =>
      rw [readLoop, dif_pos hsz, dif_pos hb, awaitInput, if_pos hb,
        if_neg (by simp)]
      by_cases hret : w.ret ≠ 0
      · rw [if_pos hret, if_pos hret, Option.map_some, readOnce, if_pos hret]
      · rw [if_neg hret, if_neg hret]
        exact ih w.inputbuf

end Canonical

/-! ## One line at the most -/

/-- What the read returns is a prefix of the buffered bytes, with no newline but for the last byte,
and the rest stays in the buffer. -/
def OneLine (b : Inputbuf) (x : ReadResult) : Prop :=
  x.buf <+: b.contents ∧ NL ∉ x.buf.dropLast ∧
    x.inputbuf.contents = b.contents.drop x.buf.length

/-- The buffer that the read finds; a `count` from `2^63` on is negative, and such a read does
not look at all. -/
def buffered (count : BitVec 64) (b : Inputbuf) (wakes : List Wake) : Option Inputbuf :=
  if 0 < count.toInt then (awaitInput b wakes).map Prod.snd else some b

theorem oneLine_readOnce_iff (n : Nat) (found : Int × Inputbuf) :
    OneLine found.2 (readOnce n found) ↔
      (found.1 = 0 → NL ∉ (found.2.contents.take n).dropLast) := by
  rcases found with ⟨ret, b⟩
  by_cases hret : ret = 0
  · subst hret
    have hlen : b.contents.drop (min n b.contents.length) = b.contents.drop n := by
      rcases Nat.le_total n b.contents.length with hle | hle
      · rw [Nat.min_eq_left hle]
      · rw [Nat.min_eq_right hle, List.drop_length, List.drop_of_length_le hle]
    simp [OneLine, readOnce, b.read_eq, List.take_prefix, hlen]
  · simp [OneLine, readOnce, hret]

/-- A read returns at most one line exactly if the bytes it asks for hold no newline before the last
of them. -/
theorem oneLine_iff_unbroken {tio : Termios} (hcanon : tio.lflag ICANON = true)
    (count : BitVec 64) (b : Inputbuf) (wakes : List Wake) :
    (∀ x, xTtyRead tio count b wakes = .ok (some x) →
        ∃ b', buffered count b wakes = some b' ∧ OneLine b' x) ↔
      (0 < count.toInt → ∀ b', awaitInput b wakes = some (0, b') →
        NL ∉ (b'.contents.take count.toNat).dropLast) := by
  rw [xTtyRead, hcanon, buffered]
  by_cases hpos : 0 < count.toInt
  · have hne : count ≠ 0 := by
      intro hzero
      simp [hzero] at hpos
    rw [if_neg hne, if_pos hpos, readLoop_canon hpos]
    cases hfound : awaitInput b wakes with
    | none => simp
    | some found =>
      have hiff := oneLine_readOnce_iff count.toNat found
      rcases found with ⟨ret, b'⟩
      simp [hpos, hiff]
  · -- nothing is read
    refine iff_of_true ?_ fun h => absurd h hpos
    intro x hx
    by_cases hzero : count = 0
    · simp [hzero] at hx
    · have hsz : ¬ (([] : List Byte).length : Int) < count.toInt := hpos
      rw [if_neg hzero, readLoop.eq_def, dif_neg hsz] at hx
      cases hx
      exact ⟨b, if_neg hpos, by simp [OneLine]⟩

/-! Two lines are queued; what is read depends on how many bytes are asked for. -/

def cooked : Termios where
  cIflag := 0
  cLflag := ICANON
  cCc := fun _ => 0

def twoLines : Inputbuf := (Inputbuf.init fun _ => 0).write [byte 'a', NL, byte 'b', NL]

theorem xTtyRead_twoLines (count : BitVec 64) (h : 0 < count.toInt) :
    xTtyRead cooked count twoLines [] = .ok (some (readOnce count.toNat (0, twoLines))) := by
  have hne : count ≠ 0 := by
    intro hzero
    simp [hzero] at h
  have hcanon : cooked.lflag ICANON = true := rfl
  rw [xTtyRead, if_neg hne, hcanon, readLoop_nonempty h (by decide)]

theorem readOnce_two_oneLine : OneLine twoLines (readOnce 2 (0, twoLines)) := by
  have hcanon : cooked.lflag ICANON = true := rfl
  have hread := (oneLine_iff_unbroken hcanon 2 twoLines []).2
  have hunbroken : 0 < (2 : BitVec 64).toInt → ∀ b', awaitInput twoLines [] = some (0, b') →
      NL ∉ (b'.contents.take (2 : BitVec 64).toNat).dropLast := by
    rintro - b' hb'
    rw [show b' = twoLines from (Prod.mk.inj (Option.some.inj hb')).2.symm]
    decide
  rcases hread hunbroken _ (xTtyRead_twoLines 2 (by decide)) with ⟨b', hb', hline⟩
  rwa [← Option.some.inj hb'] at hline

theorem twoLines_not_oneLine : ¬ ∀ x, xTtyRead cooked 4 twoLines [] = .ok (some x) →
    ∃ b', buffered 4 twoLines [] = some b' ∧ OneLine b' x := by
  intro h
  rcases h _ (xTtyRead_twoLines 4 (by decide)) with ⟨_, _, _, hnl, _⟩
  exact hnl (by decide)

end XTty
end XytherOS
