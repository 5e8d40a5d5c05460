import XytherOS.Dev.XTty
import Mathlib.Data.List.DropRight

/-!
# XTtyLine — the line buffer of `x_tty.c` as the text around the cursor

A `Line` is the text in front of the cursor and the text behind it, with the flush flag; its
operations are those of the line discipline, on lists.  The line buffer follows them as long as it
has room.  What lies in the array behind the line is not a part of the text, but an echo may run
into it.
-/

namespace XytherOS
namespace XTty

open Function

open Fs (Byte)

/-! ## The text around the cursor -/

/-- The line buffer holds `left` in front of the cursor and `right` behind it. -/
structure Ldata.Holds (ld : Ldata) (left right : List Byte) : Prop where
  inpos : ld.inpos = left.length
  inlen : ld.inlen = left.length + right.length
  text : ∀ i : Nat, i < left.length + right.length → (left ++ right)[i]? = some (ld.inbuf i)

namespace Ldata

variable {ld : Ldata} {left right : List Byte} {c : Byte}

theorem within_of {i n : Int} (hi : 0 ≤ i) (hn : 0 ≤ n) (h : i + n ≤ XTTYFBMAX) :
    within i n = .ok () := if_pos ⟨hi, hn, h⟩

theorem Holds.reset (ld : Ldata) : ld.reset.Holds [] [] :=
  ⟨rfl, rfl, fun i hi => absurd hi (by simp)⟩

theorem Holds.congr {ld' : Ldata} (h : ld.Holds left right) (hpos : ld'.inpos = ld.inpos)
    (hlen : ld'.inlen = ld.inlen)
    (htext : ∀ i : Nat, i < left.length + right.length → ld'.inbuf i = ld.inbuf i) :
    ld'.Holds left right where
  inpos := hpos.trans h.inpos
  inlen := hlen.trans h.inlen
  text i hi := by rw [htext i hi, h.text i hi]

theorem Holds.bytes (h : ld.Holds left right) : ld.bytes ld.inlen.toNat = left ++ right := by
  have hn : ld.inlen.toNat = left.length + right.length := by
    rw [h.inlen]
    omega
  refine List.ext_getElem? fun i => ?_
  rw [Ldata.bytes, hn, List.getElem?_map]
  by_cases hi : i < left.length + right.length
  · rw [List.getElem?_range hi, Option.map_some, h.text i hi]
  · rw [List.getElem?_eq_none (by simpa using hi), List.getElem?_eq_none (by simpa using hi),
      Option.map_none]

theorem Holds.move (h : ld.Holds left (c :: right)) :
    Holds { ld with inpos := ld.inpos + 1 } (left ++ [c]) right where
  inpos := by
    have := h.inpos
    simp only [List.length_append, List.length_singleton]
    omega
  inlen := by
    have := h.inlen
    simp only [List.length_append, List.length_cons, List.length_nil] at this ⊢
    omega
  text i hi := by
    rw [List.append_assoc, List.singleton_append]
    refine h.text i ?_
    simp only [List.length_append, List.length_cons, List.length_nil] at hi ⊢
    omega

theorem Holds.moveBack (h : ld.Holds (left ++ [c]) right) :
    Holds { ld with inpos := ld.inpos - 1 } left (c :: right) where
  inpos := by
    have := h.inpos
    simp only [List.length_append, List.length_cons, List.length_nil] at this ⊢
    omega
  inlen := by
    have := h.inlen
    simp only [List.length_append, List.length_cons, List.length_nil] at this ⊢
    omega
  text i hi := by
    have htext := h.text i
    rw [List.append_assoc, List.singleton_append] at htext
    refine htext ?_
    simp only [List.length_append, List.length_cons, List.length_nil] at hi ⊢
    omega

theorem Holds.erase {ld' : Ldata} (h : ld.Holds left (c :: right)) (hpos : ld'.inpos = ld.inpos)
    (hlen : ld'.inlen = ld.inlen - 1) (hbelow : ∀ j, j < ld.inpos → ld'.inbuf j = ld.inbuf j)
    (hmoved : ∀ j, ld.inpos ≤ j → j + 1 < ld.inlen → ld'.inbuf j = ld.inbuf (j + 1)) :
    ld'.Holds left right := by
  have hinpos := h.inpos
  have hinlen := h.inlen
  rw [List.length_cons] at hinlen
  refine ⟨hpos.trans hinpos, by omega, fun i hi => ?_⟩
  by_cases hlt : i < left.length
  · rw [hbelow i (by omega), ← h.text i (by rw [List.length_cons]; omega),
      List.getElem?_append_left hlt, List.getElem?_append_left hlt]
  · have hcell : ld'.inbuf i = ld.inbuf ↑(i + 1) := by
      refine (hmoved i (by omega) (by omega)).trans (congrArg ld.inbuf ?_)
      omega
    obtain ⟨j, rfl⟩ : ∃ j, i = left.length + j := ⟨i - left.length, by omega⟩
    rw [hcell, ← h.text (left.length + j + 1) (by rw [List.length_cons]; omega),
      List.getElem?_append_right (by omega), List.getElem?_append_right (by omega)]
    have hold : left.length + j + 1 - left.length = j + 1 := by omega
    have hnew : left.length + j - left.length = j := by omega
    rw [hold, hnew, List.getElem?_cons_succ]

/-! ## Changes of the array -/

theorem store_ok {i : Int} (hi : 0 ≤ i) (h : i < XTTYFBMAX) (c : Byte) :
    ld.store i c = .ok { ld with inbuf := update ld.inbuf i c } := by
  rw [store, within_of hi (by decide) (by omega)]
  rfl

theorem memmove_ok {dest src n : Int} (hdest : 0 ≤ dest) (hsrc : 0 ≤ src) (hn : 0 ≤ n)
    (hdn : dest + n ≤ XTTYFBMAX) (hsn : src + n ≤ XTTYFBMAX) :
    ld.memmove dest src n = .ok { ld with
      inbuf := fun i =>
        if dest ≤ i ∧ i < dest + n then ld.inbuf (i - dest + src) else ld.inbuf i } := by
  rw [memmove, within_of hsrc hn hsn, within_of hdest hn hdn]
  rfl

theorem clear_ok (h : 0 ≤ ld.inlen) (hmax : ld.inlen ≤ XTTYFBMAX) :
    ∃ ld', ld.clear = .ok ld' ∧ ld'.Holds [] [] ∧ ld'.flush = ld.flush := by
  rw [clear, within_of (Int.le_refl 0) h (by omega)]
  exact ⟨_, rfl, Holds.reset _, rfl⟩

theorem Holds.insert (h : ld.Holds left right) (hc : c ≠ NL)
    (hroom : left.length + right.length < XTTYFBMAX) :
    ∃ ld', ld.insert c = .ok ld' ∧ ld'.Holds (left ++ [c]) right ∧ ld'.flush = ld.flush ∧
      ∀ j, ld.inlen < j → ld'.inbuf j = ld.inbuf j := by
  have hpos := h.inpos
  have hlen := h.inlen
  -- the array in which the place of the cursor is free
  have hmove : ∃ ld1, ld.makeRoom = .ok ld1 ∧ ld1.inpos = ld.inpos ∧ ld1.inlen = ld.inlen ∧
      ld1.flush = ld.flush ∧ (∀ j, j < ld.inpos → ld1.inbuf j = ld.inbuf j) ∧
      (∀ j, ld.inpos < j → j ≤ ld.inlen → ld1.inbuf j = ld.inbuf (j - 1)) ∧
      ∀ j, ld.inlen < j → ld1.inbuf j = ld.inbuf j := by
    rw [makeRoom]
    by_cases hin : ld.inpos < ld.inlen
    · rw [if_pos hin, memmove_ok (by omega) (by omega) (by omega) (by omega) (by omega)]
      refine ⟨_, rfl, rfl, rfl, rfl, fun j hj => ?_, fun j hj hj' => ?_, fun j hj => ?_⟩
      · exact if_neg (by omega)
      · refine (if_pos ⟨by omega, by omega⟩).trans (congrArg ld.inbuf ?_)
        omega
      · exact if_neg (by omega)
    · rw [if_neg hin]
      exact ⟨_, rfl, rfl, rfl, rfl, fun _ _ => rfl, fun j hj hj' => absurd hj' (by omega),
        fun _ _ => rfl⟩
  rcases hmove with ⟨ld1, hmove, hpos1, hlen1, hflush1, hbelow, hmoved, habove⟩
  rw [Ldata.insert, if_neg hc, hmove, ok_bind, store_ok (by omega) (by omega)]
  refine ⟨_, rfl, ⟨?_, ?_, ?_⟩, hflush1, fun j hj => ?_⟩
  · simp only [List.length_append, List.length_singleton]
    omega
  · simp only [List.length_append, List.length_singleton]
    omega
  · intro i hi
    simp only [List.length_append, List.length_singleton] at hi
    rcases Nat.lt_trichotomy i left.length with hlt | rfl | hgt
    · -- in front of the cursor
      have hcell : update ld1.inbuf ld.inpos c i = ld.inbuf i :=
        (update_of_ne (by omega) _ _).trans (hbelow i (by omega))
      rw [List.append_assoc, List.getElem?_append_left hlt]
      simp only [hpos1, hcell]
      rw [← h.text i (by omega), List.getElem?_append_left hlt]
    · -- the character itself
      have hcell : update ld1.inbuf ld.inpos c left.length = c := by
        rw [← hpos, update_self]
      simp only [hpos1, hcell]
      simp
    · -- behind the cursor
      obtain ⟨j, rfl⟩ : ∃ j, i = left.length + 1 + j := ⟨i - (left.length + 1), by omega⟩
      have hcell : update ld1.inbuf ld.inpos c ↑(left.length + 1 + j) =
          ld.inbuf ↑(left.length + j) := by
        refine (update_of_ne (by omega) _ _).trans
          ((hmoved _ (by omega) (by omega)).trans (congrArg ld.inbuf ?_))
        omega
      simp only [hpos1, hcell]
      rw [← h.text (left.length + j) (by omega), List.getElem?_append_right (by simp),
        List.getElem?_append_right (by omega)]
      congr 1
      simp only [List.length_append, List.length_singleton]
      omega
  · exact (update_of_ne (by omega) _ _).trans (habove j hj)

theorem Holds.insertNL (h : ld.Holds left right)
    (hroom : left.length + right.length < XTTYFBMAX) :
    ∃ ld', ld.insert NL = .ok ld' ∧ ld'.Holds left (right ++ [NL]) ∧ ld'.flush = ld.flush := by
  have hpos := h.inpos
  have hlen := h.inlen
  rw [Ldata.insert, if_pos rfl, store_ok (by omega) (by omega)]
  refine ⟨_, rfl, ⟨hpos, ?_, ?_⟩, rfl⟩
  · simp only [List.length_append, List.length_singleton]
    omega
  · intro i hi
    simp only [List.length_append, List.length_singleton] at hi
    rw [← List.append_assoc]
    by_cases hlt : i < left.length + right.length
    · have hcell : update ld.inbuf ld.inlen NL i = ld.inbuf i :=
        update_of_ne (by omega) _ _
      rw [List.getElem?_append_left (by simpa using hlt), h.text i hlt]
      exact congrArg some hcell.symm
    · obtain rfl : i = left.length + right.length := by omega
      have hcell : update ld.inbuf ld.inlen NL ↑(left.length + right.length) = NL := by
        have hat : ((left.length + right.length : Nat) : Int) = ld.inlen := by omega
        rw [hat, update_self]
      rw [← List.length_append, List.getElem?_concat_length, List.length_append]
      exact congrArg some hcell.symm

end Ldata

/-! ## The line -/

structure Line where
  left : List Byte
  right : List Byte
  flush : Bool
  deriving DecidableEq, Repr

namespace Line

variable (l : Line)

def length : Nat := l.left.length + l.right.length

/-- The text behind an insertion, for which there is space if the cursor is not near the end of the
array. -/
def put (c : Byte) : List Byte × List Byte :=
  if l.left.length + 3 < XTTYFBMAX.toNat then
    if c = NL then (l.left, l.right ++ [NL]) else (l.left ++ [c], l.right)
  else (l.left, l.right)

def insert (c : Byte) : Line where
  left := (l.put c).1
  right := (l.put c).2
  flush := l.flush || decide ((l.put c).1.length + 3 = XTTYFBMAX.toNat)

def erase : Line := { l with left := l.left.dropLast }

def clear : Line := { l with left := [], right := [] }

def werase : Line :=
  { l with
    left :=
      (l.left.rdropWhile fun c => c == byte ' ' || !ttyIsprint c).rdropWhile ttyIsprint
    right := [] }

def typed (tio : Termios) (c : Byte) : Line :=
  if ttyIsprint c || tio.isNL c then l.insert c else l

def ordinary (tio : Termios) (c : Byte) : List Byte × Line :=
  if tio.isNL c || (l.typed tio c).flush then
    ((l.typed tio c).left ++ (l.typed tio c).right, (l.typed tio c).clear)
  else ([], l.typed tio c)

def escape : List Byte → Line
  | seq :: cmd :: _ =>
    if seq ≠ byte '[' then l
    else if cmd = byte 'C' then
      match l.right with
      | [] => l
      | c :: right => { l with left := l.left ++ [c], right := right }
    else if cmd = byte 'D' then
      match l.left.getLast? with
      | none => l
      | some c => { l with left := l.left.dropLast, right := c :: l.right }
    else l
  | _ => l

/-- One turn of the loop of `x_tty_receive_buf`: the bytes that are delivered, and the line. -/
def receive (tio : Termios) (c : Byte) (rest : List Byte) : List Byte × Line :=
  if tio.isSignal c then ([], l.clear)
  else if !tio.lflag ICANON then ([c], l)
  else if c == BS || tio.is VERASE c then ([], l.erase)
  else if tio.is VKILL c then ([], l.clear)
  else if tio.is VEOF c then (if l.length = 0 then [c] else [], l)
  else if tio.is VWERASE c then ([], l.werase)
  else if tio.is VDISCARD c then ([], l.clear)
  else if c == CR && tio.iflag IGNCR then ([], l)
  else if c == CR && tio.iflag ICRNL then l.ordinary tio NL
  else if c == NL && tio.iflag INLCR then (l.insert CR).ordinary tio c
  else if c == ESC then ([], l.escape rest)
  else l.ordinary tio c

theorem clear_length : l.clear.length = 0 := rfl

theorem erase_length_le : l.erase.length ≤ l.length := by
  rw [length, length, erase]
  simp only [List.length_dropLast]
  omega

theorem werase_length_le : l.werase.length ≤ l.length := by
  have hle := ((List.rdropWhile_prefix ttyIsprint _).trans
    (List.rdropWhile_prefix (fun c => c == byte ' ' || !ttyIsprint c) l.left)).length_le
  rw [length, length, werase]
  exact Nat.le_trans hle (Nat.le_add_right _ _)

theorem escape_length (rest : List Byte) : (l.escape rest).length = l.length := by
  rcases rest with _ | ⟨seq, _ | ⟨cmd, rest⟩⟩
  · rfl
  · rfl
  rw [escape]
  split
  · rfl
  split
  · cases hright : l.right with
    | nil => rfl
    | cons c right =>
      rw [length, length, hright]
      simp only [List.length_append, List.length_cons, List.length_nil]
      omega
  split
  · rcases List.eq_nil_or_concat l.left with hleft | ⟨left, c, hleft⟩
    · rw [hleft, List.getLast?_nil]
    · rw [List.concat_eq_append] at hleft
      rw [hleft, List.getLast?_concat, List.dropLast_concat, length, length, hleft]
      simp only [List.length_append, List.length_cons, List.length_nil]
      omega
  · rfl

end Line

structure Ldata.Shows (ld : Ldata) (l : Line) : Prop where
  holds : ld.Holds l.left l.right
  flush : ld.flush = l.flush

section Insert

variable {ld : Ldata} {l : Line} {c : Byte}

theorem Ldata.Shows.inpos (h : ld.Shows l) : ld.inpos = l.left.length := h.holds.inpos

theorem Ldata.Shows.inlen (h : ld.Shows l) : ld.inlen = l.length := by
  rw [h.holds.inlen, Line.length, Int.natCast_add]

theorem ttyInsertInput_spec (h : ld.Shows l) (c : Byte)
    (hroom : l.left.length + 3 < XTTYFBMAX.toNat → l.length < XTTYFBMAX) :
    ∃ ld', ttyInsertInput ld c = .ok ld' ∧ ld'.Shows (l.insert c) ∧
      (c ≠ NL → ∀ j, ld'.inlen ≤ j → ld'.inbuf j = ld.inbuf j) := by
  -- the insertion, in front of the test of the flush flag
  have hput : ∃ ld1, (if ld.inpos < XTTYFBMAX - 3 then ld.insert c else .ok ld) = .ok ld1 ∧
      ld1.Holds (l.put c).1 (l.put c).2 ∧ ld1.flush = l.flush ∧
      (c ≠ NL → ∀ j, ld1.inlen ≤ j → ld1.inbuf j = ld.inbuf j) := by
    have hpos := h.inpos
    have hinlen := h.holds.inlen
    rw [Line.put]
    by_cases hspace : l.left.length + 3 < XTTYFBMAX.toNat
    · have hlen : (l.left.length : Int) + l.right.length < XTTYFBMAX := by
        have := hroom hspace
        rw [Line.length] at this
        omega
      rw [if_pos (by omega), if_pos hspace]
      by_cases hc : c = NL
      · subst hc
        rcases h.holds.insertNL hlen with ⟨ld1, hins, hholds, hflush⟩
        exact ⟨ld1, hins, hholds, hflush.trans h.flush, fun hne => absurd rfl hne⟩
      · rcases h.holds.insert hc hlen with ⟨ld1, hins, hholds, hflush, hrest⟩
        have hinlen' := hholds.inlen
        rw [List.length_append, List.length_singleton] at hinlen'
        rw [if_neg hc]
        exact ⟨ld1, hins, hholds, hflush.trans h.flush, fun _ j hj => hrest j (by omega)⟩
    · rw [if_neg (by omega), if_neg hspace]
      exact ⟨ld, rfl, h.holds, h.flush, fun _ _ _ => rfl⟩
  rcases hput with ⟨ld1, hins, hholds, hflush, hrest⟩
  have hpos := hholds.inpos
  have hmax : 0 ≤ XTTYFBMAX := by decide
  rw [ttyInsertInput, hins, ok_bind]
  by_cases hfull : ld1.inpos = XTTYFBMAX - 3
  · have hdec : decide ((l.put c).1.length + 3 = XTTYFBMAX.toNat) = true :=
      decide_eq_true (by omega)
    rw [if_pos hfull, Line.insert, hdec, Bool.or_true]
    exact ⟨_, rfl, ⟨hholds.congr rfl rfl fun _ _ => rfl, rfl⟩, hrest⟩
  · have hdec : decide ((l.put c).1.length + 3 = XTTYFBMAX.toNat) = false :=
      decide_eq_false (by omega)
    rw [if_neg hfull, Line.insert, hdec, Bool.or_false]
    exact ⟨_, rfl, ⟨hholds, hflush⟩, hrest⟩

end Insert

/-! ## The echo -/

/-- One of the three bytes from `n` on is a NUL of the array. -/
def Ldata.echoEnds (ld : Ldata) (n : Int) : Bool :=
  [0, 1, 2].any fun k : Int => n + k < XTTYFBMAX && ld.inbuf (n + k) == 0

theorem Ldata.echoEnds_iff (ld : Ldata) (n : Int) :
    ld.echoEnds n = true ↔ ∃ j, n ≤ j ∧ j ≤ n + 2 ∧ j < XTTYFBMAX ∧ ld.inbuf j = 0 := by
  simp only [echoEnds, List.any_cons, List.any_nil, Bool.or_false, Bool.or_eq_true,
    Bool.and_eq_true, decide_eq_true_eq, beq_iff_eq]
  constructor
  · rintro (⟨hj, hz⟩ | ⟨hj, hz⟩ | ⟨hj, hz⟩)
    · exact ⟨n + 0, by omega, by omega, hj, hz⟩
    · exact ⟨n + 1, by omega, by omega, hj, hz⟩
    · exact ⟨n + 2, by omega, by omega, hj, hz⟩
  · rintro ⟨j, hnj, hj, hmax, hz⟩
    obtain rfl | rfl | rfl : j = n + 0 ∨ j = n + 1 ∨ j = n + 2 := by omega
    · exact .inl ⟨hmax, hz⟩
    · exact .inr (.inl ⟨hmax, hz⟩)
    · exact .inr (.inr ⟨hmax, hz⟩)

section Echo

variable {ld : Ldata} {tp : Tty} {left right : List Byte}

theorem echoEnds_congr {ld' : Ldata} {n : Int} (h : ∀ j, n ≤ j → ld'.inbuf j = ld.inbuf j) :
    ld'.echoEnds n = ld.echoEnds n := by
  rw [Bool.eq_iff_iff, Ldata.echoEnds_iff, Ldata.echoEnds_iff]
  refine exists_congr fun j => and_congr_right fun hj => ?_
  rw [h j hj]

theorem cstring_ok {n : Nat} {i j : Int} (hij : i ≤ j) (hn : j - i < n) (hj : ld.inbuf j = 0) :
    ∃ cs, ld.cstring n i = .ok cs ∧ (cs.length : Int) ≤ j - i := by
  induction n generalizing i with
  | zero => omega
  | succ n ih =>
    rw [Ldata.cstring]
    by_cases hz : ld.inbuf i = 0
    · rw [if_pos hz]
      exact ⟨[], rfl, by simpa using hij⟩
    · have hne : i ≠ j := by
        rintro rfl
        exact hz hj
      rcases ih (i := i + 1) (by omega) (by omega) with ⟨cs, hcs, hlen⟩
      rw [if_neg hz, hcs]
      refine ⟨_, rfl, ?_⟩
      rw [List.length_cons]
      omega

theorem stringAt_ok {i j : Int} (hi : 0 ≤ i) (hij : i ≤ j) (hmax : j < XTTYFBMAX)
    (hj : ld.inbuf j = 0) :
    ∃ cs, ld.stringAt i = .ok cs ∧ (cs.length : Int) ≤ j - i := by
  rw [Ldata.stringAt, Ldata.within_of hi (by decide) (by omega)]
  exact cstring_ok hij (by omega) hj

theorem echoString_ok {size : Int} {text : List Byte} (h : text.length < size) (tp : Tty) :
    echoString size text tp = .ok (tp.write text) := by
  have hfit : 0 + (text.take (2 ^ 64 - 1 - 1)).length <
      (List.replicate size.toNat (none : Option Byte)).length := by
    rw [List.length_take, List.length_replicate]
    omega
  rw [echoString, Printf.snprintf_spec 0 (Nat.zero_le _) (by decide), if_pos hfit]
  rfl

theorem ttyEchoInput_ok (h : tp.tLdata.Holds left right) (c : Byte)
    (hecho : tp.tTermios.lflag ECHO = true → ttyIsprint c = true → right ≠ [] →
      left ≠ [] ∧ tp.tLdata.echoEnds tp.tLdata.inlen = true) :
    ∃ w, ttyEchoInput tp c = .ok { tp with written := w } := by
  rw [ttyEchoInput]
  by_cases hprint : (tp.tTermios.lflag ECHO && ttyIsprint c) = true
  · rw [if_pos hprint]
    rw [Bool.and_eq_true] at hprint
    by_cases hend : tp.tLdata.inpos = tp.tLdata.inlen
    · rw [if_pos hend]
      exact ⟨_, rfl⟩
    · have hpos := h.inpos
      have hlen := h.inlen
      have hright : right ≠ [] := by
        rintro rfl
        exact hend (by simpa [hpos] using hlen.symm)
      rcases hecho hprint.1 hprint.2 hright with ⟨hleft, hends⟩
      have hleft' := List.length_pos_iff.2 hleft
      rcases (tp.tLdata.echoEnds_iff _).1 hends with ⟨j, hj, hj', hmax, hz⟩
      rcases stringAt_ok (i := tp.tLdata.inpos - 1) (by omega) (by omega) hmax hz with
        ⟨s, hs, hslen⟩
      rw [if_neg hend, if_pos (by omega), hs, ok_bind, echoString_ok]
      · exact ⟨_, rfl⟩
      · have hK : (bytes "[K").length = 2 := rfl
        have hS : (bytes "[s").length = 2 := rfl
        have hU : (bytes "[u").length = 2 := rfl
        have hC : (bytes "[1C").length = 3 := rfl
        simp only [List.length_append, List.length_cons, hK, hS, hU, hC]
        omega
  · rw [if_neg hprint]
    by_cases hnl : tp.tTermios.isNL c = true
    · rw [if_pos hnl, Tty.writeIf]
      by_cases hflag : tp.tTermios.lflag ECHONL = true
      · rw [if_pos hflag]
        exact ⟨_, rfl⟩
      · rw [if_neg hflag]
        exact ⟨_, rfl⟩
    · rw [if_neg hnl]
      exact ⟨_, rfl⟩

end Echo

end XTty
end XytherOS
