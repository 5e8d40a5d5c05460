import Mathlib.Data.Finset.Lattice.Basic
import Mathlib.Order.Bounds.Defs
import Mathlib.Order.Interval.Finset.Nat
import XytherOS.Core.Status
import XytherOS.Lib.WordBits

/-!
# BitmapWords — the words of the bitmaps of `ds/bitmap.c`

`bm_map` is an array of 64-bit words.  Some functions of the bitmap work on single bits, others on
whole words; they agree because no operation leaves a bit behind `bm_size` set in the last word.  The
bitmap is then a set of positions below its size, and every call is a call on that set.

* A `usize` is a natural number below `2 ^ 64`; sums that may overflow are reduced.
* The bitmap lock is left out.  What `krealloc` returns is a part of the call.
-/

namespace XytherOS
namespace Ds

open WordBits

abbrev Word := BitVec 64

structure BitmapWords where
  bmSize : Nat
  bmMap : Nat → Word

namespace BitmapWords

def numUnits (size : Nat) : Nat := (size + 63) % 2 ^ 64 / 64

def excessBits (size : Nat) : Nat := (numUnits size * 64 + 2 ^ 64 - size) % 2 ^ 64

def store (m : Nat → Word) (lo hi : Nat) (v : Word) : Nat → Word :=
  fun i => if lo ≤ i ∧ i < hi then v else m i

def trim (size : Nat) (m : Nat → Word) : Nat → Word :=
  if 0 < excessBits size then
    Function.update m (numUnits size - 1)
      (m (numUnits size - 1) &&& (~~~0#64) >>> excessBits size)
  else m

/-- The bits `pos + i` of the loops `for (i = 0; i < nbits; ++i)`. -/
def range (pos nbits : Nat) : List Nat := (List.range nbits).map fun i => (pos + i) % 2 ^ 64

def isSet (m : Nat → Word) (k : Nat) : Bool := m (k / 64) &&& mask 64 k != 0#64

def bitmapInit (size : Nat) (mem : Nat → Word) : Except Errno BitmapWords :=
  if size = 0 then .error .EINVAL
  else .ok { bmSize := size, bmMap := store mem 0 (numUnits size) 0 }

def bitmapSet (b : BitmapWords) (pos nbits : Nat) : Ret × BitmapWords :=
  if b.bmSize < (pos + nbits) % 2 ^ 64 then (.err .EINVAL, b)
  else if (range pos nbits).any (isSet b.bmMap) then (.err .EALREADY, b)
  else (.ok, { b with bmMap := modifyAll (fun x y => x ||| y) (range pos nbits) b.bmMap })

def bitmapUnset (b : BitmapWords) (pos nbits : Nat) : Ret × BitmapWords :=
  if b.bmSize < (pos + nbits) % 2 ^ 64 then (.err .EINVAL, b)
  else if (range pos nbits).any fun k => !isSet b.bmMap k then (.err .EALREADY, b)
  else (.ok, { b with bmMap := modifyAll (fun x y => x &&& ~~~y) (range pos nbits) b.bmMap })

def bitmapTest (b : BitmapWords) (pos nbits : Nat) : Except Errno Bool :=
  if b.bmSize < (pos + nbits) % 2 ^ 64 then .error .EINVAL
  else .ok !(range pos nbits).any fun k => !isSet b.bmMap k

def bitmapAllocRange (b : BitmapWords) (nbits : Nat) : Except Errno Nat × BitmapWords :=
  if nbits = 0 ∨ b.bmSize < nbits then (.error .EINVAL, b)
  else
    match (List.range (b.bmSize - nbits + 1)).find? fun i =>
        !(range i nbits).any (isSet b.bmMap) with
    | some i =>
      (.ok i, { b with bmMap := modifyAll (fun x y => x ||| y) (range i nbits) b.bmMap })
    | none => (.error .ENOSPC, b)

def bitmapClearAll (b : BitmapWords) : BitmapWords :=
  { b with bmMap := store b.bmMap 0 (numUnits b.bmSize) 0 }

def bitmapSetAll (b : BitmapWords) : BitmapWords :=
  { b with bmMap := trim b.bmSize (store b.bmMap 0 (numUnits b.bmSize) (~~~0)) }

/-- The inner loop of `bitmap_find_first_unset` in the word `i`, from `bit` on. -/
def unsetInWord (b : BitmapWords) (i : Nat) : Nat → Nat → Option Nat
  | 0, _ => none
  | n + 1, bit =>
    if b.bmSize ≤ i * 64 + bit then none
    else if !isSet b.bmMap (i * 64 + bit) then some (i * 64 + bit)
    else b.unsetInWord i n (bit + 1)

def firstUnset (b : BitmapWords) : Nat → Nat → Option Nat
  | 0, _ => none
  | n + 1, i =>
    match if b.bmMap i ≠ ~~~0 then b.unsetInWord i 64 0 else none with
    | some k => some k
    | none => b.firstUnset n (i + 1)

def bitmapFindFirstUnset (b : BitmapWords) : Except Errno Nat :=
  match b.firstUnset (numUnits b.bmSize) 0 with
  | some k => .ok k
  | none => .error .ENOENT

/-- The loop `while (val)` of `bitmap_count_set`; a word is zero after 64 turns. -/
def countWord : Nat → Word → Nat → Nat
  | 0, _, count => count
  | n + 1, val, count =>
    if val = 0 then count else countWord n (val >>> 1) (count + (val &&& 1).toNat)

def bitmapCountSet (b : BitmapWords) : Nat :=
  (List.range (numUnits b.bmSize)).foldl (fun count i => countWord 64 (b.bmMap i) count) 0

/-- The words behind `krealloc`: as many of the old ones as there is room for, and otherwise what the
memory holds. -/
def krealloc (m : Nat → Word) (old new : Nat) (mem : Nat → Word) : Nat → Word :=
  fun i => if i < old ∧ i < new then m i else mem i

def bitmapResize (b : BitmapWords) (newSize : Nat) (mem : Option (Nat → Word)) :
    Ret × BitmapWords :=
  match mem with
  | none => (.err .ENOMEM, b)
  | some mem =>
    let old := numUnits b.bmSize
    let new := numUnits newSize
    (.ok, {
      bmSize := newSize
      bmMap := trim newSize (store (krealloc b.bmMap old new mem) old new 0) })

def bitmapToggle (b : BitmapWords) (pos nbits : Nat) : Ret × BitmapWords :=
  if b.bmSize < (pos + nbits) % 2 ^ 64 then (.err .EINVAL, b)
  else (.ok, { b with bmMap := modifyAll (fun x y => x ^^^ y) (range pos nbits) b.bmMap })

inductive Call
  | set (pos nbits : Nat)
  | unset (pos nbits : Nat)
  | toggle (pos nbits : Nat)
  | allocRange (nbits : Nat)
  | setAll
  | clearAll
  | resize (newSize : Nat) (mem : Option (Nat → Word))

inductive Reply
  | code (ret : Ret)
  | pos (found : Except Errno Nat)

def call (b : BitmapWords) : Call → Reply × BitmapWords
  | .set pos nbits => let (ret, b) := b.bitmapSet pos nbits; (.code ret, b)
  | .unset pos nbits => let (ret, b) := b.bitmapUnset pos nbits; (.code ret, b)
  | .toggle pos nbits => let (ret, b) := b.bitmapToggle pos nbits; (.code ret, b)
  | .allocRange nbits => let (found, b) := b.bitmapAllocRange nbits; (.pos found, b)
  | .setAll => (.code .ok, b.bitmapSetAll)
  | .clearAll => (.code .ok, b.bitmapClearAll)
  | .resize newSize mem => let (ret, b) := b.bitmapResize newSize mem; (.code ret, b)

def ValidSize (size : Nat) : Prop := 1 ≤ size ∧ size ≤ 2 ^ 64 - 64

def Call.Valid : Call → Prop
  | .set pos nbits | .unset pos nbits | .toggle pos nbits => pos + nbits ≤ 2 ^ 64 - 1
  | .resize newSize _ => ValidSize newSize
  | .allocRange _ | .setAll | .clearAll => True

end BitmapWords

/-! ## Sets of positions -/

structure Positions where
  size : Nat
  elems : Finset Nat

namespace Positions

open Finset (Ico)

/-- The positions from `pos` on where there is a run of `nbits` free ones. -/
def FreeRun (s : Positions) (nbits : Nat) : Set Nat :=
  {i | i + nbits ≤ s.size ∧ Disjoint (Ico i (i + nbits)) s.elems}

def Absent (s : Positions) : Set Nat := {i | i < s.size ∧ i ∉ s.elems}

/-- The set `s'` behind a call on `s` that is answered by the reply. -/
def Served (s : Positions) (reply : BitmapWords.Reply) (s' : Positions) : BitmapWords.Call → Prop
  | .set pos nbits =>
    if s.size < pos + nbits then reply = .code (.err .EINVAL) ∧ s' = s
    else if Disjoint (Ico pos (pos + nbits)) s.elems then
      reply = .code .ok ∧ s' = { s with elems := s.elems ∪ Ico pos (pos + nbits) }
    else reply = .code (.err .EALREADY) ∧ s' = s
  | .unset pos nbits =>
    if s.size < pos + nbits then reply = .code (.err .EINVAL) ∧ s' = s
    else if Ico pos (pos + nbits) ⊆ s.elems then
      reply = .code .ok ∧ s' = { s with elems := s.elems \ Ico pos (pos + nbits) }
    else reply = .code (.err .EALREADY) ∧ s' = s
  | .toggle pos nbits =>
    if s.size < pos + nbits then reply = .code (.err .EINVAL) ∧ s' = s
    else reply = .code .ok ∧ s' = { s with elems := symmDiff s.elems (Ico pos (pos + nbits)) }
  | .allocRange nbits =>
    if nbits = 0 ∨ s.size < nbits then reply = .pos (.error .EINVAL) ∧ s' = s
    else (∃ i, IsLeast (s.FreeRun nbits) i ∧ reply = .pos (.ok i) ∧
        s' = { s with elems := s.elems ∪ Ico i (i + nbits) }) ∨
      s.FreeRun nbits = ∅ ∧ reply = .pos (.error .ENOSPC) ∧ s' = s
  | .setAll => reply = .code .ok ∧ s' = { s with elems := Finset.range s.size }
  | .clearAll => reply = .code .ok ∧ s' = { s with elems := ∅ }
  | .resize _ none => reply = .code (.err .ENOMEM) ∧ s' = s
  | .resize newSize (some _) =>
    reply = .code .ok ∧ s' = { size := newSize, elems := s.elems.filter (· < newSize) }

end Positions

end Ds
end XytherOS
