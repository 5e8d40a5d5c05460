import Mathlib.Data.BitVec
import Mathlib.Data.List.TakeWhile
import XytherOS.Core.Status

/-!
# Scanf — the interpreter of formats in `lib/xytherOs_sscanf.c`

`xytherOs_vsscanf` moves a cursor through the format and one through the input; each turn of its
loop takes the white space before a directive and the directive.  Behind a scan set it steps over
one more character of the format, the numbers do not look at their field width, and white space at
the end of the format takes both cursors over their terminators when nothing else is left of the
input.

* A cursor is what is left of its string, or past the terminator; a read there is a fault.
* `%n` makes no assignment that is counted.  The conversions `%f`, `%e` and `%g` are left out.
-/

namespace XytherOS
namespace Str

abbrev Cursor := Option (List Char)

def deref : Cursor → Except Fault (List Char)
  | some cs => .ok cs
  | none => .error .wildAccess

def bump : List Char → Cursor
  | [] => none
  | _ :: cs => some cs

def isspace (c : Char) : Bool :=
  c == ' ' || c == '\x0b' || c == '\x08' || c == '\x0c' || c == '\t' || c == '\r' || c == '\n'

def isdigit (c : Char) : Bool := '0' ≤ c && c ≤ '9'

inductive Length
  | none
  | short
  | long
  | longLong
  deriving DecidableEq

/-- What is stored through `va_arg`; a number is cut to its length. -/
inductive Store
  | number (length : Length) (val : BitVec 64)
  | chars (cs : List Char)
  | position (n : Nat)

structure Scan where
  p : Cursor
  s : Cursor
  count : Nat
  stores : List Store
  ret : Bool

def digitOf (base : Nat) (c : Char) : Option Nat :=
  let digit :=
    if '0' ≤ c ∧ c ≤ '9' then some (c.toNat - '0'.toNat)
    else if base = 16 then
      if 'a' ≤ c ∧ c ≤ 'f' then some (c.toNat - 'a'.toNat + 10)
      else if 'A' ≤ c ∧ c ≤ 'F' then some (c.toNat - 'A'.toNat + 10)
      else none
    else none
  digit.filter (· < base)

def sign (signed : Bool) (s : List Char) : List Char :=
  if signed then s.takeWhile (fun c => c == '-' || c == '+') |>.take 1 else []

def digits (base : Nat) (s : List Char) : List Char :=
  s.takeWhile fun c => (digitOf base c).isSome

def scanNumber (base : Nat) (signed : Bool) (length : Length) (s : List Char) :
    Option (Store × List Char) :=
  let sgn := sign signed s
  let ds := digits base (s.drop sgn.length)
  if ds = [] then none
  else
    let val := ds.foldl (fun val c => val * BitVec.ofNat 64 base +
      BitVec.ofNat 64 ((digitOf base c).getD 0)) 0
    some (.number length (if sgn = ['-'] then -val else val), s.drop (sgn.length + ds.length))

/-- The loops that take characters, `while (i < width && *s && ...)` where a width is given. -/
def taken (width : Option Nat) (ok : Char → Bool) (s : List Char) : List Char :=
  match width with
  | none => s.takeWhile ok
  | some w => (s.takeWhile ok).take w

def buildSet (prev : Char) (set : Char → Bool) : List Char → (Char → Bool) × List Char
  | [] => (set, [])
  | [c] => if c = ']' then (set, [c]) else (fun x => set x || x == c, [])
  | c :: d :: ds =>
    if c = ']' then (set, c :: d :: ds)
    else if c = '-' ∧ d ≠ ']' then
      buildSet d (fun x => set x || (prev.toNat ≤ x.toNat && x.toNat ≤ d.toNat)) ds
    else buildSet c (fun x => set x || x == c) (d :: ds)

/-- `%[`, with `p` behind the bracket: the set with its negation, and the closing bracket. -/
def parseSet (p : List Char) : (Char → Bool) × List Char :=
  let negate := p.head? == some '^'
  let prev := if negate then '^' else '['
  let p := if negate then p.tail else p
  let lead := p.head? == some ']'
  let set := buildSet (if lead then ']' else prev) (fun x => lead && x == ']')
    (if lead then p.tail else p)
  (fun x => set.1 x != negate, set.2)

def widthOf (ds : List Char) : Nat :=
  (ds.foldl (fun w c => w * 10 + BitVec.ofNat 32 (c.toNat - '0'.toNat)) (0 : BitVec 32)).toInt.toNat

/-- Go on behind `p` with what a conversion has taken, or return. -/
def Scan.advance (f : Scan) (skip : Bool) (p : Cursor) : Option (Store × List Char) → Scan
  | none => { f with ret := true }
  | some (store, s) =>
    if skip then { f with p, s := some s }
    else { f with p, s := some s, count := f.count + 1, stores := f.stores ++ [store] }

def flags (p : List Char) : Bool × Option Nat × Length × List Char :=
  let skip := p.head? == some '*'
  let p := if skip then p.tail else p
  let ds := p.takeWhile isdigit
  let width := if ds = [] then none else some (widthOf ds)
  match p.dropWhile isdigit with
  | 'l' :: 'l' :: p => (skip, width, .longLong, p)
  | 'l' :: p => (skip, width, .long, p)
  | 'h' :: p => (skip, width, .short, p)
  | p => (skip, width, .none, p)

/-- A conversion, with `p` behind the `%`; `str` is the length of the whole input. -/
def Scan.convert (f : Scan) (str : Nat) (p s : List Char) : Scan :=
  let (skip, width, length, p) := flags p
  let spaces := !(p.head? == some 'c' || p.head? == some '[' || p.head? == some 'n')
  let s := if spaces then s.dropWhile isspace else s
  if spaces && s.isEmpty then { f with ret := true }
  else
    match p with
    | 'd' :: p | 'i' :: p => f.advance skip (some p) (scanNumber 10 true length s)
    | 'o' :: p => f.advance skip (some p) (scanNumber 8 true length s)
    | 'x' :: p | 'X' :: p => f.advance skip (some p) (scanNumber 16 true length s)
    | 'u' :: p => f.advance skip (some p) (scanNumber 10 false length s)
    | 'c' :: p =>
      let cs := taken (some (width.getD 1)) (fun _ => true) s
      f.advance skip (some p) (some (.chars cs, s.drop cs.length))
    | 's' :: p =>
      let cs := taken width (fun c => !isspace c) s
      f.advance skip (some p) (some (.chars cs, s.drop cs.length))
    | '[' :: p =>
      let (set, p) := parseSet p
      if p.head? ≠ some ']' then { f with ret := true }
      else
        let s := s.dropWhile isspace
        if s = [] then { f with ret := true }
        else
          let cs := taken width set s
          -- the bracket is skipped here, and one character more behind the switch
          f.advance skip (bump p.tail) (some (.chars cs, s.drop cs.length))
    | 'n' :: p =>
      if skip then { f with p := some p, s := some s }
      else { f with p := some p, s := some s, stores := f.stores ++ [.position (str - s.length)] }
    | '%' :: p => if s.head? = some '%' then { f with p := some p, s := some s.tail }
      else { f with ret := true }
    | _ => { f with ret := true }

/-- One turn of the loop of `xytherOs_vsscanf`; a scan that has returned stays. -/
def Scan.turn (str : Nat) (f : Scan) : Except Fault Scan := do
  if f.ret then return f
  let p ← deref f.p
  if p = [] then return { f with ret := true }
  let s ← deref f.s
  if s = [] then return { f with ret := true }
  let p := p.dropWhile isspace
  if p.head? = some '%' then return f.convert str p.tail s
  else
    let s := s.dropWhile isspace
    if s.head? ≠ p.head? then return { f with ret := true }
    else return { f with p := bump p, s := bump s }

/-! ## Formats -/

inductive Spec
  | d
  | i
  | o
  | x
  | u
  | c
  | s
  | n
  | percent
  | set (negate lead : Bool) (text : List Char)

def Spec.render : Spec → List Char
  | .d => ['d']
  | .i => ['i']
  | .o => ['o']
  | .x => ['x']
  | .u => ['u']
  | .c => ['c']
  | .s => ['s']
  | .n => ['n']
  | .percent => ['%']
  | .set negate lead text =>
    '[' :: (if negate then ['^'] else []) ++ (if lead then [']'] else []) ++ text ++ [']']

def Length.render : Length → List Char
  | .none => []
  | .short => ['h']
  | .long => ['l']
  | .longLong => ['l', 'l']

structure Conversion where
  skip : Bool
  width : List Char
  length : Length
  spec : Spec

def Conversion.render (v : Conversion) : List Char :=
  (if v.skip then ['*'] else []) ++ v.width ++ v.length.render ++ v.spec.render

/-- What a turn should take from the format: white space and a directive, or the white space at the
end of the format. -/
inductive Item
  | literal (spaces : List Char) (c : Char)
  | conversion (spaces : List Char) (v : Conversion)
  | trailing (space : Char) (spaces : List Char)

def Item.render : Item → List Char
  | .literal spaces c => spaces ++ [c]
  | .conversion spaces v => spaces ++ '%' :: v.render
  | .trailing space spaces => space :: spaces

def render (items : List Item) : List Char := items.flatMap Item.render

def Spec.Valid : Spec → Prop
  | .set negate lead text => ']' ∉ text ∧
      (lead = false → text ≠ [] ∧ (negate = false → text.head? ≠ some '^'))
  | _ => True

def Item.Valid : Item → Prop
  | .literal spaces c => spaces.all isspace = true ∧ isspace c = false ∧ c ≠ '%'
  | .conversion spaces v => spaces.all isspace = true ∧ v.width.all isdigit = true ∧ v.spec.Valid
  | .trailing space spaces => (space :: spaces).all isspace = true

def Valid : List Item → Prop
  | [] => True
  | a :: as => a.Valid ∧ Valid as ∧ ∀ space spaces, a = .trailing space spaces → as = []

def fieldWidth (ds : List Char) : Nat := ds.foldl (fun w c => w * 10 + (c.toNat - '0'.toNat)) 0

def Spec.field (t : List Char) : Spec → List Char
  | .c | .n => t
  | _ => t.dropWhile isspace

def assignments (stores : List Store) : Nat :=
  stores.countP fun | .position _ => false | _ => true

/-- A turn that goes on has taken the item `a`, and a conversion with a width no more than that from
its field; at the end of the input it is enough that the next look at the format is one inside. -/
structure Took (a : Item) (q t : List Char) (f' : Scan) : Prop where
  item : (∃ q', q = a.render ++ q' ∧ f'.p = some q') ∨ f'.s = some [] ∧ f'.p ≠ none
  input : f'.s ≠ none
  width : ∀ spaces v, a = .conversion spaces v → v.width ≠ [] →
    ∃ k ≤ fieldWidth v.width, f'.s = some ((v.spec.field t).drop k)

def Took.Right (a : Item) (f : Scan) : Except Fault Scan → Prop
  | .error _ => False
  | .ok f' => f'.count = assignments f'.stores ∧ (f'.ret = false →
      ∃ q t, f.p = some q ∧ f.s = some t ∧ Took a q t f')

def Follows (str : Nat) : Scan → List Item → Prop
  | _, [] => True
  | f, a :: as => Took.Right a f (f.turn str) ∧ ∀ f', f.turn str = .ok f' → Follows str f' as

/-- An integer conversion finds no digit, or takes no more than `w` characters. -/
def NumberFits (base : Nat) (signed : Bool) (w : Nat) (t : List Char) : Prop :=
  let sgn := sign signed t
  let ds := digits base (t.drop sgn.length)
  ds = [] ∨ sgn.length + ds.length ≤ w

/-- An integer conversion with a width takes no more than that from the field, as does `%%`; a scan
set finds the input empty, or takes all that is left of it with some of the format behind itself. -/
def Conversion.Fits (v : Conversion) (t rest : List Char) : Prop :=
  let field := v.spec.field t
  let w := fieldWidth v.width
  match v.spec with
  | .d | .i => v.width = [] ∨ NumberFits 10 true w field
  | .o => v.width = [] ∨ NumberFits 8 true w field
  | .x => v.width = [] ∨ NumberFits 16 true w field
  | .u => v.width = [] ∨ NumberFits 10 false w field
  | .percent => v.width = [] ∨ 0 < w ∨ field.head? ≠ some '%'
  | .c | .s | .n => True
  | .set .. => field = [] ∨ rest ≠ [] ∧
      (v.width = [] ∨ field.length ≤ widthOf v.width) ∧
        ∀ c ∈ field, (parseSet v.spec.render.tail).1 c = true

/-- The condition for a turn: white space at the end of the format must not meet white space at the
end of the input. -/
def Item.Fits (q t : List Char) : Item → Prop
  | .literal .. => True
  | .trailing .. => t.dropWhile isspace ≠ []
  | .conversion spaces v => v.Fits t (q.drop (Item.conversion spaces v).render.length)

section Turn

variable {str : Nat} {f : Scan} {a : Item} {v : Conversion} {spaces rest t : List Char}

theorem right_iff (f' : Scan) {t' : List Char} (hp : f.p = some (a.render ++ rest))
    (hs : f.s = some t) (hcount : f'.count = assignments f'.stores) (hret : f'.ret = false)
    (hs' : f'.s = some t') : Took.Right a f (.ok f') ↔
      (f'.p = some rest ∨ t' = [] ∧ f'.p ≠ none) ∧ ∀ spaces v, a = .conversion spaces v →
        v.width ≠ [] → ∃ k ≤ fieldWidth v.width, t' = (v.spec.field t).drop k := by
  constructor
  · rintro ⟨-, hgo⟩
    rcases hgo hret with ⟨q, u, hq, hu, hitem, -, hwidth⟩
    rw [hp, Option.some.injEq] at hq
    rw [hs, Option.some.injEq] at hu
    subst hq hu
    rw [hs'] at hitem hwidth
    refine ⟨hitem.imp ?_ fun h => ⟨by simpa using h.1, h.2⟩, fun spaces v ha hw => ?_⟩
    · rintro ⟨q', hq', heq⟩
      rw [heq, List.append_cancel_left hq']
    · simpa using hwidth spaces v ha hw
  · rintro ⟨hitem, hwidth⟩
    refine ⟨hcount, fun _ => ⟨_, _, hp, hs, ?_, by simp [hs'], fun spaces v ha hw => ?_⟩⟩
    · rw [hs']
      exact hitem.imp (fun h => ⟨rest, rfl, h⟩) fun h => ⟨by rw [h.1], h.2⟩
    · simpa [hs'] using hwidth spaces v ha hw

end Turn

structure At (f : Scan) (items : List Item) : Prop where
  count : f.count = assignments f.stores
  place : f.ret = true ∨ f.s = some [] ∧ f.p ≠ none ∨
    f.p = some (render items) ∧ ∃ t, f.s = some t

theorem At.next {f f' : Scan} {a : Item} {as : List Item} (hp : f.p = some (render (a :: as)))
    (hright : Took.Right a f (.ok f')) : At f' as := by
  refine ⟨hright.1, ?_⟩
  cases hret : f'.ret with
  | true => exact .inl rfl
  | false =>
    rcases hright.2 hret with ⟨q, t, hq, -, htook⟩
    rw [hp, Option.some.injEq] at hq
    rcases htook.item with ⟨q', hq', heq⟩ | hend
    · have hrest : q' = render as := by
        rw [← hq] at hq'
        exact (List.append_cancel_left hq').symm
      rw [hrest] at heq
      cases hs' : f'.s with
      | none => exact absurd hs' htook.input
      | some t' => exact .inr (.inr ⟨heq, t', rfl⟩)
    · exact .inr (.inl hend)

end Str
end XytherOS
