import Mathlib.Data.Finset.Basic
import XytherOS.Fs.Path
import XytherOS.Lib.Ends

/-!
# PathOwnership — who frees the tokens of a path

`tokenize` puts all tokens into one block, which the first token owns; `vfspath_parse` and
`path_get_lasttoken` free tokens one by one as if each were a block of its own.  The heap is the set
of the blocks that are live, and a pointer is a block with an offset: a `kfree` of anything but the
start of a live block, and a look at a token of a block that is not live, are faults.

Blocks are numbered in the order of the requests, which may be granted or not.
-/

namespace XytherOS
namespace Fs
namespace Owned

/-! ## The heap -/

structure Heap where
  grants : Nat → Bool
  asked : Nat
  live : Finset Nat

abbrev HeapM := StateT Heap (Except Fault)

def kmalloc : HeapM (Option Nat) := fun h =>
  if h.grants h.asked then
    .ok (some h.asked, { h with asked := h.asked + 1, live := insert h.asked h.live })
  else .ok (none, { h with asked := h.asked + 1 })

/-- `kfree` of the block `block`, or of what lies `off` tokens behind its start. -/
def kfreeAt (block off : Nat) : HeapM Unit := fun h =>
  if off = 0 ∧ block ∈ h.live then .ok ((), { h with live := h.live.erase block })
  else .error .wildAccess

def kfree : Option Nat → HeapM Unit
  | none => pure ()
  | some block => kfreeAt block 0

def krealloc (absolute : Option Nat) : HeapM (Option Nat) := do
  let some tmp ← kmalloc | return none
  kfree absolute
  return some tmp

def look (block : Nat) : HeapM Unit := fun h =>
  if block ∈ h.live then .ok ((), h) else .error .wildAccess

/-! ## The tokens -/

/-- An array of tokens up to its null pointer, and the block that they lie in. -/
structure Tokens where
  array : Nat
  buf : Nat
  entries : List Token

def tokensFree (tokens : Tokens) : HeapM Unit := do
  match tokens.entries with
  | [] => kfree none
  | token :: _ => kfreeAt tokens.buf token.num
  kfree (some tokens.array)

def canonicalizePath (path : Name) : HeapM (Except Errno Tokens) := do
  let some buf ← kmalloc | return .error .ENOMEM
  let some array ← kmalloc | do
    kfree (some buf)
    return .error .ENOMEM
  return .ok { array, buf, entries := Fs.canonicalizePath path }

/-- The loop over the canonical tokens, in `vfspath_parse` and in `path_get_lasttoken`. -/
def resolve (buf : Nat) : List Token → Parsing → HeapM Parsing
  | [], s => return s
  | token :: ts, s => do
    look buf
    if token.text = ['.'] then
      kfreeAt buf token.num
      resolve buf ts s
    else if token.text = ['.', '.'] then
      kfreeAt buf token.num
      resolve buf ts { s with index := s.index - 1 }
    else resolve buf ts (s.store token)

def strdup : HeapM (Except Errno Nat) := do return (← kmalloc).elim (.error .ENOMEM) .ok

def lasttoken (canonical : Tokens) (pathname : Name) : HeapM (Except Errno Nat) := do
  let some array ← kmalloc | do
    tokensFree canonical
    return .error .ENOMEM
  let s ← resolve canonical.buf canonical.entries ⟨[], 0, none, false⟩
  let last ← match canonical.entries.getLast? with
    | some _ => do
      look canonical.buf
      strdup
    | none => if pathname = ['/'] then strdup else pure (.error .EINVAL)
  kfree (some canonical.array)
  tokensFree { array, buf := canonical.buf, entries := s.tokenized }
  return last

/-- The loop of `vfspath_parse` that concatenates the tokens. -/
def concat (buf : Nat) : List Token → Option Nat → HeapM (Ret × Option Nat)
  | [], absolute => return (.ok, absolute)
  | token :: ts, absolute => do
    look buf
    if token.text.length > 255 then return (.err .ENAMETOOLONG, absolute)
    let some tmp ← krealloc absolute | return (.err .ENOMEM, absolute)
    concat buf ts (some tmp)

structure Vfspath where
  self : Nat
  absolute : Option Nat
  tokenized : Option Tokens

structure Locals where
  tmppath : Nat
  canonical : Tokens
  tokenized : Tokens
  absolute : Option Nat

def error1 (l : Locals) (err : Errno) : HeapM (Except Errno Vfspath) := do
  kfree (some l.tmppath)
  tokensFree l.tokenized
  kfree (some l.canonical.array)
  kfree l.absolute
  return .error err

def error (tmppath : Nat) (canonical : Option Tokens) (err : Errno) :
    HeapM (Except Errno Vfspath) := do
  kfree (some tmppath)
  match canonical with
  | none => pure ()
  | some canonical => tokensFree canonical
  return .error err

def finish (l : Locals) (notokenized : Bool) : HeapM (Except Errno Vfspath) := do
  let some self ← kmalloc | error1 l .ENOMEM
  if notokenized then tokensFree l.tokenized
  kfree (some l.tmppath)
  kfree (some l.canonical.array)
  return .ok
    { self, absolute := l.absolute, tokenized := if notokenized then none else some l.tokenized }

def NOABS (flags : BitVec 32) : Bool := flags.getLsbD 0

def NOTOKENIZED (flags : BitVec 32) : Bool := flags.getLsbD 1

def VERIFYONLY (flags : BitVec 32) : Bool := flags.getLsbD 2

/-- `vfspath_parse` behind the loop over the canonical tokens. -/
def build (l : Locals) (flags : BitVec 32) : HeapM (Except Errno Vfspath) := do
  if NOABS flags then finish l (NOTOKENIZED flags)
  else
    match ← concat l.tokenized.buf l.tokenized.entries l.absolute with
    | (.err err, absolute) => error1 { l with absolute } err
    | (.ok, some absolute) => finish { l with absolute := some absolute } (NOTOKENIZED flags)
    | (.ok, none) => do
      let some absolute ← kmalloc | error1 { l with absolute := none } .ENOMEM
      finish { l with absolute := some absolute } (NOTOKENIZED flags)

def parseTokens (tmppath : Nat) (canonical : Tokens) (flags : BitVec 32) :
    HeapM (Except Errno Vfspath) := do
  let some array ← kmalloc | error tmppath (some canonical) .ENOMEM
  let s ← resolve canonical.buf canonical.entries ⟨[], 0, canonical.entries.getLast?, false⟩
  let tokenized : Tokens := { array, buf := canonical.buf, entries := s.tokenized }
  build { tmppath, canonical, tokenized, absolute := none } flags

def vfspathParse (pathname : Name) (flags : BitVec 32) (rp : Bool) :
    HeapM (Option (Except Errno Vfspath)) := do
  if pathname = [] then return some (.error .ENOTNAM)
  if let .err err := verifyPath pathname then return some (.error err)
  if VERIFYONLY flags then return none
  if !rp then return some (.error .EINVAL)
  let some tmppath ← kmalloc | return some (.error .ENOMEM)
  match ← canonicalizePath pathname with
  | .error err => return some (← error tmppath none err)
  | .ok canonical => return some (← parseTokens tmppath canonical flags)

section XytherOS.Ends

variable {h : Heap} {block off : Nat}

end XytherOS.Ends

/-! ## Ownership -/

section Loops

variable {h : Heap} {buf : Nat} {ts : List Token}

structure Holding (base : Finset Nat) (absolute : Option Nat) (h : Heap) : Prop where
  live : h.live = absolute.elim base (insert · base)
  fresh : ∀ b ∈ h.live, b < h.asked
  apart : ∀ b ∈ absolute, b ∉ base

theorem Holding.kmalloc {base : Finset Nat} (hh : Holding base none h) :
    Holding base (some h.asked) { h with asked := h.asked + 1, live := insert h.asked h.live } := by
  have hlive : h.live = base := hh.live
  refine ⟨by simp [hlive], ?_, ?_⟩
  · intro b hb
    rcases Finset.mem_insert.1 hb with rfl | hb
    · exact Nat.lt_succ_self _
    · exact Nat.lt_succ_of_lt (hh.fresh b hb)
  · intro b hb hbase
    have hlt := hh.fresh b (hlive ▸ hbase)
    rw [Option.mem_some_iff] at hb
    omega

end Loops

section Labels

variable {h : Heap} {base : Finset Nat} {l : Locals}

end Labels

section Calls

variable {grants : Nat → Bool} {pathname : Name} {flags : BitVec 32} {rp ltok : Bool}

end Calls

end Owned
end Fs
end XytherOS
