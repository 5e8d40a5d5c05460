import XytherOS.Fs.Path
import Mathlib.Data.List.GetD
import Mathlib.Data.List.TakeWhile
import Mathlib.Logic.Function.Basic

/-!
# PathString — `dretrieve_path` of `fs/dentry.c` and `vfspath_untokenize` of `fs/vfs_path.c`

Three loops put a path string together from an array of names, with the same body.  They keep the
length of the string and the place for the next name in static variables.  Two of them run
backwards through the array, with `foreach_reverse`, which stops at a null pointer.

Memory is found for everything.  What it holds is `junk`, and `below` says whether the word before
an array of names is the null pointer.
-/

namespace XytherOS
namespace Fs

open Function

structure Carry where
  len : Nat
  off : Nat
  deriving DecidableEq, Repr

def Carry.fresh : Carry := ⟨1, 1⟩

/-- An access to an entry of an array of names, or to a byte of the string, with the number of the
allocated ones. -/
inductive Access
  | token (i : Int) (n : Nat)
  | path (i n : Nat)

def Access.Inside : Access → Prop
  | .token i n => 0 ≤ i ∧ i < n
  | .path i n => i < n

/-- The locals of a loop: the string and its allocated bytes, the number of names that are left,
the static variables, `*plen`, and the accesses so far. -/
structure Joining where
  path : Nat → Char
  size : Nat
  nt : Nat
  carry : Carry
  plen : Nat
  log : List Access

namespace Joining

def put (s : Joining) (i : Nat) (ch : Char) : Joining :=
  { s with path := update s.path i ch, log := s.log ++ [.path i s.size] }

def krealloc (s : Joining) (junk : Nat → Char) (size : Nat) : Joining :=
  { s with path := fun i => if i < s.size then s.path i else junk i, size := size }

def strncpy (s : Joining) (off : Nat) : Name → Joining
  | [] => s
  | ch :: token => (s.put off ch).strncpy (off + 1) token

/-- The body of the loops.  `endsRoot`: `vfspath_untokenize` ends the string at a root that is the
last name. -/
def turn (junk : Nat → Char) (endsRoot : Bool) (s : Joining) (token : Name) : Joining :=
  if token = ['/'] then
    let s := { s with nt := s.nt - 1 }
    if endsRoot && s.nt == 0 then s.put (s.carry.len - 1) '\x00' else s
  else
    let len := s.carry.len + token.length + (if 1 < s.nt then 1 else 0)
    let s := (s.krealloc junk (len + 1)).strncpy s.carry.off token
    let off := s.carry.off + token.length
    let s := { s with nt := s.nt - 1, plen := len }
    if s.nt ≠ 0 then { s.put (len - 1) '/' with carry := ⟨len, off + 1⟩ }
    else { s.put len '\x00' with carry := ⟨len, off⟩ }

def start (junk : Nat → Char) (nt : Nat) (carry : Carry) (log : List Access) : Joining :=
  { path := update (update junk 0 '/') 1 '\x00'
    size := 2, nt := nt, carry := carry, plen := 1
    log := log ++ [.path 0 2, .path 1 2] }

def reads (s : Joining) (i : Int) (n : Nat) : Joining :=
  { s with log := s.log ++ [.token i n] }

/-- `foreach(token, tokens)` over an array of `n` entries, from entry `i` on. -/
def forward (junk : Nat → Char) (n : Nat) (i : Nat) : List Name → Joining → Joining
  | [], s => s.reads i n
  | token :: ts, s => forward junk n (i + 1) ts ((s.reads i n).turn junk true token)

/-- `foreach_reverse(token, &tokens[i])`: the names are those of the entries `i`, `i - 1`, ..., 0,
and the next entry is read, too. -/
def backward (junk : Nat → Char) (endsRoot : Bool) (n : Nat) : List Name → Joining → Joining
  | [], s => s.reads (-1) n
  | token :: ts, s => backward junk endsRoot n ts ((s.reads ts.length n).turn junk endsRoot token)

end Joining

def cstring (path : Nat → Char) (size : Nat) : Name :=
  ((List.range size).map path).takeWhile (· != '\x00')

structure Retrieved where
  ret : Name
  rlen : Nat
  log : List Access

/-- The accesses of `dretrieve_path` while it fills the array: an entry, and the null pointer behind
it. -/
def collecting (n : Nat) : List Access :=
  (List.range n).flatMap fun i => [.token (i : Nat) (i + 2), .token (i + 1 : Nat) (i + 2)]

/-- `dretrieve_path` of a chain of dentries, from the node up to the root, with the static
variables. -/
def dretrievePath (junk : Nat → Char) (below : Bool) (carry : Carry) (chain : List Name) :
    Except Fault (Retrieved × Carry) := do
  let n := chain.length
  let s := (Joining.start junk n carry (collecting n)).backward junk false (n + 1) chain.reverse
  -- what stands before the array is taken for a name
  if !below then throw .wildAccess
  return (⟨cstring s.path s.size, s.plen, s.log⟩, s.carry)

/-- `vfspath_untokenize` of `nt` names with the null pointer behind them: without the flag
`PATH_REVERSED`, and with it. -/
def vfspathUntokenize (junk : Nat → Char) (below reversed : Bool) (carry : Carry)
    (tokens : List Name) : Except Fault (Retrieved × Carry) := do
  let n := tokens.length
  let s := Joining.start junk n carry []
  let s := if reversed then s.backward junk true (n + 1) tokens.reverse
    else s.forward junk (n + 1) 0 tokens
  if reversed && !below then throw .wildAccess
  return (⟨cstring s.path s.size, s.plen, s.log⟩, s.carry)

/-! ## Histories -/

structure Statics where
  retrieve : Carry
  reversed : Carry
  forward : Carry

def Statics.fresh : Statics := ⟨.fresh, .fresh, .fresh⟩

/-! ## What the strings should be -/

def joined : List Name → Name
  | [] => []
  | [name] => name
  | name :: names => name ++ '/' :: joined names

def pathString (names : List Name) : Name := '/' :: joined names

/-- The names of the dentries from a node up to the root, for the names from the root down. -/
def chainOf (names : List Name) : List Name := names.reverse ++ [['/']]

/-- With these static variables, and the null pointer before every array: the call on a chain
returns its path and the length of it, with all accesses inside, and a second call returns the same
string; and `vfspath_untokenize` returns what it returns first of all. -/
def Reconstructs (s : Statics) (names : List Name) : Prop :=
  ∀ junk junk',
    (∃ r carry r' carry', dretrievePath junk true s.retrieve (chainOf names) = .ok (r, carry) ∧
      dretrievePath junk' true carry (chainOf names) = .ok (r', carry') ∧
      r.ret = pathString names ∧ r.rlen = r.ret.length ∧ r'.ret = r.ret ∧
      ∀ a ∈ r.log, a.Inside) ∧
    ∀ reversed tokens, (vfspathUntokenize junk true reversed
        (if reversed then s.reversed else s.forward) tokens).map (fun x => x.1.ret) =
      (vfspathUntokenize junk' true reversed .fresh tokens).map fun x => x.1.ret

/-! ## Accesses -/

theorem Joining.backward_reads_before (junk : Nat → Char) (endsRoot : Bool) (n : Nat)
    (tokens : List Name) (s : Joining) :
    Access.token (-1) n ∈ (s.backward junk endsRoot n tokens).log := by
  induction tokens generalizing s with
  | nil => simp [Joining.backward, Joining.reads]
  | cons token ts ih =>
    rw [Joining.backward]
    exact ih _

/-- The loop reads the word before the array, whatever the history and the chain. -/
theorem dretrieve_path_never (s : Statics) (names : List Name) : ¬ Reconstructs s names := by
  intro h
  rcases (h (fun _ => '\x00') fun _ => '\x00').1 with ⟨r, carry, r', carry', hcall, -, -, -, -, hin⟩
  have hlog : Access.token (-1) ((chainOf names).length + 1) ∈ r.log := by
    rw [dretrievePath] at hcall
    cases hcall
    exact Joining.backward_reads_before _ _ _ _ _
  exact absurd (hin _ hlog).1 (by decide)

/-- The second call on a chain returns the string of the root. -/
theorem second_call_differs :
    (dretrievePath (fun _ => 'x') true .fresh (chainOf [['a']])).toOption.map
        (fun x => x.1.ret) = some ['/', 'a'] ∧
      (dretrievePath (fun _ => 'x') true .fresh (chainOf [['a']]) >>= fun x =>
        dretrievePath (fun _ => 'x') true x.2 (chainOf [['a']])).toOption.map
          (fun x => x.1.ret) = some ['/'] ∧
      ¬ Reconstructs .fresh [['a']] := by
  have hfirst : (dretrievePath (fun _ => 'x') true .fresh (chainOf [['a']])).toOption.map
      (fun x => x.1.ret) = some ['/', 'a'] := by decide +kernel
  have hsecond : (dretrievePath (fun _ => 'x') true .fresh (chainOf [['a']]) >>= fun x =>
      dretrievePath (fun _ => 'x') true x.2 (chainOf [['a']])).toOption.map
        (fun x => x.1.ret) = some ['/'] := by decide +kernel
  refine ⟨hfirst, hsecond, ?_⟩
  intro h
  rcases (h (fun _ => 'x') fun _ => 'x').1 with ⟨r, carry, r', carry', hcall, hcall', -, -, hsame, -⟩
  change dretrievePath (fun _ => 'x') true .fresh (chainOf [['a']]) = .ok (r, carry) at hcall
  rw [hcall] at hfirst
  rw [hcall, ok_bind, hcall'] at hsecond
  have hret : r.ret = ['/', 'a'] := by simpa [Except.toOption] using hfirst
  have hret' : r'.ret = ['/'] := by simpa [Except.toOption] using hsecond
  rw [hret, hret'] at hsame
  exact absurd hsame (by decide)

end Fs
end XytherOS
