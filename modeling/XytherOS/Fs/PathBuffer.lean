import XytherOS.Core.Printf
import XytherOS.Fs.PathNormal

/-!
# PathBuffer — the string `absolute` of `vfspath_parse`, byte by byte

The string grows by a `krealloc` and an `snprintf` for each token of the array.  `pathlen`, the size
asked for, and `index`, the place to write at, are counted apart from each other: every token but
the last leaves one byte to spare, and the last one takes it for its NUL.

All callers pass no flags, and memory is found for everything.
-/

namespace XytherOS
namespace Fs

open Printf (overwrite)

/-- The locals of the concatenation: the block `absolute`, which is empty for the null pointer,
`pathlen` and `index`. -/
structure Absolute where
  block : List (Option Char)
  pathlen : Nat
  index : Nat
  deriving DecidableEq, Repr

variable {isdir : Bool} {lasttoken : Option Token} {s : Absolute} {token : Token} {str : Name}

/-- The bytes below `index` are those of the string, and `pathlen` is the size of the block. -/
structure Absolute.Holds (str : Name) (s : Absolute) : Prop where
  size : s.block.length = s.pathlen
  index_eq : s.index = str.length
  index_le : s.index ≤ s.pathlen
  text : s.block.take str.length = str.map some

structure Absolute.Written (str : Name) (s : Absolute) : Prop extends s.Holds str where
  room : s.index < s.pathlen
  terminated : s.block.take (str.length + 1) = (str ++ ['\x00']).map some

theorem Absolute.Holds.start : Absolute.Holds [] ⟨[], 0, 0⟩ := ⟨rfl, rfl, Nat.le_refl 0, rfl⟩

def grown (isdir : Bool) (lasttoken : Option Token) (pathlen : Nat) (token : Token) : Nat :=
  pathlen + token.text.length +
    (if some token = lasttoken then (if isdir then 1 else 0) else 2)

variable {ts : List Token}

def missing (isdir : Bool) : Name := if isdir then [] else ['/']

end Fs
end XytherOS
