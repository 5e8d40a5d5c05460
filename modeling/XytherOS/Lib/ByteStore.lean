import Mathlib.Algebra.Notation.Defs
import Mathlib.Order.Lattice
import Mathlib.Tactic.SplitIfs

/-!
# ByteStore — arrays of bytes that grow

A byte store has a size, and a byte at every offset, which is zero from the size on.  A write behind
the end leaves zeros in between.
-/

namespace XytherOS

@[ext] structure ByteStore (α : Type) [Zero α] where
  size : Nat
  byte : Nat → α
  beyond : ∀ n, size ≤ n → byte n = 0

namespace ByteStore

variable {α : Type} [Zero α] {s s' : ByteStore α} {off n : Nat} {buf : Nat → α}

def empty : ByteStore α := ⟨0, fun _ => 0, fun _ _ => rfl⟩

/-- Put `n` bytes of `buf` at the offset `off`. -/
def write (s : ByteStore α) (off n : Nat) (buf : Nat → α) : ByteStore α where
  size := max s.size (off + n)
  byte i := if off ≤ i ∧ i < off + n then buf (i - off) else s.byte i
  beyond i hi := by
    rw [if_neg (by omega)]
    exact s.beyond i (by omega)

/-- The bytes from the offset `off` on, at most `n` of them. -/
def read (s : ByteStore α) (off n : Nat) : List α :=
  (List.range (min (off + n) s.size - off)).map fun i => s.byte (off + i)

/-- At the end there is nothing to read. -/
theorem read_beyond (h : s.size ≤ off) : s.read off n = [] := by
  have hzero : min (off + n) s.size - off = 0 := by omega
  rw [read, hzero]
  rfl

@[simp] theorem read_length (s : ByteStore α) (off n : Nat) :
    (s.read off n).length = min (off + n) s.size - off := by
  simp [read]

/-- What is known of a write byte by byte makes it the write of the store. -/
theorem eq_write (hsize : s'.size = max s.size (off + n))
    (hin : ∀ i, i < n → s'.byte (off + i) = buf i)
    (hout : ∀ i, i < off ∨ off + n ≤ i → s'.byte i = s.byte i) : s' = s.write off n buf := by
  ext i
  · exact hsize
  · simp only [write]
    split_ifs with h
    · have hi := hin (i - off) (by omega)
      rwa [Nat.add_sub_cancel' h.1] at hi
    · exact hout i (by omega)

end ByteStore
end XytherOS
