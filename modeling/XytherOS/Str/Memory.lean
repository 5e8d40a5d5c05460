import Mathlib.Data.BitVec
import Mathlib.Tactic.SplitIfs

/-!
# Memory — the block memory functions of `lib/xyther_strings.c`

The writing functions share a loop: single elements up to an aligned address, blocks of sixteen
bytes, and single elements again.  An element or a block at the index `i` is a step of the memory.
The searching functions look at blocks of sixteen bytes, and then at single ones.
-/

namespace XytherOS
namespace Str

abbrev Byte := BitVec 8

abbrev Mem := Nat → Byte

section Loops

variable (aligned : Nat → Bool) (width : Nat) (unit block : Nat → Mem → Mem)

def prologue : Nat → Nat → Mem → Nat × Nat × Mem
  | i, 0, m => (i, 0, m)
  | i, count + 1, m =>
    if aligned i then (i, count + 1, m) else prologue (i + 1) count (unit i m)

/-- `while (count >= 16)`, for blocks of `width + 1` elements. -/
def blocks (i count : Nat) (m : Mem) : Nat × Nat × Mem :=
  if width + 1 ≤ count then blocks (i + (width + 1)) (count - (width + 1)) (block i m)
  else (i, count, m)
termination_by count

def epilogue : Nat → Nat → Mem → Mem
  | _, 0, m => m
  | i, count + 1, m => epilogue (i + 1) count (unit i m)

def sseLoop (count : Nat) (m : Mem) : Mem :=
  let (i, count, m) := prologue aligned unit 0 count m
  let (i, count, m) := blocks width block i count m
  epilogue unit i count m

variable {width unit block}

theorem sseLoop_spec (I : Nat → Mem → Prop) {n : Nat}
    (hunit : ∀ i m, i < n → I i m → I (i + 1) (unit i m))
    (hblock : ∀ i m, i + (width + 1) ≤ n → I i m → I (i + (width + 1)) (block i m)) {m : Mem}
    (h : I 0 m) : I n (sseLoop aligned width unit block n m) := by
  have hprologue : ∀ count i m, i + count = n → I i m →
      let r := prologue aligned unit i count m
      r.1 + r.2.1 = n ∧ I r.1 r.2.2 := by
    intro count
    induction count with
    | zero => exact fun i m hn hi => ⟨hn, hi⟩
    | succ count ih =>
      intro i m hn hi
      rw [prologue]
      split_ifs
      · exact ⟨hn, hi⟩
      · exact ih (i + 1) _ (by omega) (hunit i m (by omega) hi)
  have hblocks : ∀ i count m, i + count = n → I i m →
      let r := blocks width block i count m
      r.1 + r.2.1 = n ∧ I r.1 r.2.2 := by
    intro i count m hn hi
    fun_induction blocks width block i count m with
    | case1 i count m hle ih => exact ih (by omega) (hblock i m (by omega) hi)
    | case2 i count m hlt => exact ⟨hn, hi⟩
  have hepilogue : ∀ count i m, i + count = n → I i m → I n (epilogue unit i count m) := by
    intro count
    induction count with
    | zero =>
      intro i m hn hi
      rwa [← show i = n by omega]
    | succ count ih => exact fun i m hn hi => ih (i + 1) _ (by omega) (hunit i m (by omega) hi)
  have hone := hprologue n 0 m (Nat.zero_add n) h
  have htwo := hblocks _ _ _ hone.1 hone.2
  exact hepilogue _ _ _ htwo.1 htwo.2

end Loops

/-! ## Writing -/

def put (m : Mem) (d n : Nat) (f : Nat → Byte) : Mem :=
  fun a => if d ≤ a ∧ a < d + n then f (a - d) else m a

def memset (dest : Nat) (value : BitVec 32) (count : Nat) (m : Mem) : Mem :=
  let v := value.setWidth 8
  sseLoop (fun i => (dest + i) % 16 == 0) 15 (fun i m => put m (dest + i) 1 fun _ => v)
    (fun i m => put m (dest + i) 16 fun _ => v) count m

def wordByte (value : BitVec 16) (i : Nat) : Byte :=
  if i % 2 = 0 then value.extractLsb' 0 8 else value.extractLsb' 8 8

def memsetw (dest : Nat) (value : BitVec 16) (count : Nat) (m : Mem) : Mem :=
  sseLoop (fun i => (dest + 2 * i) % 16 == 0) 7 (fun i m => put m (dest + 2 * i) 2 (wordByte value))
    (fun i m => put m (dest + 2 * i) 16 (wordByte value)) count m

def copy (m : Mem) (d s n : Nat) : Mem := put m d n fun i => m (s + i)

def memcpy (dest src count : Nat) (m : Mem) : Mem :=
  sseLoop (fun i => (dest + i) % 16 == 0) 15 (fun i m => copy m (dest + i) (src + i) 1)
    (fun i m => copy m (dest + i) (src + i) 16) count m

def memmove (dest src count : Nat) (m : Mem) : Mem :=
  if dest < src then memcpy dest src count m
  else if src < dest then
    sseLoop (fun i => (dest + count - i) % 16 == 0) 15
      (fun i m => copy m (dest + count - i - 1) (src + count - i - 1) 1)
      (fun i m => copy m (dest + count - i - 16) (src + count - i - 16) 16) count m
  else m

/-! ## Searching -/

def firstOf (p : Nat → Bool) (i n : Nat) : Option Nat := ((List.range n).map (i + ·)).find? p

/-- The loops of `xytherOs_memcmp` and `xytherOs_memchr`: the mask of a block is not empty where the
loop over its bytes finds something. -/
def search (p : Nat → Bool) (i count : Nat) : Option Nat :=
  if 16 ≤ count then
    match firstOf p i 16 with
    | some k => some k
    | none => search p (i + 16) (count - 16)
  else firstOf p i count
termination_by count

def memcmp (ptr1 ptr2 count : Nat) (m : Mem) : Int :=
  match search (fun i => m (ptr1 + i) != m (ptr2 + i)) 0 count with
  | some i => if m (ptr1 + i) < m (ptr2 + i) then -1 else 1
  | none => 0

def memchr (ptr : Nat) (value : BitVec 32) (count : Nat) (m : Mem) : Option Nat :=
  (search (fun i => m (ptr + i) == value.setWidth 8) 0 count).map (ptr + ·)

/-! ## The bytes that are written -/

variable {m : Mem} {d s n k : Nat} {f g h : Nat → Byte}

theorem put_zero : put m d 0 f = m := by
  funext a
  rw [put, if_neg (by omega)]

theorem put_put (hg : ∀ i < n, g i = f (k + i)) :
    put (put m d k f) (d + k) n g = put m d (k + n) f := by
  funext a
  simp only [put]
  split_ifs
  · rw [hg _ (by omega)]
    congr 1
    omega
  all_goals first
    | rfl
    | omega

theorem put_front (hg : ∀ i < n, g i = h i) (hf : ∀ i < k, f i = h (n + i)) :
    put (put m (d + n) k f) d n g = put m d (n + k) h := by
  funext a
  simp only [put]
  split_ifs
  · exact hg _ (by omega)
  · omega
  · rw [hf _ (by omega)]
    congr 1
    omega
  all_goals first
    | rfl
    | omega

theorem memcpy_eq (hfree : d ≤ s ∨ s + n ≤ d) : memcpy d s n m = copy m d s n := by
  refine sseLoop_spec _ (fun i m' => m' = copy m d s i) ?_ ?_ put_zero.symm
  all_goals
    rintro i _ hi rfl
    refine put_put fun j hj => ?_
    rw [copy, put, if_neg (by omega), Nat.add_assoc]

theorem copy_back {i w : Nat} (hlt : s < d) (hi : i + w ≤ n) :
    copy (put m (d + n - i) i fun j => m (s + n - i + j)) (d + n - i - w) (s + n - i - w) w =
      put m (d + n - (i + w)) (i + w) fun j => m (s + n - (i + w) + j) := by
  obtain ⟨a, ha⟩ : ∃ a, a = d + n - (i + w) := ⟨_, rfl⟩
  obtain ⟨b, hb⟩ : ∃ b, b = s + n - (i + w) := ⟨_, rfl⟩
  have hd : d + n - i = a + w := by omega
  have hs : s + n - i = b + w := by omega
  rw [hd, hs, ← ha, ← hb, Nat.add_sub_cancel, Nat.add_sub_cancel, Nat.add_comm i w]
  refine put_front (fun j hj => ?_) fun j _ => by rw [Nat.add_assoc]
  rw [put, if_neg (by omega)]

theorem memmove_eq : memmove d s n m = copy m d s n := by
  rw [memmove]
  split_ifs with hlt hgt
  · exact memcpy_eq (.inl hlt.le)
  · have hend := sseLoop_spec (fun i => (d + n - i) % 16 == 0)
      (fun i m' => m' = put m (d + n - i) i fun j => m (s + n - i + j))
      (fun i m hi heq => heq ▸ copy_back hgt hi)
      (fun i m (hi : i + (15 + 1) ≤ n) heq => heq ▸ copy_back hgt hi)
      put_zero.symm
    rw [hend, copy, Nat.add_sub_cancel, Nat.add_sub_cancel]
  · have heq : d = s := by omega
    subst heq
    funext a
    simp only [copy, put]
    split_ifs
    · congr 1
      omega
    · rfl

theorem memset_eq (value : BitVec 32) :
    memset d value n m = put m d n fun _ => value.setWidth 8 := by
  refine sseLoop_spec _ (fun i m' => m' = put m d i fun _ => value.setWidth 8) ?_ ?_ put_zero.symm
  all_goals
    rintro i _ hi rfl
    exact put_put fun _ _ => rfl

theorem memsetw_eq (value : BitVec 16) :
    memsetw d value n m = put m d (2 * n) (wordByte value) := by
  refine sseLoop_spec _ (fun i m' => m' = put m d (2 * i) (wordByte value)) ?_ ?_ put_zero.symm
  all_goals
    rintro i _ hi rfl
    rw [Nat.mul_add]
    refine put_put fun j _ => ?_
    rw [wordByte, wordByte, Nat.mul_add_mod]

/-! ## The byte that is found -/

theorem firstOf_add (p : Nat → Bool) (i k n : Nat) :
    firstOf p i (k + n) = (firstOf p i k).or (firstOf p (i + k) n) := by
  rw [firstOf, List.range_add, List.map_append, List.find?_append, firstOf, firstOf, List.map_map]
  congr 3
  funext j
  exact (Nat.add_assoc _ _ _).symm

theorem search_eq (p : Nat → Bool) (i count : Nat) : search p i count = firstOf p i count := by
  fun_induction search p i count with
  | case1 i count hle k hk =>
    have hsplit : count = 16 + (count - 16) := by omega
    rw [hsplit, firstOf_add, hk, Option.some_or]
  | case2 i count hle hnone ih =>
    have hsplit : count = 16 + (count - 16) := by omega
    rw [hsplit, firstOf_add, hnone, Option.none_or, ← hsplit, ih]
  | case3 i count hlt => rfl

/-- What the functions write is what the bytes of the target range are given, and what the searching
functions find is the first byte in question. -/
theorem memory_functions_exact (m : Mem) (dest src count : Nat) (value : BitVec 32)
    (word : BitVec 16) :
    (∀ a, memset dest value count m a =
      if dest ≤ a ∧ a < dest + count then value.setWidth 8 else m a) ∧
    (∀ a, memsetw dest word count m a =
      if dest ≤ a ∧ a < dest + 2 * count then wordByte word (a - dest) else m a) ∧
    (dest ≤ src ∨ src + count ≤ dest → ∀ a, memcpy dest src count m a =
      if dest ≤ a ∧ a < dest + count then m (src + (a - dest)) else m a) ∧
    (∀ a, memmove dest src count m a =
      if dest ≤ a ∧ a < dest + count then m (src + (a - dest)) else m a) ∧
    memcmp dest src count m = (match firstOf (fun i => m (dest + i) != m (src + i)) 0 count with
      | some i => if m (dest + i) < m (src + i) then -1 else 1
      | none => 0) ∧
    memchr dest value count m =
      (firstOf (fun i => m (dest + i) == value.setWidth 8) 0 count).map (dest + ·) := by
  refine ⟨fun a => by rw [memset_eq, put], fun a => by rw [memsetw_eq, put],
    fun hfree a => by rw [memcpy_eq hfree, copy, put], fun a => by rw [memmove_eq, copy, put],
    ?_, ?_⟩
  · rw [memcmp, search_eq]
  · rw [memchr, search_eq]

theorem memory_functions_exact_forward :
    1 ≤ 2 ∧ ∀ a, memcpy 1 2 2 (fun a => BitVec.ofNat 8 a) a =
      if 1 ≤ a ∧ a < 1 + 2 then BitVec.ofNat 8 (2 + (a - 1)) else BitVec.ofNat 8 a :=
  ⟨by decide, (memory_functions_exact _ 1 2 2 0 0).2.2.1 (.inl (by decide))⟩

end Str
end XytherOS
