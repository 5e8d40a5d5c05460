import XytherOS.Boot.Multiboot
import XytherOS.Lib.WriteLog
import XytherOS.Mm.MmapHoles
import XytherOS.Mm.MmapRun
import XytherOS.Mm.MmapTables

/-!
# ArgList — the argument vector that `mmap_copy_list` lays out

The strings are copied to the start of a fresh region, one behind the other, and the array of their
addresses comes behind them, at the next multiple of 16.  The count starts at 1, for the null
pointer at the end: the region has room for that many pointers, but `vec[count]` is one further, and
the element before it is not written at all.

* `Apart` — the strings and the array do not overlap: what memory holds after the stores;
* `copy_list_iff` — when the vector is laid out as a program expects it.
-/

namespace XytherOS
namespace Mm
namespace Mmap

open Boot (PGROUNDUP)
open WriteLog

/-- A C string without the NUL at its end, which an address space has room for. -/
structure CString where
  bytes : List (BitVec 8)
  nul_free : ∀ b ∈ bytes, b ≠ 0
  fits : bytes.length + 1 < 2 ^ 64

namespace CString

def cells (t : CString) : List (BitVec 8) := t.bytes ++ [0]

@[simp] theorem length_cells (t : CString) : t.cells.length = t.bytes.length + 1 := by
  simp [cells]

def strlen (t : CString) : BitVec 64 := BitVec.ofNat 64 t.bytes.length

end CString

/-- The address space code with `arch_map_n`; `byteAt` is what the memory behind page tables
holds. -/
structure ArgEnv (π : Type) extends Env π where
  mapN : π → BitVec 64 → BitVec 64 → BitVec 64 → Except Fault (Ret × π)
  byteAt : π → BitVec 64 → BitVec 8

section Functions

variable {π : Type}

def mmapAllocMappedVmr (env : ArgEnv π) (s : State π) (addr len : BitVec 64)
    (prot flags : BitVec 32) : Except Fault (Ret × Option Nat × State π) := do
  if has flags MAP_FIXED then return (.err .EINVAL, none, s)
  else
    match ← mmapMapRegion env.toEnv s addr len prot flags true with
    | (.err e, _, s) => return (.err e, none, s)
    | (.ok, none, _) => throw .nullDeref
    | (.ok, some vmr, s) =>
      match ← env.mapN s.pt (s.region vmr).start len (s.region vmr).vflags with
      | (.err e, pt) =>
        let (_, s) ← mmapRemove env.toEnv (s.withAccount (s.toAccount.withPt pt)) vmr
        return (.err e, none, s)
      | (.ok, pt) => return (.ok, some vmr, s.withAccount (s.toAccount.withPt pt))

def alignUp16 (x : BitVec 64) : BitVec 64 := (x + (16 - 1)) &&& ~~~(16 - 1)

def countArgs (svec : List CString) : BitVec 32 × BitVec 64 :=
  svec.foldl (fun c arg => (c.1 + 1, c.2 + (arg.strlen + 1))) (1, 0)

def regionSize (svec : List CString) : BitVec 64 :=
  PGROUNDUP ((countArgs svec).2 + (countArgs svec).1.signExtend 64 * 8)

/-- The loop of `safestrncpy` over `t`, from which a NUL is read at the end; what it stores. -/
def strncpyLoop : BitVec 64 → List (BitVec 8) → BitVec 64 → List (BitVec 64 × BitVec 8)
  | s, [], _ => [(s, 0)]
  | s, c :: t, n =>
    if n - 1 = 0 then [(s, 0)]
    else (s, c) :: if c = 0 then [(s + 1, 0)] else strncpyLoop (s + 1) t (n - 1)

def safestrncpy (s : BitVec 64) (t : CString) (n : BitVec 64) : List (BitVec 64 × BitVec 8) :=
  if n = 0 then [] else strncpyLoop s t.cells n

def ptrBytes (p : BitVec 64) : List (BitVec 8) :=
  (List.range 8).map fun j => p.extractLsb' (8 * j) 8

def storePtr (a p : BitVec 64) : List (BitVec 64 × BitVec 8) := lay a (ptrBytes p)

def copyArgs (vec : BitVec 64) : List CString → BitVec 32 → BitVec 64 → List (BitVec 64 × BitVec 8)
  | [], _, _ => []
  | arg :: svec, index, buf =>
    safestrncpy buf arg (arg.strlen + 1) ++ storePtr (vec + index.signExtend 64 * 8) buf ++
      copyArgs vec svec (index + 1) (buf + (arg.strlen + 1))

/-- What `mmap_copy_list` stores through its arguments, and into memory. -/
structure ArgList where
  pcnt : BitVec 32
  pvec : BitVec 64
  pvmr : Nat
  stores : List (BitVec 64 × BitVec 8)

def mmapCopyList (env : ArgEnv π) (s : State π) (svec : List CString) :
    Except Fault (Ret × Option ArgList × State π) := do
  let count := (countArgs svec).1
  match ← mmapAllocMappedVmr env s 0 (regionSize svec) (PROT_READ ||| PROT_WRITE)
      (MAP_PRIVATE ||| MAP_DONTEXPAND) with
  | (.err e, _, s) => return (.err e, none, s)
  | (.ok, none, _) => throw .nullDeref
  | (.ok, some vmr, s) =>
    let start := (s.region vmr).start
    let vec := alignUp16 (start + (countArgs svec).2)
    let last := vec + count.signExtend 64 * 8
    assert (last < (s.region vmr).endAddr) "Space allocated for argv array too small\n"
    return (.ok, some ⟨count - 1, vec, vmr, copyArgs vec svec 0 start ++ storePtr last 0⟩, s)

end Functions
/-! ## A laid-out vector -/

def flat (svec : List CString) : List (BitVec 8) := svec.flatMap CString.cells

def offset (svec : List CString) (i : Nat) : Nat := (flat (svec.take i)).length

def PtrAt (mem : BitVec 64 → BitVec 8) (a p : BitVec 64) : Prop :=
  ∀ j < 8, mem (a + BitVec.ofNat 64 j) = p.extractLsb' (8 * j) 8

def CopyAt (mem : BitVec 64 → BitVec 8) (p : BitVec 64) (t : CString) : Prop :=
  ∀ j (h : j < t.cells.length), mem (p + BitVec.ofNat 64 j) = t.cells[j]

/-- The vector is what a program expects it to be: everything is written into the region, there is a
pointer to a copy of every string and a null pointer behind them, and the pointers do not overlap
the strings. -/
structure LaidOut (fresh : BitVec 64 → BitVec 8) (r : Region) (svec : List CString)
    (out : ArgList) : Prop where
  inside : ∀ w ∈ out.stores, r.contains w.1 = true
  count : out.pcnt.toInt = svec.length
  copies : ∀ i (h : i < svec.length), ∃ p, p ≠ 0 ∧
    PtrAt (replay fresh out.stores) (out.pvec + BitVec.ofNat 64 (8 * i)) p ∧
      CopyAt (replay fresh out.stores) p svec[i]
  null : PtrAt (replay fresh out.stores) (out.pvec + BitVec.ofNat 64 (8 * svec.length)) 0
  apart : ∀ k < (flat svec).length, ∀ j < 8 * (svec.length + 1),
    r.start + BitVec.ofNat 64 k ≠ out.pvec + BitVec.ofNat 64 j

/-! ## Strings and offsets -/

section Strings

variable {svec : List CString} {arg : CString}

@[simp] theorem flat_nil : flat [] = [] := rfl

@[simp] theorem flat_cons : flat (arg :: svec) = arg.cells ++ flat svec := rfl

@[simp] theorem offset_zero : offset svec 0 = 0 := rfl

@[simp] theorem offset_succ {i : Nat} :
    offset (arg :: svec) (i + 1) = arg.cells.length + offset svec i := by
  simp [offset]

theorem strlen_succ (t : CString) : t.strlen + 1 = BitVec.ofNat 64 t.cells.length := by
  rw [CString.length_cells, BitVec.ofNat_add]
  rfl

theorem length_le_flat (svec : List CString) : svec.length ≤ (flat svec).length := by
  induction svec with
  | nil => exact Nat.le_refl _
  | cons arg svec ih =>
    rw [flat_cons, List.length_append, CString.length_cells, List.length_cons]
    omega

theorem getElem?_flat {i j : Nat} (hi : i < svec.length) (hj : j < svec[i].cells.length) :
    (flat svec)[offset svec i + j]? = some svec[i].cells[j] := by
  induction svec generalizing i with
  | nil => exact absurd hi (Nat.not_lt_zero _)
  | cons arg svec ih =>
    cases i with
    | zero =>
      have hj' : j < arg.cells.length := hj
      rw [offset_zero, Nat.zero_add, flat_cons, List.getElem?_append_left hj']
      exact List.getElem?_eq_getElem hj'
    | succ i =>
      have hi' : i < svec.length := Nat.lt_of_succ_lt_succ hi
      rw [offset_succ, flat_cons, Nat.add_assoc,
        List.getElem?_append_right (Nat.le_add_right _ _), Nat.add_sub_cancel_left]
      exact ih hi' hj

theorem countArgs_eq (svec : List CString) :
    countArgs svec =
      (BitVec.ofNat 32 (svec.length + 1), BitVec.ofNat 64 (flat svec).length) := by
  have hloop : ∀ (svec : List CString) (c : BitVec 32 × BitVec 64),
      svec.foldl (fun c arg => (c.1 + 1, c.2 + (arg.strlen + 1))) c =
        (c.1 + BitVec.ofNat 32 svec.length, c.2 + BitVec.ofNat 64 (flat svec).length) := by
    intro svec
    induction svec with
    | nil => simp
    | cons arg svec ih =>
      intro c
      rw [List.foldl_cons, ih, List.length_cons, flat_cons, List.length_append, step_ofNat,
        strlen_succ, BitVec.ofNat_add arg.cells.length, BitVec.add_assoc]
  rw [countArgs, hloop]
  refine Prod.ext ?_ (BitVec.zero_add _)
  rw [Nat.add_comm, BitVec.ofNat_add]
  rfl

theorem ofNat_ne_zero (n : Nat) (h : n + 1 < 2 ^ 64) : BitVec.ofNat 64 (n + 1) ≠ 0 := by
  intro hzero
  have hnat := congrArg BitVec.toNat hzero
  rw [BitVec.toNat_ofNat, Nat.mod_eq_of_lt h] at hnat
  exact Nat.succ_ne_zero n hnat

theorem strncpyLoop_eq {bs : List (BitVec 8)} (hnul : ∀ b ∈ bs, b ≠ 0)
    (hfits : bs.length + 1 < 2 ^ 64) (s : BitVec 64) :
    strncpyLoop s (bs ++ [0]) (BitVec.ofNat 64 (bs.length + 1)) = lay s (bs ++ [0]) := by
  induction bs generalizing s with
  | nil =>
    rw [List.nil_append, strncpyLoop, if_pos (by decide)]
    rfl
  | cons b bs ih =>
    have hlen : bs.length + 2 < 2 ^ 64 := hfits
    have hcount : BitVec.ofNat 64 ((b :: bs).length + 1) - 1 =
        BitVec.ofNat 64 (bs.length + 1) := by
      rw [List.length_cons, BitVec.ofNat_add (bs.length + 1)]
      exact BitVec.add_sub_cancel _ _
    have hmore := ofNat_ne_zero bs.length (by omega)
    rw [List.cons_append, strncpyLoop, hcount, if_neg hmore, if_neg (hnul b (by simp)),
      ih (fun x hx => hnul x (by simp [hx])) (by omega)]
    rfl

theorem safestrncpy_eq (s : BitVec 64) (t : CString) :
    safestrncpy s t (t.strlen + 1) = lay s t.cells := by
  rw [safestrncpy, strlen_succ, CString.length_cells, if_neg (ofNat_ne_zero _ t.fits)]
  exact strncpyLoop_eq t.nul_free t.fits s

end Strings

/-! ## What is stored where -/

section Stores

variable {svec : List CString} {start vec a p q : BitVec 64} {mem : BitVec 64 → BitVec 8}

theorem signExtend_ofNat {k : Nat} (hk : k < 2 ^ 31) :
    (BitVec.ofNat 32 k).signExtend 64 * 8 = BitVec.ofNat 64 (8 * k) := by
  have hmsb : (BitVec.ofNat 32 k).msb = false := by
    rw [BitVec.msb_eq_false_iff_two_mul_lt, BitVec.toNat_ofNat, Nat.mod_eq_of_lt (by omega)]
    omega
  rw [BitVec.signExtend_eq_setWidth_of_msb_false hmsb]
  apply BitVec.eq_of_toNat_eq
  rw [BitVec.toNat_mul, BitVec.toNat_setWidth, BitVec.toNat_ofNat, BitVec.toNat_ofNat,
    show (8 : BitVec 64).toNat = 8 from rfl]
  omega

theorem addr_assoc (a : BitVec 64) (i j : Nat) :
    a + BitVec.ofNat 64 i + BitVec.ofNat 64 j = a + BitVec.ofNat 64 (i + j) := by
  rw [BitVec.ofNat_add, BitVec.add_assoc]

theorem addr_toNat {i : Nat} (h : a.toNat + i < 2 ^ 64) :
    (a + BitVec.ofNat 64 i).toNat = a.toNat + i := by
  rw [BitVec.toNat_add, BitVec.toNat_ofNat, Nat.mod_eq_of_lt (by omega : i < 2 ^ 64),
    Nat.mod_eq_of_lt h]

@[simp] theorem length_ptrBytes (p : BitVec 64) : (ptrBytes p).length = 8 := by
  simp [ptrBytes]

theorem getElem_ptrBytes {j : Nat} (h : j < (ptrBytes p).length) :
    (ptrBytes p)[j] = p.extractLsb' (8 * j) 8 := by
  simp [ptrBytes]

theorem PtrAt.unique (hp : PtrAt mem a p) (hq : PtrAt mem a q) : p = q := by
  apply BitVec.eq_of_getLsbD_eq
  intro i hi
  have hbyte := (hp (i / 8) (by omega)).symm.trans (hq (i / 8) (by omega))
  have hbit := congrArg (fun b => b.getLsbD (i % 8)) hbyte
  have hlt : i % 8 < 8 := Nat.mod_lt _ (by decide)
  simpa [BitVec.getLsbD_extractLsb', hlt, Nat.div_add_mod] using hbit

theorem mem_copyArgs {x : BitVec 64 × BitVec 8} {k : Nat} (hk : k + svec.length < 2 ^ 31)
    (buf : BitVec 64) :
    x ∈ copyArgs vec svec (BitVec.ofNat 32 k) buf ↔
      x ∈ lay buf (flat svec) ∨ ∃ i < svec.length,
        x ∈ storePtr (vec + BitVec.ofNat 64 (8 * (k + i)))
          (buf + BitVec.ofNat 64 (offset svec i)) := by
  induction svec generalizing k buf with
  | nil => simp [copyArgs, lay]
  | cons arg svec ih =>
    have hlen : k + 1 + svec.length < 2 ^ 31 := by
      rw [List.length_cons] at hk
      omega
    have hindex : BitVec.ofNat 32 k + 1 = BitVec.ofNat 32 (k + 1) := by
      rw [BitVec.ofNat_add]
      rfl
    rw [copyArgs, safestrncpy_eq, signExtend_ofNat (by omega), hindex, strlen_succ,
      List.mem_append, List.mem_append, ih hlen, flat_cons, lay_append, List.mem_append]
    -- the pointer to this string, and those to the others
    have hslots : (∃ i < (arg :: svec).length,
          x ∈ storePtr (vec + BitVec.ofNat 64 (8 * (k + i)))
            (buf + BitVec.ofNat 64 (offset (arg :: svec) i))) ↔
        x ∈ storePtr (vec + BitVec.ofNat 64 (8 * k)) buf ∨ ∃ i < svec.length,
          x ∈ storePtr (vec + BitVec.ofNat 64 (8 * (k + 1 + i)))
            (buf + BitVec.ofNat 64 arg.cells.length + BitVec.ofNat 64 (offset svec i)) := by
      constructor
      · rintro ⟨i, hi, hx⟩
        cases i with
        | zero => exact .inl (by simpa using hx)
        | succ i =>
          rw [offset_succ, ← addr_assoc, Nat.add_comm i, ← Nat.add_assoc] at hx
          exact .inr ⟨i, Nat.lt_of_succ_lt_succ hi, hx⟩
      · rintro (hx | ⟨i, hi, hx⟩)
        · exact ⟨0, Nat.succ_pos _, by simpa using hx⟩
        · refine ⟨i + 1, Nat.succ_lt_succ hi, ?_⟩
          rwa [offset_succ, ← addr_assoc, Nat.add_comm i, ← Nat.add_assoc]
    rw [hslots]
    tauto

/-- All the stores of `mmap_copy_list`, for `n` strings, the array of pointers being at `vec`. -/
def vecStores (svec : List CString) (start vec : BitVec 64) : List (BitVec 64 × BitVec 8) :=
  copyArgs vec svec 0 start ++ storePtr (vec + BitVec.ofNat 64 (8 * (svec.length + 1))) 0

def slot (svec : List CString) (start : BitVec 64) (i : Nat) : BitVec 64 :=
  if i < svec.length then start + BitVec.ofNat 64 (offset svec i) else 0

theorem mem_vecStores {x : BitVec 64 × BitVec 8} (hn : svec.length < 2 ^ 31) :
    x ∈ vecStores svec start vec ↔
      x ∈ lay start (flat svec) ∨ ∃ i ≤ svec.length + 1, i ≠ svec.length ∧
        x ∈ storePtr (vec + BitVec.ofNat 64 (8 * i)) (slot svec start i) := by
  rw [vecStores, List.mem_append, show (0 : BitVec 32) = BitVec.ofNat 32 0 from rfl,
    mem_copyArgs (by omega), or_assoc]
  refine or_congr_right ?_
  constructor
  · rintro (⟨i, hi, hx⟩ | hx)
    · refine ⟨i, by omega, by omega, ?_⟩
      rw [slot, if_pos hi]
      rwa [Nat.zero_add] at hx
    · refine ⟨svec.length + 1, le_refl _, by omega, ?_⟩
      rwa [slot, if_neg (by omega)]
  · rintro ⟨i, hi, hne, hx⟩
    rcases Nat.lt_or_ge i svec.length with hlt | hge
    · rw [slot, if_pos hlt] at hx
      exact .inl ⟨i, hlt, by rwa [Nat.zero_add]⟩
    · have hlast : i = svec.length + 1 := by omega
      rw [slot, if_neg (by omega), hlast] at hx
      exact .inr hx

def image (svec : List CString) (start vec a : BitVec 64) : BitVec 8 :=
  if a.toNat < vec.toNat then (flat svec).getD (a - start).toNat 0
  else (ptrBytes (slot svec start ((a - vec).toNat / 8))).getD ((a - vec).toNat % 8) 0

/-- The strings end before the array, and the array before the end of memory. -/
structure Apart (svec : List CString) (start vec : BitVec 64) : Prop where
  strings : start.toNat + (flat svec).length ≤ vec.toNat
  array : vec.toNat + 8 * (svec.length + 2) < 2 ^ 64
  few : svec.length < 2 ^ 31

namespace Apart

variable (h : Apart svec start vec)
include h

theorem string_toNat {k : Nat} (hk : k < (flat svec).length) :
    (start + BitVec.ofNat 64 k).toNat = start.toNat + k := by
  have hstrings := h.strings
  have harray := h.array
  exact addr_toNat (by omega)

theorem slot_toNat {i j : Nat} (hi : i ≤ svec.length + 1) (hj : j < 8) :
    (vec + BitVec.ofNat 64 (8 * i) + BitVec.ofNat 64 j).toNat = vec.toNat + (8 * i + j) := by
  have harray := h.array
  rw [addr_assoc]
  exact addr_toNat (by omega)

theorem image_string {k : Nat} (hk : k < (flat svec).length) :
    image svec start vec (start + BitVec.ofNat 64 k) = (flat svec)[k] := by
  have hstrings := h.strings
  have harray := h.array
  have hback : (start + BitVec.ofNat 64 k - start).toNat = k := by
    rw [BitVec.toNat_sub, h.string_toNat hk]
    omega
  rw [image, h.string_toNat hk, if_pos (by omega), hback]
  rw [List.getD_eq_getElem?_getD, List.getElem?_eq_getElem hk]
  rfl

theorem image_slot {i j : Nat} (hi : i ≤ svec.length + 1) (hj : j < 8) :
    image svec start vec (vec + BitVec.ofNat 64 (8 * i) + BitVec.ofNat 64 j) =
      (slot svec start i).extractLsb' (8 * j) 8 := by
  have harray := h.array
  have hback : (vec + BitVec.ofNat 64 (8 * i) + BitVec.ofNat 64 j - vec).toNat = 8 * i + j := by
    rw [BitVec.toNat_sub, h.slot_toNat hi hj]
    omega
  have hdiv : (8 * i + j) / 8 = i := by omega
  have hmod : (8 * i + j) % 8 = j := by omega
  have hj' : j < (ptrBytes (slot svec start i)).length := by simpa using hj
  rw [image, h.slot_toNat hi hj, if_neg (by omega), hback, hdiv, hmod,
    List.getD_eq_getElem?_getD, List.getElem?_eq_getElem hj']
  exact getElem_ptrBytes hj'

theorem agrees : Agrees (vecStores svec start vec) (image svec start vec) := by
  intro x hx
  rcases (mem_vecStores h.few).1 hx with hx | ⟨i, hi, -, hx⟩
  · rcases mem_lay.1 hx with ⟨k, hk, rfl⟩
    exact (h.image_string hk).symm
  · rcases mem_lay.1 hx with ⟨j, hj, rfl⟩
    rw [length_ptrBytes] at hj
    rw [h.image_slot hi hj]
    exact getElem_ptrBytes _

variable (fresh : BitVec 64 → BitVec 8)

theorem memory_string {k : Nat} (hk : k < (flat svec).length) :
    replay fresh (vecStores svec start vec) (start + BitVec.ofNat 64 k) = (flat svec)[k] := by
  rw [replay_agrees h.agrees, h.image_string hk]
  exact ⟨_, (mem_vecStores h.few).2 (.inl (mem_lay.2 ⟨k, hk, rfl⟩)), rfl⟩

theorem memory_slot {i : Nat} (hi : i ≤ svec.length + 1) (hne : i ≠ svec.length) :
    PtrAt (replay fresh (vecStores svec start vec)) (vec + BitVec.ofNat 64 (8 * i))
      (slot svec start i) := by
  intro j hj
  rw [replay_agrees h.agrees, h.image_slot hi hj]
  have hj' : j < (ptrBytes (slot svec start i)).length := by simpa using hj
  exact ⟨_, (mem_vecStores h.few).2 (.inr ⟨i, hi, hne, mem_lay.2 ⟨j, hj', rfl⟩⟩), rfl⟩

theorem memory_null {j : Nat} (hj : j < 8) :
    replay fresh (vecStores svec start vec)
        (vec + BitVec.ofNat 64 (8 * svec.length) + BitVec.ofNat 64 j) =
      fresh (vec + BitVec.ofNat 64 (8 * svec.length) + BitVec.ofNat 64 j) := by
  have hstrings := h.strings
  apply replay_frame
  intro x hx heq
  have haddr := congrArg BitVec.toNat heq
  rw [h.slot_toNat (Nat.le_succ _) hj] at haddr
  rcases (mem_vecStores h.few).1 hx with hx | ⟨i, hi, hne, hx⟩
  · rcases mem_lay.1 hx with ⟨k, hk, rfl⟩
    rw [h.string_toNat hk] at haddr
    omega
  · rcases mem_lay.1 hx with ⟨j', hj', rfl⟩
    rw [length_ptrBytes] at hj'
    rw [h.slot_toNat hi hj'] at haddr
    omega

theorem memory_copy {i : Nat} (hi : i < svec.length) :
    CopyAt (replay fresh (vecStores svec start vec)) (slot svec start i) svec[i] := by
  intro j hj
  have hcell := getElem?_flat hi hj
  rcases List.getElem?_eq_some_iff.1 hcell with ⟨hk, hbyte⟩
  rw [slot, if_pos hi, addr_assoc, h.memory_string fresh hk]
  exact hbyte

end Apart

end Stores

/-! ## The region -/

section Region

variable {π : Type} {env : ArgEnv π} {s s' : State π} {v : View} {len : BitVec 64}
  {prot flags : BitVec 32} {vmr : Nat}

theorem mapRegion_bounds (h : Listed s v) (hfixed : has flags MAP_FIXED = false)
    (hrun : mmapMapRegion env.toEnv s 0 len prot flags true = .ok (.ok, some vmr, s')) :
    len ≠ 0 ∧ ∃ a, Within a (mapLen len flags) ∧
      s'.region vmr = newRegion a (mapLen len flags) prot flags := by
  rw [mmapMapRegion] at hrun
  by_cases hargs : mapArgsOk 0 len prot flags true = true
  · refine ⟨fun hzero => ?_, ?_⟩
    · rw [hzero] at hargs
      simp [mapArgsOk] at hargs
    rw [if_pos hargs, mapAddr, if_neg (by simp [hfixed])] at hrun
    rcases bind_ok_iff.1 hrun with ⟨res, hfind, hrun⟩
    cases res with
    | error e => cases hrun
    | ok a =>
      have hwithin := (h.findHoleat_within 0 (mapLen len flags) (mapWhence flags)).of_eq_ok
        hfind a rfl
      refine ⟨a, hwithin, ?_⟩
      dsimp only at hrun
      rw [mapAt] at hrun
      rcases vmrAlloc_cases env.toEnv s (newRegion a (mapLen len flags) prot flags) with
        ⟨s₁, heq, -⟩ | ⟨q, s₁, heq, ha⟩
      · rw [heq] at hrun
        cases hrun
      · rw [heq] at hrun
        dsimp only at hrun
        rw [if_neg (by simp [hfixed])] at hrun
        rcases bind_ok_iff.1 hrun with ⟨⟨ret, s₂⟩, hmapin, hrun⟩
        cases ret with
        | err e => cases hrun
        | ok =>
          cases hrun
          have hsame := (mmapMapin_contents s₁ vmr).of_eq_ok hmapin
          rw [hsame.region, ha.region_self]
  · rw [if_neg hargs] at hrun
    cases hrun

theorem allocMapped_bounds (h : Listed s v) (hfixed : has flags MAP_FIXED = false)
    (hstack : has flags MAP_STACK = false)
    (hmap : mmapAllocMappedVmr env s 0 len prot flags = .ok (.ok, some vmr, s')) :
    len ≠ 0 ∧ Within (s'.region vmr).start len ∧
      (s'.region vmr).endAddr = (s'.region vmr).start + len - 1 := by
  rw [mmapAllocMappedVmr, if_neg (by simp [hfixed])] at hmap
  rcases bind_ok_iff.1 hmap with ⟨⟨ret, out, s₁⟩, hrun, hmap⟩
  cases ret with
  | err e => cases hmap
  | ok =>
    cases out with
    | none => cases hmap
    | some q =>
      rcases bind_ok_iff.1 hmap with ⟨⟨ret, pt⟩, hpage, hmap⟩
      cases ret with
      | err e =>
        rcases bind_ok_iff.1 hmap with ⟨⟨ret, s₂⟩, -, hmap⟩
        cases hmap
      | ok =>
        cases hmap
        rcases mapRegion_bounds h hfixed hrun with ⟨hne, a, hwithin, hregion⟩
        rw [mapLen, if_neg (by simp [hstack])] at hwithin hregion
        have hsame : (s₁.withAccount (s₁.toAccount.withPt pt)).region vmr =
            newRegion a len prot flags := hregion
        rw [hsame]
        exact ⟨hne, hwithin, rfl⟩

end Region

/-! ## When the vector is laid out -/

theorem toNat_alignUp16 {x : BitVec 64} (hx : x.toNat + 15 < 2 ^ 64) :
    (alignUp16 x).toNat = (x.toNat + 15) / 16 * 16 := by
  have hround : (alignUp16 x).toNat = (x + (16 - 1)).toNat / 16 * 16 :=
    Align.toNat_roundDown (k := 4) (x + (16 - 1)) rfl
  have hsum : (x + (16 - 1)).toNat = x.toNat + 15 := by
    rw [BitVec.toNat_add, show ((16 - 1 : BitVec 64)).toNat = 15 from rfl]
    exact Nat.mod_eq_of_lt hx
  rw [hround, hsum]

def vecAddr (svec : List CString) (start : BitVec 64) : BitVec 64 :=
  alignUp16 (start + BitVec.ofNat 64 (flat svec).length)

/-- The array with two elements more than there are strings ends in the region, which does not begin
at the null pointer, and the element for the null pointer is zero already. -/
structure ListFits (fresh : BitVec 64 → BitVec 8) (start : BitVec 64) (svec : List CString) :
    Prop where
  few : svec.length + 1 < 2 ^ 31
  room : (start.toNat + (flat svec).length + 15) / 16 * 16 + 8 * (svec.length + 2) ≤
    start.toNat + (regionSize svec).toNat
  first : svec ≠ [] → start ≠ 0
  zero : PtrAt fresh (vecAddr svec start + BitVec.ofNat 64 (8 * svec.length)) 0

section Layout

variable {svec : List CString} {r : Region} {fresh : BitVec 64 → BitVec 8}

theorem toNat_vecAddr (svec : List CString) (start : BitVec 64)
    (h : start.toNat + (flat svec).length + 15 < 2 ^ 64) :
    (vecAddr svec start).toNat = (start.toNat + (flat svec).length + 15) / 16 * 16 := by
  have hend : (start + BitVec.ofNat 64 (flat svec).length).toNat =
      start.toNat + (flat svec).length := addr_toNat (by omega)
  rw [vecAddr, toNat_alignUp16 (by omega), hend]

theorem pcnt_toInt (h : svec.length < 2 ^ 31) :
    (BitVec.ofNat 32 (svec.length + 1) - 1).toInt = svec.length := by
  have hcount : BitVec.ofNat 32 (svec.length + 1) - 1 = BitVec.ofNat 32 svec.length := by
    rw [BitVec.ofNat_add]
    exact BitVec.add_sub_cancel _ _
  rw [hcount, BitVec.toInt_eq_toNat_of_lt, BitVec.toNat_ofNat, Nat.mod_eq_of_lt (by omega)]
  rw [BitVec.toNat_ofNat, Nat.mod_eq_of_lt (by omega)]
  omega

theorem few_of_strings (hn : svec.length < 2 ^ 31)
    (hstrings : (flat svec).length ≤ (regionSize svec).toNat)
    (hwithin : (regionSize svec).toNat ≤ 2 ^ 47) : svec.length + 1 < 2 ^ 31 := by
  by_contra hmany
  have hlen : svec.length + 1 = 2 ^ 31 := by omega
  have hbytes := length_le_flat svec
  have hpointers : (BitVec.ofNat 32 (2 ^ 31)).signExtend 64 * 8 =
      BitVec.ofNat 64 (2 ^ 64 - 2 ^ 34) := by decide
  rw [regionSize, countArgs_eq, hlen, hpointers] at hstrings hwithin
  generalize hsum : BitVec.ofNat 64 (flat svec).length + BitVec.ofNat 64 (2 ^ 64 - 2 ^ 34) = sum
    at hstrings hwithin
  have hnat : sum.toNat = ((flat svec).length + (2 ^ 64 - 2 ^ 34)) % 2 ^ 64 := by
    rw [← hsum, ← BitVec.ofNat_add, BitVec.toNat_ofNat]
  rw [PGROUNDUP] at hstrings hwithin
  by_cases hpage : sum &&& (Pmm.PGSZ - 1) = 0
  · rw [if_pos hpage] at hstrings hwithin
    omega
  · rw [if_neg hpage] at hstrings hwithin
    have hround : (Pmm.PGROUND (sum + Pmm.PGSZ)).toNat = (sum + Pmm.PGSZ).toNat / 4096 * 4096 :=
      Align.toNat_roundDown (k := 12) (sum + Pmm.PGSZ) rfl
    have hnext : (sum + Pmm.PGSZ).toNat = (sum.toNat + 4096) % 2 ^ 64 := by
      rw [BitVec.toNat_add]
      rfl
    rw [hround, hnext] at hstrings hwithin
    omega

theorem laidOut_of_fits (hend : r.endAddr = r.start + regionSize svec - 1)
    (hwithin : Within r.start (regionSize svec)) (h : ListFits fresh r.start svec) (vmr : Nat) :
    vecAddr svec r.start + BitVec.ofNat 64 (8 * (svec.length + 1)) < r.endAddr ∧
      LaidOut fresh r svec ⟨BitVec.ofNat 32 (svec.length + 1) - 1, vecAddr svec r.start, vmr,
        vecStores svec r.start (vecAddr svec r.start)⟩ := by
  have hroom := h.room
  have hfew := h.few
  rw [Within] at hwithin
  have hvec := toNat_vecAddr svec r.start (by omega)
  have hendNat : r.endAddr.toNat + 1 = r.start.toNat + (regionSize svec).toNat := by
    rw [hend]
    bv_omega
  have hapart : Apart svec r.start (vecAddr svec r.start) :=
    ⟨by omega, by omega, by omega⟩
  have hlast : (vecAddr svec r.start + BitVec.ofNat 64 (8 * (svec.length + 1))).toNat =
      (vecAddr svec r.start).toNat + 8 * (svec.length + 1) := addr_toNat (by omega)
  have hbelow (i : Nat) (hi : i < svec.length) : offset svec i < (flat svec).length := by
    have hcell := getElem?_flat (j := 0) hi (by simp)
    rcases List.getElem?_eq_some_iff.1 hcell with ⟨hlt, -⟩
    exact hlt
  refine ⟨BitVec.lt_def.2 (by omega), ?_, pcnt_toInt (by omega), ?_, ?_, ?_⟩
  · intro w hw
    have hcontains (a : Nat) (ha : w.1.toNat = a) (hlo : r.start.toNat ≤ a)
        (hhi : a ≤ r.endAddr.toNat) : r.contains w.1 = true := by
      rw [Region.contains, Bool.and_eq_true, decide_eq_true_eq, decide_eq_true_eq,
        BitVec.le_def, BitVec.le_def, ha]
      exact ⟨hlo, hhi⟩
    rcases (mem_vecStores hapart.few).1 hw with hw | ⟨i, hi, -, hw⟩
    · rcases mem_lay.1 hw with ⟨k, hk, rfl⟩
      exact hcontains _ (hapart.string_toNat hk) (by omega) (by omega)
    · rcases mem_lay.1 hw with ⟨j, hj, rfl⟩
      rw [length_ptrBytes] at hj
      exact hcontains _ (hapart.slot_toNat hi hj) (by omega) (by omega)
  · intro i hi
    refine ⟨slot svec r.start i, ?_, hapart.memory_slot fresh (by omega) (by omega),
      hapart.memory_copy fresh hi⟩
    -- the strings begin above the null pointer
    have hne := h.first (List.ne_nil_of_length_pos (by omega))
    have hpos : 0 < r.start.toNat := by bv_omega
    rw [slot, if_pos hi]
    intro hzero
    have hnat := congrArg BitVec.toNat hzero
    rw [hapart.string_toNat (hbelow i hi)] at hnat
    simp at hnat
    omega
  · intro j hj
    exact (hapart.memory_null fresh hj).trans (h.zero j hj)
  · intro k hk j hj heq
    have haddr := congrArg BitVec.toNat heq
    have hslot : (vecAddr svec r.start + BitVec.ofNat 64 j).toNat =
        (vecAddr svec r.start).toNat + j := addr_toNat (by omega)
    rw [hapart.string_toNat hk] at haddr
    dsimp only at haddr
    omega

theorem fits_of_laidOut (hend : r.endAddr = r.start + regionSize svec - 1)
    (hne : regionSize svec ≠ 0) (hwithin : Within r.start (regionSize svec)) {vmr : Nat}
    (h : LaidOut fresh r svec ⟨BitVec.ofNat 32 (svec.length + 1) - 1, vecAddr svec r.start, vmr,
      copyArgs (vecAddr svec r.start) svec 0 r.start ++ storePtr (vecAddr svec r.start +
        (BitVec.ofNat 32 (svec.length + 1)).signExtend 64 * 8) 0⟩) :
    ListFits fresh r.start svec := by
  rw [Within] at hwithin
  have hn : svec.length < 2 ^ 31 := by
    have hcount := h.count
    have hint := BitVec.toInt_lt (x := BitVec.ofNat 32 (svec.length + 1) - 1)
    dsimp only at hcount
    omega
  have hcontains {a : BitVec 64} (ha : r.contains a = true) :
      a.toNat < r.start.toNat + (regionSize svec).toNat := by
    rw [Region.contains, Bool.and_eq_true, decide_eq_true_eq, decide_eq_true_eq, hend] at ha
    bv_omega
  have hstrings : (flat svec).length ≤ (regionSize svec).toNat := by
    by_contra hlong
    -- the byte of the strings that would be the first one behind the region
    have hk : (regionSize svec).toNat < (flat svec).length := by omega
    have hin := hcontains (h.inside _ (List.mem_append_left _
      ((mem_copyArgs (k := 0) (by omega) r.start).2 (.inl (mem_lay.2 ⟨_, hk, rfl⟩)))))
    dsimp only at hin
    rw [addr_toNat (by omega)] at hin
    omega
  have hfew := few_of_strings hn hstrings (by omega)
  have hvec := toNat_vecAddr svec r.start (by omega)
  rw [signExtend_ofNat hfew] at h
  have hroom : (vecAddr svec r.start).toNat + 8 * (svec.length + 2) ≤
      r.start.toNat + (regionSize svec).toNat := by
    have hin := hcontains (h.inside _ (List.mem_append_right _
      (mem_lay.2 ⟨7, by rw [length_ptrBytes]; decide, rfl⟩)))
    dsimp only at hin
    rw [addr_assoc, addr_toNat (by omega)] at hin
    omega
  have hapart : Apart svec r.start (vecAddr svec r.start) := ⟨by omega, by omega, hn⟩
  refine ⟨hfew, by omega, ?_, fun j hj => ?_⟩
  · intro hsome hzero
    have hpos : 0 < svec.length := List.length_pos_of_ne_nil hsome
    rcases h.copies 0 hpos with ⟨p, hp, hptr, -⟩
    have hslot := hapart.memory_slot fresh (Nat.zero_le _) (Nat.ne_of_lt hpos)
    have hstart : slot svec r.start 0 = r.start := by
      rw [slot, if_pos hpos, offset_zero]
      exact BitVec.add_zero _
    exact hp ((hptr.unique hslot).trans (hstart.trans hzero))
  · exact (hapart.memory_null fresh hj).symm.trans (h.null j hj)

end Layout

/-! ## `mmap_copy_list` -/

section CopyList

variable {π : Type} {env : ArgEnv π} {s s' : State π} {v : View} {svec : List CString} {vmr : Nat}

theorem mmapCopyList_eq (hmap : mmapAllocMappedVmr env s 0 (regionSize svec)
    (PROT_READ ||| PROT_WRITE) (MAP_PRIVATE ||| MAP_DONTEXPAND) = .ok (.ok, some vmr, s')) :
    mmapCopyList env s svec =
      (do
        let vec := vecAddr svec (s'.region vmr).start
        let last := vec + (BitVec.ofNat 32 (svec.length + 1)).signExtend 64 * 8
        assert (last < (s'.region vmr).endAddr) "Space allocated for argv array too small\n"
        return (.ok, some ⟨BitVec.ofNat 32 (svec.length + 1) - 1, vec, vmr,
          copyArgs vec svec 0 (s'.region vmr).start ++ storePtr last 0⟩, s')) := by
  rw [mmapCopyList, hmap, countArgs_eq]
  rfl

/-- The argument vector is laid out as a program expects it, exactly if the region has room for one
pointer more than it was made for, and holds zeros where the null pointer should be. -/
theorem copy_list_iff (h : Listed s v) (hmap : mmapAllocMappedVmr env s 0 (regionSize svec)
    (PROT_READ ||| PROT_WRITE) (MAP_PRIVATE ||| MAP_DONTEXPAND) = .ok (.ok, some vmr, s')) :
    (∃ out s'', mmapCopyList env s svec = .ok (.ok, some out, s'') ∧
        LaidOut (env.byteAt s''.pt) (s''.region out.pvmr) svec out) ↔
      ListFits (env.byteAt s'.pt) (s'.region vmr).start svec := by
  rcases allocMapped_bounds h (by decide) (by decide) hmap with ⟨hne, hwithin, hend⟩
  rw [mmapCopyList_eq hmap]
  constructor
  · rintro ⟨out, s'', hrun, hlaid⟩
    rcases bind_ok_iff.1 hrun with ⟨-, -, hout⟩
    cases hout
    exact fits_of_laidOut hend hne hwithin hlaid
  · intro hfits
    rcases laidOut_of_fits hend hwithin hfits vmr with ⟨hassert, hlaid⟩
    rw [signExtend_ofNat hfits.few]
    refine ⟨⟨_, _, vmr, _⟩, s', ?_, hlaid⟩
    dsimp only
    rw [assert, if_pos hassert]
    rfl

end CopyList

def ArgEnv.zeroed : ArgEnv Unit :=
  { Env.plain with
    mapN := fun _ _ _ _ => .ok (.ok, ())
    byteAt := fun _ _ => 0 }

/-- The address space of `bootState` with one page for arguments. -/
def pageState : State Unit :=
  match mmapAllocMappedVmr ArgEnv.zeroed bootState 0 0x1000 (PROT_READ ||| PROT_WRITE)
      (MAP_PRIVATE ||| MAP_DONTEXPAND) with
  | .ok (_, _, s) => s
  | .error _ => bootState

theorem pageState_mapped :
    mmapAllocMappedVmr ArgEnv.zeroed bootState 0 0x1000 (PROT_READ ||| PROT_WRITE)
      (MAP_PRIVATE ||| MAP_DONTEXPAND) = .ok (.ok, some 1, pageState) := rfl

theorem pageState_start : (pageState.region 1).start = 0x1000000 := by decide +kernel

theorem pageState_end : (pageState.region 1).endAddr = 0x1000FFF := by decide +kernel

theorem copy_list_name :
    let svec : List CString := [⟨[0x73, 0x68], by decide, by decide⟩]
    ∃ out s'', mmapCopyList ArgEnv.zeroed bootState svec = .ok (.ok, some out, s'') ∧
      LaidOut (ArgEnv.zeroed.byteAt s''.pt) (s''.region out.pvmr) svec out := by
  intro svec
  rcases mmapInit_rel (show mmapInit Env.plain () = .ok (.ok, bootState) from rfl) with
    ⟨q, hrel, -⟩
  have hsize : regionSize svec = 0x1000 := by decide
  have hmap := pageState_mapped
  rw [← hsize] at hmap
  refine (copy_list_iff hrel.toListed hmap).2 ?_
  rw [pageState_start]
  refine ⟨by decide, ?_, fun _ => by decide, fun j _ => ?_⟩
  · rw [hsize]
    decide
  · exact BitVec.extractLsb'_zero.symm

/-- A name of 4079 bytes: with its NUL and two pointers it takes one page, and the array, which
begins right behind it, ends with the page. -/
def longName : CString where
  bytes := List.replicate 4079 0x61
  nul_free := by
    intro b hb
    rw [List.eq_of_mem_replicate hb]
    decide
  fits := by
    rw [List.length_replicate]
    decide

theorem copy_list_long_name :
    (∃ s', mmapAllocMappedVmr ArgEnv.zeroed bootState 0 (regionSize [longName])
        (PROT_READ ||| PROT_WRITE) (MAP_PRIVATE ||| MAP_DONTEXPAND) = .ok (.ok, some 1, s')) ∧
      mmapCopyList ArgEnv.zeroed bootState [longName] =
        .error (.assertion "Space allocated for argv array too small\n") := by
  have hlen : (flat [longName]).length = 4080 := by
    rw [flat_cons, flat_nil, List.append_nil, CString.length_cells, longName,
      List.length_replicate]
  have hsize : regionSize [longName] = 0x1000 := by
    rw [regionSize, countArgs_eq, hlen]
    decide
  have hmap := pageState_mapped
  rw [← hsize] at hmap
  refine ⟨⟨_, hmap⟩, ?_⟩
  rw [mmapCopyList_eq hmap, vecAddr, hlen, pageState_start, pageState_end]
  dsimp only
  rw [assert, if_neg (by decide)]
  rfl

end Mmap
end Mm
end XytherOS
