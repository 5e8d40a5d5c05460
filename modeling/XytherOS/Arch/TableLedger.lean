import XytherOS.Arch.Machine
import XytherOS.Lib.Ledger

/-!
# TableLedger — page tables as a ledger of frames

Every present entry of a page table holds a reference to a frame: those of the last level to the
frame of a page, which several pages may share, the others to a table of their own.  So do the root
tables, the page caches, and the function that has just allocated a frame and has it in hand.  The
paging functions follow the steps of the ledger that these slots make up.
-/

namespace XytherOS
namespace Arch

open Mm.Mmap (has bitIf PTE_P PTE_W PTE_U PTE_R PTE_X)
open Mm.Pmm (NPAGE PGROUND PGSZ)
open Ledger

/-! ## The bits of an entry -/

theorem has_twoPow (raw : BitVec 64) (i : Nat) (hi : i < 64) :
    has raw (BitVec.twoPow 64 i) = raw.getLsbD i := by
  rw [has, BitVec.and_twoPow]
  cases hbit : raw.getLsbD i with
  | false => simp
  | true =>
    simp only [↓reduceIte, bne_iff_ne, ne_eq]
    intro h
    have hzero := congrArg (fun x => x.getLsbD i) h
    simp [hi] at hzero

theorem has_P (raw : BitVec 64) : has raw PTE_P = raw.getLsbD 0 := has_twoPow raw 0 (by decide)

theorem has_W (raw : BitVec 64) : has raw PTE_W = raw.getLsbD 1 := has_twoPow raw 1 (by decide)

theorem has_ALLOC (raw : BitVec 64) : has raw PTE_ALLOC = raw.getLsbD 11 :=
  has_twoPow raw 11 (by decide)

theorem has_REMAP (raw : BitVec 64) : has raw PTE_REMAP = raw.getLsbD 10 :=
  has_twoPow raw 10 (by decide)

theorem frameOf_congr {raw raw' : BitVec 64}
    (h : ∀ i, 12 ≤ i → raw.getLsbD i = raw'.getLsbD i) : frameOf raw = frameOf raw' := by
  rw [frameOf, frameOf]
  apply Nat.eq_of_testBit_eq
  intro i
  rw [show (4096 : Nat) = 2 ^ 12 from rfl, Nat.testBit_div_two_pow, Nat.testBit_div_two_pow]
  exact h (i + 12) (by omega)

theorem getLsbD_PGOFF (x : BitVec 64) (i : Nat) :
    (PGOFF x).getLsbD i = (decide (i < 12) && x.getLsbD i) := by
  have hmask : (0xFFF : BitVec 64).getLsbD i = (decide (i < 64) && decide (i < 12)) := by
    rw [show (0xFFF : BitVec 64) = BitVec.ofNat 64 (2 ^ 12 - 1) from rfl, BitVec.getLsbD_ofNat,
      Nat.testBit_two_pow_sub_one]
  rw [PGOFF, BitVec.getLsbD_and, hmask]
  by_cases hi : i < 12
  · have h64 : i < 64 := by omega
    simp [hi, h64]
  · simp [hi]

theorem getLsbD_mkPte {f : Nat} {flags : BitVec 64} {i : Nat} (hi : i < 12) :
    (mkPte f flags).getLsbD i = flags.getLsbD i := by
  have hlow : (f * 4096).testBit i = false := by
    rw [show (4096 : Nat) = 2 ^ 12 from rfl, Nat.testBit_mul_two_pow]
    simp [hi]
  rw [mkPte, BitVec.getLsbD_or, getLsbD_PGOFF, BitVec.getLsbD_ofNat, hlow]
  simp [hi]

theorem frameOf_mkPte {f : Nat} {flags : BitVec 64} (hf : f < 2 ^ 52) :
    frameOf (mkPte f flags) = f := by
  have hupper : frameOf (mkPte f flags) = frameOf (BitVec.ofNat 64 (f * 4096)) := by
    apply frameOf_congr
    intro i hi
    rw [mkPte, BitVec.getLsbD_or, getLsbD_PGOFF]
    simp [Nat.not_lt.2 hi]
  rw [hupper, frameOf, BitVec.toNat_ofNat, Nat.mod_eq_of_lt (by omega)]
  omega

/-! ## Frames -/

namespace Frames

structure SameZone (fr fr' : Frames) : Prop where
  start : fr'.start = fr.start
  npages : fr'.npages = fr.npages

theorem SameZone.refl (fr : Frames) : SameZone fr fr := ⟨rfl, rfl⟩

theorem SameZone.trans {fr fr' fr'' : Frames} (h : SameZone fr fr') (h' : SameZone fr' fr'') :
    SameZone fr fr'' :=
  ⟨h'.start.trans h.start, h'.npages.trans h.npages⟩

theorem SameZone.contains {fr fr' : Frames} (h : SameZone fr fr') {f : Nat} :
    fr'.Contains f ↔ fr.Contains f := by
  rw [Contains, Contains, h.start, h.npages]

@[simp] theorem refcnt_setRefcnt (fr : Frames) (f n : Nat) :
    (fr.setRefcnt f n).refcnt = Function.update fr.refcnt f n := rfl

theorem sameZone_setRefcnt (fr : Frames) (f n : Nat) : SameZone fr (fr.setRefcnt f n) := ⟨rfl, rfl⟩

variable {fr fr' : Frames} {f : Nat}

theorem Contains.lt (h : fr.Contains f) : f < 2 ^ 52 := by
  have hlt := h.2
  have hmmio := fr.belowMmio
  omega

theorem Contains.not_ismmio (h : fr.Contains f) : ismmio f = false := by
  have hlt := h.2
  have hmmio := fr.belowMmio
  simp only [ismmio, Bool.and_eq_false_iff, decide_eq_false_iff_not]
  omega

theorem getPage_ok (h : fr.getPage = .ok (f, fr')) :
    fr.Contains f ∧ fr.refcnt f = 0 ∧ fr' = fr.setRefcnt f 1 := by
  rw [getPage] at h
  cases hfind : (List.range' fr.start fr.npages).find? fun f => fr.refcnt f == 0 with
  | none => simp [hfind] at h
  | some g =>
    simp only [hfind, Except.ok.injEq, Prod.mk.injEq] at h
    rcases h with ⟨rfl, rfl⟩
    have hmem := List.mem_of_find?_eq_some hfind
    have htest := List.find?_some hfind
    rw [List.mem_range'_1] at hmem
    exact ⟨⟨hmem.1, hmem.2⟩, by simpa using htest, rfl⟩

theorem free_safe (hf : fr.Contains f) :
    Safe AnyFault (fr.free f) fun fr' => fr' = fr.setRefcnt f (fr.refcnt f - 1) := by
  rw [free, pagePut, if_pos hf]
  by_cases hpos : fr.refcnt f ≠ 0
  · simp [assert, hpos, Safe]
  · simp [assert, hpos, Safe, AnyFault]

theorem pagePut_safe (hf : fr.Contains f) :
    Safe AnyFault (fr.pagePut f) fun x => x = (.ok, fr.setRefcnt f (fr.refcnt f - 1)) := by
  rw [pagePut, if_pos hf]
  by_cases hpos : fr.refcnt f ≠ 0
  · simp [assert, hpos, Safe]
  · simp [assert, hpos, Safe, AnyFault]

theorem pageGet_safe (hf : fr.Contains f) :
    Safe AnyFault (fr.pageGet f) fun x => x = (.ok, fr.setRefcnt f (fr.refcnt f + 1)) := by
  rw [pageGet, if_pos hf]
  by_cases hpos : fr.refcnt f ≠ 0
  · simp [assert, hpos, Safe]
  · simp [assert, hpos, Safe, AnyFault]

end Frames

/-! ## The ledger -/

inductive Slot
  | entry (i : Nat) (lvl : Level) (k : Nat)
  | root (i : Nat)
  | cache (ip pgno : Nat)
  | hand
  deriving DecidableEq

def Slot.IsPage : Slot → Prop
  | .entry _ .pt _ => True
  | _ => False

/-- What the ledger is read off; `hand` is a frame that has been allocated and not been put anywhere
yet. -/
structure World where
  nspaces : Nat
  tables : Nat → PageTables
  root : Nat → Nat
  cache : Nat → Nat → Option Nat
  hand : Option Nat
  frames : Frames

namespace World

def slot (w : World) : Slot → Option Nat
  | .entry i lvl k =>
    if i < w.nspaces ∧ (w.tables i).isP lvl k = true then some (frameOf ((w.tables i).entry lvl k))
    else none
  | .root i => if i < w.nspaces then some (w.root i) else none
  | .cache ip pgno => w.cache ip pgno
  | .hand => w.hand

def writable (w : World) : Slot → Bool
  | .entry i .pt v => decide (i < w.nspaces) && (w.tables i).isP .pt v &&
      has ((w.tables i).entry .pt v) PTE_W
  | _ => false

def book (w : World) : Book Slot Nat :=
  { slot := w.slot, refcnt := w.frames.refcnt, writable := w.writable }

def on (w : World) (i : Nat) (mem : Mem) : World :=
  { w with tables := Function.update w.tables i mem.tables, frames := mem.frames }

def withHand (w : World) (hand : Option Nat) : World := { w with hand := hand }

end World

/-- The page tables `t` are a tree in the user half, all frames they refer to are in the zone, and
every page was allocated when it was mapped. -/
structure Tidy (t : PageTables) (fr : Frames) : Prop where
  closed : ∀ lvl up k, lvl.above = some up → t.isP lvl k = true → t.isP up (k / 512) = true
  zone : ∀ lvl k, t.isP lvl k = true → fr.Contains (frameOf (t.entry lvl k))
  alloc : ∀ v, t.isP .pt v = true → has (t.entry .pt v) PTE_ALLOC = true
  user : ∀ k, t.isP .pml4 k = true → k < userTables

/-! ## Writing one entry -/

namespace PageTables

variable {t : PageTables} {lvl l : Level} {k j : Nat} {raw : BitVec 64}

@[simp] theorem entry_set_self : (t.set lvl k raw).entry lvl k = raw := by simp [set]

theorem entry_set_of_ne (h : ¬ (l = lvl ∧ j = k)) : (t.set lvl k raw).entry l j = t.entry l j := by
  simp [set, h]

@[simp] theorem isP_set_self : (t.set lvl k raw).isP lvl k = has raw PTE_P := by simp [isP]

theorem isP_set_of_ne (h : ¬ (l = lvl ∧ j = k)) : (t.set lvl k raw).isP l j = t.isP l j := by
  simp only [isP, entry_set_of_ne h]

theorem isP_set_zero : (t.set lvl k 0).isP l j = true ↔ t.isP l j = true ∧ ¬ (l = lvl ∧ j = k) := by
  by_cases h : l = lvl ∧ j = k
  · rcases h with ⟨rfl, rfl⟩
    simp [has]
  · simp [isP_set_of_ne h, h]

@[simp] theorem entry_graft_self : (t.graft lvl k raw).entry lvl k = raw := by simp [graft]

theorem isP_graft_below (h : l.above = some lvl) (hj : j / 512 = k) :
    (t.graft lvl k raw).isP l j = false := by
  have hne : ¬ (l = lvl ∧ j = k) := by
    rintro ⟨rfl, -⟩
    cases l <;> simp [Level.above] at h
  simp [isP, graft, hne, h, hj, has]

theorem entry_graft_of_ne (h : ¬ (l = lvl ∧ j = k)) (hb : ¬ (l.above = some lvl ∧ j / 512 = k)) :
    (t.graft lvl k raw).entry l j = t.entry l j := by
  simp [graft, h, hb]

theorem isP_graft_of_ne (h : ¬ (l = lvl ∧ j = k))
    (hbelow : ∀ l j, l.above = some lvl → j / 512 = k → t.isP l j = false) :
    (t.graft lvl k raw).isP l j = t.isP l j := by
  by_cases hb : l.above = some lvl ∧ j / 512 = k
  · rw [isP_graft_below hb.1 hb.2, hbelow l j hb.1 hb.2]
  · simp only [isP, entry_graft_of_ne h hb]

theorem reached_eq_isP {fr : Frames} (h : Tidy t fr) : t.reached lvl k = t.isP lvl k := by
  cases hp : t.isP lvl k with
  | false => cases lvl <;> simp [reached, hp]
  | true =>
    cases lvl with
    | pml4 => simp [reached, hp]
    | pdpt => simp [reached, hp, h.closed .pdpt .pml4 k rfl hp]
    | pdt =>
      have h3 := h.closed .pdt .pdpt k rfl hp
      simp [reached, hp, h3, h.closed .pdpt .pml4 _ rfl h3]
    | pt =>
      have h2 := h.closed .pt .pdt k rfl hp
      have h3 := h.closed .pdt .pdpt _ rfl h2
      simp [reached, hp, h2, h3, h.closed .pdpt .pml4 _ rfl h3]

end PageTables

namespace World

variable {w : World} {i : Nat} {mem : Mem} {lvl : Level} {k : Nat} {raw : BitVec 64}

@[simp] theorem on_nspaces : (w.on i mem).nspaces = w.nspaces := rfl

@[simp] theorem on_frames : (w.on i mem).frames = mem.frames := rfl

@[simp] theorem on_hand : (w.on i mem).hand = w.hand := rfl

@[simp] theorem on_tables_self : (w.on i mem).tables i = mem.tables := by simp [on]

theorem slot_entry (hi : i < w.nspaces) :
    (w.on i mem).slot (.entry i lvl k) =
      if mem.tables.isP lvl k = true then some (frameOf (mem.tables.entry lvl k)) else none := by
  simp [slot, hi]

theorem slot_entry_some (hi : i < w.nspaces) (hp : mem.tables.isP lvl k = true) :
    (w.on i mem).slot (.entry i lvl k) = some (frameOf (mem.tables.entry lvl k)) := by
  simp [slot_entry hi, hp]

theorem slot_entry_none (hi : i < w.nspaces) (hp : mem.tables.isP lvl k = false) :
    (w.on i mem).slot (.entry i lvl k) = none := by
  simp [slot_entry hi, hp]

theorem writable_page (hi : i < w.nspaces) :
    (w.on i mem).writable (.entry i .pt k) =
      (mem.tables.isP .pt k && has (mem.tables.entry .pt k) PTE_W) := by
  simp [writable, hi]

theorem slot_update {mem' : Mem} (hi : i < w.nspaces)
    (hentry : ∀ l j, ¬ (l = lvl ∧ j = k) → mem'.tables.isP l j = mem.tables.isP l j ∧
      (mem.tables.isP l j = true → mem'.tables.entry l j = mem.tables.entry l j)) :
    (w.on i mem').slot =
      Function.update (w.on i mem).slot (.entry i lvl k) ((w.on i mem').slot (.entry i lvl k)) := by
  funext a
  by_cases ha : a = .entry i lvl k
  · subst ha
    rw [Function.update_self]
  · rw [Function.update_of_ne ha]
    cases a with
    | root => rfl
    | cache => rfl
    | hand => rfl
    | entry i' l j =>
      by_cases hii : i' = i
      · subst hii
        have hne : ¬ (l = lvl ∧ j = k) := by
          rintro ⟨rfl, rfl⟩
          exact ha rfl
        rcases hentry l j hne with ⟨hp, he⟩
        rw [slot_entry hi, slot_entry hi, hp]
        by_cases hpt : mem.tables.isP l j = true
        · rw [if_pos hpt, if_pos hpt, he hpt]
        · rw [if_neg hpt, if_neg hpt]
      · simp [slot, on, Function.update_of_ne hii]

theorem writable_update {mem' : Mem} (hi : i < w.nspaces)
    (hentry : ∀ l j, ¬ (l = lvl ∧ j = k) → mem'.tables.isP l j = mem.tables.isP l j ∧
      (mem.tables.isP l j = true → mem'.tables.entry l j = mem.tables.entry l j)) :
    (w.on i mem').writable =
      Function.update (w.on i mem).writable (.entry i lvl k)
        ((w.on i mem').writable (.entry i lvl k)) := by
  funext a
  by_cases ha : a = .entry i lvl k
  · subst ha
    rw [Function.update_self]
  · rw [Function.update_of_ne ha]
    cases a with
    | root => rfl
    | cache => rfl
    | hand => rfl
    | entry i' l j =>
      by_cases hl : l = .pt
      · subst hl
        by_cases hii : i' = i
        · subst hii
          have hne : ¬ (Level.pt = lvl ∧ j = k) := by
            rintro ⟨rfl, rfl⟩
            exact ha rfl
          rcases hentry .pt j hne with ⟨hp, he⟩
          rw [writable_page hi, writable_page hi, hp]
          cases hpt : mem.tables.isP .pt j with
          | false => rfl
          | true => rw [he hpt]
        · have htables : (w.on i mem').tables i' = (w.on i mem).tables i' := by
            simp [on, Function.update_of_ne hii]
          rw [writable, writable, htables]
          rfl
      · cases l <;> first | rfl | exact absurd rfl hl

theorem setEntry_others (mem : Mem) (lvl : Level) (k : Nat) (raw : BitVec 64) (l : Level) (j : Nat)
    (hne : ¬ (l = lvl ∧ j = k)) :
    (mem.setEntry lvl k raw).tables.isP l j = mem.tables.isP l j ∧
      (mem.tables.isP l j = true →
        (mem.setEntry lvl k raw).tables.entry l j = mem.tables.entry l j) :=
  ⟨PageTables.isP_set_of_ne hne, fun _ => PageTables.entry_set_of_ne hne⟩

theorem writable_table (h : lvl ≠ .pt) : w.writable (.entry i lvl k) = false := by
  cases lvl <;> first | rfl | exact absurd rfl h

theorem book_drop (hi : i < w.nspaces) (fr : Frames)
    (hfr : fr = mem.frames.setRefcnt (frameOf (mem.tables.entry lvl k))
      (mem.frames.refcnt (frameOf (mem.tables.entry lvl k)) - 1)) :
    (w.on i ((mem.setEntry lvl k 0).withFrames fr)).book =
      (w.on i mem).book.drop (.entry i lvl k) (frameOf (mem.tables.entry lvl k)) := by
  have hothers : ∀ l j, ¬ (l = lvl ∧ j = k) →
      ((mem.setEntry lvl k 0).withFrames fr).tables.isP l j = mem.tables.isP l j ∧
        (mem.tables.isP l j = true →
          ((mem.setEntry lvl k 0).withFrames fr).tables.entry l j = mem.tables.entry l j) :=
    setEntry_others mem lvl k 0
  have hp : ((mem.setEntry lvl k 0).withFrames fr).tables.isP lvl k = false := by
    simp [Mem.withFrames, Mem.setEntry, has]
  have hw : (w.on i ((mem.setEntry lvl k 0).withFrames fr)).writable (.entry i lvl k) = false := by
    by_cases hl : lvl = .pt
    · subst hl
      rw [writable_page hi, hp]
      rfl
    · exact writable_table hl
  rw [book, book, Book.drop, Book.mk.injEq]
  refine ⟨?_, ?_, ?_⟩
  · rw [slot_update hi hothers, slot_entry_none hi hp]
  · rw [on_frames, on_frames, Mem.withFrames, hfr]
    rfl
  · rw [writable_update hi hothers, hw]

theorem book_take (hi : i < w.nspaces) {f : Nat} (hl : lvl ≠ .pt) {mem' : Mem}
    (hothers : ∀ l j, ¬ (l = lvl ∧ j = k) → mem'.tables.isP l j = mem.tables.isP l j ∧
      (mem.tables.isP l j = true → mem'.tables.entry l j = mem.tables.entry l j))
    (hp : mem'.tables.isP lvl k = true) (hframe : frameOf (mem'.tables.entry lvl k) = f)
    (hfr : mem'.frames = mem.frames.setRefcnt f 1) :
    (w.on i mem').book = (w.on i mem).book.take (.entry i lvl k) f := by
  rw [book, book, Book.take, Book.mk.injEq]
  refine ⟨?_, ?_, ?_⟩
  · rw [slot_update hi hothers, slot_entry_some hi hp, hframe]
  · rw [on_frames, on_frames, hfr]
    rfl
  · rw [writable_update hi hothers, writable_table hl]
    funext a
    by_cases ha : a = .entry i lvl k
    · subst ha
      rw [Function.update_self]
      exact (writable_table hl).symm
    · rw [Function.update_of_ne ha]

theorem book_lose : ((w.withHand none).on i mem).book = (w.on i mem).book.lose .hand := by
  rw [book, book, Book.lose, Book.mk.injEq]
  refine ⟨?_, rfl, rfl⟩
  funext a
  by_cases ha : a = .hand
  · subst ha
    rw [Function.update_self]
    rfl
  · rw [Function.update_of_ne ha]
    cases a <;> first | rfl | exact absurd rfl ha

theorem book_pick {f : Nat} :
    ((w.withHand (some f)).on i (mem.withFrames (mem.frames.setRefcnt f 1))).book =
      (w.on i mem).book.take .hand f := by
  rw [book, book, Book.take, Book.mk.injEq]
  refine ⟨?_, rfl, rfl⟩
  funext a
  by_cases ha : a = .hand
  · subst ha
    rw [Function.update_self]
    rfl
  · rw [Function.update_of_ne ha]
    cases a <;> first | rfl | exact absurd rfl ha

theorem writable_setPage (hi : i < w.nspaces) :
    (w.on i (mem.setEntry .pt k raw)).writable =
      Function.update (w.on i mem).writable (.entry i .pt k) (has raw PTE_P && has raw PTE_W) := by
  have hself : (w.on i (mem.setEntry .pt k raw)).writable (.entry i .pt k) =
      (has raw PTE_P && has raw PTE_W) := by
    rw [writable_page hi]
    simp [Mem.setEntry]
  rw [writable_update hi (setEntry_others mem .pt k raw), hself]

theorem book_move (hi : i < w.nspaces) (hp : has raw PTE_P = true) :
    ((w.withHand none).on i (mem.setEntry .pt k raw)).book =
      (w.on i mem).book.move .hand (.entry i .pt k) (frameOf raw) (has raw PTE_W) := by
  have hothers := setEntry_others mem .pt k raw
  rw [book, book, Book.move, Book.mk.injEq]
  refine ⟨?_, rfl, ?_⟩
  · funext a
    by_cases ha : a = .entry i .pt k
    · subst ha
      have hi' : i < (w.withHand none).nspaces := hi
      have hnew : (mem.setEntry .pt k raw).tables.isP .pt k = true :=
        PageTables.isP_set_self.trans hp
      rw [Function.update_self, slot_entry_some hi' hnew]
      exact congrArg some (congrArg frameOf PageTables.entry_set_self)
    · rw [Function.update_of_ne ha]
      by_cases hh : a = .hand
      · subst hh
        rw [Function.update_self]
        rfl
      · rw [Function.update_of_ne hh]
        have hslot := congrFun (slot_update hi hothers) a
        rw [Function.update_of_ne ha] at hslot
        refine Eq.trans ?_ hslot
        cases a <;> first | rfl | exact absurd rfl hh
  · have hw : (w.on i (mem.setEntry .pt k raw)).writable = _ := writable_setPage hi
    rw [hp, Bool.true_and] at hw
    exact hw

theorem book_absent (hi : i < w.nspaces) (hp : mem.tables.isP .pt k = false)
    (hraw : has raw PTE_P = false) :
    (w.on i (mem.setEntry .pt k raw)).book = (w.on i mem).book := by
  have hothers := setEntry_others mem .pt k raw
  have hnew : (mem.setEntry .pt k raw).tables.isP .pt k = false :=
    PageTables.isP_set_self.trans hraw
  have hold : (w.on i mem).writable (.entry i .pt k) = false := by
    rw [writable_page hi, hp]
    rfl
  rw [book, book, Book.mk.injEq]
  refine ⟨?_, rfl, ?_⟩
  · rw [slot_update hi hothers, slot_entry_none hi hnew, ← slot_entry_none hi hp,
      Function.update_eq_self]
  · rw [writable_setPage hi, hraw, Bool.false_and, ← hold, Function.update_eq_self]

theorem book_protect (hi : i < w.nspaces) (hp : mem.tables.isP .pt k = true)
    (hraw : has raw PTE_P = true) (hframe : frameOf raw = frameOf (mem.tables.entry .pt k)) :
    (w.on i (mem.setEntry .pt k raw)).book =
      (w.on i mem).book.setWritable (.entry i .pt k) (has raw PTE_W) := by
  have hothers := setEntry_others mem .pt k raw
  have hnew : (mem.setEntry .pt k raw).tables.isP .pt k = true :=
    PageTables.isP_set_self.trans hraw
  have hself : frameOf ((mem.setEntry .pt k raw).tables.entry .pt k) =
      frameOf (mem.tables.entry .pt k) :=
    (congrArg frameOf PageTables.entry_set_self).trans hframe
  rw [book, book, Book.setWritable, Book.mk.injEq]
  refine ⟨?_, rfl, ?_⟩
  · rw [slot_update hi hothers, slot_entry_some hi hnew, hself, ← slot_entry_some hi hp,
      Function.update_eq_self]
  · rw [writable_setPage hi, hraw, Bool.true_and]

end World

/-! ## What the paging functions keep -/

theorem Tidy.congr {t : PageTables} {fr fr' : Frames} (h : Tidy t fr) (hfr : fr.SameZone fr') :
    Tidy t fr' :=
  ⟨h.closed, fun lvl k hp => hfr.contains.2 (h.zone lvl k hp), h.alloc, h.user⟩

theorem Tidy.set_zero {t : PageTables} {fr : Frames} {lvl : Level} {k : Nat} (h : Tidy t fr)
    (hleaf : ∀ l j, l.above = some lvl → j / 512 = k → t.isP l j = false) :
    Tidy (t.set lvl k 0) fr := by
  have hentry : ∀ l j, (t.set lvl k 0).isP l j = true →
      t.isP l j = true ∧ (t.set lvl k 0).entry l j = t.entry l j := by
    intro l j hp
    rw [PageTables.isP_set_zero] at hp
    exact ⟨hp.1, PageTables.entry_set_of_ne hp.2⟩
  refine ⟨?_, ?_, ?_, ?_⟩
  · intro l up j habove hp
    have hold := (hentry l j hp).1
    rw [PageTables.isP_set_zero]
    refine ⟨h.closed l up j habove hold, ?_⟩
    rintro ⟨rfl, rfl⟩
    simp [hleaf l j habove rfl] at hold
  · intro l j hp
    rw [(hentry l j hp).2]
    exact h.zone l j (hentry l j hp).1
  · intro v hp
    rw [(hentry .pt v hp).2]
    exact h.alloc v (hentry .pt v hp).1
  · intro j hp
    exact h.user j (hentry .pml4 j hp).1

/-- What a paging function does in the address space `i`: the tables stay tidy, and the ledger takes
steps. -/
structure Keeps (strict : Prop) (w : World) (i : Nat) (mem mem' : Mem) : Prop where
  zone : mem.frames.SameZone mem'.frames
  tidy : Tidy mem'.tables mem'.frames
  steps : Sound Slot.IsPage (w.on i mem).book →
    Steps Slot.IsPage strict (w.on i mem).book (w.on i mem').book

section Keeps

variable {strict : Prop} {w : World} {i : Nat} {mem mem' mem'' : Mem} {lvl : Level} {k v f : Nat}

theorem Keeps.refl (h : Tidy mem.tables mem.frames) : Keeps strict w i mem mem :=
  ⟨.refl _, h, fun _ => .refl⟩

theorem Keeps.trans (h : Keeps strict w i mem mem') (h' : Keeps strict w i mem' mem'') :
    Keeps strict w i mem mem'' :=
  ⟨h.zone.trans h'.zone, h'.tidy, fun hs =>
    (h.steps hs).trans (h'.steps (hs.steps (h.steps hs)))⟩

theorem Keeps.tick (h : Keeps strict w i mem mem') : Keeps strict w i mem mem'.tick :=
  ⟨h.zone, h.tidy, h.steps⟩

variable (strict) in
theorem dropEntry_safe (hi : i < w.nspaces) (h : Tidy mem.tables mem.frames)
    (hp : mem.tables.isP lvl k = true)
    (hleaf : ∀ l j, l.above = some lvl → j / 512 = k → mem.tables.isP l j = false) :
    Safe AnyFault ((mem.setEntry lvl k 0).free (frameOf (mem.tables.entry lvl k))) fun mem' =>
      Keeps strict w i mem mem' ∧ mem'.tables = mem.tables.set lvl k 0 := by
  rw [Mem.free]
  refine (Frames.free_safe (h.zone lvl k hp)).bind ?_
  intro fr hfr
  have hzone : mem.frames.SameZone fr := hfr ▸ Frames.sameZone_setRefcnt _ _ _
  refine ⟨⟨hzone, (h.set_zero hleaf).congr hzone, ?_⟩, rfl⟩
  intro _
  rw [World.book_drop hi fr hfr]
  exact .single (.drop _ _ (World.slot_entry_some hi hp))

variable (strict) in
theorem unmap_safe (hi : i < w.nspaces) (h : Tidy mem.tables mem.frames) :
    Safe AnyFault (unmap mem v) fun mem' => Keeps strict w i mem mem' ∧
      ∀ l j, mem'.tables.isP l j = true → mem.tables.isP l j = true ∧ ¬ (l = .pt ∧ j = v) := by
  rw [unmap, PageTables.reached_eq_isP h]
  by_cases hp : mem.tables.isP .pt v = true
  · rw [if_pos hp]
    have halloc := h.alloc v hp
    rw [Mem.pte, if_pos halloc]
    refine (dropEntry_safe strict hi h hp ?_).mono ?_
    · intro l j habove
      cases l <;> simp [Level.above] at habove
    · rintro mem' ⟨hkeeps, htables⟩
      refine ⟨hkeeps, ?_⟩
      intro l j hpl
      rwa [htables, PageTables.isP_set_zero] at hpl
  · rw [if_neg hp]
    refine ⟨.refl h, ?_⟩
    intro l j hpl
    refine ⟨hpl, ?_⟩
    rintro ⟨rfl, rfl⟩
    exact hp hpl

variable (strict) in
theorem unmapPages_safe (hi : i < w.nspaces) {n : Nat} {va : BitVec 64}
    (h : Tidy mem.tables mem.frames) :
    Safe AnyFault (unmapPages n va mem) fun mem' => Keeps strict w i mem mem' ∧
      ∀ l j, mem'.tables.isP l j = true → mem.tables.isP l j = true := by
  induction n generalizing va mem with
  | zero => exact ⟨.refl h, fun _ _ hp => hp⟩
  | succ n ih =>
    rw [unmapPages]
    refine (unmap_safe strict hi h).bind ?_
    rintro mem1 ⟨hkeeps, hshrunk⟩
    refine (ih hkeeps.tidy).mono ?_
    rintro mem2 ⟨hkeeps2, hshrunk2⟩
    exact ⟨hkeeps.trans hkeeps2, fun l j hp => (hshrunk l j (hshrunk2 l j hp)).1⟩

variable (strict) in
theorem unmapN_safe (hi : i < w.nspaces) {va sz : BitVec 64} (h : Tidy mem.tables mem.frames) :
    Safe AnyFault (unmapN mem va sz) fun mem' => Keeps strict w i mem mem' ∧
      ∀ l j, mem'.tables.isP l j = true → mem.tables.isP l j = true :=
  unmapPages_safe strict hi h

end Keeps

end Arch
end XytherOS
