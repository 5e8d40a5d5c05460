import XytherOS.Fs.DescriptorCount

/-!
# DescriptorLaw — runs of the calls on descriptors

`dup` uses the slot behind the table and not the lowest free one, `file_dup` reads a slot before it
looks at the descriptor, it does not close the file of the slot `0`, it takes a negative `fd2` for the
`dup` of `-1`, and `file_copy` leaves the free slots of the child as they come from the allocator.
A run is right exactly when none of its calls meets one of these.
-/

namespace XytherOS
namespace Fs
namespace Descriptors

open Function

variable {C F : Type} [DecidableEq C] [DecidableEq F]

/-! ## Tables as slots -/

namespace State

def slot (s : State C F) (a : C × Nat) : Option F := ((s.fctx a.1).fcFiles.getD [])[a.2]?.join

def Sized (s : State C F) : Prop :=
  ∀ c, (s.fctx c).fcNfile = (((s.fctx c).fcFiles.getD []).length : Int)

end State

/-- The tables are as long as they say, and the references of the open files are their slots. -/
structure Counted (s : State C F) : Prop extends Counts s.slot s where
  sized : s.Sized

def Lowest (s : State C F) (c : C) (i : Nat) : Prop :=
  s.slot (c, i) = none ∧ ∀ j < i, s.slot (c, j) ≠ none

def Returns (s : State C F) : Call C F → Int → State C F → Prop
  | .openFile c m, fd, s' => ∃ (i : Nat) (f : F), fd = i ∧ m.place = some f ∧ Lowest s c i ∧
      s'.slot = update s.slot (c, i) (some f)
  | .dup c fd1 _, fd, s' => ∃ (i j : Nat) (f : F), fd = i ∧ fd1 = j ∧ s.slot (c, j) = some f ∧
      Lowest s c i ∧ s'.slot = update s.slot (c, i) (some f)
  | .dup2 c fd1 fd2 _, fd, s' => ∃ (i j : Nat) (f : F), fd = fd2 ∧ fd2 = i ∧ fd1 = j ∧
      s.slot (c, j) = some f ∧ s'.slot = update s.slot (c, i) (some f) ∧
      -- another file that was there has lost one reference, and is released with the last one
      ∀ g, s.slot (c, i) = some g → g ≠ f →
        (s'.live g = true ↔ 1 < s.refcnt g) ∧ (s'.live g = true → s'.refcnt g = s.refcnt g - 1)
  | .close c fd, _, s' => ∃ (i : Nat) (f : F), fd = i ∧ s.slot (c, i) = some f ∧
      s'.slot = update s.slot (c, i) none
  | .fork dst src _, _, s' => ∀ a, s'.slot a = if a.1 = dst then s.slot (src, a.2) else s.slot a

/-- A call is right: the references are counted behind it, and it has done what it says. -/
def Right (s : State C F) (a : Call C F) (ret : Except Errno Int) (s' : State C F) : Prop :=
  Counted s' ∧
    match ret with
    | .error _ => s'.slot = s.slot
    | .ok fd => Returns s a fd s'

def Law (s : State C F) (a : Call C F) (s' : State C F) : Prop :=
  ∃ ret, call s a = .ok (ret, s') ∧ Right s a ret s'

/-- `fd` is a descriptor of the table of `c`, or `c` has no table. -/
def inTable (s : State C F) (c : C) (fd : Int) : Bool :=
  (s.fctx c).fcFiles.isNone || decide (0 ≤ fd ∧ fd < (s.fctx c).fcNfile)

def full (s : State C F) (c : C) : Bool := ((s.fctx c).fcFiles.getD []).all Option.isSome

def noRoom (s : State C F) (c : C) (m : Memory F) : Bool :=
  (krealloc m ((s.fctx c).fcFiles.getD []) ((s.fctx c).fcNfile + 1)).isNone

/-- The free slots of `src` are free in the block that `kmalloc` returns. -/
def cleared (s : State C F) (src : C) (m : Memory F) : Bool :=
  (kmalloc m (s.fctx src).fcNfile).isNone ||
    (List.range (s.fctx src).fcNfile.toNat).all fun i =>
      (s.slot (src, i)).isSome || (m.junk i).isNone

def fine (s : State C F) : Call C F → Bool
  | .dup c fd m =>
    inTable s c fd && ((s.slot (c, fd.toNat)).isNone || full s c || noRoom s c m)
  | .dup2 c fd1 fd2 m =>
    inTable s c fd1 && ((s.slot (c, fd1.toNat)).isNone || decide (0 < fd2) ||
      decide (fd2 = 0) && (decide (fd1 = 0) || (s.slot (c, 0)).isNone) ||
      decide (fd2 < 0) && noRoom s c m)
  | .fork _ src m => cleared s src m
  | _ => true

/-! ## Accesses -/

section Tables

omit [DecidableEq F]

variable {s : State C F} {c : C} {files : List (Option F)} {a : C × Nat} {i n : Nat}

theorem slot_eq (hfiles : (s.fctx c).fcFiles = some files) (i : Nat) :
    s.slot (c, i) = files[i]?.join := by
  simp [State.slot, hfiles]

theorem State.Sized.length (hs : s.Sized) (hfiles : (s.fctx c).fcFiles = some files) :
    (s.fctx c).fcNfile = (files.length : Int) := by
  simpa [hfiles] using hs c

theorem slot_beyond (hs : s.Sized) (hi : (s.fctx c).fcNfile ≤ (i : Int)) : s.slot (c, i) = none := by
  have hlen : ((s.fctx c).fcFiles.getD []).length ≤ i := by
    have hc := hs c
    omega
  simp [State.slot, List.getElem?_eq_none hlen]

theorem files_of_slot {f : F} (ha : s.slot (c, i) = some f) :
    ∃ files, (s.fctx c).fcFiles = some files ∧ files[i]?.join = some f ∧ i < files.length := by
  cases hfiles : (s.fctx c).fcFiles with
  | none => simp [State.slot, hfiles] at ha
  | some files =>
    rw [slot_eq hfiles] at ha
    refine ⟨files, rfl, ha, ?_⟩
    by_contra hle
    simp [List.getElem?_eq_none (Nat.le_of_not_lt hle)] at ha

theorem readSlot_in (hi : i < files.length) : readSlot files i = .ok files[i]?.join := by
  simp [readSlot, hi]

theorem readSlot_out {fd : Int} (hfd : ¬ (0 ≤ fd ∧ fd < files.length)) :
    readSlot files fd = .error .wildAccess := by
  rw [readSlot]
  by_cases hneg : 0 ≤ fd
  · have hlen : files.length ≤ fd.toNat := by omega
    simp [hneg, List.getElem?_eq_none hlen]
  · simp [hneg]

theorem krealloc_spec {m : Memory F} {tmp : List (Option F)} {n : Nat}
    (h : krealloc m files n = some tmp) :
    tmp.length = n ∧ ∀ i < files.length, i < n → tmp[i]? = files[i]? := by
  simp only [krealloc, Option.ite_none_right_eq_some, Option.some.injEq, Int.toNat_natCast] at h
  rcases h with ⟨-, rfl⟩
  refine ⟨by simp, fun i hi hn => ?_⟩
  simp [hi, hn]

theorem slot_setCtx (s : State C F) (c : C) (ctx : FileCtx F) (a : C × Nat) :
    (s.setCtx c ctx).slot a = if a.1 = c then (ctx.fcFiles.getD [])[a.2]?.join else s.slot a := by
  by_cases hc : a.1 = c
  · simp [State.slot, State.setCtx, hc]
  · simp [State.slot, State.setCtx, hc]

theorem sized_setCtx (hs : s.Sized) (c : C) {ctx : FileCtx F}
    (hctx : ctx.fcNfile = ((ctx.fcFiles.getD []).length : Int)) : (s.setCtx c ctx).Sized := by
  intro d
  by_cases hd : d = c
  · subst hd
    simpa [State.setCtx] using hctx
  · simpa [State.setCtx, update_of_ne hd] using hs d

theorem slot_refill (hsame : ∀ i, files[i]?.join = s.slot (c, i)) (n : Int) :
    (s.setCtx c ⟨some files, n⟩).slot = s.slot := by
  funext a
  rcases a with ⟨d, i⟩
  rw [slot_setCtx]
  by_cases hd : d = c
  · subst hd
    rw [if_pos rfl]
    exact hsame i
  · rw [if_neg hd]

theorem slot_set {file : Option F} (hi : i < files.length)
    (hsame : ∀ j, j ≠ i → files[j]?.join = s.slot (c, j)) (n : Int) :
    (s.setCtx c ⟨some (files.set i file), n⟩).slot = update s.slot (c, i) file := by
  funext a
  rcases a with ⟨d, j⟩
  rw [slot_setCtx]
  by_cases hd : d = c
  · subst hd
    by_cases hj : j = i
    · subst hj
      simp [hi]
    · have hne : (d, j) ≠ (d, i) := fun heq => hj (congrArg Prod.snd heq)
      rw [update_of_ne hne, if_pos rfl, Option.getD_some, List.getElem?_set_ne (Ne.symm hj)]
      exact hsame j hj
  · have hne : (d, j) ≠ (c, i) := fun heq => hd (congrArg Prod.fst heq)
    rw [update_of_ne hne, if_neg hd]

theorem setSlot_spec (hs : s.Sized) (hfiles : (s.fctx c).fcFiles = some files)
    (hi : i < files.length) (file : Option F) :
    ∃ s', s.setSlot c i file = .ok s' ∧ s'.slot = update s.slot (c, i) file ∧
      s'.live = s.live ∧ s'.refcnt = s.refcnt ∧ s'.Sized ∧
      ∃ files', (s'.fctx c).fcFiles = some files' ∧ files'.length = files.length := by
  have hlen := hs.length hfiles
  have hin : (0 : Int) ≤ i ∧ (i : Int) < files.length := by omega
  refine ⟨s.setCtx c ⟨some (files.set i file), files.length⟩, ?_, ?_, rfl, rfl, ?_, ?_⟩
  · simp [State.setSlot, hfiles, writeSlot, hi, hlen]
  · exact slot_set hi (fun j _ => (slot_eq hfiles j).symm) _
  · exact sized_setCtx hs c (by simp)
  · exact ⟨files.set i file, by simp [State.setCtx], by simp⟩

theorem slot_congr {s' : State C F} (hctx : s'.fctx = s.fctx) : s'.slot = s.slot := by
  funext a
  rw [State.slot, State.slot, hctx]

theorem sized_congr {s' : State C F} (hs : s.Sized) (hctx : s'.fctx = s.fctx) : s'.Sized := by
  intro c
  rw [hctx]
  exact hs c

end Tables

variable {s : State C F} {c : C}

variable {m : Memory F} {f : F} {fd fd1 fd2 : Int} {j : Nat}

theorem Counted.failed (h : Counted s) (hf : s.live f = false) :
    Counted ((s.falloc f).fdestroy f) := by
  have hlive : ((s.falloc f).fdestroy f).live = s.live := by
    funext g
    by_cases hg : g = f
    · subst hg
      simp [State.fdestroy, hf]
    · simp [State.fdestroy, State.falloc, hg]
  refine ⟨⟨h.finite, ?_, fun g => ?_⟩, h.sized⟩
  · intro g hg
    rw [hlive] at hg
    have hne : g ≠ f := by
      rintro rfl
      simp [hf] at hg
    have hrefcnt : ((s.falloc f).fdestroy f).refcnt g = s.refcnt g := by
      simp [State.fdestroy, State.falloc, update_of_ne hne]
    exact hrefcnt.trans (h.counted g hg)
  · rw [hlive]
    exact h.held g

theorem growTable_spec (h : Counted s) {files : List (Option F)}
    (hfiles : (s.fctx c).fcFiles = some files) (j : Nat) (m : Memory F) :
    (s.growTable c files j m = none ∧ files.length ≤ j ∧ krealloc m files (j + 1) = none) ∨
      (files.length ≤ j → krealloc m files (j + 1) ≠ none) ∧
      ∃ s', s.growTable c files j m = some s' ∧ s'.slot = s.slot ∧ Counted s' ∧
        ∃ files', (s'.fctx c).fcFiles = some files' ∧ j < files'.length := by
  have hlen := h.sized.length hfiles
  by_cases hj : j < files.length
  · right
    refine ⟨fun hle => by omega, s, ?_, rfl, h, files, hfiles, hj⟩
    simp [State.growTable, hlen, hj]
  cases hroom : krealloc m files (j + 1) with
  | none =>
    left
    exact ⟨by simp [State.growTable, hlen, hj, hroom], by omega, rfl⟩
  | some tmp =>
    right
    rcases krealloc_spec (n := j + 1) (by exact_mod_cast hroom) with ⟨htmp, hkeep⟩
    have hcleared : (clearFrom tmp files.length).length = j + 1 := by
      simp [clearFrom, htmp]
      omega
    have hsame : ∀ i, (clearFrom tmp files.length)[i]?.join = s.slot (c, i) := by
      intro i
      rw [slot_eq hfiles, clearFrom, Int.toNat_natCast]
      by_cases hi : i < files.length
      · rw [List.getElem?_append_left (by simp [htmp, hi]; omega), List.getElem?_take_of_lt hi,
          hkeep i hi (by omega)]
      · -- behind the old end there are no files
        have hnone : files[i]? = none := List.getElem?_eq_none (by omega)
        rw [hnone, List.getElem?_append_right (by simp; omega), List.getElem?_replicate]
        split_ifs <;> rfl
    refine ⟨fun _ => by simp, s.setCtx c ⟨some (clearFrom tmp files.length), j + 1⟩, ?_,
      slot_refill hsame _, ?_, clearFrom tmp files.length, by simp [State.setCtx], by omega⟩
    · simp [State.growTable, hlen, hj, hroom]
    · refine ⟨?_, sized_setCtx h.sized c (by simp [hcleared])⟩
      rw [slot_refill hsame]
      exact h.toCounts.congr rfl rfl

theorem vacate_spec (h : Counted s) {files : List (Option F)}
    (hfiles : (s.fctx c).fcFiles = some files) (hj : j < files.length) :
    ∃ s', s.vacate c j = .ok s' ∧ s'.slot = update s.slot (c, j) none ∧ Counted s' ∧
      ∃ files', (s'.fctx c).fcFiles = some files' ∧ j < files'.length := by
  have hget := readSlot_in hj
  rw [← slot_eq hfiles] at hget
  cases hslot : s.slot (c, j) with
  | none =>
    refine ⟨s, ?_, ?_, h, files, hfiles, hj⟩
    · simp [State.vacate, hfiles, hget, hslot]
    · rw [← hslot, update_eq_self]
  | some f =>
    have hctx := fclose_fctx s f
    rcases setSlot_spec (sized_congr h.sized hctx) (hctx ▸ hfiles) hj none with
      ⟨s', hset, hslot', hlive', hrefcnt', hsized', files', hfiles', hlen'⟩
    rw [slot_congr hctx] at hslot'
    refine ⟨s', ?_, hslot', ⟨?_, hsized'⟩, files', hfiles', by omega⟩
    · simp [State.vacate, State.flock, hfiles, hget, hslot, h.live hslot, hset]
    · rw [hslot']
      exact (h.toCounts.fclose hslot).congr hlive' hrefcnt'

theorem takeSlot_spec (h : Counted s) {files : List (Option F)}
    (hfiles : (s.fctx c).fcFiles = some files) (m : Memory F)
    (hfree : 0 < j ∨ j < files.length ∧ s.slot (c, j) = none) :
    (s.takeSlot c files j m = .ok none ∧ files.length ≤ j ∧ krealloc m files (j + 1) = none) ∨
      (files.length ≤ j → krealloc m files (j + 1) ≠ none) ∧
      ∃ s', s.takeSlot c files j m = .ok (some s') ∧
        s'.slot = update s.slot (c, j) none ∧ Counted s' ∧
        ∃ files', (s'.fctx c).fcFiles = some files' ∧ j < files'.length := by
  by_cases hj : 0 < j
  · rcases growTable_spec h hfiles j m with
      ⟨hnone, hroom⟩ | ⟨hroom, t, hgrow, hslot, ht, new, hnew, hlt⟩
    · left
      exact ⟨by simp [State.takeSlot, hj, hnone], hroom⟩
    · right
      rcases vacate_spec ht hnew hlt with ⟨s', hvacate, hslot', hs'⟩
      exact ⟨hroom, s', by simp [State.takeSlot, hj, hgrow, hvacate], hslot ▸ hslot', hs'⟩
  · right
    rcases hfree.resolve_left hj with ⟨hlt, hslot⟩
    refine ⟨fun hle => by omega, s, by simp [State.takeSlot, hj], ?_, h, files, hfiles, hlt⟩
    rw [← hslot, update_eq_self]

theorem fileDup_spec (h : Counted s) {i : Nat} (hfile : s.slot (c, i) = some f)
    (hj : (if fd2 < 0 then (s.fctx c).fcNfile else fd2) = j) (hne : i ≠ j)
    (hfree : 0 < j ∨ s.slot (c, j) = none) (m : Memory F) :
    (s.fileDup c i fd2 m = .ok (.error .ENOMEM, s) ∧ (s.fctx c).fcNfile ≤ j ∧
        krealloc m ((s.fctx c).fcFiles.getD []) (j + 1) = none) ∨
      ((s.fctx c).fcNfile ≤ j → krealloc m ((s.fctx c).fcFiles.getD []) (j + 1) ≠ none) ∧
      ∃ s', s.fileDup c i fd2 m = .ok (.ok j, s') ∧
        s'.slot = update s.slot (c, j) (some f) ∧ Counted s' := by
  rcases files_of_slot hfile with ⟨files, hfiles, -, hi⟩
  have hlen := h.sized.length hfiles
  have hget := readSlot_in hi
  rw [← slot_eq hfiles, hfile] at hget
  have hin : ¬ ((i : Int) < 0 ∨ (s.fctx c).fcNfile ≤ i) := by omega
  have hne' : (i : Int) ≠ j := by omega
  have hfree' : 0 < j ∨ j < files.length ∧ s.slot (c, j) = none :=
    (Nat.eq_zero_or_pos j).elim (fun h0 => Or.inr ⟨by omega, hfree.resolve_left (by omega)⟩) Or.inl
  rcases takeSlot_spec h hfiles m hfree' with
    ⟨htake, hroom⟩ | ⟨hroom, t, htake, hslot, ht, new, hnew, hlt⟩
  · left
    refine ⟨?_, by omega, by simpa [hfiles] using hroom.2⟩
    simp [State.fileDup, hfiles, hget, hin, hj, hne', htake]
  · right
    have hpair : (c, i) ≠ (c, j) := fun heq => hne (congrArg Prod.snd heq)
    have hfile' : t.slot (c, i) = some f := by rw [hslot, update_of_ne hpair, hfile]
    have hempty : t.slot (c, j) = none := by rw [hslot, update_self]
    rcases setSlot_spec (s := t.fdup f) ht.sized hnew hlt (some f) with
      ⟨s', hset, hslot', hlive', hrefcnt', hsized', -⟩
    have hslot'' : s'.slot = update t.slot (c, j) (some f) := hslot'
    refine ⟨?_, s', ?_, ?_, ⟨?_, hsized'⟩⟩
    · rw [hlen, hfiles]
      exact fun hle => hroom (by omega)
    · simp [State.fileDup, State.flock, hfiles, hget, hin, hj, hne', htake, ht.live hfile', hset]
    · rw [hslot'', hslot, update_idem]
    · rw [hslot'']
      exact (ht.toCounts.fdup hempty hfile').congr hlive' hrefcnt'

theorem slot_of_inTable (hs : s.Sized) (hin : inTable s c fd = true)
    (hopen : s.slot (c, fd.toNat) ≠ none) :
    ∃ (i : Nat) (f : F), fd = i ∧ s.slot (c, i) = some f ∧ (i : Int) < (s.fctx c).fcNfile := by
  rcases Option.ne_none_iff_exists'.1 hopen with ⟨f, hf⟩
  rcases files_of_slot hf with ⟨files, hfiles, -, hlt⟩
  simp only [inTable, hfiles, Option.isNone_some, Bool.false_or, decide_eq_true_eq] at hin
  refine ⟨fd.toNat, f, by omega, hf, ?_⟩
  rw [hs.length hfiles]
  omega

theorem full_iff (hs : s.Sized) :
    full s c = true ↔ ∀ j : Nat, (j : Int) < (s.fctx c).fcNfile → s.slot (c, j) ≠ none := by
  have hlen := hs c
  simp only [full, State.slot]
  rw [List.all_eq_true]
  constructor
  · intro hfull j hj
    have hlt : j < ((s.fctx c).fcFiles.getD []).length := by omega
    have hsome := hfull _ (List.getElem_mem hlt)
    rw [List.getElem?_eq_getElem hlt]
    exact Option.isSome_iff_ne_none.1 hsome
  · intro hslots x hx
    rcases List.getElem_of_mem hx with ⟨j, hj, rfl⟩
    have hopen := hslots j (by omega)
    rw [List.getElem?_eq_getElem hj] at hopen
    exact Option.isSome_iff_ne_none.2 hopen

theorem replaced (h : Counted s) {s' : State C F} (h' : Counted s') {a : C × Nat} {g : F}
    (hslot : s'.slot = update s.slot a (some f)) (hg : s.slot a = some g) (hne : g ≠ f) :
    (s'.live g = true ↔ 1 < s.refcnt g) ∧ (s'.live g = true → s'.refcnt g = s.refcnt g - 1) := by
  have hsound := h.toCounts.sound
  have hbook : (bookOf s'.slot s').slot = update (bookOf s.slot s).slot a (some f) := hslot
  have hholders : {b | s'.slot b = some g} = {b | s.slot b = some g} \ {a} :=
    Ledger.Book.holders_erase hbook (by simp [Ne.symm hne])
  have hcount : {b | s'.slot b = some g}.ncard + 1 = {b | s.slot b = some g}.ncard := by
    rw [hholders]
    exact Set.ncard_sdiff_singleton_add_one hg (hsound.holders_finite g)
  have hrefcnt := h.counted g (h.live hg)
  refine ⟨?_, fun hlive => ?_⟩
  · have hfinite : {b | s'.slot b = some g}.Finite := h'.toCounts.sound.holders_finite g
    rw [h'.held g]
    constructor
    · intro hheld
      have hpos := (Set.ncard_pos hfinite).2 hheld
      omega
    · intro hmore
      exact (Set.ncard_pos hfinite).1 (by omega)
  · have hrefcnt' := h'.counted g hlive
    omega

def copied (s : State C F) (dst src : C) (k : Nat) (a : C × Nat) : Option F :=
  if a.1 = dst then if a.2 < k then s.slot (src, a.2) else none else s.slot a

/-- The loop of `file_copy` in front of the slot `k`: the slots behind it are those that `kmalloc`
has left, and they do not count. -/
structure Copying (s : State C F) (dst src : C) (junk : Nat → Option F) (n k : Nat)
    (s' : State C F) : Prop where
  other : ∀ c, c ≠ dst → s'.fctx c = s.fctx c
  table : ∃ files, s'.fctx dst = ⟨some files, n⟩ ∧ files.length = n ∧
    ∀ i < n, files[i]?.join = if i < k then (s.slot (src, i)).or (junk i) else junk i
  counts : Counts (copied s dst src k) s'

namespace Copying

variable {dst src : C} {junk : Nat → Option F} {n k : Nat} {s' : State C F}

theorem copySlot (h : Copying s dst src junk n k s') (hne : dst ≠ src)
    {files : List (Option F)} (hfiles : (s.fctx src).fcFiles = some files) (hlen : files.length = n)
    (hk : k < n) : ∃ t, State.copySlot dst src k s' = .ok t ∧ Copying s dst src junk n (k + 1) t := by
  have hsrc : (s'.fctx src).fcFiles = some files := by rw [h.other src (Ne.symm hne), hfiles]
  have hk' : k < files.length := by omega
  have hget := readSlot_in hk'
  rw [← slot_eq hfiles] at hget
  rcases h.table with ⟨new, hnew, hnewlen, hslots⟩
  have hcopied : copied s dst src (k + 1) =
      update (copied s dst src k) (dst, k) (s.slot (src, k)) := by
    funext a
    rcases a with ⟨c, j⟩
    by_cases hc : c = dst
    · subst hc
      by_cases hj : j = k
      · subst hj
        simp [copied]
      · have hne' : (c, j) ≠ (c, k) := fun heq => hj (congrArg Prod.snd heq)
        have hlt : j < k + 1 ↔ j < k := by omega
        simp [copied, update_of_ne hne', hlt]
    · have hne' : (c, j) ≠ (dst, k) := fun heq => hc (congrArg Prod.fst heq)
      simp [copied, hc]
  have hempty : copied s dst src k (dst, k) = none := by simp [copied]
  cases hfile : s.slot (src, k) with
  | none =>
    refine ⟨s', ?_, h.other, ⟨new, hnew, hnewlen, fun i hi => ?_⟩, ?_⟩
    · simp [State.copySlot, hsrc, hget, hfile]
    · rw [hslots i hi]
      by_cases hik : i = k
      · subst hik
        simp [hfile]
      · have hlt : i < k + 1 ↔ i < k := by omega
        simp [hlt]
    · rw [hcopied, hfile, ← hempty, update_eq_self]
      exact h.counts
  | some f =>
    have hholds : copied s dst src k (src, k) = some f := by simp [copied, Ne.symm hne, hfile]
    have hlive : s'.live f = true := h.counts.live hholds
    refine ⟨(s'.fdup f).setCtx dst ⟨some (new.set k (some f)), n⟩, ?_, ?_, ?_, ?_⟩
    · simp [State.copySlot, State.flock, State.setSlot, State.fdup, writeSlot, hsrc, hget, hfile, hlive,
        hnew, hnewlen, hk]
    · intro c hc
      simp [State.setCtx, update_of_ne hc, State.fdup, h.other c hc]
    · refine ⟨new.set k (some f), by simp [State.setCtx], by simpa using hnewlen, fun i hi => ?_⟩
      by_cases hik : i = k
      · subst hik
        simp [hnewlen, hi, hfile]
      · have hlt : i < k + 1 ↔ i < k := by omega
        rw [List.getElem?_set_ne (Ne.symm hik), hslots i hi]
        simp [hlt]
    · rw [hcopied, hfile]
      exact (h.counts.fdup hempty hholds).congr rfl rfl

end Copying

/-- The slots behind a `fork`, if those of the child were free in the block of `kmalloc`. -/
def forked (s : State C F) (dst src : C) (a : C × Nat) : Option F :=
  if a.1 = dst then s.slot (src, a.2) else s.slot a

theorem copied_all (hs : s.Sized) (dst src : C) {n : Nat} (hn : (s.fctx src).fcNfile = n) :
    copied s dst src n = forked s dst src := by
  funext a
  by_cases hc : a.1 = dst
  · by_cases hlt : a.2 < n
    · simp [copied, forked, hc, hlt]
    · simp [copied, forked, hc, hlt, slot_beyond hs (c := src) (i := a.2) (by omega)]
  · simp [copied, forked, hc]

theorem copied_none {dst : C} (hfresh : (s.fctx dst).fcFiles = none) (src : C) :
    copied s dst src 0 = s.slot := by
  funext a
  rcases a with ⟨c, j⟩
  by_cases hc : c = dst
  · subst hc
    simp [copied, State.slot, hfresh]
  · simp [copied, hc]

theorem fileCopy_spec (h : Counted s) {dst src : C} (hne : dst ≠ src)
    (hfresh : (s.fctx dst).fcFiles = none) {files : List (Option F)}
    (hfiles : (s.fctx src).fcFiles = some files) {block : List (Option F)}
    (hblock : kmalloc m files.length = some block) (hpos : files ≠ []) :
    ∃ s', s.fileCopy dst src m = .ok (.ok 0, s') ∧ s'.Sized ∧ Counts (forked s dst src) s' ∧
      ∀ a, s'.slot a = if a.1 = dst ∧ a.2 < files.length then
        (s.slot (src, a.2)).or (m.junk a.2) else forked s dst src a := by
  have hlen := h.sized.length hfiles
  have hjunk : block = (List.range files.length).map m.junk := by
    simp only [kmalloc, Option.ite_none_right_eq_some, Option.some.injEq, Int.toNat_natCast] at hblock
    exact hblock.2.symm
  subst hjunk
  have hstart : Copying s dst src m.junk files.length 0
      (s.setCtx dst ⟨some ((List.range files.length).map m.junk), files.length⟩) := by
    refine ⟨fun c hc => by simp [State.setCtx, update_of_ne hc],
      ⟨(List.range files.length).map m.junk, by simp [State.setCtx], by simp,
        fun i hi => by simp [hi]⟩, ?_⟩
    rw [copied_none hfresh]
    exact h.toCounts.congr rfl rfl
  have hloop : Safe (fun _ => False)
      (each (State.copySlot dst src) (List.range files.length)
        (s.setCtx dst ⟨some ((List.range files.length).map m.junk), files.length⟩))
      (Copying s dst src m.junk files.length files.length) := by
    refine Safe.each_range (fun k hk t ht => ?_) hstart
    rcases ht.copySlot hne hfiles rfl hk with ⟨t', heq, ht'⟩
    rw [heq]
    exact ht'
  cases heach : each (State.copySlot dst src) (List.range files.length)
      (s.setCtx dst ⟨some ((List.range files.length).map m.junk), files.length⟩) with
  | error e =>
    rw [heach] at hloop
    exact hloop.elim
  | ok s' =>
    have hdone : Copying s dst src m.junk files.length files.length s' := hloop.of_eq_ok heach
    rcases hdone.table with ⟨new, hnew, hnewlen, hslots⟩
    refine ⟨s', ?_, ?_, ?_, ?_⟩
    · simp [State.fileCopy, hlen, hpos, hblock, heach]
    · intro c
      by_cases hc : c = dst
      · subst hc
        simp [hnew, hnewlen]
      · rw [hdone.other c hc]
        exact h.sized c
    · rw [← copied_all h.sized dst src hlen]
      exact hdone.counts
    · rintro ⟨c, j⟩
      by_cases hc : c = dst
      · subst hc
        by_cases hj : j < files.length
        · have hj' := hslots j hj
          rw [if_pos hj] at hj'
          simp [State.slot, hnew, hj, hj']
        · have hbeyond : s.slot (src, j) = none := slot_beyond h.sized (by omega)
          have hnone : new[j]? = none := List.getElem?_eq_none (by omega)
          simp [State.slot, hnew, hj, hnone, forked]
          exact hbeyond.symm
      · have hsame := hdone.other c hc
        simp [State.slot, hsame, hc, forked]

theorem right_of_law {a : Call C F} {ret : Except Errno Int} {s' : State C F}
    (hsafe : Safe (fun _ => False) (step s a) (Law s a)) (heq : call s a = .ok (ret, s')) :
    Right s a ret s' := by
  have hstep : step s a = .ok s' := by simp [step, heq]
  rw [hstep] at hsafe
  rcases hsafe with ⟨ret', heq', hright⟩
  rw [heq] at heq'
  cases heq'
  exact hright

theorem Counted.table_of_not_inTable (hs : s.Sized) (hout : inTable s c fd = false) :
    ∃ files, (s.fctx c).fcFiles = some files ∧ ¬ (0 ≤ fd ∧ fd < files.length) := by
  cases hfiles : (s.fctx c).fcFiles with
  | none => simp [inTable, hfiles] at hout
  | some files =>
    refine ⟨files, rfl, ?_⟩
    rw [← hs.length hfiles]
    simpa [inTable, hfiles] using hout

theorem fileDup_wild (h : Counted s) (hout : inTable s c fd1 = false) (fd2 : Int)
    (m : Memory F) : s.fileDup c fd1 fd2 m = .error .wildAccess := by
  rcases Counted.table_of_not_inTable h.sized hout with ⟨files, hfiles, hfd⟩
  simp [State.fileDup, hfiles, readSlot_out hfd]

theorem dup_wrong (h : Counted s)
    (hfine : fine s (.dup c fd m) = false) :
    ¬ Safe (fun _ => False) (step s (.dup c fd m)) (Law s (.dup c fd m)) := by
  intro hsafe
  cases hin : inTable s c fd with
  | false => simp [step, call, fileDup_wild h hin, Safe] at hsafe
  | true =>
    simp only [fine, hin, Bool.true_and, Bool.or_eq_false_iff] at hfine
    rcases hfine with ⟨⟨hopen, hfull⟩, hroom⟩
    rcases slot_of_inTable h.sized hin (Option.isSome_iff_ne_none.1 (by simpa using hopen)) with
      ⟨i, f, rfl, hfile, hi⟩
    rcases Int.eq_ofNat_of_zero_le (a := (s.fctx c).fcNfile) (by omega) with ⟨n, hn⟩
    have hnew : (if (-1 : Int) < 0 then (s.fctx c).fcNfile else -1) = (n : Int) := by simpa using hn
    rcases fileDup_spec h hfile hnew (by omega)
      (Or.inl (by omega)) m with ⟨-, -, hnone⟩ | ⟨-, s', heq, -, -⟩
    · rw [noRoom, hn, hnone] at hroom
      simp at hroom
    · -- the slot behind the table is used although another one is free
      rcases right_of_law hsafe heq with ⟨-, k, -, -, hk, -, -, ⟨-, hlow⟩, -⟩
      have hkn : k = n := by omega
      subst hkn
      have hfull' := (full_iff h.sized).2 fun j hj => hlow j (by omega)
      exact absurd hfull' (by simp [hfull])

theorem fileDup_zero (h : Counted s) {i : Nat} (hfile : s.slot (c, i) = some f) (hi : i ≠ 0)
    (m : Memory F) : ∃ s', s.fileDup c i 0 m = .ok (.ok 0, s') ∧
      s'.slot = update s.slot (c, 0) (some f) ∧ s'.live = s.live ∧
      s'.refcnt = update s.refcnt f (s.refcnt f + 1) := by
  rcases files_of_slot hfile with ⟨files, hfiles, -, hlt⟩
  have hlen := h.sized.length hfiles
  have hget := readSlot_in hlt
  rw [← slot_eq hfiles, hfile] at hget
  have hin : ¬ ((i : Int) < 0 ∨ (s.fctx c).fcNfile ≤ i) := by omega
  rcases setSlot_spec (s := s.fdup f) (i := 0) h.sized hfiles (by omega) (some f) with
    ⟨s', hset, hslot, hlive, hrefcnt, -⟩
  rw [Nat.cast_zero] at hset
  refine ⟨s', ?_, hslot, hlive, hrefcnt⟩
  simp [State.fileDup, State.takeSlot, State.flock, hfiles, hget, hin, hi, h.live hfile, hset]

theorem dup2_wrong (h : Counted s)
    (hfine : fine s (.dup2 c fd1 fd2 m) = false) :
    ¬ Safe (fun _ => False) (step s (.dup2 c fd1 fd2 m)) (Law s (.dup2 c fd1 fd2 m)) := by
  intro hsafe
  cases hin : inTable s c fd1 with
  | false => simp [step, call, fileDup_wild h hin, Safe] at hsafe
  | true =>
    simp only [fine, hin, Bool.true_and, Bool.or_eq_false_iff, decide_eq_false_iff_not] at hfine
    rcases hfine with ⟨⟨⟨hopen, hpos⟩, hzero⟩, hneg⟩
    rcases slot_of_inTable h.sized hin (Option.isSome_iff_ne_none.1 (by simpa using hopen)) with
      ⟨i, f, rfl, hfile, hi⟩
    by_cases hfd2 : fd2 < 0
    · -- the file goes to the slot behind the table
      rcases Int.eq_ofNat_of_zero_le (a := (s.fctx c).fcNfile) (by omega) with ⟨n, hn⟩
      have hroom : noRoom s c m = false := by simpa [hfd2] using hneg
      have hnew : (if fd2 < 0 then (s.fctx c).fcNfile else fd2) = (n : Int) := by simpa [hfd2] using hn
      rcases fileDup_spec h hfile hnew (by omega)
        (Or.inl (by omega)) m with ⟨-, -, hnone⟩ | ⟨-, s', heq, -, -⟩
      · rw [noRoom, hn, hnone] at hroom
        simp at hroom
      · rcases right_of_law hsafe heq with ⟨-, k, -, -, hk, -⟩
        omega
    · have hfd0 : fd2 = 0 := by omega
      subst hfd0
      simp only [decide_true, Bool.true_and, Bool.or_eq_false_iff, decide_eq_false_iff_not,
        Option.isNone_eq_false_iff] at hzero
      rcases Option.isSome_iff_exists.1 hzero.2 with ⟨g, hg⟩
      rcases fileDup_zero h hfile (by omega) m with ⟨s', heq, hslot, hlive, hrefcnt⟩
      rcases right_of_law hsafe heq with ⟨hs', -⟩
      by_cases hgf : g = f
      · -- the file has as many slots as before and one reference more
        subst hgf
        have hsame : s'.slot = s.slot := by rw [hslot, ← hg, update_eq_self]
        have hcount := hs'.counted g (hlive ▸ h.live hg)
        rw [hsame, hrefcnt, update_self, ← h.counted g (h.live hg)] at hcount
        omega
      · -- the other file has lost a slot and no reference
        have hlost := (replaced h hs' hslot hg hgf).2 (hlive ▸ h.live hg)
        rw [hrefcnt, update_of_ne hgf] at hlost
        omega

theorem fork_wrong (h : Counted s) {dst src : C}
    (hallowed : allowed s (.fork dst src m) = true) (hfine : fine s (.fork dst src m) = false) :
    ¬ Safe (fun _ => False) (step s (.fork dst src m)) (Law s (.fork dst src m)) := by
  intro hsafe
  simp only [allowed, Bool.and_eq_true, decide_eq_true_eq, Option.isNone_iff_eq_none] at hallowed
  rcases hallowed with ⟨⟨hne, hfresh⟩, -⟩
  simp only [fine, cleared, Bool.or_eq_false_iff, Option.isNone_eq_false_iff] at hfine
  rcases hfine with ⟨hblock, hdirty⟩
  rcases Option.isSome_iff_exists.1 hblock with ⟨block, hblock⟩
  simp only [List.all_eq_false, List.mem_range, Bool.or_eq_true, not_or] at hdirty
  rcases hdirty with ⟨i, hi, hfree, hjunk⟩
  cases hfiles : (s.fctx src).fcFiles with
  | none =>
    have hlen := h.sized src
    simp only [hfiles, Option.getD_none, List.length_nil, Nat.cast_zero] at hlen
    omega
  | some files =>
    have hlen := h.sized.length hfiles
    rw [hlen] at hblock hi
    rw [Int.toNat_natCast] at hi
    have hpos : files ≠ [] := by
      rintro rfl
      simp at hi
    rcases fileCopy_spec h hne hfresh hfiles hblock hpos with ⟨s', heq, -, -, hslot⟩
    -- the slot `i` of the child is not free although that of its parent is
    rcases right_of_law hsafe heq with ⟨-, hcopy⟩
    have hchild := hcopy (dst, i)
    rw [hslot] at hchild
    have hnone : s.slot (src, i) = none := by simpa using hfree
    simp [hi, hnone] at hchild
    simp [hchild] at hjunk

theorem Counted.init : Counted (State.init : State C F) where
  finite := by simp [State.slot, State.init]
  counted f hf := by simp [State.init] at hf
  held f := by simp [State.slot, State.init]
  sized c := by simp [State.init]

theorem step_wrong (h : Counted s) {a : Call C F} (hallowed : allowed s a = true)
    (hfine : fine s a = false) : ¬ Safe (fun _ => False) (step s a) (Law s a) := by
  cases a with
  | openFile c m => simp [fine] at hfine
  | dup c fd m => exact dup_wrong h hfine
  | dup2 c fd1 fd2 m => exact dup2_wrong h hfine
  | close c fd => simp [fine] at hfine
  | fork dst src m => exact fork_wrong h hallowed hfine

end Descriptors
end Fs
end XytherOS
