import XytherOS.Arch.TableLedger

/-!
# TableOps — mapping, protecting and copying page tables

The functions that change page tables are taken through the ledger one by one: those that add tables
and map a page, `x86_64_mprotect`, `x86_64_unmap_full`, and `x86_64_lazycpy`, which shares every page
of one address space with another and takes the right to write from both.
-/

namespace XytherOS
namespace Arch

open Mm.Mmap (has bitIf PTE_P PTE_W PTE_U PTE_R PTE_X)
open Mm.Pmm (NPAGE PGROUND PGSZ)
open Ledger

section Keeps

variable {strict : Prop} {w : World} {i : Nat} {mem mem' mem'' : Mem} {lvl : Level} {k v f : Nat}

/-! ## Adding tables -/

variable {t : PageTables} {fr : Frames} {raw va : BitVec 64}

theorem Tidy.isP_below (h : Tidy t fr) (hp : t.isP lvl k = false)
    (l : Level) (j : Nat) (habove : l.above = some lvl) (hj : j / 512 = k) : t.isP l j = false := by
  by_contra hne
  have hup := h.closed l lvl j habove (by simpa using hne)
  rw [hj, hp] at hup
  exact absurd hup (by simp)

theorem Tidy.isP_index (h : Tidy t fr) (hp : t.isP .pt v = true)
    (l : Level) : t.isP l (l.index v) = true := by
  have h2 := h.closed .pt .pdt v rfl hp
  have h3 := h.closed .pdt .pdpt _ rfl h2
  cases l with
  | pt => exact hp
  | pdt => exact h2
  | pdpt => exact h3
  | pml4 => exact h.closed .pdpt .pml4 _ rfl h3

theorem Tidy.graft_others (h : Tidy t fr)
    (hp : t.isP lvl k = false) (raw : BitVec 64) (l : Level) (j : Nat) (hne : ¬ (l = lvl ∧ j = k)) :
    (t.graft lvl k raw).isP l j = t.isP l j ∧
      (t.isP l j = true → (t.graft lvl k raw).entry l j = t.entry l j) := by
  refine ⟨PageTables.isP_graft_of_ne hne (h.isP_below hp), ?_⟩
  intro hpl
  refine PageTables.entry_graft_of_ne hne ?_
  rintro ⟨habove, hj⟩
  rw [h.isP_below hp l j habove hj] at hpl
  exact absurd hpl (by simp)

/-- The tables `t'` have the entries of `t`, and the same pages. -/
structure Grown (t t' : PageTables) : Prop where
  entry : ∀ l j, t.isP l j = true → t'.isP l j = true ∧ t'.entry l j = t.entry l j
  pages : ∀ v, t'.isP .pt v = t.isP .pt v

theorem Grown.refl (t : PageTables) : Grown t t := ⟨fun _ _ h => ⟨h, rfl⟩, fun _ => rfl⟩

theorem Grown.trans {t' t'' : PageTables} (h : Grown t t') (h' : Grown t' t'') : Grown t t'' := by
  refine ⟨?_, fun v => (h'.pages v).trans (h.pages v)⟩
  intro l j hp
  rcases h.entry l j hp with ⟨hp', he⟩
  rcases h'.entry l j hp' with ⟨hp'', he'⟩
  exact ⟨hp'', he'.trans he⟩

inductive Added (mem : Mem) (lvl : Level) (k : Nat) : Option Nat → Mem → Prop
  | none : mem.tables.isP lvl k = true → Added mem lvl k none mem
  | some {f : Nat} {mem' : Mem} : mem.tables.isP lvl k = false →
      (∀ l j, l.above = some lvl → j / 512 = k → mem'.tables.isP l j = false) →
      (∀ l j, ¬ (l = lvl ∧ j = k) → mem'.tables.isP l j = mem.tables.isP l j ∧
        (mem.tables.isP l j = true → mem'.tables.entry l j = mem.tables.entry l j)) →
      mem'.tables.isP lvl k = true → frameOf (mem'.tables.entry lvl k) = f →
      Added mem lvl k (some f) mem'

theorem Added.present {new : Option Nat} (h : Added mem lvl k new mem') :
    mem'.tables.isP lvl k = true := by
  cases h with
  | none hp => exact hp
  | some _ _ _ hp _ => exact hp

theorem Added.grown {new : Option Nat} (h : Added mem lvl k new mem') (hl : lvl ≠ .pt) :
    Grown mem.tables mem'.tables := by
  cases h with
  | none _ => exact .refl _
  | some hp _ hothers _ _ =>
    refine ⟨?_, ?_⟩
    · intro l j hpl
      have hne : ¬ (l = lvl ∧ j = k) := by
        rintro ⟨rfl, rfl⟩
        simp [hp] at hpl
      exact ⟨(hothers l j hne).1.trans hpl, (hothers l j hne).2 hpl⟩
    · intro v
      exact (hothers .pt v fun hv => hl hv.1.symm).1

theorem Tidy.graft (h : Tidy t fr)
    (hp : t.isP lvl k = false) (hl : lvl ≠ .pt)
    (hup : ∀ up, lvl.above = some up → t.isP up (k / 512) = true)
    (huser : lvl = .pml4 → k < userTables) (hraw : has raw PTE_P = true)
    (hzone : fr.Contains (frameOf raw)) : Tidy (t.graft lvl k raw) fr := by
  have hothers := h.graft_others hp raw
  have hnew : (t.graft lvl k raw).isP lvl k = true := by
    rw [PageTables.isP, PageTables.entry_graft_self, hraw]
  refine ⟨?_, ?_, ?_, ?_⟩
  · intro l up j habove hpl
    by_cases hlj : l = lvl ∧ j = k
    · rcases hlj with ⟨rfl, rfl⟩
      have hne : ¬ (up = l ∧ j / 512 = j) := by
        rintro ⟨rfl, -⟩
        cases up <;> simp [Level.above] at habove
      rw [(hothers up (j / 512) hne).1]
      exact hup up habove
    · rw [(hothers l j hlj).1] at hpl
      have hpu := h.closed l up j habove hpl
      by_cases huk : up = lvl ∧ j / 512 = k
      · rw [huk.1, huk.2]
        exact hnew
      · rwa [(hothers up _ huk).1]
  · intro l j hpl
    by_cases hlj : l = lvl ∧ j = k
    · rw [hlj.1, hlj.2, PageTables.entry_graft_self]
      exact hzone
    · rw [(hothers l j hlj).1] at hpl
      rw [(hothers l j hlj).2 hpl]
      exact h.zone l j hpl
  · intro v hpv
    have hne : ¬ (Level.pt = lvl ∧ v = k) := fun hv => hl hv.1.symm
    rw [(hothers .pt v hne).1] at hpv
    rw [(hothers .pt v hne).2 hpv]
    exact h.alloc v hpv
  · intro j hpj
    by_cases hlj : Level.pml4 = lvl ∧ j = k
    · rw [hlj.2]
      exact huser hlj.1.symm
    · rw [(hothers .pml4 j hlj).1] at hpj
      exact h.user j hpj

variable (strict) in
theorem addTable_added (hi : i < w.nspaces) (h : Tidy mem.tables mem.frames) (hl : lvl ≠ .pt)
    (hup : ∀ up, lvl.above = some up → mem.tables.isP up (k / 512) = true)
    (huser : lvl = .pml4 → k < userTables) {flags : BitVec 64} {new : Option Nat}
    (hadd : addTable mem lvl k flags = .ok (new, mem')) :
    Keeps strict w i mem mem' ∧ Added mem lvl k new mem' := by
  rw [addTable] at hadd
  by_cases hp : mem.tables.isP lvl k = true
  · rw [if_pos hp, Except.ok.injEq, Prod.mk.injEq] at hadd
    rcases hadd with ⟨rfl, rfl⟩
    exact ⟨.refl h, .none hp⟩
  · rw [if_neg hp] at hadd
    have hp' : mem.tables.isP lvl k = false := by simpa using hp
    cases hget : mem.frames.getPage with
    | error e => simp [hget] at hadd
    | ok res =>
      rcases res with ⟨f, fr⟩
      simp only [hget, Except.ok.injEq, Prod.mk.injEq] at hadd
      rcases hadd with ⟨rfl, rfl⟩
      rcases Frames.getPage_ok hget with ⟨hzone, hfree, rfl⟩
      -- the entry of the new table is present, whatever the flags of the page are
      generalize hraw : mkPte f (flags ||| PTE_WT ||| PTE_KRW) = raw
      have hpraw : has raw PTE_P = true := by
        rw [← hraw, has_P, getLsbD_mkPte (by decide), BitVec.getLsbD_or,
          show PTE_KRW.getLsbD 0 = true from rfl, Bool.or_true]
      have hframe : frameOf raw = f := by rw [← hraw, frameOf_mkPte hzone.lt]
      have hothers := h.graft_others hp' raw
      have hnew : (mem.tables.graft lvl k raw).isP lvl k = true := by
        rw [PageTables.isP, PageTables.entry_graft_self, hpraw]
      have hentry : frameOf ((mem.tables.graft lvl k raw).entry lvl k) = f := by
        rw [PageTables.entry_graft_self, hframe]
      refine ⟨⟨Frames.sameZone_setRefcnt _ _ _, ?_, ?_⟩,
        .some hp' (fun l j => PageTables.isP_graft_below) hothers hnew hentry⟩
      · exact (h.graft hp' hl hup huser hpraw (hframe.symm ▸ hzone)).congr
          (Frames.sameZone_setRefcnt mem.frames f 1)
      · intro _
        have hbook : (w.on i { mem with
            frames := mem.frames.setRefcnt f 1, tables := mem.tables.graft lvl k raw }).book =
            (w.on i mem).book.take (.entry i lvl k) f :=
          World.book_take hi hl hothers hnew hentry rfl
        rw [hbook]
        refine .single (.take _ _ ?_ (World.slot_entry_none hi hp') hfree)
        cases lvl <;> first | exact id | exact absurd rfl hl

/-- What the functions that provide the tables `lvls` on the way to the page `v` do. -/
structure TablesAdded (strict : Prop) (w : World) (i v : Nat) (lvls : List Level) (mem : Mem)
    (x : Ret × Mem) : Prop where
  keeps : Keeps strict w i mem x.2
  grown : Grown mem.tables x.2.tables
  present : x.1 = .ok → ∀ l ∈ lvls, x.2.tables.isP l (l.index v) = true
  undone : x.1 ≠ .ok → ∀ l j, x.2.tables.isP l j = mem.tables.isP l j

theorem Level.index_above {lvl up : Level} (h : lvl.above = some up) (v : Nat) :
    up.index v = lvl.index v / 512 := by
  cases lvl <;> simp only [Level.above, Option.some.injEq, reduceCtorEq] at h <;> subst h <;> rfl

theorem dropTable_safe (hi : i < w.nspaces) {new : Option Nat} {mem1 mem2 : Mem} {e : Errno}
    {lvls : List Level} (hkeeps : Keeps strict w i mem mem1) (hadded : Added mem lvl k new mem1)
    (hrest : TablesAdded strict w i v lvls mem1 (.err e, mem2)) :
    Safe AnyFault (dropTable mem2 lvl k new) fun mem3 => Keeps strict w i mem mem3 ∧
      Grown mem.tables mem3.tables ∧ ∀ l j, mem3.tables.isP l j = mem.tables.isP l j := by
  have hundone := hrest.undone (by simp)
  cases hadded with
  | none hp => exact ⟨hrest.keeps, hrest.grown, hundone⟩
  | some hp hbelow hothers hnew hframe =>
    rcases hrest.grown.entry lvl k hnew with ⟨hp2, hentry⟩
    rw [dropTable, ← hframe, ← hentry]
    refine (dropEntry_safe strict hi hrest.keeps.tidy hp2 ?_).mono ?_
    · intro l j habove hj
      exact (hundone l j).trans (hbelow l j habove hj)
    · rintro mem3 ⟨hdrop, htables⟩
      have hsame : ∀ l j, mem3.tables.isP l j = mem.tables.isP l j := by
        intro l j
        by_cases hlj : l = lvl ∧ j = k
        · rcases hlj with ⟨rfl, rfl⟩
          rw [htables, PageTables.isP_set_self, hp]
          rfl
        · rw [htables, PageTables.isP_set_of_ne hlj, hundone l j, (hothers l j hlj).1]
      refine ⟨(hkeeps.trans hrest.keeps).trans hdrop, ⟨?_, fun v => hsame .pt v⟩, hsame⟩
      intro l j hpl
      have hlj : ¬ (l = lvl ∧ j = k) := by
        rintro ⟨rfl, rfl⟩
        simp [hp] at hpl
      refine ⟨(hsame l j).trans hpl, ?_⟩
      have hpl1 := (hothers l j hlj).1.trans hpl
      rw [htables, PageTables.entry_set_of_ne hlj, (hrest.grown.entry l j hpl1).2,
        (hothers l j hlj).2 hpl]

variable (strict) in
theorem addTables_safe (hi : i < w.nspaces) {flags : BitVec 64} {lvls : List Level}
    (h : Tidy mem.tables mem.frames) (hv : v < 2 ^ 35) (hpt : .pt ∉ lvls)
    (hchain : lvls.IsChain fun a b => b.above = some a)
    (hhead : ∀ l ∈ lvls.head?, ∀ up, l.above = some up → mem.tables.isP up (up.index v) = true) :
    Safe AnyFault (addTables v flags lvls mem) (TablesAdded strict w i v lvls mem) := by
  induction lvls generalizing mem with
  | nil => exact ⟨.refl h, .refl _, by simp, fun hne => absurd rfl hne⟩
  | cons lvl lvls ih =>
    rw [addTables]
    cases hadd : addTable mem lvl (lvl.index v) flags with
    | error e => exact ⟨.refl h, .refl _, by simp, fun _ _ _ => rfl⟩
    | ok res =>
      rcases res with ⟨new, mem1⟩
      have hl : lvl ≠ .pt := fun hl => hpt (by simp [hl])
      have hup : ∀ up, lvl.above = some up → mem.tables.isP up (lvl.index v / 512) = true := by
        intro up hup
        rw [← Level.index_above hup]
        exact hhead lvl (by simp) up hup
      have huser : lvl = .pml4 → lvl.index v < userTables := by
        rintro rfl
        simp only [Level.index, userTables]
        omega
      rcases addTable_added strict hi h hl hup huser hadd with ⟨hkeeps, hadded⟩
      have hhead1 : ∀ l ∈ lvls.head?, ∀ up, l.above = some up →
          mem1.tables.isP up (up.index v) = true := by
        intro l hlmem up hlup
        have habove := List.isChain_cons.1 hchain |>.1 l hlmem
        cases habove.symm.trans hlup
        exact hadded.present
      refine (ih hkeeps.tidy (fun hmem => hpt (by simp [hmem]))
        (List.isChain_cons.1 hchain).2 hhead1).bind ?_
      rintro ⟨ret, mem2⟩ hrest
      cases ret with
      | ok =>
        refine ⟨hkeeps.trans hrest.keeps, (hadded.grown hl).trans hrest.grown, ?_,
          fun hne => absurd rfl hne⟩
        intro _ l hlmem
        rcases List.mem_cons.1 hlmem with rfl | hlmem
        · exact (hrest.grown.entry _ _ hadded.present).1
        · exact hrest.present rfl l hlmem
      | err e =>
        refine (dropTable_safe hi hkeeps hadded hrest).bind ?_
        rintro mem3 ⟨hkeeps3, hgrown3, hsame3⟩
        exact ⟨hkeeps3, hgrown3, by simp, fun _ => hsame3⟩

/-! ## Mapping a page -/

structure PutsDown (strict : Prop) (w : World) (i : Nat) (mem mem' : Mem) : Prop where
  zone : mem.frames.SameZone mem'.frames
  tidy : Tidy mem'.tables mem'.frames
  steps : Sound Slot.IsPage (w.on i mem).book →
    Steps Slot.IsPage strict (w.on i mem).book ((w.withHand none).on i mem').book

theorem Keeps.lose (h : Keeps strict w i mem mem') : PutsDown strict w i mem mem' := by
  refine ⟨h.zone, h.tidy, ?_⟩
  intro hs
  rw [World.book_lose]
  exact (h.steps hs).tail (.lose _ id)

theorem Tidy.set_page (h : Tidy t fr)
    (hup : t.isP .pdt (v / 512) = true) (hzone : fr.Contains (frameOf raw))
    (halloc : has raw PTE_ALLOC = true) : Tidy (t.set .pt v raw) fr := by
  have htable : ∀ l j, l ≠ .pt → (t.set .pt v raw).isP l j = t.isP l j ∧
      (t.set .pt v raw).entry l j = t.entry l j := by
    intro l j hl
    have hne : ¬ (l = .pt ∧ j = v) := fun hne => hl hne.1
    exact ⟨PageTables.isP_set_of_ne hne, PageTables.entry_set_of_ne hne⟩
  refine ⟨?_, ?_, ?_, ?_⟩
  · intro l up j habove hp
    have hupl : up ≠ .pt := by
      rintro rfl
      cases l <;> simp [Level.above] at habove
    rw [(htable up _ hupl).1]
    by_cases hlj : l = .pt ∧ j = v
    · rcases hlj with ⟨rfl, rfl⟩
      simp only [Level.above, Option.some.injEq] at habove
      rw [← habove]
      exact hup
    · rw [PageTables.isP_set_of_ne hlj] at hp
      exact h.closed l up j habove hp
  · intro l j hp
    by_cases hlj : l = .pt ∧ j = v
    · rw [hlj.1, hlj.2, PageTables.entry_set_self]
      exact hzone
    · rw [PageTables.isP_set_of_ne hlj] at hp
      rw [PageTables.entry_set_of_ne hlj]
      exact h.zone l j hp
  · intro j hp
    by_cases hj : j = v
    · rw [hj, PageTables.entry_set_self]
      exact halloc
    · have hlj : ¬ (Level.pt = .pt ∧ j = v) := fun hlj => hj hlj.2
      rw [PageTables.isP_set_of_ne hlj] at hp
      rw [PageTables.entry_set_of_ne hlj]
      exact h.alloc j hp
  · intro j hp
    rw [(htable .pml4 j (by simp)).1] at hp
    exact h.user j hp

theorem setPage_putsDown (hi : i < w.nspaces) {flags : BitVec 64}
    (h : Tidy mem.tables mem.frames) (hup : mem.tables.isP .pdt (v / 512) = true)
    (hp : mem.tables.isP .pt v = false) (hf : mem.frames.Contains f) (hhand : w.hand = some f)
    (halloc : has flags PTE_ALLOC = true) :
    PutsDown strict w i mem (mem.setEntry .pt v (mkPte f flags)) := by
  have hframe : frameOf (mkPte f flags) = f := frameOf_mkPte hf.lt
  have halloc' : has (mkPte f flags) PTE_ALLOC = true := by
    rw [has_ALLOC, getLsbD_mkPte (by decide), ← has_ALLOC, halloc]
  have htidy : Tidy (mem.setEntry .pt v (mkPte f flags)).tables mem.frames :=
    h.set_page hup (hframe.symm ▸ hf) halloc'
  refine ⟨.refl _, htidy, ?_⟩
  intro hs
  by_cases hpf : has (mkPte f flags) PTE_P = true
  · rw [World.book_move hi hpf, hframe]
    exact .single (.move _ _ _ _ id (fun hne => absurd trivial hne) hhand
      (World.slot_entry_none hi hp))
  · -- the frame is not even reachable through the page tables
    have hkeeps : Keeps strict w i mem (mem.setEntry .pt v (mkPte f flags)) := by
      refine ⟨.refl _, htidy, ?_⟩
      intro _
      rw [World.book_absent hi hp (by simpa using hpf)]
    exact hkeeps.lose.steps hs

theorem map_safe (hi : i < w.nspaces) {flags : BitVec 64} (h : Tidy mem.tables mem.frames)
    (hv : v < 2 ^ 35) (hp : mem.tables.isP .pt v = false) (hf : mem.frames.Contains f)
    (hhand : w.hand = some f) (halloc : has flags PTE_ALLOC = true) :
    Safe AnyFault (map mem f v flags) fun x => PutsDown strict w i mem x.2 := by
  rw [map]
  by_cases hps : has flags PTE_PS = true
  · rw [if_pos hps]
    exact (Keeps.refl h).lose
  · rw [if_neg hps]
    refine (addTables_safe strict hi h hv (by decide) (by decide) (by simp [Level.above])).bind ?_
    rintro ⟨ret, mem1⟩ hadded
    cases ret with
    | err e => exact hadded.keeps.lose
    | ok =>
      have hp1 : mem1.tables.isP .pt v = false := (hadded.grown.pages v).trans hp
      have hup1 : mem1.tables.isP .pdt (v / 512) = true := hadded.present rfl .pdt (by simp)
      have hf1 : mem1.frames.Contains f := hadded.keeps.zone.contains.2 hf
      have hdown : PutsDown strict w i mem1 (mem1.setEntry .pt v (mkPte f flags)) :=
        setPage_putsDown hi hadded.keeps.tidy hup1 hp1 hf1 hhand halloc
      have hinstall : installPte mem1 f v flags = mem1.setEntry .pt v (mkPte f flags) := by
        simp [installPte, hp1]
      change PutsDown strict w i mem (installPte mem1 f v flags)
      rw [hinstall]
      exact ⟨hadded.keeps.zone.trans hdown.zone, hdown.tidy, fun hs =>
        (hadded.keeps.steps hs).trans (hdown.steps (hs.steps (hadded.keeps.steps hs)))⟩

theorem mapN_one (mem : Mem) (va flags : BitVec 64) :
    mapN mem va PGSZ flags = match mem.frames.getPage with
      | .error e => .ok (.err e, mem)
      | .ok (f, fr) => map (mem.withFrames fr) f (vpn va) (flags ||| PTE_ALLOC) := by
  have hone : (NPAGE PGSZ).toNat = 1 := by decide
  have hzero : (NPAGE (BitVec.ofNat 64 (1 - 1) * PGSZ)).toNat = 0 := by decide
  rw [mapN, hone, mapNLoop]
  cases mem.frames.getPage with
  | error e =>
    rw [ok_bind, finishMap, unmapN, hone, hzero]
    rfl
  | ok res =>
    rcases res with ⟨f, fr⟩
    simp only
    cases map (mem.withFrames fr) f (vpn va) (flags ||| PTE_ALLOC) with
    | error e => rfl
    | ok res =>
      rcases res with ⟨ret, mem'⟩
      cases ret with
      | ok => rfl
      | err e =>
        simp only [ok_bind, pure_eq_ok, finishMap, unmapN, hone, hzero]
        rfl

variable (strict) in
theorem mapN_safe (hi : i < w.nspaces) {flags : BitVec 64} (h : Tidy mem.tables mem.frames)
    (hv : vpn va < 2 ^ 35) (hp : mem.tables.isP .pt (vpn va) = false) (hhand : w.hand = none) :
    Safe AnyFault (mapN mem va PGSZ flags) fun x => Keeps strict w i mem x.2 := by
  rw [mapN_one]
  cases hget : mem.frames.getPage with
  | error e => exact .refl h
  | ok res =>
    rcases res with ⟨f, fr⟩
    rcases Frames.getPage_ok hget with ⟨hzone, hfree, rfl⟩
    have hsame := Frames.sameZone_setRefcnt mem.frames f 1
    have halloc : has (flags ||| PTE_ALLOC) PTE_ALLOC = true := by
      rw [has_ALLOC, BitVec.getLsbD_or, show PTE_ALLOC.getLsbD 11 = true from rfl, Bool.or_true]
    have htidy : Tidy (mem.withFrames (mem.frames.setRefcnt f 1)).tables
        (mem.withFrames (mem.frames.setRefcnt f 1)).frames := h.congr hsame
    have hi' : i < (w.withHand (some f)).nspaces := hi
    have hmap : Safe AnyFault
        (map (mem.withFrames (mem.frames.setRefcnt f 1)) f (vpn va) (flags ||| PTE_ALLOC))
        fun x => PutsDown strict (w.withHand (some f)) i
          (mem.withFrames (mem.frames.setRefcnt f 1)) x.2 :=
      map_safe hi' htidy hv hp (hsame.contains.2 hzone) rfl halloc
    refine hmap.mono ?_
    rintro ⟨ret, mem'⟩ hdown
    refine ⟨hsame.trans hdown.zone, hdown.tidy, ?_⟩
    intro hs
    -- the frame is taken into the hand before it is put down
    have hpick : Steps Slot.IsPage strict (w.on i mem).book ((w.withHand (some f)).on i
        (mem.withFrames (mem.frames.setRefcnt f 1))).book := by
      rw [World.book_pick]
      exact .single (.take _ _ id hhand hfree)
    have hself : (w.withHand (some f)).withHand none = w := by
      rw [World.withHand, World.withHand, ← hhand]
    have hrest := hdown.steps (hs.steps hpick)
    rw [hself] at hrest
    exact hpick.trans hrest

/-! ## Changing permissions -/

theorem getLsbD_permMask {j : Nat} (hj : 3 ≤ j) : permMask.getLsbD j = false := by
  rw [show permMask = BitVec.ofNat 64 (2 ^ 3 - 1) from rfl, BitVec.getLsbD_ofNat,
    Nat.testBit_two_pow_sub_one]
  simp [hj]

theorem protEntry_bits (raw : BitVec 64) {flags : BitVec 64} (hp : has (PGOFF flags) PTE_P = true) :
    has (raw &&& ~~~permMask ||| PGOFF flags) PTE_P = true ∧
      has (raw &&& ~~~permMask ||| PGOFF flags) PTE_W = has (PGOFF flags) PTE_W ∧
      frameOf (raw &&& ~~~permMask ||| PGOFF flags) = frameOf raw ∧
      (has raw PTE_ALLOC = true → has (raw &&& ~~~permMask ||| PGOFF flags) PTE_ALLOC = true) := by
  refine ⟨?_, ?_, ?_, ?_⟩
  · rw [has_P] at hp ⊢
    rw [BitVec.getLsbD_or, hp, Bool.or_true]
  · rw [has_W, has_W, BitVec.getLsbD_or, BitVec.getLsbD_and, BitVec.getLsbD_not,
      show permMask.getLsbD 1 = true from rfl]
    simp
  · apply frameOf_congr
    intro j hj
    rw [BitVec.getLsbD_or, BitVec.getLsbD_and, BitVec.getLsbD_not, getLsbD_permMask (by omega),
      getLsbD_PGOFF]
    by_cases hlt : j < 64
    · simp [hlt, Nat.not_lt.2 hj]
    · simp [hlt, Nat.not_lt.2 hj]
      exact BitVec.getLsbD_of_ge _ _ (by omega)
  · intro halloc
    rw [has_ALLOC] at halloc ⊢
    rw [BitVec.getLsbD_or, BitVec.getLsbD_and, BitVec.getLsbD_not, getLsbD_permMask (by decide),
      halloc]
    rfl

/-- Every page of the list that is mapped has a frame without other references. -/
def Unshared (mem : Mem) (pages : List Nat) : Prop :=
  ∀ v ∈ pages, mem.tables.isP .pt v = true → mem.frames.refcnt (frameOf (mem.pte v)) = 1

theorem setPerm_keeps (hi : i < w.nspaces) (h : Tidy mem.tables mem.frames)
    (hp : mem.tables.isP .pt v = true) (hraw : has raw PTE_P = true)
    (hframe : frameOf raw = frameOf (mem.pte v)) (halloc : has raw PTE_ALLOC = true)
    (hgrant : strict → has raw PTE_W = true → mem.frames.refcnt (frameOf (mem.pte v)) = 1) :
    Keeps strict w i mem (mem.setEntry .pt v raw) := by
  refine ⟨.refl _, h.set_page (h.closed .pt .pdt v rfl hp) ?_ halloc, ?_⟩
  · rw [hframe]
    exact h.zone .pt v hp
  · intro hs
    rw [World.book_protect hi hp hraw hframe]
    cases hw : has raw PTE_W with
    | false => exact .single (.revoke _)
    | true =>
      refine .single (.grant _ trivial ?_)
      intro hstrict
      exact hs.alone_of_refcnt (World.slot_entry_some hi hp) (hgrant hstrict hw)

theorem protPages_keeps (hi : i < w.nspaces) {flags : BitVec 64} {n : Nat}
    (h : Tidy mem.tables mem.frames) (hp : has (PGOFF flags) PTE_P = true)
    (hgrant : strict → has (PGOFF flags) PTE_W = true → Unshared mem (pagesFrom n va)) :
    Keeps strict w i mem (protPages (PGOFF flags) n va mem).2 := by
  induction n generalizing va mem with
  | zero => exact .refl h
  | succ n ih =>
    have hrest : strict → has (PGOFF flags) PTE_W = true →
        Unshared mem (pagesFrom n (va + PGSZ)) := by
      intro hstrict hw v hv
      exact hgrant hstrict hw v (List.mem_cons_of_mem _ hv)
    rw [protPages, PageTables.getmapping, PageTables.reached_eq_isP h]
    by_cases hva : va = 0
    · rw [if_pos hva]
      exact .refl h
    · rw [if_neg hva]
      by_cases hpv : mem.tables.isP .pt (vpn va) = true
      · rw [if_pos hpv]
        simp only
        rcases protEntry_bits (mem.pte (vpn va)) hp with ⟨hP, hW, hframe, halloc⟩
        generalize mem.pte (vpn va) &&& ~~~permMask ||| PGOFF flags = raw at hP hW hframe halloc ⊢
        have hone : Keeps strict w i mem (mem.setEntry .pt (vpn va) raw) := by
          refine setPerm_keeps hi h hpv hP hframe (halloc (h.alloc _ hpv)) ?_
          intro hstrict hw
          exact hgrant hstrict (hW ▸ hw) (vpn va) List.mem_cons_self hpv
        refine hone.trans (ih hone.tidy ?_)
        -- the other pages have the frames that they had
        intro hstrict hw v hv hpv'
        by_cases hvv : v = vpn va
        · subst hvv
          simp only [Mem.pte, Mem.setEntry, PageTables.entry_set_self, hframe]
          exact hrest hstrict hw _ hv hpv
        · have hne : ¬ (Level.pt = .pt ∧ v = vpn va) := fun hne => hvv hne.2
          simp only [Mem.setEntry, PageTables.isP_set_of_ne hne] at hpv'
          simp only [Mem.pte, Mem.setEntry, PageTables.entry_set_of_ne hne]
          exact hrest hstrict hw v hv hpv'
      · rw [if_neg hpv]
        exact ih h hrest

theorem mprotect_keeps (hi : i < w.nspaces) {sz flags : BitVec 64}
    (h : Tidy mem.tables mem.frames)
    (hgrant : strict → has (PGOFF flags) PTE_W = true →
      Unshared mem (pagesFrom (NPAGE sz).toNat (PGROUND va))) :
    Keeps strict w i mem (mprotect mem va sz flags).2 := by
  rw [mprotect]
  by_cases hp : has (PGOFF flags) PTE_P = true
  · rw [if_pos hp]
    exact protPages_keeps hi h hp hgrant
  · rw [if_neg hp]
    exact .refl h

/-! ## Unmapping everything -/

/-- What a loop of `x86_64_unmap_full` does below the entry `k` of the level `lvl`. -/
structure Cleared (strict : Prop) (w : World) (i : Nat) (lvl : Level) (k : Nat) (mem mem' : Mem) :
    Prop where
  keeps : Keeps strict w i mem mem'
  leaf : ∀ l j, l.above = some lvl → j / 512 = k → mem'.tables.isP l j = false

theorem Level.above_inj {l l' : Level} (h : l.above = some lvl) (h' : l'.above = some lvl) :
    l' = l := by
  rw [← h'] at h
  cases l <;> cases l' <;> simp [Level.above] at h h' ⊢

def Erased (l : Level) (j : Nat) (mem mem' : Mem) : Prop :=
  mem'.tables.isP l j = false ∧ ∀ l' j', mem'.tables.isP l' j' = true → mem.tables.isP l' j' = true

theorem clear_safe {l : Level} (hl : l.above = some lvl) {body : Nat → Mem → Except Fault Mem}
    (hbody : ∀ j mem, Tidy mem.tables mem.frames → Safe AnyFault (body j mem) fun mem' =>
      Keeps strict w i mem mem' ∧ Erased l (k * 512 + j) mem mem')
    (h : Tidy mem.tables mem.frames) :
    Safe AnyFault (each body (List.range NPTE) mem) fun mem' => Cleared strict w i lvl k mem mem' ∧
      ∀ l' j', mem'.tables.isP l' j' = true → mem.tables.isP l' j' = true := by
  have hloop : Safe AnyFault (each body (List.range NPTE) mem) fun mem' =>
      Keeps strict w i mem mem' ∧
        (∀ l' j', mem'.tables.isP l' j' = true → mem.tables.isP l' j' = true) ∧
        ∀ j < NPTE, mem'.tables.isP l (k * 512 + j) = false := by
    refine Safe.each_range (I := fun n mem' => Keeps strict w i mem mem' ∧
        (∀ l' j', mem'.tables.isP l' j' = true → mem.tables.isP l' j' = true) ∧
        ∀ j < n, mem'.tables.isP l (k * 512 + j) = false) ?_ ⟨.refl h, fun _ _ hp => hp, by simp⟩
    rintro n - mem1 ⟨hkeeps, hshrunk, hdone⟩
    refine (hbody n mem1 hkeeps.tidy).mono ?_
    rintro mem2 ⟨hkeeps2, herased, hshrunk2⟩
    refine ⟨hkeeps.trans hkeeps2, fun l' j' hp => hshrunk l' j' (hshrunk2 l' j' hp), ?_⟩
    intro j hj
    rcases Nat.lt_succ_iff_lt_or_eq.1 hj with hj | rfl
    · -- an entry that was erased before stays so
      by_contra hne
      have hp := hshrunk2 l (k * 512 + j) (by simpa using hne)
      rw [hdone j hj] at hp
      exact absurd hp (by simp)
    · exact herased
  refine hloop.mono ?_
  rintro mem' ⟨hkeeps, hshrunk, hdone⟩
  refine ⟨⟨hkeeps, ?_⟩, hshrunk⟩
  intro l' j hl' hj
  cases Level.above_inj hl hl'
  have hsplit : j = k * 512 + j % 512 := by omega
  rw [hsplit]
  exact hdone _ (Nat.mod_lt _ (by decide))

theorem unmapTable_safe (hi : i < w.nspaces) {mem1 : Mem} (hcleared : Cleared strict w i lvl k mem mem1)
    (hshrunk : ∀ l' j', mem1.tables.isP l' j' = true → mem.tables.isP l' j' = true) :
    Safe AnyFault (unmapTable mem1 lvl k) fun mem' =>
      Keeps strict w i mem mem' ∧ Erased lvl k mem mem' := by
  rw [unmapTable, PageTables.reached_eq_isP hcleared.keeps.tidy]
  by_cases hp : mem1.tables.isP lvl k = true
  · rw [if_pos hp]
    refine (dropEntry_safe strict hi hcleared.keeps.tidy hp hcleared.leaf).mono ?_
    rintro mem2 ⟨hkeeps, htables⟩
    refine ⟨hcleared.keeps.trans hkeeps, ?_, ?_⟩
    · rw [htables, PageTables.isP_set_self]
      rfl
    · intro l' j' hpl
      rw [htables, PageTables.isP_set_zero] at hpl
      exact hshrunk l' j' hpl.1
  · rw [if_neg hp]
    exact ⟨hcleared.keeps, by simpa using hp, hshrunk⟩

variable (strict) in
theorem clearPt_safe (hi : i < w.nspaces) (h : Tidy mem.tables mem.frames) :
    Safe AnyFault (clearPt k mem) fun mem' => Cleared strict w i .pdt k mem mem' ∧
      ∀ l' j', mem'.tables.isP l' j' = true → mem.tables.isP l' j' = true := by
  refine clear_safe (l := .pt) rfl ?_ h
  intro j mem1 h₁
  by_cases hp : mem1.tables.isP .pt (k * 512 + j) = true
  · rw [if_pos hp]
    refine (unmap_safe strict hi h₁).mono ?_
    rintro mem2 ⟨hkeeps, hsame⟩
    refine ⟨hkeeps, ?_, fun l' j' hpl => (hsame l' j' hpl).1⟩
    by_contra hne
    exact (hsame .pt (k * 512 + j) (by simpa using hne)).2 ⟨rfl, rfl⟩
  · rw [if_neg hp]
    exact ⟨.refl h₁, by simpa using hp, fun _ _ hpl => hpl⟩

variable (strict) in
theorem clearPdt_safe (hi : i < w.nspaces) (h : Tidy mem.tables mem.frames) :
    Safe AnyFault (clearPdt k mem) fun mem' => Cleared strict w i .pdpt k mem mem' ∧
      ∀ l' j', mem'.tables.isP l' j' = true → mem.tables.isP l' j' = true := by
  refine clear_safe (l := .pdt) rfl ?_ h
  intro j mem1 h₁
  by_cases hp : mem1.tables.isP .pdt (k * 512 + j) = true
  · rw [if_pos hp]
    refine (clearPt_safe strict hi h₁).bind ?_
    rintro mem2 ⟨hcleared, hshrunk⟩
    exact unmapTable_safe hi hcleared hshrunk
  · rw [if_neg hp]
    exact ⟨.refl h₁, by simpa using hp, fun _ _ hpl => hpl⟩

variable (strict) in
theorem clearPdpt_safe (hi : i < w.nspaces) (h : Tidy mem.tables mem.frames) :
    Safe AnyFault (clearPdpt k mem) fun mem' => Cleared strict w i .pml4 k mem mem' ∧
      ∀ l' j', mem'.tables.isP l' j' = true → mem.tables.isP l' j' = true := by
  refine clear_safe (l := .pdpt) rfl ?_ h
  intro j mem1 h₁
  by_cases hp : mem1.tables.isP .pdpt (k * 512 + j) = true
  · rw [if_pos hp]
    refine (clearPdt_safe strict hi h₁).bind ?_
    rintro mem2 ⟨hcleared, hshrunk⟩
    exact unmapTable_safe hi hcleared hshrunk
  · rw [if_neg hp]
    exact ⟨.refl h₁, by simpa using hp, fun _ _ hpl => hpl⟩

variable (strict) in
theorem unmapFull_safe (hi : i < w.nspaces) (h : Tidy mem.tables mem.frames) :
    Safe AnyFault (unmapFull mem) fun mem' => Keeps strict w i mem mem' := by
  refine Safe.each (I := fun mem' => Keeps strict w i mem mem') ?_ (.refl h)
  intro i4 _ mem1 hkeeps
  by_cases hp : mem1.tables.isP .pml4 i4 = true
  · rw [if_pos hp]
    refine (clearPdpt_safe strict hi hkeeps.tidy).bind ?_
    rintro mem2 ⟨hcleared, hshrunk⟩
    refine (unmapTable_safe hi hcleared hshrunk).mono ?_
    rintro mem3 ⟨hkeeps3, -⟩
    exact hkeeps.trans hkeeps3
  · rw [if_neg hp]
    exact hkeeps

end Keeps

end Arch
end XytherOS
