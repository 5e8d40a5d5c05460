import XytherOS.Arch.TableOps

/-!
# ForkLedger — `x86_64_lazycpy` shares every page

The copy goes through the pages of the source from the bottom to the top.  For each page that is
present the source loses the right to write and the destination, whose entry is still empty, gets
the same frame with a reference of its own.
-/

namespace XytherOS
namespace Arch

open Mm.Mmap (has bitIf PTE_P PTE_W PTE_U PTE_R PTE_X)
open Ledger

variable {strict : Prop} {w : World} {i j : Nat} {c c₀ c₁ : Copy} {k v : Nat}

/-! ## The ledger of two address spaces -/

def World.withTables (w : World) (i : Nat) (t : PageTables) : World :=
  { w with tables := Function.update w.tables i t }

/-- The world while the address space `i` is copied to `j`. -/
def World.onCopy (w : World) (i j : Nat) (c : Copy) : World := (w.withTables i c.src).on j c.mem

structure CopyKeeps (strict : Prop) (w : World) (i j : Nat) (c c' : Copy) : Prop where
  zone : c.mem.frames.SameZone c'.mem.frames
  src : Tidy c'.src c'.mem.frames
  dst : Tidy c'.mem.tables c'.mem.frames
  steps : Sound Slot.IsPage (w.onCopy i j c).book →
    Steps Slot.IsPage strict (w.onCopy i j c).book (w.onCopy i j c').book

theorem CopyKeeps.trans {c' c'' : Copy} (h : CopyKeeps strict w i j c c')
    (h' : CopyKeeps strict w i j c' c'') : CopyKeeps strict w i j c c'' :=
  ⟨h.zone.trans h'.zone, h'.src, h'.dst, fun hs =>
    (h.steps hs).trans (h'.steps (hs.steps (h.steps hs)))⟩

theorem CopyKeeps.of_dst {mem' : Mem} (hsrc : Tidy c.src c.mem.frames)
    (h : Keeps strict (w.withTables i c.src) j c.mem mem') :
    CopyKeeps strict w i j c { c with mem := mem' } :=
  ⟨h.zone, hsrc.congr h.zone, h.tidy, h.steps⟩

theorem cowEntry_bits (raw : BitVec 64) :
    has (raw &&& ~~~PTE_W) PTE_P = has raw PTE_P ∧ has (raw &&& ~~~PTE_W) PTE_W = false ∧
      has (raw &&& ~~~PTE_W) PTE_ALLOC = has raw PTE_ALLOC ∧
      frameOf (raw &&& ~~~PTE_W) = frameOf raw := by
  have hbit : ∀ n, PTE_W.getLsbD n = (decide (n < 64) && decide (n = 1)) := by
    intro n
    rw [show PTE_W = BitVec.twoPow 64 1 from rfl, BitVec.getLsbD_twoPow]
    by_cases hn : n = 1 <;> simp [hn, eq_comm]
  have hget : ∀ n, (raw &&& ~~~PTE_W).getLsbD n = (raw.getLsbD n && !decide (n = 1)) := by
    intro n
    rw [BitVec.getLsbD_and, BitVec.getLsbD_not, hbit]
    by_cases hn : n < 64
    · simp [hn]
    · rw [BitVec.getLsbD_of_ge raw n (by omega)]
      simp
  refine ⟨?_, ?_, ?_, ?_⟩
  · rw [has_P, has_P, hget]
    simp
  · rw [has_W, hget]
    simp
  · rw [has_ALLOC, has_ALLOC, hget]
    simp
  · apply frameOf_congr
    intro n hn
    rw [hget]
    simp
    omega

theorem World.book_share (hi : i < w.nspaces) (hj : j < w.nspaces) (hij : i ≠ j)
    {raw : BitVec 64} {fr : Frames} (hp : c.src.isP .pt v = true) (hraw : has raw PTE_P = true)
    (hro : has raw PTE_W = false) (hframe : frameOf raw = frameOf (c.src.entry .pt v))
    (hfr : fr = c.mem.frames.setRefcnt (frameOf raw) (c.mem.frames.refcnt (frameOf raw) + 1)) :
    (w.onCopy i j ⟨c.src.set .pt v raw, (c.mem.setEntry .pt v raw).withFrames fr⟩).book =
      (w.onCopy i j c).book.share (.entry j .pt v) (.entry i .pt v) (frameOf raw) := by
  have hj' : ∀ t, j < (w.withTables i t).nspaces := fun _ => hj
  have hothers := World.setEntry_others c.mem .pt v raw
  have hself : (c.mem.setEntry .pt v raw).tables.isP .pt v = true :=
    PageTables.isP_set_self.trans hraw
  have htables : ∀ t mem, ((w.withTables i t).on j mem).tables i = t := by
    intro t mem
    simp [World.on, World.withTables, hij]
  have helse : ∀ t t' mem i', i' ≠ i → ((w.withTables i t).on j mem).tables i' =
      ((w.withTables i t').on j mem).tables i' := by
    intro t t' mem i' hii
    by_cases hjj : i' = j
    · subst hjj
      simp
    · simp [World.on, World.withTables, hii, hjj]
  have hsrc : ∀ l m, (c.src.set .pt v raw).isP l m = c.src.isP l m ∧
      frameOf ((c.src.set .pt v raw).entry l m) = frameOf (c.src.entry l m) := by
    intro l m
    by_cases hlm : l = .pt ∧ m = v
    · rcases hlm with ⟨rfl, rfl⟩
      rw [PageTables.isP_set_self, PageTables.entry_set_self, hp, hraw, hframe]
      exact ⟨rfl, rfl⟩
    · rw [PageTables.isP_set_of_ne hlm, PageTables.entry_set_of_ne hlm]
      exact ⟨rfl, rfl⟩
  rw [World.onCopy, World.onCopy, World.book, World.book, Book.share, Book.mk.injEq]
  refine ⟨?_, ?_, ?_⟩
  · have hslot : ((w.withTables i (c.src.set .pt v raw)).on j c.mem).slot =
        ((w.withTables i c.src).on j c.mem).slot := by
      funext a
      cases a with
      | root => rfl
      | cache => rfl
      | hand => rfl
      | entry i' l m =>
        by_cases hii : i' = i
        · subst hii
          simp only [World.slot, htables, (hsrc l m).1, (hsrc l m).2]
          rfl
        · simp only [World.slot, helse _ c.src c.mem i' hii]
          rfl
    have hupdate := World.slot_update (hj' (c.src.set .pt v raw)) hothers
    rw [World.slot_entry_some (hj' _) hself, hslot] at hupdate
    simp only [Mem.setEntry, PageTables.entry_set_self] at hupdate
    exact hupdate
  · rw [World.on_frames, World.on_frames, Mem.withFrames, hfr]
    rfl
  · have hw : ((w.withTables i (c.src.set .pt v raw)).on j c.mem).writable =
        Function.update ((w.withTables i c.src).on j c.mem).writable (.entry i .pt v) false := by
      funext a
      by_cases ha : a = .entry i .pt v
      · subst ha
        rw [Function.update_self]
        simp [World.writable, htables, hro]
      · rw [Function.update_of_ne ha]
        cases a with
        | root => rfl
        | cache => rfl
        | hand => rfl
        | entry i' l m =>
          by_cases hl : l = .pt
          · subst hl
            by_cases hii : i' = i
            · subst hii
              have hne : ¬ (Level.pt = .pt ∧ m = v) := by
                rintro ⟨-, rfl⟩
                exact ha rfl
              simp only [World.writable, htables, PageTables.isP_set_of_ne hne,
                PageTables.entry_set_of_ne hne]
              rfl
            · simp only [World.writable, helse _ c.src c.mem i' hii]
              rfl
          · cases l <;> first | rfl | exact absurd rfl hl
    have hupdate : ((w.withTables i (c.src.set .pt v raw)).on j (c.mem.setEntry .pt v raw)).writable =
        _ := World.writable_setPage (hj' _)
    rw [hro, Bool.and_false, hw] at hupdate
    exact hupdate

/-- The state of the copy when the pages below `n` have been copied. -/
structure CopiedUpTo (strict : Prop) (w : World) (i j : Nat) (c₀ : Copy) (n : Nat) (c : Copy) :
    Prop where
  keeps : CopyKeeps strict w i j c₀ c
  tables : ∀ l m, l ≠ .pt → c.src.entry l m = c₀.src.entry l m
  below : ∀ v, v < n → c₀.src.isP .pt v = true →
    c.src.entry .pt v = c₀.src.entry .pt v &&& ~~~PTE_W
  same : ∀ v, n ≤ v ∨ c₀.src.isP .pt v = false → c.src.entry .pt v = c₀.src.entry .pt v
  fresh : ∀ v, n ≤ v → c.mem.tables.isP .pt v = false

namespace CopiedUpTo

variable {n n' : Nat}

theorem skip (h : CopiedUpTo strict w i j c₀ n c) (hle : n ≤ n')
    (hnone : ∀ v, n ≤ v → v < n' → c₀.src.isP .pt v = false) :
    CopiedUpTo strict w i j c₀ n' c := by
  refine ⟨h.keeps, h.tables, ?_, ?_, fun v hv => h.fresh v (hle.trans hv)⟩
  · intro v hv hp
    by_cases hvn : v < n
    · exact h.below v hvn hp
    · rw [hnone v (by omega) hv] at hp
      exact absurd hp (by simp)
  · intro v hv
    exact h.same v (hv.imp_left hle.trans)

theorem of_dst {mem' : Mem} (h : CopiedUpTo strict w i j c₀ n c)
    (hkeeps : Keeps strict (w.withTables i c.src) j c.mem mem')
    (hpages : ∀ v, mem'.tables.isP .pt v = c.mem.tables.isP .pt v) :
    CopiedUpTo strict w i j c₀ n { c with mem := mem' } :=
  ⟨h.keeps.trans (.of_dst h.keeps.src hkeeps), h.tables, h.below, h.same, fun v hv =>
    (hpages v).trans (h.fresh v hv)⟩

theorem isP_page (h : CopiedUpTo strict w i j c₀ n c) (v : Nat) :
    c.src.isP .pt v = c₀.src.isP .pt v := by
  by_cases hv : n ≤ v ∨ c₀.src.isP .pt v = false
  · simp only [PageTables.isP, h.same v hv]
  · rw [not_or, Bool.not_eq_false, Nat.not_le] at hv
    rw [PageTables.isP, h.below v hv.1 hv.2, (cowEntry_bits _).1]
    rfl

end CopiedUpTo

variable {env : Env}

theorem copyPte_safe (hi : i < w.nspaces) (hj : j < w.nspaces) (hij : i ≠ j)
    (h : CopiedUpTo strict w i j c₀ v c) (hup : c.mem.tables.isP .pdt (v / 512) = true) :
    Safe AnyFault (copyPte v c) fun c' => CopiedUpTo strict w i j c₀ (v + 1) c' ∧
      ∀ m, c'.mem.tables.isP .pdt m = c.mem.tables.isP .pdt m := by
  rw [copyPte]
  by_cases hp : c.src.isP .pt v = true
  · rw [if_pos hp]
    rcases cowEntry_bits (c.src.entry .pt v) with ⟨hP, hW, hA, hframe⟩
    have hold : c.src.entry .pt v = c₀.src.entry .pt v := h.same v (.inl le_rfl)
    generalize hraw : c.src.entry .pt v &&& ~~~PTE_W = raw at hP hW hA hframe ⊢
    have hPt : has raw PTE_P = true := hP.trans hp
    have hzone : c.mem.frames.Contains (frameOf raw) := hframe ▸ h.keeps.src.zone .pt v hp
    have halloc : has raw PTE_ALLOC = true := hA.trans (h.keeps.src.alloc v hp)
    rw [if_neg (by simp [hzone.not_ismmio])]
    refine (Frames.pageGet_safe hzone).bind ?_
    rintro ⟨err, fr⟩ hfr
    rcases Prod.mk.inj hfr with ⟨rfl, rfl⟩
    have hsame := Frames.sameZone_setRefcnt c.mem.frames (frameOf raw)
      (c.mem.frames.refcnt (frameOf raw) + 1)
    have hne : ∀ m, m ≠ v → ¬ (Level.pt = .pt ∧ m = v) := fun m hm hlm => hm hlm.2
    refine ⟨⟨h.keeps.trans ⟨hsame, ?_, ?_, ?_⟩, ?_, ?_, ?_, ?_⟩, ?_⟩
    · exact (h.keeps.src.set_page (h.keeps.src.closed .pt .pdt v rfl hp) hzone halloc).congr hsame
    · exact (h.keeps.dst.set_page hup hzone halloc).congr hsame
    · intro _
      have hbook := World.book_share hi hj hij hp hPt hW hframe rfl
      have hstep : Step Slot.IsPage strict (w.onCopy i j c).book
          ((w.onCopy i j c).book.share (.entry j .pt v) (.entry i .pt v) (frameOf raw)) := by
        refine .share _ _ _ trivial trivial ?_ ?_
        · exact World.slot_entry_none hj (h.fresh v le_rfl)
        · have hsrc : (w.onCopy i j c).tables i = c.src := by
            simp [World.onCopy, World.on, World.withTables, hij]
          have hn : i < (w.onCopy i j c).nspaces := hi
          simp [World.book, World.slot, hsrc, hn, hp, hframe]
      rw [← hbook] at hstep
      exact .single hstep
    · intro l m hl
      rw [PageTables.entry_set_of_ne fun hlm => hl hlm.1]
      exact h.tables l m hl
    · intro m hm hpm
      by_cases hmv : m = v
      · subst hmv
        rw [PageTables.entry_set_self, ← hraw, hold]
      · rw [PageTables.entry_set_of_ne (hne m hmv)]
        exact h.below m (by omega) hpm
    · intro m hm
      have hmv : m ≠ v := by
        rintro rfl
        rcases hm with hm | hm
        · omega
        · rw [← h.isP_page, hp] at hm
          exact absurd hm (by simp)
      rw [PageTables.entry_set_of_ne (hne m hmv)]
      exact h.same m (hm.imp_left fun hm => by omega)
    · intro m hm
      have hmv : m ≠ v := by omega
      exact (PageTables.isP_set_of_ne (hne m hmv)).trans (h.fresh m (by omega))
    · intro m
      exact PageTables.isP_set_of_ne (by simp)
  · rw [if_neg hp]
    refine ⟨h.skip (by omega) ?_, fun _ => rfl⟩
    intro m hm hm'
    have hmv : m = v := by omega
    rw [hmv, ← h.isP_page]
    simpa using hp

/-! ## Tables -/

theorem CopiedUpTo.skip_table {n n' : Nat} {l : Level} (h : CopiedUpTo strict w i j c₀ n c)
    (hp : ¬ c.src.isP l k = true) (hle : n ≤ n')
    (hindex : ∀ v, n ≤ v → v < n' → l.index v = k) : CopiedUpTo strict w i j c₀ n' c := by
  refine h.skip hle ?_
  intro v hv hv'
  by_contra hpv
  rw [Bool.not_eq_false, ← h.isP_page] at hpv
  have hup := h.keeps.src.isP_index hpv l
  rw [hindex v hv hv'] at hup
  exact hp hup

theorem mapTables_safe {mem : Mem} {lvls : List Level} {flags : BitVec 64} (hi : i < w.nspaces)
    (h : Tidy mem.tables mem.frames) (hv : v < 2 ^ 35) (hpt : .pt ∉ lvls)
    (hchain : lvls.IsChain fun a b => b.above = some a) (hhead : lvls.head? = some .pml4) :
    Safe AnyFault (mapTables mem lvls v flags) (TablesAdded strict w i v lvls mem) := by
  rw [mapTables]
  by_cases hps : has flags PTE_PS = true
  · rw [if_pos hps]
    exact ⟨.refl h, .refl _, fun hok => absurd hok (by simp), fun _ _ _ => rfl⟩
  · rw [if_neg hps]
    refine addTables_safe strict hi h hv hpt hchain ?_
    intro l hl up hup
    rw [hhead, Option.mem_some_iff] at hl
    rw [← hl] at hup
    exact absurd hup (by simp [Level.above])

theorem mount_mem (env : Env) (mem : Mem) : (mount env mem).2 = mem.tick := by
  rw [mount]
  cases env.mount mem.ticks <;> rfl

theorem enterTable_safe {n : Nat} {lvls : List Level} {raw : BitVec 64}
    {mapTable : Mem → BitVec 64 → Except Fault (Ret × Mem)}
    (h : CopiedUpTo strict w i j c₀ n c)
    (hmap : Safe AnyFault (mapTable c.mem (PGOFF raw))
      (TablesAdded strict (w.withTables i c.src) j v lvls c.mem)) :
    Safe AnyFault (enterTable env c mapTable raw) fun x => CopiedUpTo strict w i j c₀ n x.2 ∧
      (x.1 = .ok → ∀ l ∈ lvls, x.2.mem.tables.isP l (l.index v) = true) := by
  rw [enterTable]
  refine hmap.bind ?_
  rintro ⟨ret, mem⟩ hadded
  cases ret with
  | err e => exact ⟨h.of_dst hadded.keeps hadded.grown.pages, fun hok => absurd hok (by simp)⟩
  | ok =>
    change CopiedUpTo strict w i j c₀ n { c with mem := (mount env mem).2 } ∧ _
    rw [mount_mem]
    exact ⟨h.of_dst hadded.keeps.tick hadded.grown.pages, fun _ => hadded.present rfl⟩

/-! ## The loops over the tables -/

/-- What a loop does that starts with the pages below `n` copied and ends with those below `n'`. -/
def CopiesTo (strict : Prop) (w : World) (i j : Nat) (c₀ : Copy) (n : Nat) (x : Ret × Copy) : Prop :=
  (x.1 = .ok → CopiedUpTo strict w i j c₀ n x.2) ∧ (x.1 ≠ .ok → CopyKeeps strict w i j c₀ x.2)

theorem copyPt_safe (hi : i < w.nspaces) (hj : j < w.nspaces) (hij : i ≠ j)
    (h : CopiedUpTo strict w i j c₀ (k * 512) c) :
    Safe AnyFault (copyPt env k c) (CopiesTo strict w i j c₀ ((k + 1) * 512)) := by
  rw [copyPt]
  by_cases hp : c.src.isP .pdt k = true
  · rw [if_pos hp]
    have hj' : j < (w.withTables i c.src).nspaces := hj
    have h3 := h.keeps.src.closed .pdt .pdpt k rfl hp
    have huser := h.keeps.src.user _ (h.keeps.src.closed .pdpt .pml4 _ rfl h3)
    rw [userTables] at huser
    refine (enterTable_safe (v := k * 512) h (mapTables_safe hj' h.keeps.dst (by omega) (by decide)
      (by decide) rfl)).bind ?_
    rintro ⟨ret, c₁⟩ ⟨h₁, hpresent⟩
    cases ret with
    | err e => exact ⟨fun hok => absurd hok (by simp), fun _ => h₁.keeps⟩
    | ok =>
      have hup : c₁.mem.tables.isP .pdt k = true := by
        have hpdt := hpresent rfl .pdt (by simp)
        rwa [Level.index, Nat.mul_div_cancel _ (by decide)] at hpdt
      have hloop : Safe AnyFault (each (fun i1 c => copyPte (k * 512 + i1) c) (List.range NPTE) c₁)
          fun c' => CopiedUpTo strict w i j c₀ (k * 512 + NPTE) c' ∧
            c'.mem.tables.isP .pdt k = true := by
        refine Safe.each_range (I := fun n c' => CopiedUpTo strict w i j c₀ (k * 512 + n) c' ∧
          c'.mem.tables.isP .pdt k = true) ?_ ⟨by rwa [Nat.add_zero], hup⟩
        rintro n hn c2 ⟨h₂, hup2⟩
        rw [NPTE] at hn
        have hdiv : (k * 512 + n) / 512 = k := by omega
        refine (copyPte_safe hi hj hij h₂ (hdiv.symm ▸ hup2)).mono ?_
        rintro c3 ⟨h₃, hsame⟩
        rw [Nat.add_assoc] at h₃
        exact ⟨h₃, (hsame k).trans hup2⟩
      refine hloop.bind ?_
      rintro c2 ⟨h₂, -⟩
      have hend : k * 512 + NPTE = (k + 1) * 512 := by rw [NPTE]; omega
      rw [hend] at h₂
      exact ⟨fun _ => h₂, fun hne => absurd rfl hne⟩
  · rw [if_neg hp]
    refine ⟨fun _ => h.skip_table hp (by omega) ?_, fun hne => absurd rfl hne⟩
    intro v hv hv'
    simp only [Level.index]
    omega

theorem tryEach_copies {s n : Nat} {body : Nat → Copy → Except Fault (Ret × Copy)}
    (hbody : ∀ m c, CopiedUpTo strict w i j c₀ (m * s) c →
      Safe AnyFault (body m c) (CopiesTo strict w i j c₀ ((m + 1) * s)))
    (h : CopiedUpTo strict w i j c₀ (k * s) c) :
    Safe AnyFault (tryEach (fun i1 c => body (k + i1) c) (List.range n) c)
      (CopiesTo strict w i j c₀ ((k + n) * s)) := by
  refine Safe.tryEach_range (I := fun m c => CopiedUpTo strict w i j c₀ ((k + m) * s) c) ?_ h
  intro m _ c' h'
  exact hbody (k + m) c' h'

theorem copyPdt_safe (hi : i < w.nspaces) (hj : j < w.nspaces) (hij : i ≠ j)
    (h : CopiedUpTo strict w i j c₀ (k * 512 * 512) c) :
    Safe AnyFault (copyPdt env k c) (CopiesTo strict w i j c₀ ((k + 1) * 512 * 512)) := by
  rw [copyPdt]
  by_cases hp : c.src.isP .pdpt k = true
  · rw [if_pos hp]
    have hj' : j < (w.withTables i c.src).nspaces := hj
    have huser := h.keeps.src.user _ (h.keeps.src.closed .pdpt .pml4 k rfl hp)
    rw [userTables] at huser
    refine (enterTable_safe (v := k * 512 * 512) h (mapTables_safe hj' h.keeps.dst (by omega)
      (by decide) (by decide) rfl)).bind ?_
    rintro ⟨ret, c₁⟩ ⟨h₁, -⟩
    cases ret with
    | err e => exact ⟨fun hok => absurd hok (by simp), fun _ => h₁.keeps⟩
    | ok =>
      have hend : (k * 512 + NPTE) * 512 = (k + 1) * 512 * 512 := by rw [NPTE]; omega
      rw [← hend]
      exact tryEach_copies (fun m c' h' => copyPt_safe hi hj hij h') h₁
  · rw [if_neg hp]
    refine ⟨fun _ => h.skip_table hp (by omega) ?_, fun hne => absurd rfl hne⟩
    intro v hv hv'
    simp only [Level.index]
    omega

theorem span_pml4 (k : Nat) :
    (k + 1) * (512 * 512 * 512) = (k * 512 + NPTE) * (512 * 512) := by
  simp only [NPTE]
  omega

theorem copyPdpt_safe (hi : i < w.nspaces) (hj : j < w.nspaces) (hij : i ≠ j)
    (h : CopiedUpTo strict w i j c₀ (k * (512 * 512 * 512)) c) :
    Safe AnyFault (copyPdpt env k c) (CopiesTo strict w i j c₀ ((k + 1) * (512 * 512 * 512))) := by
  rw [copyPdpt]
  by_cases hp : c.src.isP .pml4 k = true
  · rw [if_pos hp]
    have hj' : j < (w.withTables i c.src).nspaces := hj
    have huser := h.keeps.src.user k hp
    rw [userTables] at huser
    refine (enterTable_safe (v := k * 512 * 512 * 512) h (mapTables_safe hj' h.keeps.dst (by omega)
      (by decide) (by decide) rfl)).bind ?_
    rintro ⟨ret, c₁⟩ ⟨h₁, -⟩
    cases ret with
    | err e => exact ⟨fun hok => absurd hok (by simp), fun _ => h₁.keeps⟩
    | ok =>
      have hstart : k * (512 * 512 * 512) = k * 512 * (512 * 512) := by omega
      rw [hstart] at h₁
      rw [span_pml4]
      refine tryEach_copies ?_ h₁
      intro m c' h'
      rw [← Nat.mul_assoc] at h' ⊢
      exact copyPdt_safe hi hj hij h'
  · rw [if_neg hp]
    refine ⟨fun _ => h.skip_table hp (by omega) ?_, fun hne => absurd rfl hne⟩
    intro v hv hv'
    simp only [Level.index]
    omega

variable (strict) in
theorem lazycpy_safe (hi : i < w.nspaces) (hj : j < w.nspaces) (hij : i ≠ j)
    (hsrc : Tidy c.src c.mem.frames) (hdst : Tidy c.mem.tables c.mem.frames)
    (hfresh : ∀ v, c.mem.tables.isP .pt v = false) :
    Safe AnyFault (lazycpy env c) fun x => CopyKeeps strict w i j c x.2 ∧
      (x.1 = .ok → ∀ v, c.src.isP .pt v = true →
        x.2.src.entry .pt v = c.src.entry .pt v &&& ~~~PTE_W) := by
  have hstart : CopiedUpTo strict w i j c 0 { c with mem := c.mem.tick } :=
    ⟨.of_dst hsrc (Keeps.refl hdst).tick, fun _ _ _ => rfl, fun v hv => absurd hv (by simp),
      fun _ _ => rfl, fun v _ => hfresh v⟩
  rw [lazycpy]
  have hmount := mount_mem env c.mem
  generalize mount env c.mem = res at hmount ⊢
  rcases res with ⟨ret, mem⟩
  cases hmount
  cases ret with
  | err e => exact ⟨hstart.keeps, fun hok => absurd hok (by simp)⟩
  | ok =>
    have hloop : Safe AnyFault (tryEach (fun i4 c => copyPdpt env i4 c) (List.range userTables)
        { c with mem := c.mem.tick })
        (CopiesTo strict w i j c (userTables * (512 * 512 * 512))) := by
      refine Safe.tryEach_range
        (I := fun n c' => CopiedUpTo strict w i j c (n * (512 * 512 * 512)) c') ?_ ?_
      · intro n _ c' h'
        exact copyPdpt_safe hi hj hij h'
      · rw [Nat.zero_mul]
        exact hstart
    refine hloop.bind ?_
    rintro ⟨ret, c₁⟩ ⟨hok, herr⟩
    cases ret with
    | ok =>
      refine ⟨(hok rfl).keeps, fun _ v hp => (hok rfl).below v ?_ hp⟩
      -- every page of the user half has been copied
      have huser := hsrc.user _ (hsrc.isP_index hp .pml4)
      simp only [Level.index, userTables] at huser ⊢
      omega
    | err e =>
      have hkeeps := herr (by simp)
      have hj' : j < (w.withTables i c₁.src).nspaces := hj
      refine (unmapFull_safe strict hj' hkeeps.dst).bind ?_
      intro mem hmem
      exact ⟨hkeeps.trans (.of_dst hkeeps.src hmem), fun hok => absurd hok (by simp)⟩

end Arch
end XytherOS
