import Mathlib.Data.Set.Insert
import XytherOS.Mm.VmmRun

/-!
# VmmRanges — the allocated ranges of kernel addresses

What the callers of `vmman` see of it is a set of allocated ranges: `alloc` adds one range that was
free, `free` takes away the one that starts at an address.
-/

namespace XytherOS
namespace Mm
namespace Vmm

open Links Tiling

/-- The allocated ranges, as their first addresses and those behind them. -/
def usedRanges (s : State) : Set (Nat × Nat) :=
  {r | ∃ x ∈ usedList s, r = (startOf s x, stopOf s x)}

def firstFit (s : State) (size : BitVec 64) : Option (BitVec 64) :=
  ((freeList s).find? fun x => decide (size ≤ (s.mem x).size)).map fun x => (s.mem x).base

def Paged (s : State) : Prop :=
  ∃ l pl, Rep s l pl ∧ ∀ t ∈ l, PGSZ.toNat ∣ t.base

section Ranges

variable {s : State} {l : List (Tile Nat)} {pl : List Nat} {size addr : BitVec 64} {r : Nat × Nat}

theorem Rep.mem_usedRanges (h : Rep s l pl) :
    r ∈ usedRanges s ↔ ∃ t ∈ usedTiles l, r = (t.base, t.stop) := by
  rw [usedRanges, Set.mem_ofPred_eq, h.usedList_eq]
  constructor
  · rintro ⟨x, hx, rfl⟩
    rcases mem_slots.1 hx with ⟨t, ht, hu, rfl⟩
    exact ⟨t, List.mem_filter.2 ⟨ht, by simp [hu]⟩, by rw [h.startOf_eq ht, h.stopOf_eq ht]⟩
  · rintro ⟨t, ht, rfl⟩
    rcases List.mem_filter.1 ht with ⟨ht, hu⟩
    refine ⟨t.slot, mem_slots.2 ⟨t, ht, by simpa using hu, rfl⟩, ?_⟩
    rw [h.startOf_eq ht, h.stopOf_eq ht]

structure InHeap (s : State) (r : Nat × Nat) : Prop where
  lower : KHEAPBASE.toNat ≤ r.1
  nonempty : r.1 < r.2
  upper : r.2 ≤ KHEAPBASE.toNat + s.kheapSize.toNat

theorem Rep.inHeap (h : Rep s l pl) (hr : r ∈ usedRanges s) : InHeap s r := by
  rcases h.mem_usedRanges.1 hr with ⟨t, ht, rfl⟩
  rcases h.tiles.bounds (List.mem_of_mem_filter ht) with ⟨hlo, hhi, hpos⟩
  exact ⟨hlo, by simp only [Tile.stop]; omega, hhi⟩

theorem Paged.inHeap (h : Paged s) (hr : r ∈ usedRanges s) :
    InHeap s r ∧ r.2 ≤ 2 ^ 64 ∧ PGSZ.toNat ∣ r.1 := by
  rcases h with ⟨l, pl, h, hq⟩
  have hin := h.inHeap hr
  rcases h.mem_usedRanges.1 hr with ⟨t, ht, rfl⟩
  exact ⟨hin, hin.upper.trans h.fits, hq t (List.mem_of_mem_filter ht)⟩

theorem Paged.eq_of_start (h : Paged s) {r' : Nat × Nat} (hr : r ∈ usedRanges s)
    (hr' : r' ∈ usedRanges s) (hstart : r.1 = r'.1) : r = r' := by
  rcases h with ⟨l, pl, h, -⟩
  rcases h.mem_usedRanges.1 hr with ⟨t, ht, rfl⟩
  rcases h.mem_usedRanges.1 hr' with ⟨u, hu, rfl⟩
  have htl := List.mem_of_mem_filter ht
  have hul := List.mem_of_mem_filter hu
  by_cases htu : t = u
  · rw [htu]
  · have hpos := (h.tiles.bounds htl).2.2
    have hpos' := (h.tiles.bounds hul).2.2
    have hsymm : Std.Symm fun v w : Tile Nat => v.stop ≤ w.base ∨ w.stop ≤ v.base :=
      ⟨fun _ _ hvw => hvw.symm⟩
    have hapart := (h.tiles.pairwise.imp fun hvw => Or.inl hvw :
      l.Pairwise fun v w => v.stop ≤ w.base ∨ w.stop ≤ v.base).forall htl hul htu
    simp only [Tile.stop] at hapart hstart
    omega

structure Grants (s : State) (size addr : BitVec 64) (s' : State) : Prop where
  paged : Paged s'
  kheapSize : s'.kheapSize = s.kheapSize
  aligned : PGSZ.toNat ∣ addr.toNat
  inHeap : InHeap s (addr.toNat, addr.toNat + size.toNat)
  fresh : ∀ r ∈ usedRanges s, r.2 ≤ addr.toNat ∨ addr.toNat + size.toNat ≤ r.1
  ranges : usedRanges s' = insert (addr.toNat, addr.toNat + size.toNat) (usedRanges s)

variable {s' : State}

theorem Rep.grants {l' : List (Tile Nat)} {pl' : List Nat} (h : Rep s l pl)
    (hq : ∀ t ∈ l, PGSZ.toNat ∣ t.base) (hpage : PGSZ.toNat ∣ size.toNat) (h' : Rep s' l' pl')
    (hkh : s'.kheapSize = s.kheapSize) (hout : HandedOut size.toNat addr.toNat l l') :
    Grants s size addr s' := by
  rcases hout.dvd hpage hq with ⟨haligned, hq'⟩
  rcases hout.usedTiles with ⟨us1, u, us2, hused, hused', hbase, hsize⟩
  have hstop : u.stop = addr.toNat + size.toNat := by rw [Tile.stop, hbase, hsize]
  have hmem : u ∈ usedTiles l' := by rw [hused']; simp
  have hin := h'.inHeap (h'.mem_usedRanges.2 ⟨u, hmem, rfl⟩)
  rw [hstop, hbase] at hin
  refine ⟨⟨l', pl', h', hq'⟩, hkh, haligned, ⟨hin.lower, hin.nonempty, hkh ▸ hin.upper⟩, ?_, ?_⟩
  · intro r hr
    rcases h.mem_usedRanges.1 hr with ⟨t, ht, rfl⟩
    -- the tiles in use before and the new one lie apart in the new tiling
    have hpair : (us1 ++ u :: us2).Pairwise fun v w => v.stop ≤ w.base := by
      rw [← hused']
      exact h'.tiles.pairwise.filter _
    rw [hused, List.mem_append] at ht
    rw [List.pairwise_append, List.pairwise_cons] at hpair
    rcases ht with ht | ht
    · exact .inl (hbase ▸ hpair.2.2 t ht u (by simp))
    · exact .inr (hstop ▸ hpair.2.1.1 t ht)
  · ext r
    rw [Set.mem_insert_iff, h.mem_usedRanges, h'.mem_usedRanges, hused, hused']
    constructor
    · rintro ⟨t, ht, rfl⟩
      rw [List.mem_append, List.mem_cons] at ht
      rcases ht with ht | rfl | ht
      · exact .inr ⟨t, List.mem_append.2 (.inl ht), rfl⟩
      · exact .inl (by rw [hbase, hstop])
      · exact .inr ⟨t, List.mem_append.2 (.inr ht), rfl⟩
    · rintro (rfl | ⟨t, ht, rfl⟩)
      · exact ⟨u, by simp, by rw [hbase, hstop]⟩
      · refine ⟨t, ?_, rfl⟩
        rw [List.mem_append] at ht
        simp only [List.mem_append, List.mem_cons]
        exact ht.imp_right .inr

theorem Paged.alloc (h : Paged s) (hsize : size ≠ 0) (hpage : PGSZ.toNat ∣ size.toNat) :
    Vmm.alloc s size = .error (.assertion "No vm node.") ∨
      (∃ err, Vmm.alloc s size = .ok (err, none, s) ∧ firstFit s size = none) ∨
      ∃ va s', Vmm.alloc s size = .ok (.ok, some va, s') ∧ firstFit s size = some va ∧
        Grants s size va s' := by
  rcases h with ⟨l, pl, h, hq⟩
  rcases h.alloc hsize hpage with ⟨herr, -⟩ | ⟨err, hok, hno⟩ |
    ⟨addr, s', l', pl', hok, hrep, hkh, -, hout, x, hfind, hbase⟩
  · exact .inl herr
  · refine .inr (.inl ⟨err, hok, ?_⟩)
    rw [firstFit, h.freeList_eq, Option.map_eq_none_iff, List.find?_eq_none]
    intro x hx
    rcases mem_slots.1 hx with ⟨t, ht, hf, rfl⟩
    have hlt := hno t ht hf
    rw [decide_eq_true_eq, BitVec.le_def, (h.describes t ht).2]
    omega
  · refine .inr (.inr ⟨addr, s', hok, ?_, h.grants hq hpage hrep hkh hout⟩)
    rw [firstFit, h.freeList_eq, hfind, Option.map_some, hbase]

theorem mem_eraseP_base {ts : List (Tile Nat)} {a : Nat} {t : Tile Nat}
    (h : ts.Pairwise fun u v => u.base ≠ v.base) :
    t ∈ ts.eraseP (fun u => u.base == a) ↔ t ∈ ts ∧ t.base ≠ a := by
  induction ts with
  | nil => simp
  | cons u us ih =>
    rw [List.pairwise_cons] at h
    by_cases hu : u.base = a
    · rw [List.eraseP_cons_of_pos (by simpa using hu), List.mem_cons]
      constructor
      · intro ht
        exact ⟨.inr ht, fun heq => h.1 t ht (hu.trans heq.symm)⟩
      · rintro ⟨rfl | ht, hne⟩
        · exact absurd hu hne
        · exact ht
    · rw [List.eraseP_cons_of_neg (by simpa using hu), List.mem_cons, List.mem_cons, ih h.2]
      constructor
      · rintro (rfl | ⟨ht, hne⟩)
        · exact ⟨.inl rfl, hu⟩
        · exact ⟨.inr ht, hne⟩
      · rintro ⟨rfl | ht, hne⟩
        · exact .inl rfl
        · exact .inr ⟨ht, hne⟩

theorem Paged.free (h : Paged s) (haddr : addr ≠ 0) :
    ∃ s', Vmm.free s addr = .ok s' ∧ Paged s' ∧ s'.kheapSize = s.kheapSize ∧
      usedRanges s' = {r ∈ usedRanges s | r.1 ≠ addr.toNat} := by
  rcases h with ⟨l, pl, h, hq⟩
  rcases h.free haddr with ⟨s', l', pl', hok, hrep, hkh, hused, hbases⟩
  refine ⟨s', hok, ⟨l', pl', hrep, fun t ht => ?_⟩, hkh, ?_⟩
  · rcases hbases t ht with ⟨u, hu, hbase⟩
    exact hbase ▸ hq u hu
  · have hpair : (usedTiles l).Pairwise fun u v => u.base ≠ v.base := by
      refine (h.tiles.pairwise.filter _).imp_of_mem fun {u v} hu hv huv => ?_
      have hpos := (h.tiles.bounds (List.mem_of_mem_filter hu)).2.2
      simp only [Tile.stop] at huv
      omega
    ext r
    rw [Set.mem_sep_iff, h.mem_usedRanges, hrep.mem_usedRanges, hused]
    constructor
    · rintro ⟨t, ht, rfl⟩
      rcases (mem_eraseP_base hpair).1 ht with ⟨ht, hne⟩
      exact ⟨⟨t, ht, rfl⟩, hne⟩
    · rintro ⟨⟨t, ht, rfl⟩, hne⟩
      exact ⟨t, (mem_eraseP_base hpair).2 ⟨ht, hne⟩, rfl⟩

theorem Grants.mem (h : Grants s size addr s') :
    (addr.toNat, addr.toNat + size.toNat) ∈ usedRanges s' := by
  rw [h.ranges]
  exact Set.mem_insert _ _

theorem Grants.ne_zero (h : Grants s size addr s') : addr ≠ 0 := by
  intro hzero
  have hlower : KHEAPBASE.toNat ≤ addr.toNat := h.inHeap.lower
  rw [hzero] at hlower
  exact absurd hlower (by decide)

theorem Grants.free (h : Grants s size addr s') :
    ∃ s'', Vmm.free s' addr = .ok s'' ∧ Paged s'' ∧ s''.kheapSize = s.kheapSize ∧
      usedRanges s'' = usedRanges s := by
  rcases h.paged.free h.ne_zero with ⟨s'', hok, hpaged, hkh, hranges⟩
  refine ⟨s'', hok, hpaged, hkh.trans h.kheapSize, ?_⟩
  rw [hranges, h.ranges]
  ext r
  simp only [Set.mem_insert_iff]
  constructor
  · rintro ⟨rfl | hr, hne⟩
    · exact absurd rfl hne
    · exact hr
  · intro hr
    refine ⟨.inr hr, fun heq => ?_⟩
    have hpos := h.inHeap.nonempty
    have hlt : r.1 < r.2 := by
      rcases h.paged with ⟨l, pl, hrep, -⟩
      exact (hrep.inHeap (h.ranges ▸ Set.mem_insert_of_mem _ hr)).nonempty
    rcases h.fresh r hr with hle | hle
    · omega
    · omega

theorem Grants.ssubset (h : Grants s size addr s') : usedRanges s ⊂ usedRanges s' := by
  rw [h.ranges]
  refine Set.ssubset_insert fun hr => ?_
  have hpos := h.inHeap.nonempty
  rcases h.fresh _ hr with hle | hle
  · omega
  · omega

theorem Start.paged {x : Nat} {pool : List Nat} (h : Start s x pool) : Paged s := by
  refine ⟨_, _, h.rep, fun t ht => ?_⟩
  have hbase : t.base = KHEAPBASE.toNat := by rw [List.mem_singleton.1 ht, wholeHeap]
  rw [hbase]
  decide

theorem Paged.run {cs : List Call} (h : Paged s) (hcs : ∀ c ∈ cs, c.PageSized)
    (hrun : Vmm.run s cs = .ok s') : Paged s' := by
  induction cs generalizing s with
  | nil =>
    cases hrun
    exact h
  | cons c cs ih =>
    rw [Vmm.run, bind_ok_iff] at hrun
    rcases hrun with ⟨s₁, hcall, hrest⟩
    refine ih ?_ (fun d hd => hcs d (by simp [hd])) hrest
    have hc := hcs c (by simp)
    cases c with
    | alloc size =>
      rcases h.alloc hc.1 hc.2 with herr | ⟨err, hok, -⟩ | ⟨va, s'', hok, -, hgrants⟩
      · simp [call, herr] at hcall
      · simp only [call, hok, ok_bind, pure_eq_ok, Except.ok.injEq] at hcall
        exact hcall ▸ h
      · simp only [call, hok, ok_bind, pure_eq_ok, Except.ok.injEq] at hcall
        exact hcall ▸ hgrants.paged
    | free addr =>
      by_cases haddr : addr = 0
      · subst haddr
        simp [call, Vmm.free] at hcall
      · rcases h.free haddr with ⟨s'', hok, hpaged, -⟩
        rw [call, hok, Except.ok.injEq] at hcall
        exact hcall ▸ hpaged

end Ranges

end Vmm
end Mm
end XytherOS
