import Mathlib.Logic.Relation
import XytherOS.Arch.MountView

/-!
# KmemRun — only allocated kernel addresses are mapped

Ranges of the kernel heap are taken and given back by `arch_pagealloc`, `arch_pagefree` and the
mounts.  Over all runs of these, with anything else going on that leaves the heap alone, the pages
of the heap that are mapped lie in allocated ranges.
-/

namespace XytherOS
namespace Arch

open Mm (Vmm.State Vmm.Paged Vmm.Grants Vmm.usedRanges Vmm.KHEAPBASE)
open Mm.Mmap (has PTE_P PTE_W)
open Mm.Pmm (NPAGE PGROUND PGSZ toNat_NPAGE)

namespace Kmem

variable {k k' : Kmem} {va a : BitVec 64} {n : Nat}

/-! ## Ranges of pages -/

section Ranges

variable {mem mem' : Mem} {f v w : Nat} {flags sz : BitVec 64} {ret : Ret} {nr : Nat}

theorem map_view (h : map mem f v flags = .ok (ret, mem')) :
    (ret = .ok → PageMapped flags mem v f mem') ∧
      (ret ≠ .ok → ∀ w, mem'.tables.pteAt w = mem.tables.pteAt w) := by
  cases hps : has flags PTE_PS with
  | true =>
    rw [map_refused hps, Except.ok.injEq, Prod.mk.injEq] at h
    rcases h with ⟨rfl, rfl⟩
    exact ⟨by simp, fun _ _ => rfl⟩
  | false =>
    by_cases henough : (mem.tables.missing [v]).card ≤ mem.frames.unused.length
    · rcases map_mapped hps henough f with ⟨mem1, hok, hmapped⟩
      rw [hok, Except.ok.injEq, Prod.mk.injEq] at h
      rcases h with ⟨rfl, rfl⟩
      exact ⟨fun _ => hmapped, fun hne => absurd rfl hne⟩
    · rcases map_exhausted hps (Nat.not_le.1 henough) f with ⟨t, hok, hadds⟩
      rw [hok, Except.ok.injEq, Prod.mk.injEq] at h
      rcases h with ⟨rfl, rfl⟩
      exact ⟨by simp, fun _ => hadds.pteAt⟩

theorem mapNLoop_view (h : mapNLoop flags n va mem = .ok (ret, nr, mem')) :
    nr ≤ n ∧ (ret ≠ .ok → 0 < nr) ∧
      ∀ w, w ∉ pagesFrom (n - nr) va → mem'.tables.pteAt w = mem.tables.pteAt w := by
  induction n generalizing va mem with
  | zero =>
    simp only [mapNLoop, Except.ok.injEq, Prod.mk.injEq] at h
    rcases h with ⟨rfl, rfl, rfl⟩
    exact ⟨Nat.le_refl _, fun hne => absurd rfl hne, fun _ _ => rfl⟩
  | succ n ih =>
    rw [mapNLoop] at h
    cases hget : mem.frames.getPage with
    | error e =>
      simp only [hget, Except.ok.injEq, Prod.mk.injEq] at h
      rcases h with ⟨rfl, rfl, rfl⟩
      exact ⟨Nat.le_refl _, fun _ => Nat.succ_pos n, fun _ _ => rfl⟩
    | ok res =>
      rcases res with ⟨f, fr⟩
      simp only [hget, bind_ok_iff] at h
      rcases h with ⟨⟨ret1, mem1⟩, hone, hrest⟩
      have hview := map_view hone
      cases ret1 with
      | err e =>
        simp only [pure_eq_ok, Except.ok.injEq, Prod.mk.injEq] at hrest
        rcases hrest with ⟨rfl, rfl, rfl⟩
        exact ⟨Nat.le_refl _, fun _ => Nat.succ_pos n, fun w _ => hview.2 (by simp) w⟩
      | ok =>
        rcases ih hrest with ⟨hle, hpos, hothers⟩
        refine ⟨Nat.le_succ_of_le hle, hpos, fun w hw => ?_⟩
        rw [Nat.succ_sub hle, pagesFrom, List.mem_cons, not_or] at hw
        rw [hothers w hw.2]
        exact (hview.1 rfl).others w hw.1

theorem unmapN_view (hn : (pagesFrom (NPAGE sz).toNat va).Nodup) (h : unmapN mem va sz = .ok mem') :
    ∀ w, mem'.tables.pteAt w =
      if w ∈ pagesFrom (NPAGE sz).toNat va ∧ has (mem.tables.pteAt w) PTE_P then 0
      else mem.tables.pteAt w := by
  rw [unmapN, unmapPages_eq hn, bind_ok_iff] at h
  rcases h with ⟨frames, -, hmem⟩
  rw [← Except.ok.inj hmem]
  exact PageTables.pteAt_clear _ _

theorem mapN_view (hn : (pagesFrom (NPAGE sz).toNat va).Nodup)
    (h : mapN mem va sz flags = .ok (ret, mem')) (hp : has (mem'.tables.pteAt w) PTE_P = true) :
    has (mem.tables.pteAt w) PTE_P = true ∨ ret = .ok ∧ w ∈ pagesFrom (NPAGE sz).toNat va := by
  rw [mapN, bind_ok_iff] at h
  rcases h with ⟨⟨ret1, nr, mem1⟩, hloop, hend⟩
  rcases mapNLoop_view hloop with ⟨hle, hpos, hothers⟩
  cases ret1 with
  | ok =>
    simp only [finishMap, Except.ok.injEq, Prod.mk.injEq] at hend
    rcases hend with ⟨rfl, rfl⟩
    by_cases hw : w ∈ pagesFrom ((NPAGE sz).toNat - nr) va
    · exact .inr ⟨rfl, pagesFrom_subset (Nat.sub_le _ _) hw⟩
    · rw [hothers w hw] at hp
      exact .inl hp
  | err e =>
    -- the pages that were done are unmapped again
    have hnr := hpos (by simp)
    have hback : nr = (NPAGE sz).toNat - ((NPAGE sz).toNat - nr) := by omega
    have hn' : (pagesFrom ((NPAGE sz).toNat - nr) va).Nodup := by
      refine hn.sublist ?_
      rw [pagesFrom_eq, pagesFrom_eq]
      exact (List.range_sublist.2 (Nat.sub_le _ _)).map _
    rw [hback, finishMap_err (by omega), unmapPages_eq hn', bind_ok_iff] at hend
    rcases hend with ⟨mem2, hmem2, hend⟩
    rw [bind_ok_iff] at hmem2
    rcases hmem2 with ⟨frames, -, hmem2⟩
    simp only [Except.ok.injEq, Prod.mk.injEq] at hend
    rw [← hend.2, ← Except.ok.inj hmem2] at hp
    simp only [PageTables.pteAt_clear] at hp
    split_ifs at hp with hcleared
    · exact absurd hp (by decide)
    · have hw : w ∉ pagesFrom ((NPAGE sz).toNat - nr) va := fun hw => hcleared ⟨hw, hp⟩
      rw [hothers w hw] at hp
      exact .inl hp

end Ranges

theorem mem_pagesFrom {sz : BitVec 64} (ha : k.OfHeap a) (hva : 4096 ∣ va.toNat)
    (hlo : Vmm.KHEAPBASE.toNat ≤ va.toNat) (hhi : va.toNat + sz.toNat ≤ 2 ^ 64) :
    (va.toNat ≤ a.toNat ∧ a.toNat < va.toNat + sz.toNat → vpn a ∈ pagesFrom (NPAGE sz).toNat va) ∧
      (4096 ∣ sz.toNat → vpn a ∈ pagesFrom (NPAGE sz).toNat va →
        va.toNat ≤ a.toNat ∧ a.toNat < va.toNat + sz.toNat) := by
  have hbase : 2 ^ 64 - 2 ^ 47 ≤ Vmm.KHEAPBASE.toNat := by decide
  have hacan := hbase.trans ha.1
  have hvcan := hbase.trans hlo
  have hlt := a.isLt
  rw [pagesFrom_eq, List.mem_map, toNat_NPAGE]
  constructor
  · rintro ⟨hle, hlta⟩
    refine ⟨a.toNat / 4096 - va.toNat / 4096, List.mem_range.2 ?_, ?_⟩
    · split_ifs <;> omega
    · rw [vpn]
      omega
  · rintro hsz ⟨i, hi, hpage⟩
    rw [List.mem_range] at hi
    rw [vpn] at hpage
    split_ifs at hi
    · omega
    · omega

theorem pagesFrom_nodup_heap {sz : BitVec 64} (hlo : Vmm.KHEAPBASE.toNat ≤ va.toNat)
    (hhi : va.toNat + sz.toNat ≤ 2 ^ 64) : (pagesFrom (NPAGE sz).toNat va).Nodup := by
  have hbase : 2 ^ 64 - 2 ^ 47 ≤ Vmm.KHEAPBASE.toNat := by decide
  refine pagesFrom_nodup ?_
  rw [toNat_NPAGE]
  split_ifs <;> omega

theorem Sound.pagealloc (h : Sound k) {sz : BitVec 64} {r : Except Errno (BitVec 64)} (hsz : sz ≠ 0)
    (hpage : PGSZ.toNat ∣ sz.toNat) (hok : k.pagealloc sz = .ok (r, k')) : Sound k' := by
  rw [Kmem.pagealloc, vmmAlloc] at hok
  rcases h.paged.alloc hsz hpage with herr | ⟨err, halloc, -⟩ | ⟨addr, vmm, halloc, -, hgrants⟩
  · simp [herr] at hok
  · simp only [halloc, ok_bind, pure_eq_ok, Option.getD_none, if_true, Except.ok.injEq,
      Prod.mk.injEq] at hok
    rw [← hok.2]
    exact h
  · simp only [halloc, ok_bind, pure_eq_ok, Option.getD_some, if_neg hgrants.ne_zero,
      bind_ok_iff] at hok
    rcases hok with ⟨⟨ret, mem⟩, hmap, hend⟩
    have hin := hgrants.paged.inHeap hgrants.mem
    have hlo : Vmm.KHEAPBASE.toNat ≤ addr.toNat := hgrants.inHeap.lower
    have hn := pagesFrom_nodup_heap hlo hin.2.1
    cases ret with
    | ok =>
      simp only [Except.ok.injEq, Prod.mk.injEq] at hend
      rw [← hend.2]
      have hgrants' : Vmm.Grants k.vmm sz addr ({ k with vmm := vmm, mem := mem } : Kmem).vmm :=
        hgrants
      refine h.grant hgrants' fun a ha hp => ?_
      refine (mapN_view hn hmap hp).imp_right fun hmem => ?_
      exact (mem_pagesFrom ha hgrants.aligned hlo hin.2.1).2 hpage hmem.2
    | err e =>
      rcases hgrants.free with ⟨vmm', hfree, hpaged, hkh, hranges⟩
      simp only [vmmFree, hfree, ok_bind, pure_eq_ok, Except.ok.injEq, Prod.mk.injEq] at hend
      rw [← hend.2]
      have hpaged' : Vmm.Paged ({ k with vmm := vmm', mem := mem } : Kmem).vmm := hpaged
      refine h.shrink hpaged' hkh hranges.ge fun a _ hp => ?_
      exact (mapN_view hn hmap hp).resolve_right fun hboth => absurd hboth.1 (by simp)

theorem Sound.pagefree (h : Sound k) {sz : BitVec 64}
    (hr : (va.toNat, va.toNat + sz.toNat) ∈ Vmm.usedRanges k.vmm)
    (hok : k.pagefree va sz = .ok k') : Sound k' := by
  rcases h.paged.inHeap hr with ⟨hin, hhi, haligned⟩
  have hlo : Vmm.KHEAPBASE.toNat ≤ va.toNat := hin.lower
  have hva : va ≠ 0 := by
    intro hzero
    rw [hzero] at hlo
    exact absurd hlo (by decide)
  rw [Kmem.pagefree, bind_ok_iff] at hok
  rcases hok with ⟨mem, hunmap, hok⟩
  rcases h.paged.free hva with ⟨vmm, hfree, hpaged, hkh, hranges⟩
  simp only [vmmFree, hfree, ok_bind, pure_eq_ok, Except.ok.injEq] at hok
  have hview := unmapN_view (pagesFrom_nodup_heap hlo hhi) hunmap
  rw [← hok]
  refine ⟨hpaged, fun a ha hp => ?_⟩
  rw [OfHeap, hkh] at ha
  change has (mem.tables.pteAt (vpn a)) PTE_P = true at hp
  rw [hview] at hp
  split_ifs at hp with hcleared
  · exact absurd hp (by decide)
  · rcases h.mapped a ha hp with ⟨r, hr', hle, hlt⟩
    refine ⟨r, ?_, hle, hlt⟩
    rw [hranges]
    refine ⟨hr', fun hstart => hcleared ⟨?_, hp⟩⟩
    -- the address would lie in the range that is freed, and its page would be cleared
    have heq := h.paged.eq_of_start hr' hr hstart
    rw [heq] at hle hlt
    exact (mem_pagesFrom ha haligned hlo hhi).1 ⟨hle, hlt⟩

/-- What happens to the kernel's memory: the ranges are those of the callers of `vmman`, in whole
pages and given back whole; everything else leaves the ranges and the pages of the heap alone. -/
inductive Step : Kmem → Kmem → Prop
  | mount {k k' : Kmem} {pa : BitVec 64} {r : Except Errno (BitVec 64)}
      (h : k.mount pa = .ok (r, k')) : Step k k'
  | unmount {k k' : Kmem} {va : BitVec 64} (h : k.unmount va = .ok k') : Step k k'
  | pagealloc {k k' : Kmem} {sz : BitVec 64} {r : Except Errno (BitVec 64)} (hsz : sz ≠ 0)
      (hpage : PGSZ.toNat ∣ sz.toNat) (h : k.pagealloc sz = .ok (r, k')) : Step k k'
  | pagefree {k k' : Kmem} {va sz : BitVec 64}
      (hr : (va.toNat, va.toNat + sz.toNat) ∈ Vmm.usedRanges k.vmm)
      (h : k.pagefree va sz = .ok k') : Step k k'
  | other {k k' : Kmem} (hvmm : k'.vmm = k.vmm)
      (hptes : ∀ a, k.OfHeap a → k'.pte (vpn a) = k.pte (vpn a)) : Step k k'

/-- The state after `vmm_init`: nothing is allocated, and nothing of the heap is mapped. -/
def Boot (k : Kmem) : Prop :=
  (∃ x pool, Mm.Vmm.Start k.vmm x pool) ∧ ∀ a, k.OfHeap a → has (k.pte (vpn a)) PTE_P = false

def Reachable (k : Kmem) : Prop := ∃ k₀, Boot k₀ ∧ Relation.ReflTransGen Step k₀ k

theorem Boot.sound (h : Boot k) : Sound k := by
  rcases h with ⟨⟨x, pool, hstart⟩, hnone⟩
  refine ⟨hstart.paged, fun a ha hp => ?_⟩
  rw [hnone a ha] at hp
  exact absurd hp (by decide)

theorem Sound.step (h : Sound k) (hstep : Step k k') : Sound k' := by
  cases hstep with
  | @mount pa r hok =>
    have hview := h.mount pa
    rw [hok] at hview
    cases hview with
    | done shows => exact shows.sound
    | failed unseen => exact unseen.sound
  | unmount hok => exact (unmount_ok hok).sound h
  | pagealloc hsz hpage hok => exact h.pagealloc hsz hpage hok
  | pagefree hr hok => exact h.pagefree hr hok
  | other hvmm hptes =>
    refine h.shrink (hvmm ▸ h.paged) (by rw [hvmm]) (by rw [hvmm]) fun a ha hp => ?_
    rwa [← hptes a ha]

theorem Reachable.sound (h : Reachable k) : Sound k := by
  rcases h with ⟨k0, hboot, hrun⟩
  induction hrun with
  | refl => exact hboot.sound
  | tail _ hstep ih => exact ih.step hstep

end Kmem

end Arch
end XytherOS
