import XytherOS.Arch.Mount
import XytherOS.Lib.Align

/-!
# MountView — what a mounted page shows

A mount keeps an entry that is present already, so that it shows the right frame only when no free
page of the kernel heap is mapped.  In such a state a mount adds one page, through which the bytes of
the frame are reached, and its unmount takes the page away again; no other address is translated
differently.
-/

namespace XytherOS
namespace Arch

open Function

open Mm (Vmm.State Vmm.Paged Vmm.Grants Vmm.usedRanges Vmm.KHEAPBASE)
open Mm.Mmap (has PTE_P PTE_W)
open Mm.Pmm (NPAGE PGROUND PGSZ toNat_NPAGE)

/-! ## Addresses -/

section Addresses

variable {a b va off : BitVec 64}

theorem toNat_PGOFF (a : BitVec 64) : (PGOFF a).toNat = a.toNat % 4096 := by
  rw [PGOFF, BitVec.toNat_and]
  exact Nat.and_two_pow_sub_one_eq_mod a.toNat 12

theorem toNat_PGROUND (a : BitVec 64) : (PGROUND a).toNat = a.toNat / 4096 * 4096 :=
  Align.toNat_roundDown (k := 12) a rfl

theorem PGROUND_add_PGOFF (a : BitVec 64) : PGROUND a + PGOFF a = a := by
  have hlt := a.isLt
  apply BitVec.eq_of_toNat_eq
  rw [BitVec.toNat_add, toNat_PGROUND, toNat_PGOFF]
  omega

theorem PGROUND_mkPte (pa flags : BitVec 64) :
    PGROUND (mkPte (frameOf (PGROUND pa)) flags) = PGROUND pa := by
  have hlt := pa.isLt
  have hframe : frameOf (PGROUND pa) = pa.toNat / 4096 := by
    rw [frameOf, toNat_PGROUND]
    omega
  have hback : frameOf (mkPte (pa.toNat / 4096) flags) = pa.toNat / 4096 :=
    frameOf_mkPte (by omega)
  apply BitVec.eq_of_toNat_eq
  rw [frameOf] at hback
  rw [hframe, toNat_PGROUND, toNat_PGROUND, hback]

theorem add_page (hva : 4096 ∣ va.toNat) (hoff : off.toNat < 4096) :
    (va + off).toNat = va.toNat + off.toNat ∧ vpn (va + off) = vpn va ∧ PGOFF (va + off) = off := by
  have hlt := va.isLt
  have hsum : (va + off).toNat = va.toNat + off.toNat := by
    rw [BitVec.toNat_add]
    omega
  refine ⟨hsum, ?_, ?_⟩
  · rw [vpn, vpn, hsum]
    omega
  · apply BitVec.eq_of_toNat_eq
    rw [toNat_PGOFF, hsum]
    omega

namespace Kmem

theorem page_eq_of_vpn (ha : Canonical a) (hb : Canonical b) (h : vpn a = vpn b) :
    a.toNat / 4096 = b.toNat / 4096 := by
  have ha' := a.isLt
  have hb' := b.isLt
  simp only [Canonical, vpn] at ha hb h
  omega

theorem Canonical.add_page (h : Canonical va) (hva : 4096 ∣ va.toNat) (hoff : off.toNat < 4096) :
    Canonical (va + off) := by
  rw [Canonical, (Arch.add_page hva hoff).1]
  rw [Canonical] at h
  omega

end Kmem

end Addresses

namespace Kmem

/-! ## The heap -/

def pte (k : Kmem) (v : Nat) : BitVec 64 := k.mem.tables.pteAt v

def OfHeap (k : Kmem) (a : BitVec 64) : Prop :=
  Vmm.KHEAPBASE.toNat ≤ a.toNat ∧ a.toNat < Vmm.KHEAPBASE.toNat + k.vmm.kheapSize.toNat

structure Sound (k : Kmem) : Prop where
  paged : Vmm.Paged k.vmm
  mapped : ∀ a, k.OfHeap a → has (k.pte (vpn a)) PTE_P = true →
    ∃ r ∈ Vmm.usedRanges k.vmm, r.1 ≤ a.toNat ∧ a.toNat < r.2

variable {k k' k₁ : Kmem} {pa va a b : BitVec 64} {n : Nat}

theorem OfHeap.canonical (h : k.OfHeap a) : Canonical a := by
  have hbase : 2 ^ 64 - 2 ^ 47 ≤ Vmm.KHEAPBASE.toNat := by decide
  exact .inr (hbase.trans h.1)

theorem Sound.shrink (h : Sound k) (hpaged : Vmm.Paged k'.vmm)
    (hkh : k'.vmm.kheapSize = k.vmm.kheapSize)
    (hranges : Vmm.usedRanges k.vmm ⊆ Vmm.usedRanges k'.vmm)
    (hptes : ∀ a, k.OfHeap a → has (k'.pte (vpn a)) PTE_P = true → has (k.pte (vpn a)) PTE_P = true) :
    Sound k' := by
  refine ⟨hpaged, fun a ha hp => ?_⟩
  rw [OfHeap, hkh] at ha
  rcases h.mapped a ha (hptes a ha hp) with ⟨r, hr, hin⟩
  exact ⟨r, hranges hr, hin⟩

theorem Sound.fresh (h : Sound k) {size addr : BitVec 64} {vmm : Mm.Vmm.State}
    (hg : Vmm.Grants k.vmm size addr vmm) (hlo : addr.toNat ≤ a.toNat)
    (hhi : a.toNat < addr.toNat + size.toNat) : k.OfHeap a ∧ has (k.pte (vpn a)) PTE_P = false := by
  have hin := hg.inHeap
  have hheap : k.OfHeap a := ⟨hin.lower.trans hlo, lt_of_lt_of_le hhi hin.upper⟩
  refine ⟨hheap, ?_⟩
  by_contra hp
  rcases h.mapped a hheap (by simpa using hp) with ⟨r, hr, hle, hlt⟩
  rcases hg.fresh r hr with hout | hout
  · omega
  · omega

theorem Sound.grant (h : Sound k) {size addr : BitVec 64}
    (hg : Vmm.Grants k.vmm size addr k'.vmm)
    (hptes : ∀ a, k.OfHeap a → has (k'.pte (vpn a)) PTE_P = true → has (k.pte (vpn a)) PTE_P = true ∨
      addr.toNat ≤ a.toNat ∧ a.toNat < addr.toNat + size.toNat) : Sound k' := by
  refine ⟨hg.paged, fun a ha hp => ?_⟩
  rw [OfHeap, hg.kheapSize] at ha
  rw [hg.ranges]
  rcases hptes a ha hp with hold | hnew
  · rcases h.mapped a ha hold with ⟨r, hr, hin⟩
    exact ⟨r, Set.mem_insert_of_mem _ hr, hin⟩
  · exact ⟨_, Set.mem_insert _ _, hnew⟩

/-! ## Mounted pages -/

structure Shows (k : Kmem) (pa va : BitVec 64) (k' : Kmem) : Prop where
  sound : Sound k'
  aligned : 4096 ∣ va.toNat
  canonical : Canonical va
  absent : has (k.pte (vpn va)) PTE_P = false
  pte : k'.pte = update k.pte (vpn va) (mkPte (frameOf pa) PTE_KRW)
  phys : k'.phys = k.phys

structure Unseen (k k' : Kmem) : Prop where
  sound : Sound k'
  pte : k'.pte = k.pte
  phys : k'.phys = k.phys

inductive MountView (k : Kmem) (pa : BitVec 64) :
    Except Fault (Except Errno (BitVec 64) × Kmem) → Prop
  | done {va : BitVec 64} {k' : Kmem} (shows : Shows k pa va k') : MountView k pa (.ok (.ok va, k'))
  | failed {e : Errno} {k' : Kmem} (unseen : Unseen k k') : MountView k pa (.ok (.error e, k'))
  | noNode : MountView k pa (.error (.assertion "No vm node."))

theorem Sound.mount (h : Sound k) (pa : BitVec 64) : MountView k pa (k.mount pa) := by
  have hspec := mount_spec h.paged pa
  cases hmount : k.mount pa with
  | error e =>
    rw [hmount] at hspec
    cases hspec
    exact .noNode
  | ok res =>
    rw [hmount] at hspec
    cases hspec with
    | @done va vmm mem can grants mapped =>
      have hsize : PGSZ.toNat = 4096 := rfl
      rcases h.fresh grants (Nat.le_refl va.toNat) (by omega) with ⟨hheap, habsent⟩
      have hcan := hheap.canonical
      have hpte : ({ k with vmm := vmm, mem := mem } : Kmem).pte =
          update k.pte (vpn va) (mkPte (frameOf pa) PTE_KRW) := by
        funext w
        by_cases hw : w = vpn va
        · subst hw
          rw [update_self]
          change mem.tables.pteAt (vpn va) = _
          change has (k.mem.tables.pteAt (vpn va)) PTE_P = false at habsent
          rw [mapped.pteAt, installed, habsent]
          rfl
        · rw [update_of_ne hw]
          exact mapped.others w hw
      refine .done ⟨h.grant grants fun a ha hp => ?_, grants.aligned, hcan, habsent, hpte, rfl⟩
      by_cases hw : vpn a = vpn va
      · have hpage := page_eq_of_vpn ha.canonical hcan hw
        have haligned : 4096 ∣ va.toNat := grants.aligned
        exact .inr (by omega)
      · rw [hpte, update_of_ne hw] at hp
        exact .inl hp
    | failed cannot paged kheapSize ranges adds =>
      have hpte : ∀ v, _ = k.pte v := adds.pteAt
      refine .failed ⟨h.shrink paged kheapSize ranges.ge fun a _ hp => ?_, funext hpte, rfl⟩
      rwa [← hpte]

/-- `x86_64_unmount`: an entry that is present is cleared, and nothing else. -/
structure Unmounted (k : Kmem) (va : BitVec 64) (k' : Kmem) : Prop where
  vmm : k'.vmm = k.vmm
  phys : k'.phys = k.phys
  pte : ∀ w, k'.pte w = if w = vpn va ∧ has (k.pte w) PTE_P then 0 else k.pte w

theorem unmount_ok (h : k.unmount va = .ok k') : Unmounted k va k' := by
  rw [unmount, unmapN_one, unmap_eq, bind_ok_iff] at h
  rcases h with ⟨mem, hmem, hk'⟩
  rw [bind_ok_iff] at hmem
  rcases hmem with ⟨frames, -, hmem⟩
  rw [← Except.ok.inj hk', ← Except.ok.inj hmem]
  exact ⟨rfl, rfl, PageTables.pteAt_drop k.mem.tables (vpn va)⟩

theorem Unmounted.sound (h : Unmounted k va k') (hs : Sound k) : Sound k' := by
  refine hs.shrink (h.vmm ▸ hs.paged) (by rw [h.vmm]) (by rw [h.vmm]) fun a _ hp => ?_
  rw [h.pte] at hp
  split_ifs at hp with hcleared
  · exact hcleared.2
  · exact hp

theorem unmount_mounted {f : Nat} (h : k.pte (vpn va) = mkPte f PTE_KRW) :
    ∃ k', k.unmount va = .ok k' ∧ Unmounted k va k' ∧
      k'.pte = update k.pte (vpn va) 0 := by
  have hpresent : has (k.pte (vpn va)) PTE_P = true := by
    rw [h, has_mkPte_P]
    decide
  have hnone : freedWith (k.mem.tables.pteAt (vpn va)) = none := by
    change freedWith (k.pte (vpn va)) = none
    rw [freedWith, h, has_mkPte_ALLOC, show has PTE_KRW PTE_ALLOC = false by decide, Bool.and_false]
    rfl
  have hok : ∃ k', k.unmount va = .ok k' := by
    rw [unmount, unmapN_one, unmap_eq, hnone]
    exact ⟨_, rfl⟩
  rcases hok with ⟨k', hok⟩
  refine ⟨k', hok, unmount_ok hok, funext fun w => ?_⟩
  rw [(unmount_ok hok).pte]
  by_cases hw : w = vpn va
  · subst hw
    rw [update_self, if_pos ⟨rfl, hpresent⟩]
  · rw [update_of_ne hw, if_neg fun hboth => hw hboth.1]

/-! ## Addresses behind mounted pages -/

theorem physAddr_eq (k : Kmem) (a : BitVec 64) : k.physAddr a =
    if Canonical a ∧ has (k.pte (vpn a)) PTE_P then some (PGROUND (k.pte (vpn a)) + PGOFF a)
    else none := rfl

theorem physAddr_congr (h : k'.pte = k.pte) : k'.physAddr = k.physAddr := by
  funext a
  rw [physAddr_eq, physAddr_eq, h]

theorem Shows.keeps (h : Shows k pa va k') (ha : k.physAddr a = some b) :
    k'.physAddr a = some b := by
  have hne : vpn a ≠ vpn va := by
    intro heq
    rw [physAddr_eq, heq, h.absent] at ha
    simp at ha
  rw [physAddr_eq, h.pte, update_of_ne hne]
  exact ha

theorem Shows.window {p : BitVec 64} (h : Shows k (PGROUND p) va k') {i : Nat}
    (hi : p.toNat % 4096 + i < 4096) :
    k'.physAddr (va + PGOFF p + BitVec.ofNat 64 i) = some (p + BitVec.ofNat 64 i) := by
  have hlen : i % 2 ^ 64 = i := Nat.mod_eq_of_lt (by omega)
  have hoff : (PGOFF p + BitVec.ofNat 64 i).toNat < 4096 := by
    rw [BitVec.toNat_add, toNat_PGOFF, BitVec.toNat_ofNat, hlen]
    omega
  rcases add_page h.aligned hoff with ⟨-, hvpn, hpgoff⟩
  have hcan := h.canonical.add_page h.aligned hoff
  have hpresent : has (mkPte (frameOf (PGROUND p)) PTE_KRW) PTE_P = true := by
    rw [has_mkPte_P]
    decide
  rw [BitVec.add_assoc, physAddr_eq, h.pte, hvpn, update_self, if_pos ⟨hcan, hpresent⟩,
    PGROUND_mkPte, hpgoff, ← BitVec.add_assoc, PGROUND_add_PGOFF]

end Kmem

end Arch
end XytherOS
