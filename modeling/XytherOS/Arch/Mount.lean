import XytherOS.Arch.Kmem
import XytherOS.Arch.MapAtomic
import XytherOS.Mm.VmmRanges

/-!
# Mount — what temporary mounts leave of the kernel's address ranges

`x86_64_mount` takes a range from `vmman` and maps a frame there; `x86_64_unmount` takes back the
mapping only.  A mount that fails has given its range back, and one that succeeds has not, so that
each function here leaves the ranges alone exactly when its first mount cannot succeed.
-/

namespace XytherOS
namespace Arch

open Mm (Vmm.State Vmm.Paged Vmm.Grants Vmm.usedRanges Vmm.firstFit Vmm.KHEAPBASE)
open Mm.Mmap (has PTE_P PTE_W)
open Mm.Pmm (NPAGE PGROUND PGSZ)

theorem mapI_one (mem : Mem) (va : BitVec 64) (f : Nat) (flags : BitVec 64) :
    mapI mem va f PGSZ flags = map mem f (vpn va) flags := by
  have hone : (NPAGE PGSZ).toNat = 1 := by decide
  have hzero : (NPAGE (BitVec.ofNat 64 (1 - 1) * PGSZ)).toNat = 0 := by decide
  rw [mapI, hone, mapILoop]
  cases map mem f (vpn va) flags with
  | error e => rfl
  | ok res =>
    rcases res with ⟨ret, mem'⟩
    cases ret with
    | ok => rfl
    | err e =>
      simp only [ok_bind, pure_eq_ok, finishMap, unmapN, hone, hzero]
      rfl

theorem unmapN_one (mem : Mem) (va : BitVec 64) : unmapN mem va PGSZ = unmap mem (vpn va) := by
  have hone : (NPAGE PGSZ).toNat = 1 := by decide
  rw [unmapN, hone, unmapPages]
  cases unmap mem (vpn va) with
  | error e => rfl
  | ok mem' => rfl

namespace Kmem

/-! ## Mounting -/

/-- A mount of the physical address can succeed: the address is not null, a page of kernel addresses
is free, and there are frames enough for the tables on the way to it. -/
def Mountable (k : Kmem) (pa : BitVec 64) : Prop :=
  pa ≠ 0 ∧ ∃ va, Vmm.firstFit k.vmm PGSZ = some va ∧
    (k.mem.tables.missing [vpn va]).card ≤ k.mem.frames.unused.length

inductive Mounted (k : Kmem) (pa : BitVec 64) :
    Except Fault (Except Errno (BitVec 64) × Kmem) → Prop
  | done {va : BitVec 64} {vmm : Mm.Vmm.State} {mem : Mem} (can : k.Mountable pa)
      (grants : Vmm.Grants k.vmm PGSZ va vmm)
      (mapped : PageMapped PTE_KRW k.mem (vpn va) (frameOf pa) mem) :
      Mounted k pa (.ok (.ok va, { k with vmm := vmm, mem := mem }))
  | failed {e : Errno} {vmm : Mm.Vmm.State} {t : PageTables} (cannot : ¬ k.Mountable pa)
      (paged : Vmm.Paged vmm) (kheapSize : vmm.kheapSize = k.vmm.kheapSize)
      (ranges : Vmm.usedRanges vmm = Vmm.usedRanges k.vmm) (adds : k.mem.tables.Adds t ∅) :
      Mounted k pa (.ok (.error e, { k with vmm := vmm, mem := { k.mem with tables := t } }))
  | noNode : Mounted k pa (.error (.assertion "No vm node."))

variable {k k' : Kmem} {pa va : BitVec 64} {ret : Ret}

theorem mount_spec (h : Vmm.Paged k.vmm) (pa : BitVec 64) : Mounted k pa (k.mount pa) := by
  rw [mount]
  by_cases hpa : pa = 0
  · rw [if_pos hpa]
    exact .failed (fun hm => hm.1 hpa) h rfl rfl (.refl _)
  · rw [if_neg hpa, vmmAlloc]
    rcases h.alloc (show PGSZ ≠ 0 by decide) (Nat.dvd_refl _) with herr | ⟨err, hok, hfit⟩ |
      ⟨va, vmm, hok, hfit, hgrants⟩
    · rw [herr]
      exact .noNode
    · rw [hok]
      refine .failed ?_ h rfl rfl (.refl _)
      rintro ⟨-, va, hva, -⟩
      rw [hfit] at hva
      exact absurd hva (by simp)
    · have hva : va ≠ 0 := hgrants.ne_zero
      rw [hok]
      simp only [ok_bind, pure_eq_ok, Option.getD_some, if_neg hva, mapI_one]
      by_cases henough : (k.mem.tables.missing [vpn va]).card ≤ k.mem.frames.unused.length
      · rcases map_mapped (by decide : has PTE_KRW PTE_PS = false) henough (frameOf pa) with
          ⟨mem, hmap, hmapped⟩
        rw [hmap]
        exact .done ⟨hpa, va, hfit, henough⟩ hgrants hmapped
      · rcases map_exhausted (by decide : has PTE_KRW PTE_PS = false) (Nat.not_le.1 henough)
          (frameOf pa) with ⟨t, hmap, hadds⟩
        rcases hgrants.free with ⟨vmm', hfree, hpaged, hkh, hranges⟩
        rw [hmap]
        simp only [ok_bind, vmmFree, hfree]
        refine .failed ?_ hpaged hkh hranges hadds
        rintro ⟨-, va', hva', hle⟩
        rw [hfit, Option.some.injEq] at hva'
        exact henough (hva' ▸ hle)

/-! ## The ranges -/

structure Holds (k k' : Kmem) : Prop where
  paged : Vmm.Paged k'.vmm
  subset : Vmm.usedRanges k.vmm ⊆ Vmm.usedRanges k'.vmm

theorem Holds.refl (h : Vmm.Paged k.vmm) : Holds k k := ⟨h, subset_rfl⟩

theorem Holds.trans {k'' : Kmem} (h : Holds k k') (h' : Holds k' k'') : Holds k k'' :=
  ⟨h'.paged, h.subset.trans h'.subset⟩

theorem Holds.of_vmm (h : Vmm.Paged k.vmm) (hvmm : k'.vmm = k.vmm) : Holds k k' :=
  ⟨hvmm ▸ h, hvmm ▸ subset_rfl⟩

/-- The ranges stay as they are when nothing can be mounted, and otherwise there are more. -/
def Leaves (can : Prop) (k k' : Kmem) : Prop :=
  (can → Vmm.usedRanges k.vmm ⊂ Vmm.usedRanges k'.vmm) ∧
    (¬ can → Vmm.usedRanges k'.vmm = Vmm.usedRanges k.vmm)

theorem Leaves.iff {can : Prop} (h : Leaves can k k') :
    Vmm.usedRanges k'.vmm = Vmm.usedRanges k.vmm ↔ ¬ can := by
  constructor
  · intro heq hcan
    exact (h.1 hcan).ne heq.symm
  · exact h.2

theorem Leaves.more {can : Prop} (hcan : can) {k₁ : Kmem}
    (hone : Vmm.usedRanges k.vmm ⊂ Vmm.usedRanges k₁.vmm) (h : Holds k₁ k') : Leaves can k k' :=
  ⟨fun _ => hone.trans_subset h.subset, fun hno => absurd hcan hno⟩

theorem Leaves.same {can : Prop} (hno : ¬ can)
    (h : Vmm.usedRanges k'.vmm = Vmm.usedRanges k.vmm) : Leaves can k k' :=
  ⟨fun hcan => absurd hcan hno, fun _ => h⟩

theorem mount_bind {α : Type} (h : Vmm.Paged k.vmm) (pa : BitVec 64)
    {f : Except Errno (BitVec 64) × Kmem → Except Fault α} {P : α → Prop}
    (hdone : ∀ va k₁, k.Mountable pa → Vmm.usedRanges k.vmm ⊂ Vmm.usedRanges k₁.vmm →
      Holds k k₁ → Safe AnyFault (f (.ok va, k₁)) P)
    (hfailed : ∀ e k₁, ¬ k.Mountable pa → Vmm.usedRanges k₁.vmm = Vmm.usedRanges k.vmm →
      Holds k k₁ → Safe AnyFault (f (.error e, k₁)) P) :
    Safe AnyFault (k.mount pa >>= f) P := by
  have hspec := mount_spec h pa
  cases hmount : k.mount pa with
  | error e => exact trivial
  | ok res =>
    rw [hmount] at hspec
    cases hspec with
    | done can grants mapped =>
      exact hdone _ _ can grants.ssubset ⟨grants.paged, grants.ssubset.subset⟩
    | failed cannot paged kheapSize ranges adds =>
      exact hfailed _ _ cannot ranges ⟨paged, ranges.ge⟩

theorem unmount_holds (h : Vmm.Paged k.vmm) (va : BitVec 64) :
    Safe AnyFault (k.unmount va) (Holds k) := by
  refine Safe.any fun k' hok => ?_
  rw [unmount, bind_ok_iff] at hok
  rcases hok with ⟨mem, -, hk'⟩
  exact .of_vmm h (by rw [← Except.ok.inj hk'])

theorem store_holds (h : Vmm.Paged k.vmm) (va : BitVec 64) (b : BitVec 8) :
    Safe AnyFault (k.store va b) (Holds k) := by
  rw [store]
  cases k.physAddr va with
  | none => exact trivial
  | some pa => exact .of_vmm h rfl

theorem memcpy_holds (h : Vmm.Paged k.vmm) (dst src : BitVec 64) (n : Nat) :
    Safe AnyFault (k.memcpy dst src n) (Holds k) := by
  refine Safe.each (fun i _ k₁ h₁ => ?_) (.refl h)
  refine (Safe.any fun _ _ => trivial : Safe AnyFault _ fun _ => True).bind fun b _ => ?_
  exact (store_holds h₁.paged _ b).mono fun k2 h₂ => h₁.trans h₂

theorem storeQuad_holds (h : Vmm.Paged k.vmm) (va raw : BitVec 64) :
    Safe AnyFault (k.storeQuad va raw) (Holds k) :=
  Safe.each (fun _ _ _ h₁ => (store_holds h₁.paged _ _).mono fun _ h₂ => h₁.trans h₂) (.refl h)

/-! ## The copies -/

theorem memcpyppLoop_zero (fuel : Nat) (pdst psrc : BitVec 64) (k : Kmem) :
    memcpyppLoop fuel pdst psrc 0 k = .ok (.ok, k) := by
  cases fuel <;> rw [memcpyppLoop, if_pos rfl]

theorem memcpyLoop_zero (copy : BitVec 64 → BitVec 64 → Nat → Kmem → Except Fault Kmem) (fuel : Nat)
    (pa va : BitVec 64) (k : Kmem) : memcpyLoop copy fuel pa va 0 k = .ok (.ok, k) := by
  cases fuel <;> rw [memcpyLoop, if_pos rfl]

theorem exists_fuel {size : BitVec 64} (h : size ≠ 0) : ∃ fuel, size.toNat = fuel + 1 := by
  refine Nat.exists_eq_succ_of_ne_zero fun h0 => h ?_
  exact BitVec.eq_of_toNat_eq h0

theorem memcpyppLoop_holds (fuel : Nat) (pdst psrc size : BitVec 64) (h : Vmm.Paged k.vmm) :
    Safe AnyFault (memcpyppLoop fuel pdst psrc size k) fun x => Holds k x.2 := by
  induction fuel generalizing pdst psrc size k with
  | zero =>
    rw [memcpyppLoop]
    split_ifs
    · exact .refl h
    · exact trivial
  | succ fuel ih =>
    rw [memcpyppLoop]
    split_ifs
    · exact .refl h
    · refine mount_bind h _ (fun vdst k₁ _ _ h₁ => ?_) (fun e k₁ _ _ h₁ => h₁)
      refine mount_bind h₁.paged _ (fun vsrc k2 _ _ h₂ => ?_) (fun e k2 _ _ h₂ => ?_)
      · refine (memcpy_holds h₂.paged _ _ _).bind fun k3 h3 => ?_
        refine (unmount_holds h3.paged _).bind fun k4 h4 => ?_
        refine (unmount_holds h4.paged _).bind fun k5 h5 => ?_
        refine (ih _ _ _ h5.paged).mono fun x hx => ?_
        exact h₁.trans (h₂.trans (h3.trans (h4.trans (h5.trans hx))))
      · refine (unmount_holds h₂.paged _).bind fun k3 h3 => ?_
        exact h₁.trans (h₂.trans h3)

/-- What is asked of the `memcpy` in the loop of the other two. -/
def CopyHolds (copy : BitVec 64 → BitVec 64 → Nat → Kmem → Except Fault Kmem) : Prop :=
  ∀ mounted va n k, Vmm.Paged k.vmm → Safe AnyFault (copy mounted va n k) (Holds k)

theorem memcpyLoop_holds {copy : BitVec 64 → BitVec 64 → Nat → Kmem → Except Fault Kmem}
    (hcopy : CopyHolds copy) (fuel : Nat) (pa va size : BitVec 64) (h : Vmm.Paged k.vmm) :
    Safe AnyFault (memcpyLoop copy fuel pa va size k) fun x => Holds k x.2 := by
  induction fuel generalizing pa va size k with
  | zero =>
    rw [memcpyLoop]
    split_ifs
    · exact .refl h
    · exact trivial
  | succ fuel ih =>
    rw [memcpyLoop]
    split_ifs
    · exact .refl h
    · refine mount_bind h _ (fun mounted k₁ _ _ h₁ => ?_) (fun e k₁ _ _ h₁ => h₁)
      refine (hcopy _ _ _ _ h₁.paged).bind fun k2 h₂ => ?_
      refine (unmount_holds h₂.paged _).bind fun k3 h3 => ?_
      refine (ih _ _ _ h3.paged).mono fun x hx => ?_
      exact h₁.trans (h₂.trans (h3.trans hx))

theorem memcpypp_leaves (h : Vmm.Paged k.vmm) (pdst psrc size : BitVec 64) :
    Safe AnyFault (k.memcpypp pdst psrc size) fun x =>
      Leaves (size ≠ 0 ∧ k.Mountable (PGROUND pdst)) k x.2 := by
  rw [memcpypp]
  by_cases hsize : size = 0
  · rw [hsize, memcpyppLoop_zero]
    exact .same (fun hcan => hcan.1 rfl) rfl
  · rcases exists_fuel hsize with ⟨fuel, hfuel⟩
    rw [hfuel, memcpyppLoop, if_neg hsize]
    refine mount_bind h _ (fun vdst k₁ hcan hmore h₁ => ?_) fun e k₁ hno hsame h₁ =>
      .same (fun hcan => hno hcan.2) hsame
    refine (?_ : Safe AnyFault _ fun x => Holds k₁ x.2).mono fun x hx =>
      .more ⟨hsize, hcan⟩ hmore hx
    refine mount_bind h₁.paged _ (fun vsrc k2 _ _ h₂ => ?_) (fun e k2 _ _ h₂ => ?_)
    · refine (memcpy_holds h₂.paged _ _ _).bind fun k3 h3 => ?_
      refine (unmount_holds h3.paged _).bind fun k4 h4 => ?_
      refine (unmount_holds h4.paged _).bind fun k5 h5 => ?_
      refine (memcpyppLoop_holds _ _ _ _ h5.paged).mono fun x hx => ?_
      exact h₂.trans (h3.trans (h4.trans (h5.trans hx)))
    · refine (unmount_holds h₂.paged _).bind fun k3 h3 => ?_
      exact h₂.trans h3

theorem memcpyLoop_leaves {copy : BitVec 64 → BitVec 64 → Nat → Kmem → Except Fault Kmem}
    (hcopy : CopyHolds copy) (h : Vmm.Paged k.vmm) (pa va size : BitVec 64) :
    Safe AnyFault (memcpyLoop copy size.toNat pa va size k) fun x =>
      Leaves (size ≠ 0 ∧ k.Mountable (PGROUND pa)) k x.2 := by
  by_cases hsize : size = 0
  · rw [hsize, memcpyLoop_zero]
    exact .same (fun hcan => hcan.1 rfl) rfl
  · rcases exists_fuel hsize with ⟨fuel, hfuel⟩
    rw [hfuel, memcpyLoop, if_neg hsize]
    refine mount_bind h _ (fun mounted k₁ hcan hmore h₁ => ?_) fun e k₁ hno hsame h₁ =>
      .same (fun hcan => hno hcan.2) hsame
    refine (hcopy _ _ _ _ h₁.paged).bind fun k2 h₂ => ?_
    refine (unmount_holds h₂.paged _).bind fun k3 h3 => ?_
    refine (memcpyLoop_holds hcopy _ _ _ _ h3.paged).mono fun x hx => ?_
    exact .more ⟨hsize, hcan⟩ hmore (h₂.trans (h3.trans hx))

theorem kvmcpy_leaves (h : Vmm.Paged k.vmm) (dstp : BitVec 64) :
    Safe AnyFault (k.kvmcpy dstp) fun x =>
      Leaves (¬ (dstp = 0 ∨ PGOFF dstp ≠ 0) ∧ k.Mountable dstp) k x.2 := by
  rw [kvmcpy]
  by_cases hargs : dstp = 0 ∨ PGOFF dstp ≠ 0
  · rw [if_pos hargs]
    exact .same (fun hcan => hcan.1 hargs) rfl
  · rw [if_neg hargs]
    refine mount_bind h _ (fun dstv k₁ hcan hmore h₁ => ?_) fun e k₁ hno hsame h₁ =>
      .same (fun hcan => hno hcan.2) hsame
    refine (Safe.each (I := Holds k₁) (fun i _ k2 h₂ => ?_) (.refl h₁.paged)).bind fun k2 h₂ => ?_
    · exact (storeQuad_holds h₂.paged _ _).mono fun k3 h3 => h₂.trans h3
    · refine (storeQuad_holds h₂.paged _ _).bind fun k3 h3 => ?_
      refine (unmount_holds h3.paged _).bind fun k4 h4 => ?_
      exact .more ⟨hargs, hcan⟩ hmore (h₂.trans (h3.trans h4))

/-! ## `x86_64_lazycpy` -/

section LazyCopy

variable {c : LazyCopy}

theorem mounted_holds {body : LazyCopy → Except Fault (Ret × LazyCopy)}
    (hbody : ∀ c, Vmm.Paged c.k.vmm → Safe AnyFault (body c) fun x => Holds c.k x.2.k)
    (h : Vmm.Paged c.k.vmm) (pa : BitVec 64) :
    Safe AnyFault (LazyCopy.mounted pa body c) fun x => Holds c.k x.2.k ∧
      Leaves (c.k.Mountable pa) c.k x.2.k := by
  rw [LazyCopy.mounted]
  refine mount_bind h _ (fun va k₁ hcan hmore h₁ => ?_) fun e k₁ hno hsame h₁ =>
    ⟨h₁, .same hno hsame⟩
  refine (hbody ⟨c.src, k₁⟩ h₁.paged).bind ?_
  rintro ⟨ret, c2⟩ h₂
  refine (unmount_holds h₂.paged va).bind fun k3 h3 => ?_
  exact ⟨h₁.trans (h₂.trans h3), .more hcan hmore (h₂.trans h3)⟩

theorem enterTable_holds {mapTable : Mem → BitVec 64 → Except Fault (Ret × Mem)} {raw : BitVec 64}
    {body : LazyCopy → Except Fault (Ret × LazyCopy)}
    (hbody : ∀ c, Vmm.Paged c.k.vmm → Safe AnyFault (body c) fun x => Holds c.k x.2.k)
    (h : Vmm.Paged c.k.vmm) :
    Safe AnyFault (LazyCopy.enterTable mapTable raw body c) fun x => Holds c.k x.2.k := by
  rw [LazyCopy.enterTable]
  refine (Safe.any fun _ _ => trivial : Safe AnyFault _ fun _ => True).bind ?_
  rintro ⟨ret, mem⟩ -
  cases ret with
  | err e => exact .of_vmm h rfl
  | ok =>
    refine (mounted_holds hbody (c := ⟨c.src, { c.k with mem := mem }⟩) h raw).mono ?_
    rintro x ⟨hx, -⟩
    exact ⟨hx.paged, hx.subset⟩

theorem copyPte_holds (v : Nat) (h : Vmm.Paged c.k.vmm) :
    Safe AnyFault (LazyCopy.copyPte v c) fun c' => Holds c.k c'.k := by
  rw [LazyCopy.copyPte]
  refine (Safe.any fun _ _ => trivial : Safe AnyFault _ fun _ => True).bind ?_
  rintro ⟨src, mem⟩ -
  exact .of_vmm h rfl

theorem each_holds {body : Nat → LazyCopy → Except Fault LazyCopy} {is : List Nat}
    (hbody : ∀ i c, Vmm.Paged c.k.vmm → Safe AnyFault (body i c) fun c' => Holds c.k c'.k)
    (h : Vmm.Paged c.k.vmm) : Safe AnyFault (each body is c) fun c' => Holds c.k c'.k :=
  Safe.each (I := fun c' => Holds c.k c'.k)
    (fun i _ _ h₁ => (hbody i _ h₁.paged).mono fun _ h₂ => h₁.trans h₂) (.refl h)

theorem tryEach_holds {body : Nat → LazyCopy → Except Fault (Ret × LazyCopy)} {is : List Nat}
    (hbody : ∀ i c, Vmm.Paged c.k.vmm → Safe AnyFault (body i c) fun x => Holds c.k x.2.k)
    (h : Vmm.Paged c.k.vmm) : Safe AnyFault (tryEach body is c) fun x => Holds c.k x.2.k :=
  Safe.tryEach (I := fun c' => Holds c.k c'.k)
    (fun i _ _ h₁ => (hbody i _ h₁.paged).mono fun _ h₂ => h₁.trans h₂) (.refl h)

theorem copyPt_holds (j : Nat) (c : LazyCopy) (h : Vmm.Paged c.k.vmm) :
    Safe AnyFault (LazyCopy.copyPt j c) fun x => Holds c.k x.2.k := by
  rw [LazyCopy.copyPt]
  split_ifs
  · refine enterTable_holds (fun c1 h₁ => ?_) h
    refine (each_holds (fun i c2 h₂ => copyPte_holds _ h₂) h₁).bind fun c2 h₂ => ?_
    exact h₂
  · exact .refl h

theorem copyPdt_holds (j : Nat) (c : LazyCopy) (h : Vmm.Paged c.k.vmm) :
    Safe AnyFault (LazyCopy.copyPdt j c) fun x => Holds c.k x.2.k := by
  rw [LazyCopy.copyPdt]
  split_ifs
  · exact enterTable_holds (fun c1 h₁ => tryEach_holds (fun _ => copyPt_holds _) h₁) h
  · exact .refl h

theorem copyPdpt_holds (j : Nat) (c : LazyCopy) (h : Vmm.Paged c.k.vmm) :
    Safe AnyFault (LazyCopy.copyPdpt j c) fun x => Holds c.k x.2.k := by
  rw [LazyCopy.copyPdpt]
  split_ifs
  · exact enterTable_holds (fun c1 h₁ => tryEach_holds (fun _ => copyPdt_holds _) h₁) h
  · exact .refl h

theorem lazycpy_leaves (h : Vmm.Paged c.k.vmm) (dst src : BitVec 64) :
    Safe AnyFault (c.lazycpy dst src) fun x =>
      Leaves (¬ (dst = 0 ∨ src = 0) ∧ c.k.Mountable src) c.k x.2.k := by
  rw [LazyCopy.lazycpy]
  by_cases hargs : dst = 0 ∨ src = 0
  · rw [if_pos hargs]
    exact .same (fun hcan => hcan.1 hargs) rfl
  · rw [if_neg hargs]
    refine (mounted_holds (fun c1 h₁ => ?_) h src).mono ?_
    · refine (tryEach_holds (fun i => copyPdpt_holds i) h₁).bind ?_
      rintro ⟨ret, c2⟩ h₂
      cases ret with
      | ok => exact h₂
      | err e =>
        refine (Safe.any fun _ _ => trivial : Safe AnyFault _ fun _ => True).bind fun mem _ => ?_
        exact ⟨h₂.paged, h₂.subset⟩
    · rintro x ⟨-, hleaves⟩
      exact ⟨fun hcan => hleaves.1 hcan.2, fun hno => hleaves.2 fun hcan => hno ⟨hargs, hcan⟩⟩

end LazyCopy

/-- A call of one of the functions that mount; `tables` are those at `src`. -/
inductive CopyCall
  | memcpypp (pdst psrc size : BitVec 64)
  | memcpyvp (pa va size : BitVec 64)
  | memcpypv (va pa size : BitVec 64)
  | kvmcpy (dstp : BitVec 64)
  | lazycpy (dst src : BitVec 64) (tables : PageTables)

namespace CopyCall

def run (k : Kmem) : CopyCall → Except Fault (Ret × Kmem)
  | .memcpypp pdst psrc size => k.memcpypp pdst psrc size
  | .memcpyvp pa va size => k.memcpyvp pa va size
  | .memcpypv va pa size => k.memcpypv va pa size
  | .kvmcpy dstp => k.kvmcpy dstp
  | .lazycpy dst src tables => do
      let (ret, c) ← LazyCopy.lazycpy dst src ⟨tables, k⟩
      return (ret, c.k)

def firstMount : CopyCall → Option (BitVec 64)
  | .memcpypp pdst _ size => if size ≠ 0 then some (PGROUND pdst) else none
  | .memcpyvp pa _ size => if size ≠ 0 then some (PGROUND pa) else none
  | .memcpypv _ pa size => if size ≠ 0 then some (PGROUND pa) else none
  | .kvmcpy dstp => if ¬ (dstp = 0 ∨ PGOFF dstp ≠ 0) then some dstp else none
  | .lazycpy dst src _ => if ¬ (dst = 0 ∨ src = 0) then some src else none

def Mounts (k : Kmem) (c : CopyCall) : Prop := ∃ pa, c.firstMount = some pa ∧ k.Mountable pa

theorem mounts_iff {c : CopyCall} {p : Prop} [Decidable p]
    (h : c.firstMount = if p then some pa else none) : c.Mounts k ↔ p ∧ k.Mountable pa := by
  rw [Mounts, h]
  split_ifs with hp <;> simp [hp]

theorem run_leaves (h : Vmm.Paged k.vmm) (c : CopyCall) :
    Safe AnyFault (c.run k) fun x => Leaves (c.Mounts k) k x.2 := by
  cases c with
  | memcpypp pdst psrc size =>
    rw [mounts_iff (p := size ≠ 0) rfl]
    exact memcpypp_leaves h pdst psrc size
  | memcpyvp pa va size =>
    rw [mounts_iff (p := size ≠ 0) rfl]
    exact memcpyLoop_leaves (fun _ _ _ _ h₁ => memcpy_holds h₁ _ _ _) h pa va size
  | memcpypv va pa size =>
    rw [mounts_iff (p := size ≠ 0) rfl]
    exact memcpyLoop_leaves (fun _ _ _ _ h₁ => memcpy_holds h₁ _ _ _) h pa va size
  | kvmcpy dstp =>
    rw [mounts_iff (p := ¬ (dstp = 0 ∨ PGOFF dstp ≠ 0)) rfl]
    exact kvmcpy_leaves h dstp
  | lazycpy dst src tables =>
    rw [mounts_iff (p := ¬ (dst = 0 ∨ src = 0)) rfl]
    refine (lazycpy_leaves (c := ⟨tables, k⟩) h dst src).bind ?_
    rintro ⟨ret, c⟩ hleaves
    exact hleaves

end CopyCall

/-- A call leaves the allocated ranges of `vmman` as they were exactly when its first mount, if it
makes one, cannot succeed. -/
theorem copies_restore_ranges_iff {s : Mm.Vmm.State} {x : Nat} {pool : List Nat}
    (hstart : Mm.Vmm.Start s x pool) {cs : List Mm.Vmm.Call} (hcs : ∀ c ∈ cs, c.PageSized)
    (hvmm : Mm.Vmm.run s cs = .ok k.vmm) (c : CopyCall) (hrun : c.run k = .ok (ret, k')) :
    Vmm.usedRanges k'.vmm = Vmm.usedRanges k.vmm ↔
      ∀ pa, c.firstMount = some pa → ¬ k.Mountable pa := by
  have hpaged : Vmm.Paged k.vmm := hstart.paged.run hcs hvmm
  have hleaves := (c.run_leaves hpaged).of_eq_ok hrun
  rw [hleaves.iff, CopyCall.Mounts]
  simp

def twoPages : Kmem where
  vmm := Mm.Vmm.twoPages
  mem :=
    { tables := PageTables.empty
      frames := ⟨1, 8, fun _ => 0, Nat.zero_lt_one, by decide⟩
      ticks := 0 }
  phys := fun _ => 0

theorem usedRanges_twoPages : Vmm.usedRanges twoPages.vmm = ∅ := by
  have hnone : Mm.Vmm.usedList twoPages.vmm = [] := by decide +kernel
  ext r
  simp [Vmm.usedRanges, hnone]

/-- A copy of four bytes from one frame to another succeeds, and both pages are gone. -/
theorem copy_leaks_pages : Mm.Vmm.Start twoPages.vmm 0 [1] ∧
    ∃ k', CopyCall.run twoPages (.memcpypp 0x5000 0x6010 4) = .ok (.ok, k') ∧
      Vmm.usedRanges k'.vmm ≠ Vmm.usedRanges twoPages.vmm := by
  have hused : ((CopyCall.run twoPages (.memcpypp 0x5000 0x6010 4)).toOption.map fun x =>
      (x.1, (Mm.Vmm.usedList x.2.vmm).length)) = some (.ok, 2) := by
    decide +kernel
  rcases ok_of_toOption hused with ⟨⟨ret, k'⟩, hok, hsame⟩
  simp only [Prod.mk.injEq] at hsame
  rcases hsame with ⟨rfl, hlength⟩
  refine ⟨Mm.Vmm.start_twoPages, k', hok, ?_⟩
  rw [usedRanges_twoPages]
  rcases List.exists_mem_of_length_pos (by omega : 0 < (Mm.Vmm.usedList k'.vmm).length) with
    ⟨x, hx⟩
  exact Set.Nonempty.ne_empty ⟨_, x, hx, rfl⟩

theorem copies_restore_ranges_null : ∃ k', CopyCall.run twoPages (.memcpypp 0xfff 0x6010 4) =
      .ok (.err .EINVAL, k') ∧ Vmm.usedRanges k'.vmm = Vmm.usedRanges twoPages.vmm := by
  have hret : ((CopyCall.run twoPages (.memcpypp 0xfff 0x6010 4)).toOption.map fun x => x.1) =
      some (.err .EINVAL) := by
    decide +kernel
  rcases ok_of_toOption hret with ⟨⟨ret, k'⟩, hok, rfl⟩
  refine ⟨k', hok, ?_⟩
  have hcs : ∀ c ∈ ([] : List Mm.Vmm.Call), c.PageSized := by simp
  refine (copies_restore_ranges_iff (k := twoPages) Mm.Vmm.start_twoPages hcs rfl
    (.memcpypp 0xfff 0x6010 4) hok).2 ?_
  intro pa hpa hm
  have hnull : pa = 0 := by
    have hsome : some (PGROUND 0xfff) = some pa := hpa
    rw [← Option.some.inj hsome]
    decide
  exact hm.1 hnull

end Kmem

end Arch
end XytherOS
