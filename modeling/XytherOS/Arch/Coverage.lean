import XytherOS.Arch.FaultPages
import XytherOS.Arch.MachineLedger
import XytherOS.Mm.MmapFile
import XytherOS.Mm.PmmSound

/-!
# Coverage — present pages lie in regions

A page of an address space is to be present only where a region is.  A fault brings in a page of the
region that it finds, and `mmap_remove` unmaps the region that it takes out.  But where a region is
made smaller, by `mmap_unmap` at its front or at its last byte and by `mmap_vmr_expand` at either end,
the page tables are left as they are; and `arch_unmap_n` counts pages from the start of the region, so
that it stops one page short of a region that does not start at a page and reaches into one more.

The invariant is carried through every call whose regions lose no present page this way.
-/

namespace XytherOS
namespace Arch

open Function Mm.Mmap
open Mm.Pmm (NPAGE PGSZ toNat_NPAGE)

/-! ## Pages of regions -/

def firstPage (r : Region) : Nat := r.start.toNat / 4096

def lastPage (r : Region) : Nat := r.endAddr.toNat / 4096

def Touches (r : Region) (pg : Nat) : Prop :=
  ∃ a : BitVec 64, r.start ≤ a ∧ a ≤ r.endAddr ∧ a.toNat / 4096 = pg

def InPages (r : Region) (pg : Nat) : Prop := firstPage r ≤ pg ∧ pg ≤ lastPage r

theorem InPages.touches {r : Region} {pg : Nat} (h : InPages r pg) (hr : r.start ≤ r.endAddr) :
    Touches r pg := by
  rcases h with ⟨hfirst, hlast⟩
  simp only [firstPage, lastPage, BitVec.le_def] at hfirst hlast hr
  by_cases hin : r.start.toNat / 4096 = pg
  · exact ⟨r.start, BitVec.le_refl _, hr, hin⟩
  · -- the first byte of the page lies in the region
    have hlt := r.endAddr.isLt
    have hnat : (BitVec.ofNat 64 (pg * 4096)).toNat = pg * 4096 := by
      rw [BitVec.toNat_ofNat]
      exact Nat.mod_eq_of_lt (by omega)
    refine ⟨BitVec.ofNat 64 (pg * 4096), ?_, ?_, ?_⟩
    · rw [BitVec.le_def, hnat]
      omega
    · rw [BitVec.le_def, hnat]
      omega
    · rw [hnat]
      omega

theorem inPages_of_contains {r : Region} {a : BitVec 64} (hlo : r.start ≤ a) (hhi : a ≤ r.endAddr) :
    InPages r (a.toNat / 4096) :=
  ⟨Nat.div_le_div_right hlo, Nat.div_le_div_right hhi⟩

def PageTables.vacant (t : PageTables) (lo hi : Nat) : Bool :=
  (List.range' lo (hi - lo)).all fun pg => !t.reached .pt pg

/-- `arch_unmap_n(r->start, __vmr_size(r))` leaves no page of the region present. -/
def PageTables.clears (t : PageTables) (r : Region) : Bool :=
  t.vacant (firstPage r + (NPAGE r.size).toNat) (lastPage r + 1)

/-- None of the pages of `r` that are not pages of `r'` is present. -/
def PageTables.cutsClean (t : PageTables) (r r' : Region) : Bool :=
  t.vacant (firstPage r) (firstPage r') && t.vacant (lastPage r' + 1) (lastPage r + 1)

theorem PageTables.not_vacant {t : PageTables} {fr : Frames} {lo hi pg : Nat} (h : Tidy t fr)
    (hv : t.vacant lo hi = true) (hlo : lo ≤ pg) (hhi : pg < hi) : t.isP .pt pg = false := by
  rw [vacant, List.all_eq_true] at hv
  have hmem : pg ∈ List.range' lo (hi - lo) := by
    rw [List.mem_range'_1]
    omega
  have hreached := hv pg hmem
  rw [PageTables.reached_eq_isP h] at hreached
  simpa using hreached

/-! ## Calls that leave no page behind -/

/-- What `mmap_unmap(start, len)` does to the region `r` leaves none of its pages behind. -/
def unmapKeeps (t : PageTables) (start len : BitVec 64) (r : Region) : Bool :=
  if r.start < start then
    r.endAddr != start || t.cutsClean r (r.withBounds r.start (r.endAddr - 1))
  else if start.toNat + len.toNat ≤ r.start.toNat then true
  else if r.endAddr.toNat < start.toNat + len.toNat then t.clears r
  else t.cutsClean r (r.withBounds (start + len) r.endAddr)

def expandKeeps (t : PageTables) (r : Region) (incr : BitVec 64) : Bool :=
  r.dontexpand || !incr.slt 0 || (r.size + incr).slt 0 ||
    if r.size + incr = 0 then t.clears r else t.cutsClean r (r.resized incr)

def callKeeps (s : State Mem) : Call → Bool
  | .unmap start len => len == 0 || !validAddr (start + len - 1) ||
      s.everyRegion (unmapKeeps s.pt.tables start len)
  | .remove p => !(s.mem p).mapped || s.pt.tables.clears (s.region p)
  | .expand p incr => !(s.mem p).mapped || expandKeeps s.pt.tables (s.region p) incr
  | _ => true

/-! ## Covered pages -/

/-- Every page that is present is a page of a region of `v`. -/
def Covers (t : PageTables) (v : View) : Prop :=
  ∀ pg, t.isP .pt pg = true → ∃ e ∈ v, InPages e.2 pg

section Covers

variable {t t' : PageTables} {v v' v₁ v₂ w : View} {p : Nat} {r r' : Region}

theorem Covers.brings (h : Covers t v) (hb : Brings none t t') : Covers t' v :=
  fun pg hp => h pg (hb pg (by simp) hp)

theorem Covers.mono (h : Covers t v) (hsub : ∀ e ∈ v, e ∈ v') : Covers t v' := by
  intro pg hp
  rcases h pg hp with ⟨e, he, hin⟩
  exact ⟨e, hsub e he, hin⟩

theorem Covers.replace (h : Covers t (v₁ ++ (p, r) :: v₂))
    (hw : ∀ pg, t.isP .pt pg = true → InPages r pg → ∃ e ∈ w, InPages e.2 pg) :
    Covers t (v₁ ++ w ++ v₂) := by
  intro pg hp
  rcases h pg hp with ⟨e, he, hin⟩
  simp only [List.mem_append, List.mem_cons] at he
  rcases he with he | rfl | he
  · exact ⟨e, by simp [he], hin⟩
  · rcases hw pg hp hin with ⟨e', he', hin'⟩
    exact ⟨e', by simp [he'], hin'⟩
  · exact ⟨e, by simp [he], hin⟩

theorem Covers.cut {fr : Frames} (h : Covers t (v₁ ++ (p, r) :: v₂)) (htidy : Tidy t fr)
    (hcut : t.cutsClean r r' = true) : Covers t (v₁ ++ (p, r') :: v₂) := by
  rw [PageTables.cutsClean, Bool.and_eq_true] at hcut
  have hcovers : Covers t (v₁ ++ [(p, r')] ++ v₂) := by
    refine h.replace ?_
    intro pg hp hin
    refine ⟨(p, r'), by simp, ?_, ?_⟩
    · -- a page below the new first one is not present
      by_contra hlt
      have habsent := PageTables.not_vacant htidy hcut.1 hin.1 (Nat.lt_of_not_le hlt)
      rw [habsent] at hp
      exact Bool.noConfusion hp
    · by_contra hlt
      have habsent := PageTables.not_vacant htidy hcut.2 (Nat.lt_of_not_le hlt)
        (Nat.lt_succ_of_le hin.2)
      rw [habsent] at hp
      exact Bool.noConfusion hp
  simpa using hcovers

end Covers

/-! ## What the paging code clears -/

section Clears

variable {w : World} {i n pg : Nat} {mem mem' : Mem} {va : BitVec 64} {r : Region}

theorem mem_pagesFrom (h : va.toNat / 4096 + n ≤ 2 ^ 36) :
    pg ∈ pagesFrom n va ↔ va.toNat / 4096 ≤ pg ∧ pg < va.toNat / 4096 + n := by
  induction n generalizing va with
  | zero =>
    simp only [pagesFrom, List.not_mem_nil, false_iff]
    omega
  | succ n ih =>
    have hnext : (va + PGSZ).toNat = va.toNat + 4096 := by
      have hlt : va.toNat < 2 ^ 48 := by omega
      simp only [PGSZ]
      bv_omega
    have hdiv : (va + PGSZ).toNat / 4096 = va.toNat / 4096 + 1 := by
      rw [hnext]
      omega
    have hvpn : vpn va = va.toNat / 4096 := Nat.mod_eq_of_lt (by omega)
    rw [pagesFrom, List.mem_cons, hvpn, ih (by omega), hdiv]
    omega

theorem unmapPages_clears (hi : i < w.nspaces) (h : Tidy mem.tables mem.frames) :
    Safe AnyFault (unmapPages n va mem) fun mem' => Tidy mem'.tables mem'.frames ∧
      ∀ pg, mem'.tables.isP .pt pg = true →
        mem.tables.isP .pt pg = true ∧ pg ∉ pagesFrom n va := by
  induction n generalizing va mem with
  | zero => exact ⟨h, fun pg hp => ⟨hp, List.not_mem_nil⟩⟩
  | succ n ih =>
    rw [unmapPages]
    refine (unmap_safe False hi h).bind ?_
    rintro mem1 ⟨hkeeps, hshrunk⟩
    refine (ih hkeeps.tidy).mono ?_
    rintro mem2 ⟨htidy, hrest⟩
    refine ⟨htidy, ?_⟩
    intro pg hp
    rcases hrest pg hp with ⟨hp1, hlater⟩
    rcases hshrunk .pt pg hp1 with ⟨hp0, hne⟩
    refine ⟨hp0, ?_⟩
    rw [pagesFrom, List.mem_cons]
    rintro (heq | hmem)
    · exact hne ⟨rfl, heq⟩
    · exact hlater hmem

theorem unmapN_clears (hi : i < w.nspaces) (h : Tidy mem.tables mem.frames)
    (hle : r.start ≤ r.endAddr) (hlim : r.endAddr ≤ mmapLimit) (hclears : mem.tables.clears r = true)
    (hrun : unmapN mem r.start r.size = .ok mem') :
    Tidy mem'.tables mem'.frames ∧
      ∀ pg, mem'.tables.isP .pt pg = true → mem.tables.isP .pt pg = true ∧ ¬ InPages r pg := by
  have hnat : r.size.toNat = r.endAddr.toNat + 1 - r.start.toNat := by
    simp only [mmapLimit] at hlim
    simp only [Region.size]
    bv_omega
  have hend : r.endAddr.toNat < 2 ^ 47 := by
    simp only [mmapLimit] at hlim
    bv_omega
  have hle' : r.start.toNat ≤ r.endAddr.toNat := hle
  have hsmall : r.start.toNat / 4096 + (NPAGE r.size).toNat ≤ 2 ^ 36 := by
    rw [toNat_NPAGE, hnat]
    split_ifs <;> omega
  rcases (unmapPages_clears (n := (NPAGE r.size).toNat) hi h).of_eq_ok hrun with ⟨htidy, hpages⟩
  refine ⟨htidy, ?_⟩
  intro pg hp
  rcases hpages pg hp with ⟨hp0, hnot⟩
  refine ⟨hp0, ?_⟩
  rintro ⟨hfirst, hlast⟩
  rw [mem_pagesFrom hsmall] at hnot
  simp only [firstPage] at hfirst
  -- the page is behind those that are counted, where none was present
  have hbehind : firstPage r + (NPAGE r.size).toNat ≤ pg := by
    simp only [firstPage]
    omega
  have habsent := PageTables.not_vacant h hclears hbehind (Nat.lt_succ_of_le hlast)
  rw [habsent] at hp0
  exact Bool.noConfusion hp0

theorem protPages_brings (flags : BitVec 64) (n : Nat) (va : BitVec 64) (mem : Mem) :
    Brings none mem.tables (protPages flags n va mem).2.tables := by
  induction n generalizing va mem with
  | zero => exact .refl _ _
  | succ n ih =>
    rw [protPages, PageTables.getmapping]
    by_cases hva : va = 0
    · rw [if_pos hva]
      exact .refl _ _
    · rw [if_neg hva]
      by_cases hreached : mem.tables.reached .pt (vpn va) = true
      · rw [if_pos hreached]
        refine Brings.trans ?_ (ih _ _)
        intro u _ hp
        by_cases hu : u = vpn va
        · -- the entry was present before
          subst hu
          simp only [PageTables.reached, Bool.and_eq_true] at hreached
          exact hreached.2
        · refine brings_set_page u ?_ hp
          exact fun heq => hu (Option.some.inj heq).symm
      · rw [if_neg hreached]
        exact ih _ _

theorem mprotect_brings (mem : Mem) (va sz flags : BitVec 64) :
    Brings none mem.tables (mprotect mem va sz flags).2.tables := by
  rw [mprotect]
  split_ifs
  · exact protPages_brings _ _ _ _
  · exact .refl _ _

end Clears

/-! ## Calls keep present pages covered -/

section Calls

variable {env : MachineEnv} {w : World} {i : Nat} {s s' : State Mem} {v v₁ v₂ : View} {p : Nat}
  {r : Region} {t t' : PageTables} {fr fr' : Frames}

theorem PageTables.vacant_mono {lo hi : Nat} (h : t.vacant lo hi = true) (htidy : Tidy t fr)
    (htidy' : Tidy t' fr') (hb : Brings none t t') : t'.vacant lo hi = true := by
  rw [vacant, List.all_eq_true]
  intro pg hmem
  rw [List.mem_range'_1] at hmem
  have habsent := PageTables.not_vacant htidy h hmem.1 (by omega)
  rw [PageTables.reached_eq_isP htidy']
  by_contra hne
  have hp := hb pg (by simp) (by simpa using hne)
  rw [habsent] at hp
  exact Bool.noConfusion hp

theorem PageTables.cutsClean_mono {r' : Region} (h : t.cutsClean r r' = true) (htidy : Tidy t fr)
    (htidy' : Tidy t' fr') (hb : Brings none t t') : t'.cutsClean r r' = true := by
  rw [cutsClean, Bool.and_eq_true] at h ⊢
  exact ⟨vacant_mono h.1 htidy htidy' hb, vacant_mono h.2 htidy htidy' hb⟩

theorem Covers.removed (h : Rel s (v₁ ++ (p, r) :: v₂)) (hi : i < w.nspaces)
    (htidy : Tidy s.pt.tables s.pt.frames) (hc : Covers s.pt.tables (v₁ ++ (p, r) :: v₂))
    (hclears : s.pt.tables.clears r = true) (hrem : Removed env.mmapEnv s s' p r v₁ v₂) :
    Tidy s'.pt.tables s'.pt.frames ∧ Brings none s.pt.tables s'.pt.tables ∧
      Covers s'.pt.tables (v₁ ++ v₂) := by
  rcases hrem.account with ⟨mem, hunmap, hacc⟩
  have hpt : s'.pt = mem := congrArg Account.pt hacc
  have hb := h.bounds (e := (p, r)) (by simp)
  rcases unmapN_clears hi htidy hb.1 hb.2 hclears hunmap with ⟨htidy', hpages⟩
  rw [hpt]
  refine ⟨htidy', fun pg _ hp => (hpages pg hp).1, ?_⟩
  intro pg hp
  rcases hpages pg hp with ⟨hp0, hout⟩
  exact Spans.exists_remove (hc pg hp0) hout

/-- Where `mmap_unmap(start, len)` stands: the regions that it has not come to are those from before
the call. -/
structure Swept (t : PageTables) (v₀ : View) (start len : BitVec 64) (s : State Mem) (v : View) :
    Prop where
  tidy : Tidy s.pt.tables s.pt.frames
  fewer : Brings none t s.pt.tables
  covers : Covers s.pt.tables v
  ahead : ∀ e ∈ v, e ∈ v₀ ∨ start.toNat + len.toNat ≤ e.2.start.toNat ∨ e.2.endAddr < start

variable {addr incr len : BitVec 64}

theorem Swept.replace {v₀ : View} {start : BitVec 64} {r' : Region}
    (h : Swept t v₀ start len s (v₁ ++ (p, r) :: v₂))
    (hcut : s.pt.tables.cutsClean r r' = true)
    (hr' : start.toNat + len.toNat ≤ r'.start.toNat ∨ r'.endAddr < start) :
    Swept t v₀ start len (s.setRegion p r') (v₁ ++ (p, r') :: v₂) := by
  exact ⟨h.tidy, h.fewer, h.covers.cut h.tidy hcut, Spans.forall_replace h.ahead (.inr hr')⟩

theorem keptByUnmap_swept {v₀ : View} {start : BitVec 64} (hi : i < w.nspaces)
    (htidy : Tidy t fr) (hkeeps : ∀ e ∈ v₀, unmapKeeps t start len e.2 = true) :
    KeptByUnmap env.mmapEnv start len (Swept t v₀ start len) where
  remove := by
    intro s s' v₁ p r v₂ h hm hlo hhi hrem
    have hb := (h.bounds (e := (p, r)) (by simp)).1
    have hmem : (p, r) ∈ v₀ := by
      rcases hm.ahead (p, r) (by simp) with hmem | hlate | hearly
      · exact hmem
      · exact absurd hlate (by simp only; bv_omega)
      · exact absurd hearly (by simp only; bv_omega)
    have hclears : t.clears r = true := by
      have hk := hkeeps (p, r) hmem
      simp only [unmapKeeps] at hk
      rwa [if_neg (by bv_omega), if_neg (by bv_omega), if_pos hhi] at hk
    have hclears' := PageTables.vacant_mono hclears htidy hm.tidy hm.fewer
    rcases Covers.removed h hi hm.tidy hm.covers hclears' hrem with ⟨htidy', hb', hcovers⟩
    exact ⟨htidy', hm.fewer.trans hb', hcovers, Spans.forall_remove hm.ahead⟩
  front := by
    intro s v₁ p r v₂ h hm hlo hmid hhi
    have hlim := h.limit (p, r) (by simp)
    simp only [mmapLimit] at hlim
    have hmem : (p, r) ∈ v₀ := by
      rcases hm.ahead (p, r) (by simp) with hmem | hlate | hearly
      · exact hmem
      · exact absurd hlate (by simp only; omega)
      · exact absurd hearly (by simp only; bv_omega)
    have hcut : t.cutsClean r (r.withBounds (start + len) r.endAddr) = true := by
      have hk := hkeeps (p, r) hmem
      simp only [unmapKeeps] at hk
      rwa [if_neg (by bv_omega), if_neg (by omega), if_neg (by omega)] at hk
    refine hm.replace (PageTables.cutsClean_mono hcut htidy hm.tidy hm.fewer) (.inl ?_)
    simp only [Region.withBounds]
    bv_omega
  last := by
    intro s v₁ p r v₂ h hm hlt hend
    have hmem : (p, r) ∈ v₀ := by
      rcases hm.ahead (p, r) (by simp) with hmem | hlate | hearly
      · exact hmem
      · exact absurd hlate (by simp only; bv_omega)
      · exact absurd hearly (by simp only; bv_omega)
    have hcut : t.cutsClean r (r.withBounds r.start (r.endAddr - 1)) = true := by
      have hk := hkeeps (p, r) hmem
      simp only [unmapKeeps] at hk
      rw [if_pos hlt] at hk
      simpa [hend] using hk
    refine hm.replace (PageTables.cutsClean_mono hcut htidy hm.tidy hm.fewer) (.inr ?_)
    simp only [Region.withBounds]
    bv_omega

theorem keptByUnmap_fixed {start : BitVec 64} {r₀ : Region} (hstart : r₀.start = start)
    (hend : r₀.endAddr = start + len - 1) :
    KeptByUnmap env.mmapEnv start len fun s v => r₀.start ≤ r₀.endAddr → r₀.endAddr ≤ mmapLimit →
      ∀ pg, s.pt.tables.isP .pt pg = true → (∃ e ∈ v, InPages e.2 pg) ∨ InPages r₀ pg := by
  -- a range that lies below the limit does not wrap around
  have hrange : r₀.start ≤ r₀.endAddr → r₀.endAddr ≤ mmapLimit →
      r₀.start.toNat = start.toNat ∧ r₀.endAddr.toNat + 1 = start.toNat + len.toNat ∧
        start.toNat ≤ r₀.endAddr.toNat := by
    intro hle hlim
    rw [hstart, hend] at hle
    rw [hend] at hlim
    simp only [mmapLimit] at hlim
    rw [hstart, hend]
    exact ⟨rfl, by bv_omega, hle⟩
  refine ⟨?_, ?_, ?_⟩
  · intro s s' v₁ p r v₂ h hm hlo hhi hrem hle hlim pg hp
    rcases hrange hle hlim with ⟨hfirst, hlast, -⟩
    rcases hrem.account with ⟨mem, hunmap, hacc⟩
    have hpt : s'.pt = mem := congrArg Account.pt hacc
    rw [hpt] at hp
    have hp0 := (unmapN_brings s.pt r.start r.size).of_eq_ok hunmap pg (by simp) hp
    rcases hm hle hlim pg hp0 with ⟨e, he, hin⟩ | hin
    · simp only [List.mem_append, List.mem_cons] at he
      rcases he with he | rfl | he
      · exact .inl ⟨e, by simp [he], hin⟩
      · -- the whole region lies in the range
        have hb : start.toNat ≤ r.start.toNat := hlo
        simp only [InPages, firstPage, lastPage] at hin ⊢
        exact .inr (by omega)
      · exact .inl ⟨e, by simp [he], hin⟩
    · exact .inr hin
  · intro s v₁ p r v₂ h hm hlo hmid hhi hle hlim pg hp
    rcases hrange hle hlim with ⟨hfirst, hlast, -⟩
    have hlim' := h.limit (p, r) (by simp)
    simp only [mmapLimit] at hlim'
    have hcutAt : (start + len).toNat = start.toNat + len.toNat := by bv_omega
    rcases hm hle hlim pg hp with ⟨e, he, hin⟩ | hin
    · simp only [List.mem_append, List.mem_cons] at he
      rcases he with he | rfl | he
      · exact .inl ⟨e, by simp [he], hin⟩
      · have hb : start.toNat ≤ r.start.toNat := hlo
        by_cases hcut : (start.toNat + len.toNat) / 4096 ≤ pg
        · refine .inl ⟨(p, r.withBounds (start + len) r.endAddr), by simp, ?_, hin.2⟩
          simp only [firstPage, Region.withBounds, hcutAt]
          exact hcut
        · simp only [InPages, firstPage, lastPage] at hin ⊢
          exact .inr (by omega)
      · exact .inl ⟨e, by simp [he], hin⟩
    · exact .inr hin
  · intro s v₁ p r v₂ h hm hlt hlastByte hle hlim pg hp
    rcases hrange hle hlim with ⟨hfirst, hlast, hle'⟩
    rcases hm hle hlim pg hp with ⟨e, he, hin⟩ | hin
    · simp only [List.mem_append, List.mem_cons] at he
      rcases he with he | rfl | he
      · exact .inl ⟨e, by simp [he], hin⟩
      · by_cases hcut : pg ≤ (r.endAddr - 1).toNat / 4096
        · exact .inl ⟨(p, r.withBounds r.start (r.endAddr - 1)), by simp, hin.1, hcut⟩
        · -- the page of the last byte, which is the first of the range
          have hprev : (r.endAddr - 1).toNat = start.toNat - 1 := by bv_omega
          simp only [InPages, firstPage, lastPage, hlastByte] at hin ⊢
          rw [hprev] at hcut
          exact .inr (by omega)
      · exact .inl ⟨e, by simp [he], hin⟩
    · exact .inr hin

theorem inPages_grown {pg : Nat} (hle : r.start ≤ r.endAddr)
    (hlim : r.endAddr ≤ mmapLimit) (hincr : 0 ≤ incr.toInt)
    (hb : (r.resized incr).start ≤ (r.resized incr).endAddr)
    (hlim' : (r.resized incr).endAddr ≤ mmapLimit) (h : InPages r pg) :
    InPages (r.resized incr) pg := by
  have hlt := incr.isLt
  have hsmall : incr.toNat < 2 ^ 63 := by
    rw [BitVec.toInt_eq_toNat_cond] at hincr
    split_ifs at hincr <;> omega
  simp only [mmapLimit] at hlim hlim'
  have hbounds : (r.resized incr).start ≤ r.start ∧ r.endAddr ≤ (r.resized incr).endAddr := by
    rw [Region.resized] at hb hlim' ⊢
    split_ifs at hb hlim' ⊢
    · simp only [Region.withBounds] at hb hlim' ⊢
      exact ⟨by bv_omega, BitVec.le_refl _⟩
    · simp only [Region.withBounds] at hb hlim' ⊢
      exact ⟨BitVec.le_refl _, by bv_omega⟩
  exact ⟨(Nat.div_le_div_right hbounds.1).trans h.1, h.2.trans (Nat.div_le_div_right hbounds.2)⟩

theorem expandKeeps_cases (hsize : r.size.toNat ≤ 2 ^ 47)
    (hcan : r.dontexpand = false) (hneg : incr.toInt < 0) (hpos : 0 ≤ (r.size.toNat : Int) + incr.toInt)
    (hk : expandKeeps t r incr = true) :
    (if r.size + incr = 0 then t.clears r else t.cutsClean r (r.resized incr)) = true := by
  have hslt : incr.slt 0 = true := decide_eq_true hneg
  have hnot : (r.size + incr).slt 0 = false := by
    rw [Bool.eq_false_iff, ne_eq, add_slt_zero_iff hsize]
    omega
  rw [expandKeeps, hcan, hslt, hnot] at hk
  simpa using hk

theorem Covers.vmrExpand (h : Rel s v) (hi : i < w.nspaces)
    (htidy : Tidy s.pt.tables s.pt.frames) (hc : Covers s.pt.tables v)
    (hok : callKeeps s (.expand p incr) = true) {x : Ret × State Mem}
    (hout : ExpandOutcome env.mmapEnv s v p incr x) :
    ∃ v', Rel x.2 v' ∧ Covers x.2.pt.tables v' := by
  have hkeeps : ∀ {v₁ v₂ r}, v = v₁ ++ (p, r) :: v₂ → expandKeeps s.pt.tables r incr = true := by
    intro v₁ v₂ r hv
    subst hv
    have hmapped : (s.mem p).mapped = true := (h.mapped p).2 (by simp)
    have hreg : s.region p = r := h.region (p, r) (by simp)
    simpa [callKeeps, hmapped, hreg] using hok
  cases hout with
  | unchanged state ret =>
    rw [state]
    exact ⟨v, h, hc⟩
  | unlisted fresh rel account =>
    have hpt : x.2.pt = s.pt := congrArg Account.pt account
    rw [hpt]
    exact ⟨v, rel, hc⟩
  | @resized v₁ v₂ r view ret ne can state rel pos hole =>
    subst view
    have hpt : x.2.pt = s.pt := by
      rw [state]
      rfl
    refine ⟨_, rel, ?_⟩
    rw [hpt]
    by_cases hneg : incr.toInt < 0
    · have hsize := h.size_eq.2.1
      have hcut := expandKeeps_cases hsize can hneg pos.le (hkeeps rfl)
      have hne : r.size + incr ≠ 0 := by
        intro hzero
        have hnat := toNat_add_toInt hsize pos.le
        rw [hzero] at hnat
        rw [← hnat] at pos
        exact absurd pos (by decide)
      rw [if_neg hne] at hcut
      exact hc.cut htidy hcut
    · have hb := h.bounds (e := (p, r)) (by simp)
      have hb' := rel.bounds (e := (p, r.resized incr)) (by simp)
      have hcovers : Covers s.pt.tables (v₁ ++ [(p, r.resized incr)] ++ v₂) := by
        refine hc.replace ?_
        intro pg _ hin
        exact ⟨(p, r.resized incr), by simp, inPages_grown hb.1 hb.2 (by omega) hb'.1 hb'.2 hin⟩
      simpa using hcovers
  | @removed v₁ v₂ r view ret can rem zero =>
    subst view
    have hsize := h.size_eq
    have hneg : incr.toInt < 0 := by
      have hle : r.start.toNat ≤ r.endAddr.toNat := hsize.2.2.1
      omega
    have hclears := expandKeeps_cases hsize.2.1 can hneg zero.ge (hkeeps rfl)
    have hzero : r.size + incr = 0 := by
      have hnat := toNat_add_toInt hsize.2.1 zero.ge
      rw [zero] at hnat
      apply BitVec.eq_of_toNat_eq
      exact_mod_cast hnat
    rw [if_pos hzero] at hclears
    exact ⟨_, rem.rel h, (Covers.removed h hi htidy hc hclears rem).2.2⟩

theorem Covers.mmapProtect {prot : BitVec 32} (h : Rel s v)
    (hc : Covers s.pt.tables v) {x : Ret × State Mem}
    (hout : ProtectOutcome env.mmapEnv s v addr len prot x) :
    ∃ v', Rel x.2 v' ∧ Covers x.2.pt.tables v' := by
  have hbrings : ∀ {va sz flags : BitVec 64} {mem : Mem},
      env.mmapEnv.mprotect s.pt va sz flags = .ok (x.1, mem) →
        Brings none s.pt.tables mem.tables := by
    intro va sz flags mem hmp
    have heq : mprotect s.pt va sz flags = (x.1, mem) := Except.ok.inj hmp
    have hb := mprotect_brings s.pt va sz flags
    rwa [heq] at hb
  cases hout with
  | unchanged rel account =>
    have hpt : x.2.pt = s.pt := congrArg Account.pt account
    rw [hpt]
    exact ⟨v, rel, hc⟩
  | @whole v₁ v₂ p r mem view found allowed size mprotect rel account =>
    subst view
    have hpt : x.2.pt = mem := congrArg Account.pt account
    refine ⟨_, rel, ?_⟩
    rw [hpt]
    have hcovers : Covers s.pt.tables (v₁ ++ [(p, r.protect prot)] ++ v₂) :=
      hc.replace fun pg _ hin => ⟨(p, r.protect prot), by simp, hin⟩
    refine Covers.brings ?_ (hbrings mprotect)
    simpa using hcovers
  | @split v₁ v₂ left right p r mem view splits leftPart rightPart mprotect rel tables =>
    subst view
    rcases splits.bounds h with ⟨hlo, hmid, hhi, hlim, -⟩
    refine ⟨_, rel, ?_⟩
    rw [tables]
    -- every page of the region is a page of the part in front, in the middle or behind
    have hcovers : Covers s.pt.tables (v₁ ++
        (left ++ (p, (r.withBounds addr (addr + len - 1)).protect prot) :: right) ++ v₂) := by
      refine hc.replace ?_
      rintro pg - ⟨hfirst, hlast⟩
      by_cases hbefore : addr.toNat / 4096 ≤ pg
      · by_cases hafter : pg ≤ (addr + len - 1).toNat / 4096
        · exact ⟨(p, (r.withBounds addr (addr + len - 1)).protect prot), by simp,
            hbefore, hafter⟩
        · cases rightPart with
          | none eq =>
            rw [lastPage, eq] at hlast
            exact absurd hlast hafter
          | @some q lt =>
            refine ⟨(q, r.withBounds (addr + len - 1 + 1) r.endAddr), by simp, ?_, hlast⟩
            simp only [firstPage, Region.withBounds]
            have hnext : (addr + len - 1 + 1).toNat = (addr + len - 1).toNat + 1 := by bv_omega
            rw [hnext]
            omega
      · cases leftPart with
        | none eq =>
          rw [firstPage, eq] at hfirst
          exact absurd hfirst hbefore
        | @some q lt =>
          refine ⟨(q, r.withBounds r.start (addr - 1)), by simp, hfirst, ?_⟩
          simp only [lastPage, Region.withBounds]
          have hprev : (addr - 1).toNat = addr.toNat - 1 := by bv_omega
          rw [hprev]
          omega
    refine Covers.brings ?_ (hbrings mprotect)
    simpa using hcovers

theorem Covers.vmrSplit (h : Rel s v) (hc : Covers s.pt.tables v)
    {x : Ret × Option Nat × State Mem} (hout : SplitOutcome s v p addr x) :
    ∃ v', Rel x.2.2 v' ∧ Covers x.2.2.pt.tables v' := by
  cases hout with
  | failed ret rel account =>
    have hpt : x.2.2.pt = s.pt := congrArg Account.pt account
    rw [hpt]
    exact ⟨v, rel, hc⟩
  | @split v₁ v₂ r q view can ret fresh rel account =>
    subst view
    have hpt := congrArg Account.pt account
    change x.2.2.pt = s.pt at hpt
    simp only [vmrCanSplit, Bool.and_eq_true, decide_eq_true_eq] at can
    refine ⟨_, rel, ?_⟩
    rw [hpt]
    have hcovers : Covers s.pt.tables (v₁ ++
        [(p, r.withBounds r.start (addr - 1)), (q, splitRegion r addr)] ++ v₂) := by
      refine hc.replace ?_
      rintro pg - ⟨hfirst, hlast⟩
      by_cases hbefore : addr.toNat / 4096 ≤ pg
      · exact ⟨(q, splitRegion r addr), by simp, hbefore, hlast⟩
      · refine ⟨(p, r.withBounds r.start (addr - 1)), by simp, hfirst, ?_⟩
        simp only [lastPage, Region.withBounds]
        have hprev : (addr - 1).toNat = addr.toNat - 1 := by bv_omega
        rw [hprev]
        omega
    simpa using hcovers

theorem Covers.mapFixed {prot flags : BitVec 32} (h : Rel s v)
    (hc : Covers s.pt.tables v) (hfixed : has flags MAP_FIXED = true) (pvmr : Bool)
    (hok : orderlyFixed s addr (mapLen len flags) = true) :
    Safe AnyFault (mmapMapRegion env.mmapEnv s addr len prot flags pvmr) fun x =>
      ∃ v', Rel x.2.2 v' ∧ Covers x.2.2.pt.tables v' := by
  have hkept : KeptByUnmap env.mmapEnv addr (mapLen len flags) fun s v =>
      (newRegion addr (mapLen len flags) prot flags).start ≤
        (newRegion addr (mapLen len flags) prot flags).endAddr →
      (newRegion addr (mapLen len flags) prot flags).endAddr ≤ mmapLimit →
      ∀ pg, s.pt.tables.isP .pt pg = true → (∃ e ∈ v, InPages e.2 pg) ∨
        InPages (newRegion addr (mapLen len flags) prot flags) pg :=
    keptByUnmap_fixed rfl rfl
  refine ((h.mapFixed_safe hfixed pvmr (fun hvalid => (h.orderly_fixed hok hvalid).1)
    (fun hvalid => (h.orderly_fixed hok hvalid).2) hkept ?_).faults
    fun _ _ => trivial).mono ?_
  · intro s₁ q ha _ _ pg hp
    have hpt : s₁.pt = s.pt := congrArg Account.pt ha.account
    rw [hpt] at hp
    exact .inl (hc pg hp)
  · rintro ⟨ret, out, s'⟩ hout
    cases hout with
    | failed ret rel account =>
      have hpt : s'.pt = s.pt := congrArg Account.pt account
      refine ⟨v, rel, ?_⟩
      dsimp only
      rw [hpt]
      exact hc
    | @mapped s₂ w₁ w₂ q ret fresh out rel₂ kept inserted rel =>
      have hb := rel.bounds (e := (q, newRegion addr (mapLen len flags) prot flags)) (by simp)
      have hpt : s'.pt = s₂.pt := inserted.pt_eq
      refine ⟨_, rel, ?_⟩
      dsimp only
      rw [hpt]
      intro pg hp
      rcases kept hb.1 hb.2 pg hp with ⟨e, he, hin⟩ | hin
      · exact ⟨e, Spans.mem_insert he, hin⟩
      · exact ⟨(q, newRegion addr (mapLen len flags) prot flags), by simp, hin⟩

theorem Covers.call (h : Rel s v) (hi : i < w.nspaces) (htidy : Tidy s.pt.tables s.pt.frames)
    (hc : Covers s.pt.tables v) (c : Call) (horderly : c.orderly s = true)
    (hok : callKeeps s c = true) :
    Safe AnyFault (call env.mmapEnv s c) fun s' => ∃ v', Rel s' v' ∧ Covers s'.pt.tables v' := by
  have hany : ∀ {α : Type} {x : Except Fault α} {P : α → Prop},
      Safe (OpFault env.mmapEnv) x P → Safe AnyFault x P :=
    fun hsafe => hsafe.faults fun _ _ => trivial
  cases c with
  | vmrAlloc r =>
    rcases vmrAlloc_cases env.mmapEnv s r with
      ⟨s', heq, hmem, halloc, hhd, htl, hacc⟩ | ⟨q, s', heq, ha⟩
    · have hpt : s'.pt = s.pt := congrArg Account.pt hacc
      simp only [Mm.Mmap.call, heq]
      exact ⟨v, h.of_mem_eq hmem halloc hhd htl, by rwa [hpt]⟩
    · have hpt : s'.pt = s.pt := congrArg Account.pt ha.account
      simp only [Mm.Mmap.call, heq]
      exact ⟨v, ha.rel h, by rwa [hpt]⟩
  | mapin p =>
    refine ((h.call_mapin horderly).faults fun _ hf => hf.elim).bind ?_
    rintro ⟨ret, s'⟩ (⟨-, rfl⟩ | ⟨-, v₁, v₂, rfl, hins, hrel⟩)
    · exact ⟨v, h, hc⟩
    · have hpt : s'.pt = s.pt := hins.pt_eq
      refine ⟨_, hrel, ?_⟩
      rw [hpt]
      exact hc.mono fun e he => Spans.mem_insert he
  | mapRegion addr len prot flags pvmr =>
    by_cases hfixed : has flags MAP_FIXED = true
    · simp only [Call.orderly, if_pos hfixed] at horderly
      exact (Covers.mapFixed h hc hfixed pvmr horderly).bind fun x hx => hx
    · simp only [Call.orderly, if_neg hfixed] at horderly
      refine Safe.bind ((h.mapRegion_safe (by simpa using hfixed) pvmr
        (h.orderly_hole horderly)).faults fun _ hf => hf.elim) ?_
      rintro ⟨ret, out, s'⟩ ⟨a, hout, -⟩
      cases hout with
      | failed ret rel account =>
        have hpt : s'.pt = s.pt := congrArg Account.pt account
        exact ⟨v, rel, by rwa [hpt]⟩
      | @mapped v₁ v₂ q view ret fresh out rel account =>
        subst view
        have hpt := congrArg Account.pt account
        change s'.pt = s.pt at hpt
        refine ⟨_, rel, ?_⟩
        rw [hpt]
        exact hc.mono fun e he => Spans.mem_insert he
  | unmap start len =>
    by_cases hrefused : len = 0 ∨ validAddr (start + len - 1) = false
    · -- refused: the address space is as it was
      refine Safe.bind (hany (h.unmap_safe (keptByUnmap_true env.mmapEnv) trivial)) ?_
      rintro ⟨ret, s'⟩ (⟨-, rfl, -⟩ | ⟨-, hlen, hvalid, -⟩)
      · exact ⟨v, h, hc⟩
      · rcases hrefused with hzero | hinvalid
        · exact absurd hzero hlen
        · rw [hvalid] at hinvalid
          exact absurd hinvalid (by simp)
    · have hkeeps : ∀ e ∈ v, unmapKeeps s.pt.tables start len e.2 = true := by
        rw [← h.everyRegion_iff]
        simp only [callKeeps, Bool.or_eq_true, beq_iff_eq, Bool.not_eq_eq_eq_not,
          Bool.not_true] at hok
        exact hok.resolve_left hrefused
      have hm : Swept s.pt.tables v start len s v :=
        ⟨htidy, .refl _ _, hc, fun e he => .inl he⟩
      refine Safe.bind (hany (h.unmap_safe (keptByUnmap_swept hi htidy hkeeps) hm)) ?_
      rintro ⟨ret, s'⟩ (⟨-, rfl, -⟩ | ⟨-, -, -, v', hrel, hswept, -⟩)
      · exact ⟨v, h, hc⟩
      · exact ⟨v', hrel, hswept.covers⟩
  | remove p =>
    by_cases hp : p ∈ ids v
    · rcases h.mem_of_mapped ((h.mapped p).2 hp) with ⟨v₁, v₂, rfl⟩
      have hclears : s.pt.tables.clears (s.region p) = true := by
        simpa [callKeeps, (h.mapped p).2 hp] using hok
      refine Safe.bind (h.remove_safe.faults fun _ _ => trivial) ?_
      rintro ⟨ret, s'⟩ ⟨-, hrem⟩
      exact ⟨_, hrem.rel h, (Covers.removed h hi htidy hc hclears hrem).2.2⟩
    · simp only [Mm.Mmap.call, h.remove_not_mem hp]
      exact ⟨v, h, hc⟩
  | expand p incr =>
    refine Safe.bind (hany (h.expand_safe p incr)) ?_
    intro x hout
    exact Covers.vmrExpand h hi htidy hc hok hout
  | protect addr len prot =>
    have hhead := h.orderly_protect (by simpa [Call.orderly] using horderly)
    refine Safe.bind ((h.protect_safe hhead).faults fun _ _ => trivial) ?_
    intro x hout
    exact Covers.mmapProtect h hc hout
  | split p addr pvmr =>
    refine Safe.bind (hany (h.split_safe p addr pvmr)) ?_
    intro x hout
    exact Covers.vmrSplit h hc hout

end Calls

/-! ## Machines -/

def Machine.Covered (m : Machine) : Prop :=
  ∀ i, i < m.nspaces → ∃ v, Rel (m.space i) v ∧ Covers (m.tables i) v

/-- Calls and faults in any number of address spaces, where each call is orderly and leaves no page
behind. -/
def Op.keepsPages (m : Machine) : Op → Bool
  | .create => true
  | .call i c => c.orderly (m.active i) && callKeeps (m.active i) c
  | .fault _ _ _ _ _ => true
  | .fork _ => false
  | .clean _ => false

section Machines

variable {env : MachineEnv} {m : Machine} {i f : Nat} {s : State Mem} {v : View}

theorem Machine.Covered.store (h : m.Covered) (hrel : Rel s v) (hc : Covers s.pt.tables v) :
    (m.store i s).Covered := by
  intro j hj
  rw [m.tables_store]
  by_cases hji : j = i
  · subst hji
    have hspace : (m.store j s).space j = s.retable s.pt.tables := update_self _ _ _
    rw [update_self, hspace]
    exact ⟨v, Rel.retable hrel _, hc⟩
  · have hspace : (m.store i s).space j = m.space j := update_of_ne hji _ _
    rw [update_of_ne hji, hspace]
    exact h j hj

theorem Machine.Covered.add (h : m.Covered) (hrel : Rel s v) (hc : Covers s.pt.tables v) :
    (m.add f s).Covered := by
  intro j hj
  rw [m.tables_add]
  by_cases hji : j = m.nspaces
  · subst hji
    have hspace : (m.add f s).space m.nspaces = s.retable s.pt.tables := update_self _ _ _
    rw [update_self, hspace]
    exact ⟨v, Rel.retable hrel _, hc⟩
  · have hspace : (m.add f s).space j = m.space j := update_of_ne hji _ _
    have hj' : j < m.nspaces + 1 := hj
    rw [update_of_ne hji, hspace]
    exact h j (by omega)

theorem mmapInitNew_covered {mem : Mem} (h : m.Covered)
    (hempty : ∀ pg, mem.tables.isP .pt pg = false) :
    Safe AnyFault (mmapInitNew env m f mem) fun x => x.2.Covered := by
  refine Safe.any ?_
  intro x hx
  rcases bind_ok_iff.1 hx with ⟨⟨ret, s⟩, hinit, hx⟩
  cases ret with
  | ok =>
    cases hx
    rcases mmapInit_rel hinit with ⟨q, hrel, hacc⟩
    have hpt := congrArg Account.pt hacc
    change s.pt = mem at hpt
    refine h.add hrel ?_
    intro pg hp
    rw [hpt, hempty pg] at hp
    exact Bool.noConfusion hp
  | err e =>
    rcases bind_ok_iff.1 hx with ⟨fr, -, hx⟩
    cases hx
    exact h

theorem mmapAlloc_covered (h : m.Covered) :
    Safe AnyFault (mmapAlloc env m) fun x => x.2.Covered := by
  have hfree : ∀ (f : Nat) (mem : Mem) (e : Errno) (ticks : Nat), Safe AnyFault
      (do
        let frames ← mem.frames.free f
        return (Ret.err e, ({ m with frames := frames, ticks := ticks } : Machine)))
      fun x => x.2.Covered := by
    intro f mem e ticks
    refine Safe.any ?_
    intro x hx
    rcases bind_ok_iff.1 hx with ⟨fr, -, hx⟩
    cases hx
    exact h
  rw [mmapAlloc]
  cases m.frames.getPage with
  | error e => exact h
  | ok res =>
    rcases res with ⟨f, fr⟩
    have hempty : ∀ pg, (mount env.toEnv ⟨.empty, fr, m.ticks⟩).2.tables.isP .pt pg = false := by
      intro pg
      rw [mount_mem]
      simp [PageTables.isP, PageTables.empty, has, Mem.tick]
    simp only
    generalize mount env.toEnv ⟨.empty, fr, m.ticks⟩ = res at hempty ⊢
    rcases res with ⟨ret, mem⟩
    cases ret with
    | err e => exact hfree f mem e mem.ticks
    | ok =>
      simp only
      by_cases hoom : env.mmapOom mem.ticks = true
      · rw [if_pos hoom]
        exact hfree f mem .ENOMEM (mem.ticks + 1)
      · rw [if_neg hoom]
        exact mmapInitNew_covered h hempty

theorem fault_covered {held : Held} {addr errCode : BitVec 64} (h : m.Covered)
    (hi : i < m.nspaces) :
    Safe AnyFault (archDoPageFault env held m i addr errCode) Machine.Covered := by
  refine Safe.any ?_
  intro m' hrun
  rw [archDoPageFault] at hrun
  by_cases hkernel : iskernelAddr addr = true
  · rw [if_pos hkernel] at hrun
    cases hrun
  rw [if_neg hkernel] at hrun
  rcases bind_ok_iff.1 hrun with ⟨res, hvmr, hrun⟩
  rcases bind_ok_iff.1 hvmr with ⟨found, hfind, hvmr⟩
  rcases h i hi with ⟨v, hrel, hc⟩
  cases found with
  | none =>
    cases hvmr
    cases hrun
  | some r =>
    rcases bind_ok_iff.1 hvmr with ⟨⟨ret, k⟩, hhandler, hvmr⟩
    cases hvmr
    rcases hrel.of_find hfind with ⟨hmem, hcontains⟩
    simp only [Region.contains, Bool.and_eq_true, decide_eq_true_eq] at hcontains
    have hlim := hrel.limit _ hmem
    simp only [mmapLimit] at hlim
    have hvpn : vpn addr = addr.toNat / 4096 := by
      have hlt : addr.toNat < 2 ^ 48 := by bv_omega
      exact Nat.mod_eq_of_lt (by omega)
    have hcow : ∀ u, ((m.tables i).getmapping addr).toOption = some u → u = vpn addr := by
      intro u hu
      rw [PageTables.getmapping] at hu
      split_ifs at hu
      all_goals simp [Except.toOption] at hu
      exact hu.symm
    have hbrings := (defaultPgfHandler_brings hcow (m.kern i)).of_eq_ok hhandler
    have hcovers : Covers k.tables v := by
      intro pg hp
      by_cases hpg : pg = addr.toNat / 4096
      · subst hpg
        exact ⟨_, hmem, inPages_of_contains hcontains.1 hcontains.2⟩
      · refine hc pg (hbrings pg ?_ hp)
        intro heq
        rw [hvpn] at heq
        exact hpg (Option.some.inj heq).symm
    cases ret with
    | ok =>
      cases hrun
      have hrel' : Rel ((m.space i).retable k.toMem) v := Rel.retable hrel _
      exact h.store hrel' hcovers
    | err e => cases e <;> cases hrun

theorem step_covered (hgood : m.Good False) (h : m.Covered) (op : Op)
    (hok : op.keepsPages m = true) : Safe AnyFault (step env m op) Machine.Covered := by
  cases op with
  | create => exact (mmapAlloc_covered h).bind fun x hx => hx
  | fork i => exact absurd hok (by simp [Op.keepsPages])
  | clean i => exact absurd hok (by simp [Op.keepsPages])
  | call i c =>
    rw [step, stepIn]
    by_cases hi : i < m.nspaces
    · rw [if_pos hi]
      simp only [Op.keepsPages, Bool.and_eq_true] at hok
      rcases h i hi with ⟨v, hrel, hc⟩
      have hrel' : Rel (m.active i) v := Rel.retable hrel _
      have hi' : i < m.world.nspaces := hi
      refine (Covers.call hrel' hi' (hgood.tidy i hi) hc c hok.1 hok.2).bind ?_
      rintro s ⟨v', hrel1, hc1⟩
      exact h.store hrel1 hc1
    · rw [if_neg hi]
      exact h
  | fault i addr write user held =>
    rw [step, stepIn]
    by_cases hi : i < m.nspaces
    · rw [if_pos hi]
      by_cases hcan : canonical addr = true
      · rw [if_pos hcan]
        exact fault_covered h hi
      · rw [if_neg hcan]
        exact h
    · rw [if_neg hi]
      exact h

end Machines

/-- In every run of such steps each present page of an address space has a byte of one of its
regions. -/
theorem present_pages_in_regions (env : MachineEnv) (fr : Frames) (ops : List Op)
    (hrun : guarded (step env) (fun m op => op.keepsPages m) (.boot fr) ops = true) :
    Safe AnyFault (run env (.boot fr) ops) fun m => ∀ i, i < m.nspaces →
      ∃ l, WellFormed (m.space i) l ∧ ∀ pg, (m.tables i).reached .pt pg = true →
        ∃ p ∈ l, Touches ((m.space i).region p) pg := by
  have hsafe : Safe AnyFault (run env (.boot fr) ops) fun m => m.Good False ∧ m.Covered := by
    refine Safe.runs ?_ ⟨boot_good fr, fun i hi => absurd hi (Nat.not_lt_zero i)⟩ hrun
    rintro m op ⟨hgood, hcovered⟩ hok
    refine Safe.any ?_
    intro m' hstep
    exact ⟨(step_good hgood op False.elim).of_eq_ok hstep,
      (step_covered hgood hcovered op hok).of_eq_ok hstep⟩
  refine hsafe.mono ?_
  rintro m ⟨hgood, hcovered⟩ i hi
  rcases hcovered i hi with ⟨v, hrel, hc⟩
  refine ⟨ids v, hrel.wellFormed, ?_⟩
  intro pg hreached
  rw [PageTables.reached_eq_isP (hgood.tidy i hi)] at hreached
  rcases hc pg hreached with ⟨e, he, hin⟩
  refine ⟨e.1, mem_ids_of_mem he, ?_⟩
  rw [hrel.region e he]
  exact hin.touches (hrel.bounds he).1

/-- Two pages are mapped, the first is written, and then the second is unmapped as a region of its
own. -/
-- not unfolded when the theorem is applied to it, so that the run is not evaluated there
@[irreducible] def coveredOps : List Op :=
  [.create, .call 0 (.mapRegion 0x2000000 0x2000 (PROT_READ ||| PROT_WRITE)
      (MAP_FIXED ||| MAP_PRIVATE) true),
    .fault 0 0x2000000 true true .none, .call 0 (.split 1 0x2001000 true),
    .call 0 (.unmap 0x2001000 0x1000)]

theorem present_pages_in_regions_split :
    guarded (step smallEnv) (fun m op => op.keepsPages m) (.boot smallFrames) coveredOps = true ∧
    Safe AnyFault (run smallEnv (.boot smallFrames) coveredOps) fun m => ∀ i, i < m.nspaces →
      ∃ l, WellFormed (m.space i) l ∧ ∀ pg, (m.tables i).reached .pt pg = true →
        ∃ p ∈ l, Touches ((m.space i).region p) pg := by
  have hrun : guarded (step smallEnv) (fun m op => op.keepsPages m) (.boot smallFrames)
      coveredOps = true := by
    decide +kernel
  exact ⟨hrun, present_pages_in_regions smallEnv smallFrames coveredOps hrun⟩

def truncatedOps : List Op :=
  [.create, .call 0 (.mapRegion 0x2000000 0x2000 (PROT_READ ||| PROT_WRITE)
      (MAP_FIXED ||| MAP_PRIVATE) true),
    .fault 0 0x2000000 true true .none, .call 0 (.unmap 0x2000000 0x1000)]

/-- The page is still present, and in no region. -/
theorem unmapped_page_stays_present :
    ∃ m, run smallEnv (.boot smallFrames) truncatedOps = .ok m ∧ 0 < m.nspaces ∧
      (m.tables 0).reached .pt 0x2000 = true ∧
      ∀ l, WellFormed (m.space 0) l → ¬ ∃ p ∈ l, Touches ((m.space 0).region p) 0x2000 := by
  refine ⟨reachedBy truncatedOps, eq_ok_outcome (by decide +kernel), by decide +kernel,
    by decide +kernel, ?_⟩
  rintro l hl ⟨p, hp, a, hlo, hhi, ha⟩
  have hhead : ((reachedBy truncatedOps).space 0).head = some 0 := by decide +kernel
  have hnext : (((reachedBy truncatedOps).space 0).mem 0).next = some 1 := by decide +kernel
  have hlast : (((reachedBy truncatedOps).space 0).mem 1).next = none := by decide +kernel
  have hfirst : ((reachedBy truncatedOps).space 0).region 0 = nullRegion := by decide +kernel
  have hrest : (((reachedBy truncatedOps).space 0).region 1).start = 0x2001000 := by decide +kernel
  -- the list is that of the regions 0 and 1, and neither has a byte in the page
  have hl' := hl.head.symm.trans hhead
  have hchain := hl.chain
  rcases l with _ | ⟨x, _ | ⟨y, l⟩⟩
  · exact absurd hp List.not_mem_nil
  · cases hl'
    exact absurd (hnext.symm.trans hchain.2.1) (by simp)
  · cases hl'
    have hy : y = 1 := by simpa using (hnext.symm.trans hchain.2.1).symm
    subst hy
    have hnil : l = [] := by
      have hend := hlast.symm.trans hchain.2.2.2.1
      cases l with
      | nil => rfl
      | cons z zs => simp at hend
    subst hnil
    rcases List.mem_pair.mp hp with rfl | rfl
    · rw [hfirst] at hhi
      have hbound : nullRegion.endAddr = 0xFFFFFF := by decide
      rw [hbound] at hhi
      bv_omega
    · rw [hrest] at hlo
      bv_omega

end Arch
end XytherOS
