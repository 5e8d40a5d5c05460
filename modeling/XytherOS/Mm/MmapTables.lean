import XytherOS.Mm.MmapRefine

/-!
# MmapTables — how the region interface uses the page tables

The functions of `mmap.c` reach the page tables in two places only: `mmap_remove` unmaps the pages
of a region, and `mmap_protect` changes the permissions of one range.  What `arch_unmap_n` keeps is
therefore kept by every call, whatever the list of regions looks like, and for `mmap_protect` it is
enough to look at that range.
-/

namespace XytherOS
namespace Mm
namespace Mmap

variable {π : Type} {env : Env π} {s s' : State π} {R : π → π → Prop}

/-! ## Mapping in -/

/-- The page tables and the contents of the regions are those of `s`. -/
structure SameContents (s s' : State π) : Prop where
  pt : s'.pt = s.pt
  region : ∀ p, s'.region p = s.region p

namespace SameContents

theorem refl (s : State π) : SameContents s s := ⟨rfl, fun _ => rfl⟩

theorem trans {s'' : State π} (h : SameContents s s') (h' : SameContents s' s'') :
    SameContents s s'' :=
  ⟨h'.pt.trans h.pt, fun p => (h'.region p).trans (h.region p)⟩

end SameContents

theorem mapinInsert_contents (s : State π) (r : Nat) :
    Safe AnyFault (mapinInsert s r) (SameContents s) := by
  rw [mapinInsert]
  by_cases hhead : s.head = none
  · rw [if_pos hhead]
    refine ⟨rfl, fun p => ?_⟩
    rw [mapinFirst, adopt_region]
    exact addRefs_region s r 2 p
  · rw [if_neg hhead]
    refine Safe.bind (P := fun _ => True) (Safe.any fun _ _ => trivial) ?_
    rintro (_ | node) _
    · refine ⟨rfl, fun p => ?_⟩
      rw [mapinLast, adopt_region]
      refine (addRefs_region (s.withMem _) r 2 p).trans ?_
      simp [State.withMem, State.region]
    · simp only [mapinBefore]
      cases (s.mem node).prev with
      | some prev =>
        refine ⟨rfl, fun p => ?_⟩
        rw [adopt_region]
        refine (addRefs_region (s.withMem _) r 2 p).trans ?_
        simp [State.withMem, State.region]
      | none =>
        refine ⟨rfl, fun p => ?_⟩
        rw [adopt_region]
        refine (addRefs_region (s.withMem _) r 2 p).trans ?_
        simp [State.withMem, State.region]

theorem mmapMapin_contents (s : State π) (r : Nat) :
    Safe AnyFault (mmapMapin s r) fun x => SameContents s x.2 := by
  rw [mmapMapin]
  refine Safe.bind (P := fun _ => True) (Safe.any fun _ _ => trivial) ?_
  intro listed _
  by_cases hlisted : listed = true
  · rw [if_pos hlisted]
    exact .refl s
  · rw [if_neg hlisted]
    by_cases hbad : (s.region r).size = 0 ∨ mmapLimit < (s.region r).endAddr
    · rw [if_pos hbad]
      exact .refl s
    · rw [if_neg hbad]
      refine Safe.bind (P := fun _ => True) (Safe.any fun _ _ => trivial) ?_
      rintro (_ | e) _
      · refine (mapinInsert_contents s r).bind ?_
        exact fun s' hs' => hs'
      · exact .refl s

/-! ## Calls that only unmap -/

/-- `R` relates page tables before and after any number of calls of `arch_unmap_n`. -/
structure UnmapRule (env : Env π) (R : π → π → Prop) : Prop where
  refl : ∀ pt, R pt pt
  trans : ∀ {pt pt' pt''}, R pt pt' → R pt' pt'' → R pt pt''
  unmapN : ∀ pt va sz, Safe AnyFault (env.unmapN pt va sz) (R pt)

theorem unlinkHead_pt (s : State π) (r : Nat) : (unlinkHead s r).pt = s.pt := by
  rw [unlinkHead]
  by_cases hhead : s.head = some r
  · rw [if_pos hhead]
    cases (s.mem r).next with
    | none => rfl
    | some h =>
      simp only
      split <;> rfl
  · rw [if_neg hhead]

theorem unlinkTail_pt (s : State π) (r : Nat) : (unlinkTail s r).pt = s.pt := by
  rw [unlinkTail]
  by_cases htail : s.tail = some r
  · rw [if_pos htail]
    cases (s.mem r).prev with
    | none => rfl
    | some t =>
      simp only
      split <;> rfl
  · rw [if_neg htail]

theorem unlinkVmr_pt (s : State π) (r : Nat) : (unlinkVmr s r).pt = s.pt := by
  calc (unlinkVmr s r).pt = (unlinkTail (unlinkHead (unlinkNeighbours s r) r) r).pt :=
        forget_pt _ r
    _ = s.pt := by
        rw [unlinkTail_pt, unlinkHead_pt]
        rfl

theorem vmrAlloc_pt (env : Env π) (s : State π) (r : Region) : (vmrAlloc env s r).2.pt = s.pt := by
  rw [vmrAlloc]
  by_cases hoom : env.oom s.allocs = true
  · rw [if_pos hoom]
  · rw [if_neg hoom]

namespace UnmapRule

variable (h : UnmapRule env R)
include h

theorem of_eq (heq : s'.pt = s.pt) : R s.pt s'.pt := by
  rw [heq]
  exact h.refl _

theorem remove (s : State π) (r : Nat) :
    Safe AnyFault (mmapRemove env s r) fun x => R s.pt x.2.pt := by
  rw [mmapRemove]
  refine Safe.bind (P := fun _ => True) (Safe.any fun _ _ => trivial) ?_
  intro listed _
  by_cases hlisted : listed = true
  · rw [if_pos hlisted]
    refine (h.unmapN (unlinkVmr s r).pt _ _).bind ?_
    intro pt hR
    rw [unlinkVmr_pt] at hR
    exact hR
  · rw [if_neg hlisted]
    exact h.refl _

theorem split (s : State π) (r : Nat) (addr : BitVec 64) (pvmr : Bool) :
    Safe AnyFault (vmrSplit env s r addr pvmr) fun x => R s.pt x.2.2.pt := by
  rw [vmrSplit]
  by_cases hcan : vmrCanSplit (s.region r) addr = true
  · rw [if_pos hcan]
    cases pvmr with
    | false => exact trivial
    | true =>
      rw [if_pos rfl]
      have hpt := vmrAlloc_pt env s (splitRegion (s.region r) addr)
      generalize vmrAlloc env s (splitRegion (s.region r) addr) = res at hpt ⊢
      rcases res with ⟨new | new, s₁⟩
      · exact h.of_eq hpt
      · simp only
        generalize hs2 : s₁.setRegion r ((s₁.region r).withBounds (s₁.region r).start (addr - 1)) = s₂
        have hpt2 : s₂.pt = s.pt := by
          rw [← hs2]
          exact hpt
        by_cases hmapped : (s₂.mem r).mapped = true
        · rw [if_pos hmapped]
          refine (mmapMapin_contents s₂ new).bind ?_
          rintro ⟨ret, s3⟩ hsame
          cases ret <;> exact h.of_eq (hsame.pt.trans hpt2)
        · rw [if_neg hmapped]
          exact h.of_eq hpt2
  · rw [if_neg hcan]
    exact h.refl _

theorem unmapAt (s : State π) (vmr : Nat) (start len : BitVec 64) :
    Safe AnyFault (unmapAt env s vmr start len) fun x => R s.pt x.2.2.pt := by
  rw [Mmap.unmapAt]
  by_cases hstart : (s.region vmr).start = start
  · rw [if_pos hstart]
    by_cases hlt : len < (s.region vmr).size
    · rw [if_pos hlt]
      exact h.refl _
    · rw [if_neg hlt]
      by_cases hgt : (s.region vmr).size < len
      · rw [if_pos hgt]
        refine (h.remove s vmr).bind ?_
        exact fun x hx => hx
      · rw [if_neg hgt]
        exact h.refl _
  · rw [if_neg hstart]
    by_cases hend : (s.region vmr).endAddr = start
    · rw [if_pos hend]
      exact h.refl _
    · rw [if_neg hend]
      refine (h.split s vmr start false).bind ?_
      exact fun x hx => hx

theorem unmapStep (s : State π) (start len : BitVec 64) :
    Safe AnyFault (unmapStep env s start len) fun x => ∀ y, x = some y → R s.pt y.2.2.pt := by
  rw [Mmap.unmapStep]
  refine Safe.bind (P := fun _ => True) (Safe.any fun _ _ => trivial) ?_
  rintro (_ | vmr) _
  · refine Safe.bind (P := fun _ => True) (Safe.any fun _ _ => trivial) ?_
    rintro (_ | vmr) _
    · refine Safe.bind (P := fun _ => True) (Safe.any fun _ _ => trivial) ?_
      rintro ⟨ret, holesz⟩ _
      by_cases hzero : holesz = 0
      · simp only [if_pos hzero]
        exact fun y hy => absurd hy (by simp)
      · simp only [if_neg hzero]
        rintro y hy
        cases hy
        exact h.refl _
    · refine (h.unmapAt s vmr start len).bind ?_
      rintro x hx y hy
      cases hy
      exact hx
  · refine (h.remove s vmr).bind ?_
    rintro x hx y hy
    cases hy
    exact hx

theorem unmapLoop (n : Nat) (s : State π) (start len : BitVec 64) :
    Safe AnyFault (unmapLoop env n s start len) fun s' => R s.pt s'.pt := by
  induction n generalizing s start len with
  | zero => exact trivial
  | succ n ih =>
    rw [Mmap.unmapLoop]
    by_cases hlen : len = 0
    · rw [if_pos hlen]
      exact h.refl _
    · rw [if_neg hlen]
      refine (h.unmapStep s start len).bind ?_
      rintro (_ | ⟨start', len', s₁⟩) hstep
      · exact h.refl _
      · refine (ih s₁ start' len').mono ?_
        intro s' hs'
        exact h.trans (hstep _ rfl) hs'

theorem unmap (s : State π) (start len : BitVec 64) :
    Safe AnyFault (mmapUnmap env s start len) fun x => R s.pt x.2.pt := by
  rw [mmapUnmap]
  by_cases hlen : len = 0
  · rw [if_pos hlen]
    exact h.refl _
  · rw [if_neg hlen]
    by_cases hvalid : (!validAddr (start + len - 1)) = true
    · rw [if_pos hvalid]
      exact h.refl _
    · rw [if_neg hvalid]
      refine (h.unmapLoop _ s start len).bind ?_
      exact fun s' hs' => hs'

theorem forcedMapin (s : State π) (r : Nat) :
    Safe AnyFault (mmapForcedMapin env s r) fun x => R s.pt x.2.pt := by
  rw [mmapForcedMapin]
  refine (h.unmap s _ _).bind ?_
  rintro ⟨ret, s₁⟩ hunmap
  cases ret with
  | err e => exact hunmap
  | ok =>
    refine (mmapMapin_contents s₁ r).mono ?_
    intro x hx
    exact h.trans hunmap (h.of_eq hx.pt)

theorem mapAt (s : State π) (addr len : BitVec 64) (prot flags : BitVec 32) :
    Safe AnyFault (mapAt env s addr len prot flags) fun x => R s.pt x.2.2.pt := by
  rw [Mmap.mapAt]
  have hpt := vmrAlloc_pt env s (newRegion addr len prot flags)
  generalize vmrAlloc env s (newRegion addr len prot flags) = res at hpt ⊢
  rcases res with ⟨r | r, s₁⟩
  · exact h.of_eq hpt
  · have hpt1 : R s.pt s₁.pt := h.of_eq hpt
    simp only
    by_cases hfixed : has flags MAP_FIXED = true
    · rw [if_pos hfixed]
      refine (h.forcedMapin s₁ r).bind ?_
      rintro ⟨ret, s₂⟩ hx
      cases ret <;> exact h.trans hpt1 hx
    · rw [if_neg hfixed]
      refine (mmapMapin_contents s₁ r).bind ?_
      rintro ⟨ret, s₂⟩ hx
      cases ret <;> exact h.trans hpt1 (h.of_eq hx.pt)

theorem mapRegion (s : State π) (addr len : BitVec 64) (prot flags : BitVec 32) (pvmr : Bool) :
    Safe AnyFault (mmapMapRegion env s addr len prot flags pvmr) fun x => R s.pt x.2.2.pt := by
  rw [mmapMapRegion]
  by_cases hargs : mapArgsOk addr len prot flags pvmr = true
  · rw [if_pos hargs]
    refine Safe.bind (P := fun _ => True) (Safe.any fun _ _ => trivial) ?_
    rintro (e | addr') _
    · exact h.refl _
    · exact h.mapAt s addr' _ prot flags
  · rw [if_neg hargs]
    exact h.refl _

theorem expand (s : State π) (r : Nat) (incr : BitVec 64) :
    Safe AnyFault (mmapVmrExpand env s r incr) fun x => R s.pt x.2.pt := by
  have hshrink : ∀ (newsz : BitVec 64) (v : Region), Safe AnyFault
      (if newsz.slt 0 then (.ok (.err .EINVAL, s) : Except Fault (Ret × State π))
        else if newsz = 0 then mmapRemove env s r
        else .ok (.ok, s.setRegion r v)) fun x => R s.pt x.2.pt := by
    intro newsz v
    by_cases hneg : newsz.slt 0 = true
    · rw [if_pos hneg]
      exact h.refl _
    · rw [if_neg hneg]
      by_cases hzero : newsz = 0
      · rw [if_pos hzero]
        exact h.remove s r
      · rw [if_neg hzero]
        exact h.refl _
  have hgrow : ∀ (holesz : BitVec 64) (v : Region), Safe AnyFault
      (if incr ≤ holesz then (.ok (.ok, s.setRegion r v) : Except Fault (Ret × State π))
        else .ok (.err .ENOMEM, s)) fun x => R s.pt x.2.pt := by
    intro holesz v
    by_cases hfits : incr ≤ holesz
    · rw [if_pos hfits]
      exact h.refl _
    · rw [if_neg hfits]
      exact h.refl _
  rw [mmapVmrExpand]
  by_cases hincr : incr = 0
  · rw [if_pos hincr]
    exact h.refl _
  · rw [if_neg hincr]
    by_cases hdont : (s.region r).dontexpand = true
    · rw [if_pos hdont]
      exact h.refl _
    · rw [if_neg hdont]
      by_cases hdown : (s.region r).growsdown = true
      · rw [if_pos hdown, expandDown]
        split
        · refine Safe.bind (P := fun _ => True) (Safe.any fun _ _ => trivial) ?_
          rintro ⟨ret | e, holesz⟩ _
          · exact hgrow holesz _
          · exact h.refl _
        · exact hshrink _ _
      · rw [if_neg hdown, expandUp]
        split
        · refine Safe.bind (P := fun _ => True) (Safe.any fun _ _ => trivial) ?_
          rintro ⟨ret | e, holesz⟩ _
          · exact hgrow holesz _
          · exact h.refl _
        · exact hshrink _ _

end UnmapRule

/-! ## `mmap_protect` -/

/-- The range whose pages `mmap_protect` changes when it finds the region `v`. -/
def protectRange (v : Region) (addr len : BitVec 64) : BitVec 64 × BitVec 64 :=
  if len < v.size then (addr, len) else (v.start, v.size)

/-- `mmap_protect(addr, len, prot)` gets past its checks when it finds the region `v`. -/
def protectAllowed (v : Region) (addr len : BitVec 64) (prot : BitVec 32) : Bool :=
  len != 0 && isAligned addr && isAligned len && validAddr addr && !v.growsdown &&
    regionProt v.flags != prot && !protDenied (regionProt v.flags) prot

section Protect

variable {r : Nat} {addr len : BitVec 64} {prot : BitVec 32}

theorem protectApply_pt {start size : BitVec 64} {pt : π} (hpt : s.pt = pt)
    (hstart : (s.region r).start = start) (hsize : (s.region r).size = size)
    (hprot : Safe AnyFault (env.mprotect pt start size (pteFlags (protFlags prot)))
      fun x => R pt x.2) :
    Safe AnyFault (protectApply env s r prot) fun x => R pt x.2.pt := by
  rw [protectApply]
  have hargs : env.mprotect (s.setRegion r ((s.region r).withFlags (protFlags prot)
      (pteFlags (protFlags prot)))).pt ((s.region r).withFlags (protFlags prot)
      (pteFlags (protFlags prot))).start ((s.region r).withFlags (protFlags prot)
      (pteFlags (protFlags prot))).size ((s.region r).withFlags (protFlags prot)
      (pteFlags (protFlags prot))).vflags =
      env.mprotect pt start size (pteFlags (protFlags prot)) := by
    rw [← hpt, ← hstart, ← hsize]
    rfl
  simp only [hargs]
  exact hprot.bind fun x hx => hx

theorem protectFront_pt {split0 : Nat} (h : UnmapRule env R)
    (hstart : (s.region r).start = addr)
    (hprot : Safe AnyFault (env.mprotect s.pt addr len (pteFlags (protFlags prot)))
      fun x => R s.pt x.2) :
    Safe AnyFault (protectFront env s r split0 (addr + len - 1) prot) fun x => R s.pt x.2.pt := by
  rw [protectFront]
  refine (mmapMapin_contents _ split0).bind ?_
  rintro ⟨ret, s₁⟩ hsame
  cases ret with
  | err e => exact h.of_eq hsame.pt
  | ok =>
    refine protectApply_pt hsame.pt ?_ ?_ hprot
    · rw [hsame.region, State.setRegion_region_self]
      exact hstart
    · rw [hsame.region, State.setRegion_region_self]
      simp only [Region.size, Region.withBounds, hstart]
      bv_omega

theorem protectBack_pt {split0 : Nat} (h : UnmapRule env R)
    (hend : (s.region r).endAddr = addr + len - 1)
    (hprot : Safe AnyFault (env.mprotect s.pt addr len (pteFlags (protFlags prot)))
      fun x => R s.pt x.2) :
    Safe AnyFault (protectBack env s r split0 addr prot) fun x => R s.pt x.2.pt := by
  rw [protectBack]
  refine (mmapMapin_contents _ split0).bind ?_
  rintro ⟨ret, s₁⟩ hsame
  cases ret with
  | err e => exact h.of_eq hsame.pt
  | ok =>
    refine protectApply_pt hsame.pt ?_ ?_ hprot
    · rw [hsame.region, State.setRegion_region_self]
      rfl
    · rw [hsame.region, State.setRegion_region_self]
      simp only [Region.size, Region.withBounds, hend]
      bv_omega

theorem protectMiddle_pt {split0 split1 : Nat} (h : UnmapRule env R)
    (hprot : Safe AnyFault (env.mprotect s.pt addr len (pteFlags (protFlags prot)))
      fun x => R s.pt x.2) :
    Safe AnyFault (protectMiddle env s r split0 split1 addr (addr + len - 1) prot) fun x =>
      R s.pt x.2.pt := by
  rw [protectMiddle]
  refine (mmapMapin_contents _ split0).bind ?_
  rintro ⟨ret, s₁⟩ hsame
  cases ret with
  | err e => exact h.of_eq hsame.pt
  | ok =>
    refine (mmapMapin_contents s₁ split1).bind ?_
    rintro ⟨ret, s₂⟩ hsame2
    have hboth := hsame.trans hsame2
    cases ret with
    | err e =>
      refine (h.remove _ split0).bind ?_
      intro x hx
      exact h.trans (h.of_eq hboth.pt) hx
    | ok =>
      refine protectApply_pt hboth.pt ?_ ?_ hprot
      · rw [hboth.region, State.setRegion_region_self]
        rfl
      · rw [hboth.region, State.setRegion_region_self]
        simp only [Region.size, Region.withBounds]
        bv_omega

theorem protectPart_pt (h : UnmapRule env R)
    (hprot : Safe AnyFault (env.mprotect s.pt addr len (pteFlags (protFlags prot)))
      fun x => R s.pt x.2) :
    Safe AnyFault (protectPart env s r addr (addr + len - 1) prot) fun x => R s.pt x.2.pt := by
  rw [protectPart]
  have hpt := vmrAlloc_pt env s Region.zero
  generalize vmrAlloc env s Region.zero = res at hpt ⊢
  rcases res with ⟨split0 | split0, s₁⟩
  · exact h.of_eq hpt
  · have hpt1 : s₁.pt = s.pt := hpt
    rw [← hpt1] at hprot ⊢
    simp only
    by_cases hstart : (s₁.region r).start = addr
    · rw [if_pos hstart]
      exact protectFront_pt h hstart hprot
    · rw [if_neg hstart]
      by_cases hend : (s₁.region r).endAddr = addr + len - 1
      · rw [if_pos hend]
        exact protectBack_pt h hend hprot
      · rw [if_neg hend]
        have hpt' := vmrAlloc_pt env s₁ Region.zero
        generalize vmrAlloc env s₁ Region.zero = res at hpt' ⊢
        rcases res with ⟨split1 | split1, s₂⟩
        · exact h.of_eq hpt'
        · have hpt2 : s₂.pt = s₁.pt := hpt'
          rw [← hpt2] at hprot ⊢
          exact protectMiddle_pt h hprot

theorem mmapProtect_pt (h : UnmapRule env R)
    (hprot : ∀ r, mmapFindVmrOverlap s addr (addr + len - 1) = .ok (some r) →
      protectAllowed (s.region r) addr len prot = true →
      Safe AnyFault (env.mprotect s.pt (protectRange (s.region r) addr len).1
        (protectRange (s.region r) addr len).2 (pteFlags (protFlags prot))) fun x => R s.pt x.2) :
    Safe AnyFault (mmapProtect env s addr len prot) fun x => R s.pt x.2.pt := by
  rw [mmapProtect]
  by_cases hargs : len = 0 ∨ (!isAligned addr) = true ∨ (!isAligned len) = true
  · rw [if_pos hargs]
    exact h.refl _
  · rw [if_neg hargs]
    by_cases hvalid : (!validAddr addr) = true
    · rw [if_pos hvalid]
      exact h.refl _
    · rw [if_neg hvalid]
      refine Safe.bind (P := fun x => mmapFindVmrOverlap s addr (addr + len - 1) = .ok x)
        (Safe.any fun _ hx => hx) ?_
      rintro (_ | r) hfind
      · exact h.refl _
      · simp only
        by_cases hdown : (s.region r).growsdown = true
        · rw [if_pos hdown]
          exact h.refl _
        · rw [if_neg hdown]
          by_cases hsame : regionProt (s.region r).flags = prot
          · rw [if_pos hsame]
            exact h.refl _
          · rw [if_neg hsame]
            by_cases hdenied : protDenied (regionProt (s.region r).flags) prot = true
            · rw [if_pos hdenied]
              exact h.refl _
            · rw [if_neg hdenied]
              have hallowed : protectAllowed (s.region r) addr len prot = true := by
                simp only [not_or, Bool.not_eq_true, Bool.not_eq_false'] at hargs hvalid hdown hdenied
                simp only [protectAllowed, hargs.2.1, hargs.2.2, hvalid, hdown, hdenied,
                  Bool.and_true, Bool.not_false, Bool.and_eq_true, bne_iff_ne, ne_eq]
                exact ⟨hargs.1, hsame⟩
              have hrange := hprot r hfind hallowed
              rw [protectRange] at hrange
              by_cases hpart : len < (s.region r).size
              · rw [if_pos hpart] at hrange ⊢
                exact protectPart_pt h hrange
              · rw [if_neg hpart] at hrange ⊢
                exact protectApply_pt rfl rfl rfl hrange

end Protect

/-! ## All calls -/

theorem call_pt (h : UnmapRule env R) (c : Call)
    (hprot : ∀ addr len prot r, c = .protect addr len prot →
      mmapFindVmrOverlap s addr (addr + len - 1) = .ok (some r) →
      protectAllowed (s.region r) addr len prot = true →
      Safe AnyFault (env.mprotect s.pt (protectRange (s.region r) addr len).1
        (protectRange (s.region r) addr len).2 (pteFlags (protFlags prot))) fun x => R s.pt x.2) :
    Safe AnyFault (call env s c) fun s' => R s.pt s'.pt := by
  cases c with
  | vmrAlloc r => exact h.of_eq (vmrAlloc_pt env s r)
  | mapin r => exact (mmapMapin_contents s r).bind fun x hx => h.of_eq hx.pt
  | mapRegion addr len prot flags pvmr =>
    exact (h.mapRegion s addr len prot flags pvmr).bind fun x hx => hx
  | unmap start len => exact (h.unmap s start len).bind fun x hx => hx
  | remove r => exact (h.remove s r).bind fun x hx => hx
  | expand r incr => exact (h.expand s r incr).bind fun x hx => hx
  | protect addr len prot =>
    exact (mmapProtect_pt h fun r => hprot addr len prot r rfl).bind fun x hx => hx
  | split r addr pvmr => exact (h.split s r addr pvmr).bind fun x hx => hx

end Mmap
end Mm
end XytherOS
