import XytherOS.Mm.MmapHoles

/-!
# MmapMap — `mmap_map_region` on the view of an address space

The hole that a search finds lies below the limit, so that the region made there does not wrap
around.  `mmap_map_region` maps one fresh region in; with `MAP_FIXED` it first unmaps its range.
-/

namespace XytherOS
namespace Mm
namespace Mmap

open Links Spans

variable {π : Type} {env : Env π} {s s' : State π} {v v₁ v₂ : View} {p : Nat} {r : Region}

/-! ## Mapping a region -/

/-- What a call of `mmap_map_region` that does not unmap anything does. -/
inductive MapOutcome (s : State π) (v : View) (r : Region) (x : Ret × Option Nat × State π) : Prop
  | failed (ret : x.1 ≠ .ok) (rel : Rel x.2.2 v) (account : x.2.2.toAccount = s.toAccount)
  | mapped {v₁ v₂ : View} {q : Nat} (view : v = v₁ ++ v₂) (ret : x.1 = .ok)
      (fresh : q ∉ ids v) (out : x.2.1 = some q) (rel : Rel x.2.2 (v₁ ++ (q, r) :: v₂))
      (account : x.2.2.toAccount = s.toAccount.grown r)

/-- The same, with the region at whatever address; ahead of the first region the list is one only
up to the link back that is missing. -/
inductive PlaceOutcome (env : Env π) (s : State π) (v : View) (r : Region)
    (x : Ret × Option Nat × State π) : Prop
  | failed (ret : x.1 ≠ .ok) (rel : Rel x.2.2 v) (account : x.2.2.toAccount = s.toAccount)
  | mapped {m : State π} {v₁ v₂ : View} {q : Nat} (view : v = v₁ ++ v₂) (ret : x.1 = .ok)
      (fresh : q ∉ ids v) (out : x.2.1 = some q) (near : Near x.2.2 q m)
      (memory : env.oom s.allocs = false) (same : (v₁ = [] → v₂ = []) → m = x.2.2)
      (rel : Rel m (v₁ ++ (q, r) :: v₂))
      (account : x.2.2.toAccount = s.toAccount.grown r)

section MapRegion

variable {addr len : BitVec 64} {prot flags : BitVec 32}

theorem newRegion_bounds (prot flags : BitVec 32) (h : Within addr len) (hlen : len ≠ 0) :
    (newRegion addr len prot flags).start ≤ (newRegion addr len prot flags).endAddr ∧
      (newRegion addr len prot flags).endAddr ≤ mmapLimit := by
  simp only [newRegion, mmapLimit, Within] at h ⊢
  bv_omega

theorem Rel.mapAt_place (h : Rel s v) (hfixed : has flags MAP_FIXED = false)
    (hwithin : Within addr len) (hlen : len ≠ 0) :
    Safe NoFault (mapAt env s addr len prot flags)
      (PlaceOutcome env s v (newRegion addr len prot flags)) := by
  rw [mapAt]
  rcases vmrAlloc_cases env s (newRegion addr len prot flags) with
    ⟨s₁, heq, hmem, halloc, hhd, htl, hacc⟩ | ⟨q, s₁, heq, ha⟩
  · rw [heq]
    exact .failed (by simp) (h.of_mem_eq hmem halloc hhd htl) hacc
  rw [heq]
  simp only [hfixed, Bool.false_eq_true, if_false]
  have h₁ := ha.rel h
  have hb := newRegion_bounds prot flags hwithin hlen
  rcases h₁.mapin_cases ha.lt (.inl (ha.region_self ▸ hb.1)) with ⟨e, hfail⟩ | ⟨v₁, v₂, rfl, hfit⟩
  · rw [hfail]
    exact .failed (by simp) (h₁.vmrFree (ha.not_mem h)) ha.account
  rw [ha.region_self] at hfit
  have hmemory : env.oom s.allocs = false := by
    rw [Bool.eq_false_iff]
    intro hoom
    rw [vmrAlloc, if_pos hoom] at heq
    exact absurd heq (by simp)
  by_cases hfirst : v₁ = [] → v₂ = []
  · rcases h₁.mapin_fits hfit hfirst (fun _ => ha.links) with ⟨s₂, hmapin, hins⟩
    rw [hmapin]
    refine .mapped rfl rfl (ha.not_mem h) rfl .same hmemory (fun _ => rfl)
      (hins.rel fun q' _ => h₁.mapped q') ?_
    rw [← ha.account]
    exact hins.account
  · obtain ⟨rfl, hv2⟩ : v₁ = [] ∧ v₂ ≠ [] := Classical.not_imp.1 hfirst
    cases v₂ with
    | nil => exact absurd rfl hv2
    | cons e v₂ =>
      rcases h₁.mapinAhead hfit with ⟨hins, hslip⟩
      have hmapin := h₁.mapin_ahead_eq hfit
      rw [hmapin]
      refine .mapped rfl rfl (ha.not_mem h) rfl (.slip hslip) hmemory
        (fun himp => absurd (himp rfl) (by simp)) (hins.rel fun q' _ => h₁.mapped q') ?_
      rw [← ha.account]
      exact hins.account

theorem Rel.mapRegion_place (h : Rel s v) (hfixed : has flags MAP_FIXED = false) (pvmr : Bool) :
    Safe NoFault (mmapMapRegion env s addr len prot flags pvmr) fun x =>
      ∃ a, PlaceOutcome env s v (newRegion a (mapLen len flags) prot flags) x ∧
        (x.1 = .ok → mmapFindHoleat s addr (mapLen len flags) (mapWhence flags) = .ok (.ok a)) := by
  rw [mmapMapRegion]
  by_cases hargs : mapArgsOk addr len prot flags pvmr = true
  swap
  · rw [if_neg hargs]
    exact ⟨0, .failed (by simp) h rfl, by simp⟩
  rw [if_pos hargs]
  simp only [mapAddr, hfixed, Bool.false_eq_true, if_false]
  have hwithin := h.findHoleat_within addr (mapLen len flags) (mapWhence flags)
  cases hfind : mmapFindHoleat s addr (mapLen len flags) (mapWhence flags) with
  | error e => exact absurd (hfind ▸ hwithin : Safe NoFault (.error e) _) id
  | ok res =>
    cases res with
    | error e => exact ⟨0, .failed (by simp) h rfl, by simp⟩
    | ok a =>
      have hw : Within a (mapLen len flags) := hwithin.of_eq_ok hfind a rfl
      have hne : mapLen len flags ≠ 0 := by
        intro hzero
        simp [mmapFindHoleat, hzero] at hfind
      rw [ok_bind]
      refine (h.mapAt_place hfixed hw hne).mono ?_
      exact fun x hx => ⟨a, hx, fun _ => rfl⟩

theorem Rel.mapRegion_safe (h : Rel s v) (hfixed : has flags MAP_FIXED = false) (pvmr : Bool)
    (hhead : ∀ a e v', v = e :: v' →
      mmapFindHoleat s addr (mapLen len flags) (mapWhence flags) = .ok (.ok a) →
        ¬ a < e.2.start) :
    Safe NoFault (mmapMapRegion env s addr len prot flags pvmr) fun x =>
      ∃ a, MapOutcome s v (newRegion a (mapLen len flags) prot flags) x ∧
        (x.1 = .ok → mmapFindHoleat s addr (mapLen len flags) (mapWhence flags) = .ok (.ok a)) := by
  refine (h.mapRegion_place hfixed pvmr).mono ?_
  rintro x ⟨a, hout, hfind⟩
  refine ⟨a, ?_, hfind⟩
  cases hout with
  | failed ret rel account => exact .failed ret rel account
  | @mapped m v₁ v₂ q view ret fresh out near memory same rel account =>
    have hm : m = x.2.2 := by
      refine same ?_
      rintro rfl
      cases v₂ with
      | nil => rfl
      | cons e v₂ =>
        have hlt := rel.around.2.2 e (by simp)
        have hle := rel.around.1
        refine absurd ?_ (hhead a e v₂ view (hfind ret))
        simp only [newRegion] at hlt hle ⊢
        bv_omega
    exact .mapped view ret fresh out (hm ▸ rel) account

/-! ## Mapping at a fixed address -/

/-- What is known, while the range of a fixed mapping is being unmapped, of the object `q` that
will be mapped there and of the regions on both sides of the range. -/
structure Waiting (addr len : BitVec 64) (v₀ : View) (q : Nat) (r : Region) (s : State π)
    (v : View) : Prop where
  fresh : q ∉ ids v
  alloc : q < s.allocs
  region : s.region q = r
  links : (s.mem q).next = none ∧ (s.mem q).prev = none
  below : (∃ e ∈ v₀, e.2.start < addr) → ∃ e ∈ v, e.2.start < addr
  above : ∀ e ∈ v, addr.toNat + len.toNat ≤ e.2.endAddr.toNat →
    ∃ e ∈ v₀, addr.toNat + len.toNat ≤ e.2.endAddr.toNat

theorem Waiting.replace {v₀ : View} {q : Nat} {r₀ r' : Region}
    (hw : Waiting addr len v₀ q r₀ s (v₁ ++ (p, r) :: v₂))
    (hstart : r.start < addr → r'.start < addr) (hend : r'.endAddr ≤ r.endAddr) :
    Waiting addr len v₀ q r₀ (s.setRegion p r') (v₁ ++ (p, r') :: v₂) := by
  have hqp : q ≠ p := fun heq => hw.fresh (heq ▸ by simp)
  refine ⟨by simpa using hw.fresh, hw.alloc, ?_, ?_, ?_, ?_⟩
  · rw [State.setRegion_region, if_neg hqp]
    exact hw.region
  · simpa [State.setRegion, State.modify_mem, hqp] using hw.links
  · exact fun hex => exists_replace (hw.below hex) hstart
  · exact forall_replace hw.above fun hle => hw.above (p, r) (by simp) (hle.trans hend)

theorem keptByUnmap_waiting (env : Env π) (v₀ : View) (q : Nat) (r₀ : Region) :
    KeptByUnmap env addr len (Waiting addr len v₀ q r₀) where
  remove := by
    intro s s' v₁ p r v₂ h hw hlo _ hrem
    have hqp : q ≠ p := fun heq => hw.fresh (heq ▸ by simp)
    have hlinks := hrem.links q hw.fresh
    refine ⟨?_, hrem.allocs ▸ hw.alloc, (hrem.region q).trans hw.region,
      ⟨hlinks.1.trans hw.links.1, hlinks.2.trans hw.links.2⟩, ?_, ?_⟩
    · have hfresh := hw.fresh
      simp only [ids_append, ids_cons, List.mem_append, List.mem_cons, not_or] at hfresh ⊢
      exact ⟨hfresh.1, hfresh.2.2⟩
    · exact fun hex => exists_remove (hw.below hex) (BitVec.not_lt.2 hlo)
    · exact forall_remove hw.above
  front := by
    intro s v₁ p r v₂ h hw hlo _ _
    exact hw.replace (fun hlt => absurd hlt (BitVec.not_lt.2 hlo)) (BitVec.le_refl _)
  last := by
    intro s v₁ p r v₂ h hw hlt hend
    refine hw.replace id ?_
    simp only [Region.withBounds]
    bv_omega

theorem KeptByUnmap.and {start len : BitVec 64} {M N : State π → View → Prop}
    (hM : KeptByUnmap env start len M) (hN : KeptByUnmap env start len N) :
    KeptByUnmap env start len fun s v => M s v ∧ N s v where
  remove := fun h hm hlo hhi hrem =>
    ⟨hM.remove h hm.1 hlo hhi hrem, hN.remove h hm.2 hlo hhi hrem⟩
  front := fun h hm hlo hmid hhi => ⟨hM.front h hm.1 hlo hmid hhi, hN.front h hm.2 hlo hmid hhi⟩
  last := fun h hm hlt hend => ⟨hM.last h hm.1 hlt hend, hN.last h hm.2 hlt hend⟩

/-- What `mmap_map_region` with `MAP_FIXED` does: nothing, or it unmaps its range, which keeps
`M`, and maps the new region in there. -/
inductive FixedOutcome (s : State π) (v : View) (r : Region) (M : State π → View → Prop)
    (x : Ret × Option Nat × State π) : Prop
  | failed (ret : x.1 ≠ .ok) (rel : Rel x.2.2 v) (account : x.2.2.toAccount = s.toAccount)
  | mapped {s₂ : State π} {w₁ w₂ : View} {q : Nat} (ret : x.1 = .ok) (fresh : q ∉ ids v)
      (out : x.2.1 = some q) (rel₂ : Rel s₂ (w₁ ++ w₂)) (kept : M s₂ (w₁ ++ w₂))
      (inserted : Inserted s₂ x.2.2 q r w₁ w₂) (rel : Rel x.2.2 (w₁ ++ (q, r) :: w₂))

theorem Rel.mapFixed_safe {M : State π → View → Prop} (h : Rel s v)
    (hfixed : has flags MAP_FIXED = true) (pvmr : Bool)
    (hwrap : validAddr (addr + mapLen len flags - 1) = true →
      addr.toNat + (mapLen len flags).toNat ≤ 2 ^ 64)
    (hhead : validAddr (addr + mapLen len flags - 1) = true →
      (∃ e ∈ v, e.2.start < addr) ∨ ∀ e ∈ v, e.2.endAddr ≤ addr + mapLen len flags - 1)
    (hM : KeptByUnmap env addr (mapLen len flags) M)
    (hm : ∀ s₁ q, Allocated s s₁ q (newRegion addr (mapLen len flags) prot flags) → M s₁ v) :
    Safe (OpFault env) (mmapMapRegion env s addr len prot flags pvmr)
      (FixedOutcome s v (newRegion addr (mapLen len flags) prot flags) M) := by
  rw [mmapMapRegion]
  by_cases hargs : mapArgsOk addr len prot flags pvmr = true
  swap
  · rw [if_neg hargs]
    exact .failed (by simp) h rfl
  rw [if_pos hargs]
  simp only [mapAddr, if_pos hfixed, pure_eq_ok, ok_bind]
  generalize hL : mapLen len flags = L at *
  rw [mapAt]
  rcases vmrAlloc_cases env s (newRegion addr L prot flags) with
    ⟨s₁, heq, hmem, halloc, hhd, htl, hacc⟩ | ⟨q, s₁, heq, ha⟩
  · rw [heq]
    exact .failed (by simp) (h.of_mem_eq hmem halloc hhd htl) hacc
  rw [heq]
  simp only [if_pos hfixed]
  have h₁ := ha.rel h
  have hsize : (newRegion addr L prot flags).size = L := by
    simp only [newRegion, Region.size]
    bv_omega
  have hwait : Waiting addr L v q (newRegion addr L prot flags) s₁ v :=
    ⟨ha.not_mem h, ha.lt, ha.region_self, ha.links, id, fun e he hle => ⟨e, he, hle⟩⟩
  rw [mmapForcedMapin, ha.region_self, hsize, show (newRegion addr L prot flags).start = addr
    from rfl, bind_assoc]
  refine (h₁.unmap_safe (hM.and (keptByUnmap_waiting env v q (newRegion addr L prot flags)))
    ⟨hm s₁ q ha, hwait⟩).bind ?_
  rintro ⟨ret, s₂⟩ (⟨hret, hs2, -⟩ | ⟨hret, hL, hvalid, v', h₂, ⟨hm2, hw2⟩, hclear⟩)
  · -- the range is not accepted
    cases ret with
    | ok => exact absurd rfl hret
    | err e =>
      cases hs2
      exact .failed (by simp) (h₁.vmrFree (ha.not_mem h)) ha.account
  cases hret
  simp only
  -- the range has been cleared, and the new region fits
  have hlim : addr + L - 1 ≤ mmapLimit := by simpa [validAddr] using hvalid
  have hwrap' := hwrap hvalid
  have hle : addr ≤ addr + L - 1 := by
    simp only [mmapLimit] at hlim
    bv_omega
  have hmiss : ∀ e ∈ v', hi e < addr.toNat ∨ (addr + L - 1).toNat < lo e := by
    intro e he
    simp only [hi, lo]
    rcases hclear e he with hlt | hlt
    · exact .inl hlt
    · exact .inr (by bv_omega)
  rcases h₂.ascending.cut hle hmiss with ⟨w₁, w₂, rfl, hbelow, habove⟩
  have hfit : Fits s₂ q (newRegion addr L prot flags) w₁ w₂ :=
    ⟨hw2.fresh, hw2.alloc, hw2.region, hle, hlim, hbelow, habove⟩
  have hfirst : w₁ = [] → w₂ = [] := by
    rintro rfl
    cases w₂ with
    | nil => rfl
    | cons e w₂ =>
      exfalso
      have hlt : addr + L - 1 < e.2.start := habove e (by simp)
      have hbe := (h₂.bounds (e := e) (by simp)).1
      rcases hhead hvalid with hex | hall
      · rcases hw2.below hex with ⟨e', he', hlt'⟩
        have hle' : e.2.start ≤ e'.2.start := h₂.ascending.head_le he'
        bv_omega
      · rcases hw2.above e (by simp) (by bv_omega) with ⟨e', he', hle'⟩
        have hend := hall e' he'
        bv_omega
  rcases h₂.mapin_fits hfit hfirst (fun _ => hw2.links) with ⟨s3, hmapin, hins⟩
  rw [hmapin]
  exact .mapped rfl (ha.not_mem h) rfl h₂ hm2 hins (hins.rel fun q' _ => h₂.mapped q')

end MapRegion

end Mmap
end Mm
end XytherOS
