import XytherOS.Mm.MmapRun

/-!
# MmapAccount — `refs` and `used_space` of an address space

`mmap_mapin` counts every region it links in and adds its size to `used_space`; `mmap_remove` only
takes the region off the count.  Nothing else ever stores to `used_space`, so that a region that is
removed, cut short, grown or split leaves it wrong, and as long as no call does any of these the
two counters agree with the list.
-/

namespace XytherOS
namespace Mm
namespace Mmap

open Links Spans

variable {π : Type} {env : Env π} {s s' : State π} {v v₁ v₂ : View} {p : Nat} {r : Region}

/-! ## The counters of a view -/

def used (v : View) : BitVec 64 := (v.map fun e => e.2.size).sum

@[simp] theorem used_insert (v₁ v₂ : View) (e : Nat × Region) :
    used (v₁ ++ e :: v₂) = used (v₁ ++ v₂) + e.2.size := by
  simp only [used, List.map_append, List.map_cons, List.sum_append, List.sum_cons]
  ac_rfl

structure Accounted (s : State π) (v : View) : Prop where
  refs : s.refs = v.length
  usedSpace : s.usedSpace = used v

theorem Accounted.congr (h : Accounted s v) (hacc : s'.toAccount = s.toAccount) :
    Accounted s' v := by
  have hrefs : s'.refs = s.refs := congrArg Account.refs hacc
  have hused : s'.usedSpace = s.usedSpace := congrArg Account.usedSpace hacc
  exact ⟨hrefs.trans h.refs, hused.trans h.usedSpace⟩

theorem Accounted.grown (h : Accounted s (v₁ ++ v₂))
    (hacc : s'.toAccount = s.toAccount.grown r) : Accounted s' (v₁ ++ (p, r) :: v₂) := by
  have hrefs : s'.refs = s.refs + 1 := congrArg Account.refs hacc
  have hused : s'.usedSpace = s.usedSpace + r.size := congrArg Account.usedSpace hacc
  refine ⟨?_, ?_⟩
  · rw [hrefs, h.refs]
    simp only [List.length_append, List.length_cons]
    omega
  · rw [hused, h.usedSpace, used_insert]

/-! ## The sizes add up without overflow -/

theorem sum_sizes_le {l : View} {a : Nat} (h : Ascending lo hi l) (ha : a ≤ 2 ^ 47)
    (hlo : ∀ e ∈ l, a ≤ lo e) (hhi : ∀ e ∈ l, hi e < 2 ^ 47) :
    (l.map fun e => hi e + 1 - lo e).sum + a ≤ 2 ^ 47 := by
  induction l generalizing a with
  | nil => simpa using ha
  | cons e l ih =>
    rcases ascending_cons.1 h with ⟨hle, hl, hlt⟩
    have hlo' := hlo e (by simp)
    have hhi' := hhi e (by simp)
    have hrest := ih (a := hi e + 1) hl (by omega) (fun e' he' => hlt e' he')
      fun e' he' => hhi e' (by simp [he'])
    simp only [List.map_cons, List.sum_cons]
    omega

theorem Listed.used_toNat (h : Listed s v) :
    (used v).toNat = (v.map fun e => e.2.size.toNat).sum := by
  have hhi : ∀ e ∈ v, hi e < 2 ^ 47 := by
    intro e he
    have hlim := h.limit e he
    simp only [mmapLimit] at hlim
    simp only [hi]
    bv_omega
  have hsize : ∀ e ∈ v, e.2.size.toNat = hi e + 1 - lo e := by
    intro e he
    have hb := (h.bounds he).1
    have hlt := hhi e he
    simp only [hi, lo, Region.size] at hlt ⊢
    bv_omega
  have hsum : (v.map fun e => e.2.size.toNat).sum ≤ 2 ^ 47 := by
    rw [List.map_congr_left hsize]
    simpa using sum_sizes_le h.ascending (Nat.zero_le _) (fun _ _ => Nat.zero_le _) hhi
  clear hhi hsize h
  induction v with
  | nil => rfl
  | cons e v ih =>
    simp only [List.map_cons, List.sum_cons] at hsum ⊢
    have hrec := ih (by omega)
    have hcons : used (e :: v) = e.2.size + used v := rfl
    rw [hcons, BitVec.toNat_add, hrec]
    exact Nat.mod_eq_of_lt (by omega)

/-! ## Calls that keep the account -/

namespace State

/-- `mmap_unmap(start, len)` is refused or meets no region. -/
def unmapsNothing (s : State π) (start len : BitVec 64) : Bool :=
  len == 0 || !validAddr (start + len - 1) || s.everyRegion fun r =>
    r.endAddr < start || decide (start.toNat + len.toNat ≤ r.start.toNat)

/-- There is a hole for the `incr` bytes by which the region grows. -/
def hasHole (s : State π) (r : Region) (incr : BitVec 64) : Bool :=
  match mmapGetholesize s (if r.growsdown then r.start - incr else r.upperBound) with
  | .ok (.ok, hole) => incr ≤ hole
  | _ => false

/-- `mmap_vmr_expand(r, incr)` is not refused, and the region is in the list. -/
def resizes (s : State π) (p : Nat) (incr : BitVec 64) : Bool :=
  (s.mem p).mapped && incr != 0 && !(s.region p).dontexpand &&
    decide (0 ≤ ((s.region p).size.toNat : Int) + incr.toInt) &&
    (decide (incr.toInt < 0) || s.hasHole (s.region p) incr)

end State

/-- The calls that keep the counters in step with the list: none removes, resizes or splits a
region of the list, and none maps one in that ends below its start. -/
def Call.accounted (s : State π) : Call → Bool
  | .vmrAlloc _ => true
  | .mapin p => (s.mem p).mapped || s.spare p
  | .mapRegion addr len prot flags pvmr =>
    !has flags MAP_FIXED || !mapArgsOk addr len prot flags pvmr ||
      (s.unmapsNothing addr (mapLen len flags) &&
        (!validAddr (addr + mapLen len flags - 1) ||
          decide (addr.toNat + (mapLen len flags).toNat ≤ 2 ^ 64)))
  | .unmap start len => s.unmapsNothing start len
  | .remove p => !(s.mem p).mapped
  | .expand p incr => !s.resizes p incr
  | .protect addr len prot => s.everyRegion fun r => !decide (Splits r addr len prot)
  | .split p addr _ => !((s.mem p).mapped && vmrCanSplit (s.region p) addr)

/-- Every call of a run keeps the account in the state in which it is made. -/
def accountedRun (env : Env π) : State π → List Call → Bool := guarded (call env) Call.accounted

theorem Rel.unmapsNothing_cases {start len : BitVec 64} (h : Rel s v)
    (hok : s.unmapsNothing start len = true) :
    len = 0 ∨ validAddr (start + len - 1) = false ∨ Cleared start len v := by
  simp only [State.unmapsNothing, Bool.or_eq_true, beq_iff_eq, Bool.not_eq_eq_eq_not,
    Bool.not_true, h.everyRegion_iff, decide_eq_true_eq] at hok
  tauto

/-- The counters agree with the list, whose first region starts at the bottom of the address
space. -/
structure Booked (s : State π) (v : View) : Prop where
  rel : Rel s v
  accounted : Accounted s v
  bottom : ∃ e v', v = e :: v' ∧ e.2.start = 0

theorem Booked.not_belowHead (h : Booked s v) (a : BitVec 64) : s.belowHead a = false := by
  rcases h.bottom with ⟨e, v', rfl, hzero⟩
  simp [h.rel.belowHead_cons, hzero]

theorem Booked.insert {v' : View} (h : Booked s v) (hv : v = v₁ ++ v₂) (hrel : Rel s' v')
    (hv' : v' = v₁ ++ (p, r) :: v₂) (hacc : s'.toAccount = s.toAccount.grown r) :
    Booked s' v' := by
  subst hv
  subst hv'
  refine ⟨hrel, h.accounted.grown hacc, ?_⟩
  rcases h.bottom with ⟨e, w, hw, hzero⟩
  cases v₁ with
  | nil =>
    -- the new region would have to lie below the bottom
    rw [List.nil_append] at hw
    subst hw
    have hlt := hrel.around.2.2 e (by simp)
    rw [hzero] at hlt
    exact absurd hlt (by bv_omega)
  | cons e' v₁ =>
    rw [List.cons_append, List.cons.injEq] at hw
    exact ⟨e', _, rfl, hw.1 ▸ hzero⟩

theorem Booked.congr (h : Booked s v) (hrel : Rel s' v) (hacc : s'.toAccount = s.toAccount) :
    Booked s' v :=
  ⟨hrel, h.accounted.congr hacc, h.bottom⟩

theorem Booked.protect {prot : BitVec 32} {pt : π} (h : Booked s (v₁ ++ (p, r) :: v₂))
    (hrel : Rel s' (v₁ ++ (p, r.protect prot) :: v₂))
    (hacc : s'.toAccount = s.toAccount.withPt pt) :
    Booked s' (v₁ ++ (p, r.protect prot) :: v₂) := by
  have hrefs : s'.refs = s.refs := by rw [hacc]; rfl
  have hused : s'.usedSpace = s.usedSpace := by rw [hacc]; rfl
  have hsize : (r.protect prot).size = r.size := rfl
  refine ⟨hrel, ⟨?_, ?_⟩, ?_⟩
  · rw [hrefs, h.accounted.refs]
    simp
  · rw [hused, h.accounted.usedSpace, used_insert, used_insert, hsize]
  · rcases h.bottom with ⟨e, w, hw, hzero⟩
    cases v₁ with
    | nil =>
      rw [List.nil_append, List.cons.injEq] at hw
      exact ⟨(p, r.protect prot), v₂, rfl, by rw [← hw.1] at hzero; exact hzero⟩
    | cons e' v₁ =>
      rw [List.cons_append, List.cons.injEq] at hw
      exact ⟨e', _, rfl, hw.1 ▸ hzero⟩

theorem validAddr_iff {a : BitVec 64} : validAddr a = true ↔ a ≤ mmapLimit := by
  simp [validAddr]

theorem validAddr_eq_false {a : BitVec 64} : validAddr a = false ↔ mmapLimit < a := by
  simp [validAddr]

section Calls

variable {addr len : BitVec 64} {prot flags : BitVec 32} {incr : BitVec 64}

theorem Booked.mapFixed_safe (h : Booked s v) (hfixed : has flags MAP_FIXED = true) (pvmr : Bool)
    (hok : s.unmapsNothing addr (mapLen len flags) = true)
    (hwrap : validAddr (addr + mapLen len flags - 1) = true →
      addr.toNat + (mapLen len flags).toNat ≤ 2 ^ 64) :
    Safe (OpFault env) (mmapMapRegion env s addr len prot flags pvmr) fun x =>
      ∃ v', Booked x.2.2 v' := by
  have hrange := h.rel.unmapsNothing_cases hok
  have hhead : validAddr (addr + mapLen len flags - 1) = true →
      (∃ e ∈ v, e.2.start < addr) ∨ ∀ e ∈ v, e.2.endAddr ≤ addr + mapLen len flags - 1 := by
    intro hvalid
    rcases h.bottom with ⟨e, v', rfl, hzero⟩
    refine .inl ⟨e, by simp, ?_⟩
    have hb := (h.rel.bounds (e := e) (by simp)).1
    simp only [validAddr_iff, mmapLimit] at hvalid
    rcases hrange with hnull | hinvalid | hclear
    · rw [hnull] at hvalid
      bv_omega
    · simp only [validAddr_eq_false, mmapLimit] at hinvalid
      exact absurd hinvalid (BitVec.not_lt.2 hvalid)
    · have hmiss := hclear e (by simp)
      by_contra hnot
      bv_omega
  refine (h.rel.mapFixed_safe hfixed pvmr hwrap hhead
    (keptByUnmap_cleared env _ _ v s.toAccount) fun s₁ q ha _ => ⟨rfl, ha.account⟩).mono ?_
  rintro ⟨ret, out, s'⟩ hout
  cases hout with
  | failed ret rel account => exact ⟨v, h.congr rel account⟩
  | @mapped s₂ w₁ w₂ q ret fresh out rel₂ kept inserted rel =>
    have hb := rel.bounds (e := (q, newRegion addr (mapLen len flags) prot flags)) (by simp)
    simp only [newRegion] at hb
    have hclear : Cleared addr (mapLen len flags) v := by
      rcases hrange with hnull | hinvalid | hclear
      · rw [hnull] at hb
        simp only [mmapLimit] at hb
        exact absurd hb (by bv_omega)
      · exact absurd (validAddr_eq_false.1 hinvalid) (BitVec.not_lt.2 hb.2)
      · exact hclear
    rcases kept hclear with ⟨hv, hacc⟩
    exact ⟨_, h.insert hv.symm rel rfl (inserted.account.trans (by rw [hacc]))⟩

theorem Booked.expand_safe (h : Booked s v) (hok : s.resizes p incr = false) :
    Safe (OpFault env) (mmapVmrExpand env s p incr) fun x => Booked x.2 v := by
  refine (h.rel.expand_safe p incr).mono ?_
  rintro ⟨ret, s'⟩ hout
  simp only [State.resizes, Bool.and_eq_false_imp, Bool.and_eq_true, bne_iff_ne, ne_eq,
    Bool.not_eq_eq_eq_not, Bool.not_true, decide_eq_true_eq, Bool.or_eq_false_iff,
    decide_eq_false_iff_not] at hok
  cases hout with
  | unchanged state ret => exact h.congr (state ▸ h.rel) (by rw [state])
  | unlisted fresh rel account => exact h.congr rel account
  | @resized v₁ v₂ r view ret ne can state rel pos hole =>
    subst view
    have hmapped : (s.mem p).mapped = true := (h.rel.mapped p).2 (by simp)
    have hreg : s.region p = r := h.rel.region (p, r) (by simp)
    rw [hreg] at hok
    rcases hok ⟨⟨⟨hmapped, ne⟩, can⟩, by omega⟩ with ⟨hpos, hnone⟩
    rcases hole (by omega) with ⟨room, hroom, hle⟩
    simp [State.hasHole, hroom, hle] at hnone
  | @removed v₁ v₂ r view ret can rem zero =>
    subst view
    have hmapped : (s.mem p).mapped = true := (h.rel.mapped p).2 (by simp)
    have hreg : s.region p = r := h.rel.region (p, r) (by simp)
    have hsize := h.rel.size_eq
    have hne : ¬ incr = 0 := by
      rintro rfl
      have hb := hsize.2.2.1
      have hzero' : (0 : BitVec 64).toInt = 0 := rfl
      rw [hzero'] at zero
      bv_omega
    rw [hreg] at hok
    rcases hok ⟨⟨⟨hmapped, hne⟩, can⟩, by omega⟩ with ⟨hpos, -⟩
    exact absurd hsize.1 (by have hb := hsize.2.2.1; bv_omega)

/-- The step lemma: such a call keeps the books. -/
theorem Booked.call_safe (h : Booked s v) (c : Call) (hok : c.accounted s = true) :
    Safe (OpFault env) (call env s c) fun s' => ∃ v', Booked s' v' := by
  cases c with
  | vmrAlloc r =>
    rcases vmrAlloc_cases env s r with
      ⟨s', heq, hmem, halloc, hhd, htl, hacc⟩ | ⟨q, s', heq, ha⟩
    · simp only [call, heq]
      exact ⟨v, h.congr (h.rel.of_mem_eq hmem halloc hhd htl) hacc⟩
    · simp only [call, heq]
      exact ⟨v, h.congr (ha.rel h.rel) ha.account⟩
  | mapin p =>
    have horderly : (Call.mapin p).orderly s = true := by
      simpa [Call.orderly, Call.accounted, h.not_belowHead] using hok
    refine ((h.rel.call_mapin horderly).faults fun _ hf => hf.elim).bind ?_
    rintro ⟨ret, s'⟩ (⟨-, rfl⟩ | ⟨-, v₁, v₂, hv, hins, hrel⟩)
    · exact ⟨v, h⟩
    · exact ⟨_, h.insert hv hrel rfl hins.account⟩
  | mapRegion addr len prot flags pvmr =>
    by_cases hfixed : has flags MAP_FIXED = true
    · simp only [Call.accounted, hfixed, Bool.not_true, Bool.false_or, Bool.or_eq_true,
        Bool.and_eq_true, Bool.not_eq_eq_eq_not, decide_eq_true_eq] at hok
      rcases hok with hargs | ⟨hrange, hwrap⟩
      · simp only [call, mmapMapRegion, hargs]
        exact ⟨v, h⟩
      · refine Safe.bind (h.mapFixed_safe hfixed pvmr hrange fun hvalid => ?_) fun _ hx => hx
        rcases hwrap with hinvalid | hwrap
        · exact absurd (hvalid.symm.trans hinvalid) (by simp)
        · exact hwrap
    · -- the hole that is found cannot lie below the bottom
      have hhead : ∀ a e v', v = e :: v' →
          mmapFindHoleat s addr (mapLen len flags) (mapWhence flags) = .ok (.ok a) →
            ¬ a < e.2.start := by
        rintro a e v' rfl -
        have hbelow := h.not_belowHead a
        simpa [h.rel.belowHead_cons] using hbelow
      refine Safe.bind ((h.rel.mapRegion_safe (by simpa using hfixed) pvmr hhead).faults
        fun _ hf => hf.elim) ?_
      rintro ⟨ret, out, s'⟩ ⟨a, hout, -⟩
      cases hout with
      | failed ret rel account => exact ⟨v, h.congr rel account⟩
      | mapped view ret fresh out rel account => exact ⟨_, h.insert view rel rfl account⟩
  | unmap start len =>
    refine Safe.bind (h.rel.unmap_safe (keptByUnmap_cleared env start len v s.toAccount)
      fun _ => ⟨rfl, rfl⟩) ?_
    rintro ⟨ret, s'⟩ (⟨-, rfl, -⟩ | ⟨-, hlen, hvalid, v', hrel, hkept, -⟩)
    · exact ⟨v, h⟩
    · have hclear : Cleared start len v := by
        rcases h.rel.unmapsNothing_cases hok with hnull | hinvalid | hclear
        · exact absurd hnull hlen
        · exact absurd (hvalid.symm.trans hinvalid) (by simp)
        · exact hclear
      rcases hkept hclear with ⟨rfl, hacc⟩
      exact ⟨v', h.congr hrel hacc⟩
  | remove p =>
    have hp : p ∉ ids v := fun hmem => by
      simp [Call.accounted, (h.rel.mapped p).2 hmem] at hok
    simp only [call, h.rel.remove_not_mem hp]
    exact ⟨v, h⟩
  | expand p incr =>
    have hres : s.resizes p incr = false := by simpa [Call.accounted] using hok
    exact Safe.bind (h.expand_safe hres) fun x hx => ⟨v, hx⟩
  | protect addr len prot =>
    simp only [Call.accounted, h.rel.everyRegion_iff, Bool.not_eq_eq_eq_not, Bool.not_true,
      decide_eq_false_iff_not] at hok
    have hhead : ∀ p r v', v = (p, r) :: v' → Splits r addr len prot → r.start = addr := by
      rintro p r v' rfl hs
      exact absurd hs (hok (p, r) (by simp))
    refine Safe.bind ((h.rel.protect_safe hhead).faults fun _ => .inr) ?_
    rintro ⟨ret, s'⟩ hout
    cases hout with
    | unchanged rel account => exact ⟨v, h.congr rel account⟩
    | whole view found allowed size mprotect rel account =>
      subst view
      exact ⟨_, h.protect rel account⟩
    | @split v₁ v₂ left right p r pt view splits leftPart rightPart mprotect rel tables =>
      subst view
      exact absurd splits (hok (p, r) (by simp))
  | split p addr pvmr =>
    refine Safe.bind (h.rel.split_safe p addr pvmr) ?_
    rintro ⟨ret, out, s'⟩ hout
    cases hout with
    | failed ret rel account => exact ⟨v, h.congr rel account⟩
    | @split v₁ v₂ r q view can ret fresh rel account =>
      subst view
      have hmapped : (s.mem p).mapped = true := (h.rel.mapped p).2 (by simp)
      have hreg : s.region p = r := h.rel.region (p, r) (by simp)
      simp [Call.accounted, hmapped, hreg, can] at hok

end Calls

theorem mmapInit_booked {pt : π} (h : mmapInit env pt = .ok (.ok, s)) : ∃ v, Booked s v := by
  rcases mmapInit_rel h with ⟨q, hrel, hacc⟩
  have hempty : Accounted (mmapClean pt) ([] ++ []) := ⟨rfl, rfl⟩
  have hbooked : Accounted s ([] ++ [(q, nullRegion)]) := hempty.grown hacc
  exact ⟨_, hrel, hbooked, _, _, rfl, rfl⟩

/-- As long as no call removes, resizes or splits a region, `refs` is the number of regions and
`used_space` the sum of their sizes. -/
theorem counters_match_regions {π : Type} (env : Env π) (pt : π) (s₀ : State π)
    (cs : List Call) (hinit : mmapInit env pt = .ok (.ok, s₀))
    (hrun : accountedRun env s₀ cs = true) :
    Safe (OpFault env) (run env s₀ cs) fun s => ∃ l, WellFormed s l ∧
      s.refs = l.length ∧ s.usedSpace.toNat = (l.map fun p => (s.region p).size.toNat).sum := by
  rcases mmapInit_booked hinit with ⟨v₀, h₀⟩
  have hstep : ∀ s c, (∃ v, Booked s v) → Call.accounted s c = true →
      Safe (OpFault env) (call env s c) fun s' => ∃ v, Booked s' v :=
    fun s c ⟨v, h⟩ hok => h.call_safe c hok
  refine (Safe.runs hstep ⟨v₀, h₀⟩ hrun).mono ?_
  rintro s ⟨v, h⟩
  refine ⟨ids v, h.rel.wellFormed, ?_, ?_⟩
  · rw [h.accounted.refs, ids, List.length_map]
  · rw [h.accounted.usedSpace, h.rel.used_toNat, ids, List.map_map]
    congr 1
    refine List.map_congr_left fun e he => ?_
    rw [Function.comp_apply, h.rel.region e he]

theorem counters_match_regions_calls :
    let cs := [Call.mapRegion 0 0x4000 3 MAP_PRIVATE true,
      .mapRegion 0x2000000 0x3000 1 (MAP_FIXED ||| MAP_PRIVATE) false,
      .protect 0x2000000 0x3000 2, .unmap 0x3000000 0x1000, .expand 1 0x1000000]
    accountedRun Env.plain bootState cs = true ∧ (run Env.plain bootState cs).isOk = true ∧
      Safe (OpFault Env.plain) (run Env.plain bootState cs) fun s => ∃ l, WellFormed s l ∧
        s.refs = l.length ∧
        s.usedSpace.toNat = (l.map fun p => (s.region p).size.toNat).sum := by
  intro cs
  have hrun : accountedRun Env.plain bootState cs = true := by decide +kernel
  refine ⟨hrun, by decide +kernel, ?_⟩
  exact counters_match_regions Env.plain () bootState cs rfl hrun

/-- The boot address space after `mmap_remove` of its only region. -/
def emptiedState : State Unit :=
  match run Env.plain bootState [.remove 0] with
  | .ok s => s
  | .error _ => bootState

/-- `mmap_remove` leaves the size of the removed region in `used_space`. -/
theorem remove_keeps_used_space :
    mmapInit Env.plain () = .ok (.ok, bootState) ∧
    run Env.plain bootState [.remove 0] = .ok emptiedState ∧
    WellFormed emptiedState [] ∧
    ¬ ∃ l, WellFormed emptiedState l ∧ emptiedState.refs = l.length ∧
      emptiedState.usedSpace.toNat =
        (l.map fun p => (emptiedState.region p).size.toNat).sum := by
  have hhead : emptiedState.head = none := by decide +kernel
  have htail : emptiedState.tail = none := by decide +kernel
  refine ⟨rfl, rfl, ⟨hhead, htail, trivial, by simp, by simp [hhead], by simp [htail], by simp,
    by simp⟩, ?_⟩
  rintro ⟨l, hl, -, hused⟩
  have hnil : l = [] := by
    cases l with
    | nil => rfl
    | cons p l => exact absurd (hl.head.symm.trans hhead) (by simp)
  have huse : emptiedState.usedSpace = 0x1000000 := by decide +kernel
  rw [hnil, huse] at hused
  exact absurd hused (by decide)

end Mmap
end Mm
end XytherOS
