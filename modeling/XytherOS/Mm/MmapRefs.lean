import XytherOS.Mm.MmapRun

/-!
# MmapRefs — the reference counts of regions

A region in the list is referenced twice: from in front of it, by its neighbour or the head pointer,
and from behind.  `mmap_mapin` counts these two references.  `mmap_remove` takes off one for every
neighbour and one more, and `vmr_free` another, so that a count of at most two comes down to zero.

Three things put the counts wrong.  A region that a removal leaves alone loses a reference, although
the head and tail pointers now both point to it; the second time this happens it has none left.
`mmap_protect` in the middle of a region resets the count of the first new region twice, and that
of the second never.  And a region that is mapped in ahead of the first one breaks the list.
-/

namespace XytherOS
namespace Mm
namespace Mmap

open Links Spans

variable {π : Type} {env : Env π} {s s' s'' : State π} {v v' v₁ v₂ : View} {p q : Nat} {r : Region}

/-! ## Mapping in -/

theorem State.setRegion_refs (s : State π) (p : Nat) (r : Region) (q : Nat) :
    ((s.setRegion p r).mem q).refs = (s.mem q).refs :=
  s.modify_field Vmr.refs p (f := (·.setRegion r)) (fun _ => rfl) q

def MapinDone (s s' : State π) (p : Nat) : Prop :=
  ∀ q, (s'.mem q).mapped = (if q = p then true else (s.mem q).mapped) ∧
    (s'.mem q).refs = (s.mem q).refs + if q = p then 2 else 0

theorem adopt_done {u : State π}
    (hu : ∀ q, (u.mem q).mapped = (s.mem q).mapped ∧
      (u.mem q).refs = (s.mem q).refs + if q = p then 2 else 0) : MapinDone s (adopt u p) p := by
  intro q
  refine ⟨?_, ?_⟩
  · rw [adopt_mapped, (hu q).1]
  · refine (State.modify_field Vmr.refs u p (f := (·.setMapped true)) (fun _ => rfl) q).trans ?_
    exact (hu q).2

theorem linked_objects (s : State π) (p : Nat) {mem : Nat → Vmr}
    (hmem : ∀ q, (mem q).mapped = (s.mem q).mapped ∧ (mem q).refs = (s.mem q).refs) (q : Nat) :
    (((s.withMem mem).modify p (·.addRefs 2)).mem q).mapped = (s.mem q).mapped ∧
      (((s.withMem mem).modify p (·.addRefs 2)).mem q).refs =
        (s.mem q).refs + if q = p then 2 else 0 := by
  refine ⟨(addRefs_mapped (s.withMem mem) p 2 q).trans (hmem q).1, ?_⟩
  rw [addRefs_refs, State.withMem, (hmem q).2]

theorem mapinFirst_done (s : State π) (p : Nat) : MapinDone s (mapinFirst s p) p :=
  adopt_done (linked_objects s p fun _ => ⟨rfl, rfl⟩)

theorem mapinLast_done (s : State π) (p : Nat) : MapinDone s (mapinLast s p) p :=
  adopt_done (linked_objects s p (by simp))

theorem mapinBefore_done (s : State π) (p node : Nat) : MapinDone s (mapinBefore s p node) p := by
  rw [mapinBefore]
  cases (s.mem node).prev with
  | none => exact adopt_done (linked_objects s p (by simp))
  | some prev => exact adopt_done (linked_objects s p (by simp))

theorem mapin_done {ret : Ret} (h : mmapMapin s p = .ok (ret, s')) :
    (ret ≠ .ok ∧ s' = s) ∨ (ret = .ok ∧ MapinDone s s' p) := by
  rw [mmapMapin] at h
  rcases bind_ok_iff.1 h with ⟨listed, -, h⟩
  split_ifs at h with hlisted hbounds
  · cases h
    exact .inl ⟨by simp, rfl⟩
  · cases h
    exact .inl ⟨by simp, rfl⟩
  rcases bind_ok_iff.1 h with ⟨ret', -, h⟩
  cases ret' with
  | err e =>
    cases h
    exact .inl ⟨by simp, rfl⟩
  | ok =>
    rcases bind_ok_iff.1 h with ⟨u, hins, hret⟩
    cases hret
    refine .inr ⟨rfl, ?_⟩
    rw [mapinInsert] at hins
    split_ifs at hins with hhead
    · cases hins
      exact mapinFirst_done s p
    · rcases bind_ok_iff.1 hins with ⟨node, -, hins⟩
      cases node with
      | none =>
        cases hins
        exact mapinLast_done s p
      | some node =>
        cases hins
        exact mapinBefore_done s p node

/-! ## Counts -/

def Counted (s : State π) (v : View) : Prop :=
  ∀ p ∈ ids v, 1 ≤ (s.mem p).refs ∧ (s.mem p).refs ≤ 2

/-- What `s'` has mapped was mapped in `s` with the same count, or is newly mapped in. -/
def Steady (s s' : State π) : Prop :=
  ∀ q, (s'.mem q).mapped = true →
    ((s.mem q).mapped = true ∧ (s'.mem q).refs = (s.mem q).refs) ∨ (s'.mem q).refs = 2

theorem Steady.refl (s : State π) : Steady s s := fun _ hq => .inl ⟨hq, rfl⟩

theorem Steady.trans (h : Steady s s') (h' : Steady s' s'') : Steady s s'' := by
  intro q hq
  rcases h' q hq with ⟨hmapped, hrefs⟩ | hnew
  · rcases h q hmapped with ⟨hold, hrefs'⟩ | hnew
    · exact .inl ⟨hold, hrefs.trans hrefs'⟩
    · exact .inr (hrefs.trans hnew)
  · exact .inr hnew

theorem Counted.steady (hc : Counted s v) (h : Rel s v) (h' : Rel s' v') (hs : Steady s s') :
    Counted s' v' := by
  intro q hq
  rcases hs q ((h'.mapped q).2 hq) with ⟨hmapped, hrefs⟩ | hnew
  · rw [hrefs]
    exact hc q ((h.mapped q).1 hmapped)
  · omega

theorem steady_of_eq (h : ∀ q, (s'.mem q).mapped = (s.mem q).mapped ∧
    (s'.mem q).refs = (s.mem q).refs) : Steady s s' :=
  fun q hq => .inl ⟨(h q).1 ▸ hq, (h q).2⟩

theorem steady_setRegion (s : State π) (p : Nat) (r : Region) : Steady s (s.setRegion p r) :=
  steady_of_eq fun q => ⟨State.setRegion_mapped s p r q,
    State.setRegion_refs s p r q⟩

theorem MapinDone.steady (h : MapinDone s s' p) (hrefs : (s.mem p).refs = 0) : Steady s s' := by
  intro q hq
  rcases h q with ⟨hm, hr⟩
  by_cases hqp : q = p
  · subst hqp
    rw [if_pos rfl, hrefs] at hr
    exact .inr hr
  · rw [if_neg hqp] at hm hr
    exact .inl ⟨hm ▸ hq, by rw [hr, add_zero]⟩

theorem Allocated.steady {r : Region} (ha : Allocated s s' q r) : Steady s s' := by
  intro x hx
  by_cases hxq : x = q
  · subst hxq
    rw [ha.not_mapped] at hx
    exact absurd hx (by simp)
  · rw [ha.mem_of_ne hxq] at hx ⊢
    exact .inl ⟨hx, rfl⟩

theorem vmrFree_steady (hp : (s.mem p).mapped = false) : Steady s (vmrFree s p) := by
  intro q hq
  rw [vmrFree, addRefs_mapped] at hq
  refine .inl ⟨hq, ?_⟩
  rw [vmrFree, addRefs_refs, if_neg, add_zero]
  rintro rfl
  rw [hp] at hq
  exact absurd hq (by simp)

theorem vmrAlloc_steady (env : Env π) (s : State π) (r : Region) :
    Steady s (vmrAlloc env s r).2 := by
  rcases vmrAlloc_cases env s r with ⟨s', heq, hmem, -⟩ | ⟨q, s', heq, ha⟩
  · rw [heq]
    exact steady_of_eq fun q => by simp [hmem]
  · rw [heq]
    exact ha.steady

/-! ## Splitting -/

theorem split_steady (env : Env π) (s : State π) (p : Nat) (addr : BitVec 64) (pvmr : Bool) :
    Safe AnyFault (vmrSplit env s p addr pvmr) fun x => Steady s x.2.2 := by
  rw [vmrSplit]
  split_ifs
  · rcases vmrAlloc_cases env s (splitRegion (s.region p) addr) with
      ⟨s₁, heq, hmem, -⟩ | ⟨q, s₁, heq, ha⟩
    · rw [heq]
      exact steady_of_eq fun q => by simp [hmem]
    rw [heq]
    simp only
    have hcut := ha.steady.trans (steady_setRegion s₁ p
      ((s₁.region p).withBounds (s₁.region p).start (addr - 1)))
    have hrefs : ((s₁.setRegion p
        ((s₁.region p).withBounds (s₁.region p).start (addr - 1))).mem q).refs = 0 := by
      rw [State.setRegion_refs]
      simp [ha.mem, Vmr.fresh]
    have hfresh : ((s₁.setRegion p
        ((s₁.region p).withBounds (s₁.region p).start (addr - 1))).mem q).mapped = false := by
      rw [State.setRegion_mapped, ha.not_mapped]
    generalize s₁.setRegion p ((s₁.region p).withBounds (s₁.region p).start (addr - 1)) = u
      at hcut hrefs hfresh ⊢
    split_ifs
    · refine Safe.any ?_
      rintro ⟨ret, out, s3⟩ hrun
      rcases bind_ok_iff.1 hrun with ⟨⟨ret', u'⟩, hmapin, hret⟩
      rcases mapin_done hmapin with ⟨hfail, rfl⟩ | ⟨rfl, hdone⟩
      · cases ret' with
        | ok => exact absurd rfl hfail
        | err e =>
          cases hret
          exact hcut.trans (vmrFree_steady hfresh)
      · cases hret
        exact hcut.trans (hdone.steady hrefs)
    · exact hcut.trans (vmrFree_steady hfresh)
  · exact trivial
  · exact Steady.refl s

/-! ## Changing permissions -/

section Protect

variable {addr len : BitVec 64} {prot : BitVec 32}

theorem protectApply_steady (env : Env π) (s : State π) (p : Nat) (prot : BitVec 32) :
    Safe AnyFault (protectApply env s p prot) fun x => Steady s x.2 := by
  rw [protectApply]
  refine Safe.any ?_
  rintro ⟨ret, s'⟩ hrun
  rcases bind_ok_iff.1 hrun with ⟨⟨err, pt⟩, -, hret⟩
  cases hret
  exact steady_setRegion s p _

theorem copied_steady {u : State π} {r₀ r1 : Region}
    (hmapin : mmapMapin ((copyVmr s q p r₀ 0).setRegion p r1) q = .ok (.ok, u)) : Steady s u := by
  rcases mapin_done hmapin with ⟨hfail, -⟩ | ⟨-, hdone⟩
  · exact absurd rfl hfail
  intro x hx
  rcases hdone x with ⟨hm, hr⟩
  rw [State.setRegion_mapped] at hm
  rw [State.setRegion_refs] at hr
  by_cases hxq : x = q
  · subst hxq
    refine .inr ?_
    rw [hr, if_pos rfl]
    simp [copyVmr, State.modify_mem]
  · rw [if_neg hxq, copyVmr_mem_of_ne _ _ _ hxq] at hm hr
    exact .inl ⟨hm ▸ hx, by rw [hr, add_zero]⟩

/-- `mmap_protect(addr, len, prot)` splits the region `r` in the middle. -/
def splitsMiddle (env : Env π) (s : State π) (addr len : BitVec 64) (prot : BitVec 32)
    (r : Region) : Bool :=
  Splits r addr len prot && r.start != addr && r.endAddr != addr + len - 1 &&
    SplitMemory env s r addr len

theorem Rel.protectPart_steady (h : Rel s (v₁ ++ (p, r) :: v₂)) (hs : Splits r addr len prot)
    (hmid : splitsMiddle env s addr len prot r = false) :
    Safe AnyFault (protectPart env s p addr (addr + len - 1) prot) fun x => Steady s x.2 := by
  rw [protectPart]
  rcases vmrAlloc_cases env s Region.zero with ⟨s₁, heq, hmem, -⟩ | ⟨q, s₁, heq, ha⟩
  · rw [heq]
    exact steady_of_eq fun q => by simp [hmem]
  have hoom : env.oom s.allocs = false := by
    rw [Bool.eq_false_iff, ne_eq, ← vmrAlloc_eq_none env s Region.zero, heq]
    exact Option.some_ne_none q
  rw [heq]
  simp only
  have h₁ := ha.rel h
  have hreg : s₁.region p = r := h₁.region (p, r) (by simp)
  rw [hreg]
  by_cases hfront : r.start = addr
  · rw [if_pos hfront]
    rcases h₁.mapin_front (ha.not_mem h) ha.lt hs hfront with ⟨u, hmapin, -⟩
    rw [protectFront, hreg, hfront, hmapin]
    refine (protectApply_steady env u p prot).mono ?_
    exact fun x hx => (ha.steady.trans (copied_steady hmapin)).trans hx
  rw [if_neg hfront]
  by_cases hback : r.endAddr = addr + len - 1
  · rw [if_pos hback]
    rcases h₁.mapin_back (ha.not_mem h) ha.lt hs hfront with ⟨u, m, hmapin, -⟩
    rw [protectBack, hreg, hback, hmapin]
    refine (protectApply_steady env u p prot).mono ?_
    exact fun x hx => (ha.steady.trans (copied_steady hmapin)).trans hx
  rw [if_neg hback]
  rcases vmrAlloc_cases env s₁ Region.zero with ⟨s₂, heq2, hmem2, -⟩ | ⟨q1, s₂, heq2, ha1⟩
  · -- there is no memory for the second new region
    rw [heq2]
    have hsteady2 : Steady s s₂ := ha.steady.trans (steady_of_eq fun q => by simp [hmem2])
    refine hsteady2.trans (vmrFree_steady ?_)
    rw [hmem2]
    exact ha.not_mapped
  · have hoom1 : env.oom s₁.allocs = false := by
      rw [Bool.eq_false_iff, ne_eq, ← vmrAlloc_eq_none env s₁ Region.zero, heq2]
      exact Option.some_ne_none q1
    rw [ha.allocs] at hoom1
    have hmemory : SplitMemory env s r addr len := ⟨hoom, fun _ _ => hoom1⟩
    have hsplits : splitsMiddle env s addr len prot r = true := by
      simp only [splitsMiddle, Bool.and_eq_true, decide_eq_true_eq, bne_iff_ne]
      exact ⟨⟨⟨hs, hfront⟩, hback⟩, hmemory⟩
    exact absurd (hmid.symm.trans hsplits) Bool.false_ne_true

theorem Rel.protect_steady (h : Rel s v)
    (hmid : s.everyRegion (fun r => !splitsMiddle env s addr len prot r) = true) :
    Safe AnyFault (mmapProtect env s addr len prot) fun x => Steady s x.2 := by
  rw [mmapProtect]
  split_ifs with hargs hvalid
  · exact Steady.refl s
  · exact Steady.refl s
  rcases h.overlap_cases addr (addr + len - 1) with
    ⟨heq, -⟩ | ⟨v₁, p, r, v₂, rfl, hlo, hhi, hend, heq⟩
  · rw [heq]
    exact Steady.refl s
  have hreg : s.region p = r := h.region (p, r) (by simp)
  rw [heq, ok_bind]
  simp only [hreg]
  split_ifs with hdir hsame hdenied hsize
  · exact Steady.refl s
  · exact Steady.refl s
  · exact Steady.refl s
  · simp only [Bool.not_eq_eq_eq_not, Bool.not_true, not_or, Bool.not_eq_false] at hargs
    have hallowed : Allowed r prot := ⟨by simpa using hdir, hsame, by simpa using hdenied⟩
    refine h.protectPart_steady ⟨hargs.1, hargs.2.1, hargs.2.2, hlo, hhi, hend, hallowed, hsize⟩ ?_
    have hr := h.everyRegion_iff.1 hmid (p, r) (by simp)
    simpa using hr
  · exact protectApply_steady env s p prot

end Protect

/-! ## Removing -/

namespace State

def staying (s : State π) (out : Nat → Bool) : List Nat :=
  (List.range s.allocs).filter fun p => (s.mem p).mapped && !out p

def takesOut (s : State π) (out : Nat → Bool) : Bool :=
  (List.range s.allocs).any fun p => (s.mem p).mapped && out p

/-- Without `out` there is a single region left, and it has lost a reference already. -/
def strands (s : State π) (out : Nat → Bool) : Bool :=
  match s.staying out with
  | [q] => s.takesOut out && (s.mem q).refs ≤ 1
  | _ => false

end State

section Stays

variable {out : Nat → Bool} {s₀ : State π} {v₀ : View}

theorem Rel.lt_allocs (h : Rel s v) (hp : p ∈ ids v) : p < s.allocs := by
  rcases exists_of_mem_ids hp with ⟨r, hr⟩
  exact h.alloc (p, r) hr

theorem Rel.mem_staying (h : Rel s v) : p ∈ s.staying out ↔ p ∈ ids v ∧ out p = false := by
  simp only [State.staying, List.mem_filter, List.mem_range, Bool.and_eq_true,
    Bool.not_eq_eq_eq_not, Bool.not_true, h.mapped p]
  exact ⟨fun hp => hp.2, fun hp => ⟨h.lt_allocs hp.1, hp⟩⟩

theorem Rel.takesOut_iff (h : Rel s v) : s.takesOut out = true ↔ ∃ p ∈ ids v, out p = true := by
  simp only [State.takesOut, List.any_eq_true, List.mem_range, Bool.and_eq_true, h.mapped]
  constructor
  · rintro ⟨p, -, hp, hout⟩
    exact ⟨p, hp, hout⟩
  · rintro ⟨p, hp, hout⟩
    exact ⟨p, h.lt_allocs hp, hp, hout⟩

/-- Where the removal of the regions `out` stands: those that stay have their counts, or the last of
them has lost a reference. -/
structure Stays (s₀ : State π) (v₀ : View) (out : Nat → Bool) (s : State π) (v : View) : Prop where
  listed : ∀ q ∈ s₀.staying out, q ∈ ids v
  length : (ids v).length ≤ (ids v₀).length
  refs : ∀ q ∈ s₀.staying out, (s.mem q).refs = (s₀.mem q).refs ∨
    (ids v = [q] ∧ 1 < (ids v₀).length ∧ (s.mem q).refs = (s₀.mem q).refs - 1)

theorem Rel.stays (h : Rel s₀ v₀) (out : Nat → Bool) : Stays s₀ v₀ out s₀ v₀ :=
  ⟨fun _ hq => (h.mem_staying.1 hq).1, le_refl _, fun _ _ => .inl rfl⟩

theorem Stays.congr (hs : Stays s₀ v₀ out s v) (hids : ids v' = ids v)
    (hrefs : ∀ q, (s'.mem q).refs = (s.mem q).refs) : Stays s₀ v₀ out s' v' := by
  refine ⟨?_, by rw [hids]; exact hs.length, ?_⟩
  · rw [hids]
    exact hs.listed
  · intro q hq
    rw [hids, hrefs]
    exact hs.refs q hq

theorem Stays.remove (hs : Stays s₀ v₀ out s (v₁ ++ (p, r) :: v₂)) (hp : p ∉ s₀.staying out)
    (hrem : Removed env s s' p r v₁ v₂) : Stays s₀ v₀ out s' (v₁ ++ v₂) := by
  have hlen : (ids (v₁ ++ (p, r) :: v₂)).length = (ids (v₁ ++ v₂)).length + 1 := by
    simp [ids]
    omega
  have hlen0 := hs.length
  refine ⟨?_, by omega, ?_⟩
  · intro q hq
    have hne : q ≠ p := fun heq => hp (heq ▸ hq)
    have hmem := hs.listed q hq
    simp only [ids_append, ids_cons, List.mem_append, List.mem_cons] at hmem ⊢
    tauto
  · intro q hq
    have hne : q ≠ p := fun heq => hp (heq ▸ hq)
    have hold : (s.mem q).refs = (s₀.mem q).refs := by
      rcases hs.refs q hq with heq | ⟨halone, -, -⟩
      · exact heq
      · -- the region that is removed is listed too
        have hmem : p ∈ ids (v₁ ++ (p, r) :: v₂) := by simp
        rw [halone, List.mem_singleton] at hmem
        exact absurd hmem.symm hne
    have hrefs := hrem.refs q hne
    by_cases halone : ids (v₁ ++ v₂) = [q]
    · rw [if_pos halone, hold] at hrefs
      refine .inr ⟨halone, ?_, hrefs⟩
      rw [halone, List.length_singleton] at hlen
      omega
    · rw [if_neg halone, hold, sub_zero] at hrefs
      exact .inl hrefs

theorem Stays.counted (hs : Stays s₀ v₀ out s v) (h0 : Rel s₀ v₀) (hc : Counted s₀ v₀)
    (hall : ∀ q ∈ ids v, q ∈ s₀.staying out) (hok : s₀.strands out = false) : Counted s v := by
  intro q hq
  have hstay := hall q hq
  have hb := hc q (h0.mem_staying.1 hstay).1
  rcases hs.refs q hstay with heq | ⟨halone, hlen, heq⟩
  · rw [heq]
    exact hb
  · -- `q` is the only region that stays, and there was another one
    have hsingle : s₀.staying out = [q] := by
      have hnd : (s₀.staying out).Nodup := List.nodup_range.filter _
      have hsub : ∀ x ∈ s₀.staying out, x = q := by
        intro x hx
        have hmem := hs.listed x hx
        rw [halone, List.mem_singleton] at hmem
        exact hmem
      have hle := (List.subperm_of_subset hnd
        (fun x hx => List.mem_singleton.2 (hsub x hx))).length_le
      rw [List.length_singleton] at hle
      generalize s₀.staying out = l at hstay hsub hle
      match l, hstay, hle with
      | [x], hstay, _ => rw [List.mem_singleton.1 hstay]
    have htakes : s₀.takesOut out = true := by
      rw [h0.takesOut_iff]
      by_contra hnone
      simp only [not_exists, not_and, Bool.not_eq_true] at hnone
      have hsub : ∀ x ∈ ids v₀, x ∈ [q] := by
        intro x hx
        rw [← hsingle]
        exact h0.mem_staying.2 ⟨hx, hnone x hx⟩
      have hle := (List.subperm_of_subset h0.nodup hsub).length_le
      rw [List.length_singleton] at hle
      omega
    simp only [State.strands, hsingle, htakes, Bool.true_and, decide_eq_false_iff_not] at hok
    omega

end Stays

theorem Counted.remove (hc : Counted s v) (h : Rel s v) (p : Nat)
    (hok : s.strands (fun q => q == p) = false) :
    Safe env.Fault (mmapRemove env s p) fun x => ∃ v', Rel x.2 v' ∧ Counted x.2 v' := by
  by_cases hp : p ∈ ids v
  · rcases h.mem_of_mapped ((h.mapped p).2 hp) with ⟨v₁, v₂, rfl⟩
    refine h.remove_safe.mono ?_
    rintro x ⟨-, hrem⟩
    have hstay : p ∉ s.staying fun q => q == p := fun hmem => by
      simpa using (h.mem_staying.1 hmem).2
    refine ⟨_, hrem.rel h, ((h.stays _).remove hstay hrem).counted h hc ?_ hok⟩
    intro q hq
    refine h.mem_staying.2 ⟨?_, ?_⟩
    · simp only [ids_append, ids_cons, List.mem_append, List.mem_cons] at hq ⊢
      tauto
    · rw [beq_eq_false_iff_ne]
      rintro rfl
      have hnot := h.not_mem_of_split
      rw [ids_append, List.mem_append] at hq
      tauto
  · rw [h.remove_not_mem hp]
    exact ⟨v, h, hc⟩

/-- The region lies in the range of `mmap_unmap(start, len)`. -/
def Region.within (r : Region) (start len : BitVec 64) : Bool :=
  start ≤ r.start && r.endAddr.toNat < start.toNat + len.toNat

theorem Region.within_iff {start len : BitVec 64} : r.within start len = true ↔
    start ≤ r.start ∧ r.endAddr.toNat < start.toNat + len.toNat := by
  simp [Region.within]

section Unmap

variable {start len : BitVec 64} {s₀ : State π} {v₀ : View}

theorem keptByUnmap_stays (env : Env π) (start len : BitVec 64) (s₀ : State π) (v₀ : View)
    (out : Nat → Bool) :
    KeptByUnmap env start len fun s v => Stays s₀ v₀ out s v ∧
      ∀ e ∈ v, e.1 ∈ s₀.staying out ↔ e.2.within start len = false where
  remove := by
    intro s s' v₁ p r v₂ h hm hlo hhi hrem
    have hin : r.within start len = true := Region.within_iff.2 ⟨hlo, hhi⟩
    have hp : p ∉ s₀.staying out := by
      intro hmem
      have hout := (hm.2 (p, r) (by simp)).1 hmem
      exact absurd (hin.symm.trans hout) (by simp)
    exact ⟨hm.1.remove hp hrem, forall_remove hm.2⟩
  front := by
    intro s v₁ p r v₂ h hm hlo hmid hhi
    refine ⟨hm.1.congr (by simp) (State.setRegion_refs s p _), ?_⟩
    refine forall_replace hm.2 ?_
    -- it reached beyond the range, and still does
    rw [hm.2 (p, r) (by simp), ← Bool.not_eq_true, ← Bool.not_eq_true, Region.within_iff,
      Region.within_iff]
    simp only [Region.withBounds]
    exact iff_of_true (by omega) (by omega)
  last := by
    intro s v₁ p r v₂ h hm hlt hend
    refine ⟨hm.1.congr (by simp) (State.setRegion_refs s p _), ?_⟩
    refine forall_replace hm.2 ?_
    -- it started in front of the range, and still does
    rw [hm.2 (p, r) (by simp), ← Bool.not_eq_true, ← Bool.not_eq_true, Region.within_iff,
      Region.within_iff]
    simp only [Region.withBounds]
    have hnot : ¬ start ≤ r.start := BitVec.not_le.2 hlt
    exact iff_of_true (fun hin => hnot hin.1) fun hin => hnot hin.1

theorem Counted.unmap (hc : Counted s v) (h : Rel s v)
    (hok : s.strands (fun q => (s.region q).within start len) = false) :
    Safe (OpFault env) (mmapUnmap env s start len) fun x => ∃ v', Rel x.2 v' ∧ Counted x.2 v' := by
  have hstart : ∀ e ∈ v, e.1 ∈ s.staying (fun q => (s.region q).within start len) ↔
      e.2.within start len = false := by
    intro e he
    rw [h.mem_staying, h.region e he]
    exact and_iff_right (mem_ids_of_mem he)
  refine (h.unmap_safe (keptByUnmap_stays env start len s v _) ⟨h.stays _, hstart⟩).mono ?_
  rintro ⟨ret, s'⟩ (⟨-, rfl, -⟩ | ⟨-, -, -, v', h', ⟨hstays, hwithin⟩, hclear⟩)
  · exact ⟨v, h, hc⟩
  · refine ⟨v', h', hstays.counted h hc ?_ hok⟩
    intro q hq
    rcases exists_of_mem_ids hq with ⟨r, hr⟩
    refine (hwithin (q, r) hr).2 ?_
    -- nothing is left in the range
    have hb := (h'.bounds hr).1
    have hmiss := hclear (q, r) hr
    rw [← Bool.not_eq_true, Region.within_iff]
    simp only at hb hmiss
    rintro ⟨hlo, hhi⟩
    rcases hmiss with hbelow | habove
    · exact absurd hbelow (by bv_omega)
    · bv_omega

end Unmap

/-- Every region in the list is referenced, and `mmap_remove` frees it. -/
structure RefsKept (env : Env π) (s : State π) : Prop where
  positive : ∀ p, mmapContains s p = .ok true → 0 < (s.mem p).refs
  freed : ∀ p ret s', mmapContains s p = .ok true → mmapRemove env s p = .ok (ret, s') →
    (s'.mem p).refs ≤ 0

theorem Counted.refsKept (hc : Counted s v) (h : Rel s v) : RefsKept env s := by
  have hmem : ∀ p, mmapContains s p = .ok true → p ∈ ids v := by
    intro p hp
    rw [h.contains_eq, Except.ok.injEq] at hp
    exact of_decide_eq_true hp
  refine ⟨fun p hp => (hc p (hmem p hp)).1, ?_⟩
  intro p ret s' hp hrem
  have hb := (hc p (hmem p hp)).2
  rcases h.mem_of_mapped ((h.mapped p).2 (hmem p hp)) with ⟨v₁, v₂, rfl⟩
  have hremoved : Safe env.Fault (mmapRemove env s p) _ := h.remove_safe
  have hfreed := (hremoved.of_eq_ok hrem).2.freed
  simp only at hfreed
  split_ifs at hfreed <;> omega

/-- The calls of which the counts survive: none maps in an object that is still referenced, splits a
region in the middle by `mmap_protect`, or leaves a region alone that was alone before. -/
def Call.sparesRefs (env : Env π) (s : State π) : Call → Bool
  | .vmrAlloc _ => true
  | .mapin p => (s.mem p).mapped || (s.mem p).refs == 0
  | .remove p => !s.strands fun q => q == p
  | .unmap start len => !s.strands fun q => (s.region q).within start len
  | .protect addr len prot => s.everyRegion fun r => !splitsMiddle env s addr len prot r
  | .split _ _ _ => true
  | .mapRegion _ _ _ _ _ => false
  | .expand _ _ => false

def Call.keepsRefs (env : Env π) (s : State π) (c : Call) : Bool :=
  c.orderly s && c.sparesRefs env s

/-- The step lemma. -/
theorem Counted.call_safe (hc : Counted s v) (h : Rel s v) (c : Call)
    (hok : c.keepsRefs env s = true) :
    Safe (OpFault env) (call env s c) fun s' => ∃ v', Rel s' v' ∧ Counted s' v' := by
  rw [Call.keepsRefs, Bool.and_eq_true] at hok
  rcases hok with ⟨horderly, hok⟩
  have hsafe : Safe (OpFault env) (call env s c) _ := h.call_safe c horderly
  -- a call that is steady keeps the counts
  have hsteady : Safe AnyFault (call env s c) (Steady s) →
      Safe (OpFault env) (call env s c) fun s' => ∃ v', Rel s' v' ∧ Counted s' v' := by
    intro hst
    refine (hsafe.and hst).mono ?_
    rintro s' ⟨⟨v', h'⟩, hs'⟩
    exact ⟨v', h', hc.steady h h' hs'⟩
  cases c with
  | vmrAlloc r => exact hsteady (vmrAlloc_steady env s r)
  | mapin p =>
    refine hsteady (Safe.any ?_)
    intro s' hrun
    rcases bind_ok_iff.1 hrun with ⟨⟨ret, u⟩, hmapin, hret⟩
    cases hret
    rcases mapin_done hmapin with ⟨-, rfl⟩ | ⟨hret, hdone⟩
    · exact Steady.refl _
    · simp only [Call.sparesRefs, Bool.or_eq_true, beq_iff_eq] at hok
      rcases hok with hmapped | hrefs
      · -- an object that is listed is refused
        have hmem : p ∈ ids v := (h.mapped p).1 hmapped
        rw [mmapMapin, h.contains_eq, ok_bind, if_pos (by simpa using hmem), hret] at hmapin
        cases hmapin
      · exact hdone.steady hrefs
  | mapRegion addr len prot flags pvmr => exact absurd hok Bool.false_ne_true
  | unmap start len =>
    refine Safe.bind (hc.unmap h (by simpa [Call.sparesRefs] using hok)) ?_
    exact fun x hx => hx
  | remove p =>
    refine Safe.bind ((hc.remove h p (by simpa [Call.sparesRefs] using hok)).faults fun _ => .inr) ?_
    exact fun x hx => hx
  | expand p incr => exact absurd hok Bool.false_ne_true
  | protect addr len prot =>
    exact hsteady (Safe.bind (h.protect_steady hok) fun x hx => hx)
  | split p addr pvmr =>
    exact hsteady (Safe.bind (split_steady env s p addr pvmr) fun x hx => hx)

theorem mmapInit_counted {pt : π} (h : mmapInit env pt = .ok (.ok, s)) :
    ∃ v, Rel s v ∧ Counted s v := by
  rcases mmapInit_rel h with ⟨q, hrel, -⟩
  have hclean := rel_mmapClean pt
  have hsteady : Steady (mmapClean pt) s := by
    rcases bind_ok_iff.1 h with ⟨⟨ret, out, s'⟩, hmap, heq⟩
    cases heq
    rw [mmapMapRegion, if_pos (by decide)] at hmap
    rcases bind_ok_iff.1 hmap with ⟨addr, haddr, hmap⟩
    rw [mapAddr, if_pos (by decide)] at haddr
    cases haddr
    simp only [mapAt] at hmap
    rcases vmrAlloc_cases env (mmapClean pt) (newRegion 0 (mapLen 0x1000000
      (MAP_FIXED ||| MAP_PRIVATE ||| MAP_DONTEXPAND)) 0
      (MAP_FIXED ||| MAP_PRIVATE ||| MAP_DONTEXPAND)) with ⟨s₁, heq, -⟩ | ⟨p, s₁, heq, ha⟩
    · rw [heq] at hmap
      cases hmap
    rw [heq] at hmap
    rcases bind_ok_iff.1 hmap with ⟨⟨ret, s₂⟩, hforced, hret⟩
    cases ret with
    | err e => cases hret
    | ok =>
      cases hret
      rcases bind_ok_iff.1 hforced with ⟨⟨ret, s3⟩, hunmap, hmapin⟩
      -- there is nothing to unmap
      have hkept : KeptByUnmap env (s₁.region p).start (s₁.region p).size
          fun u v => v = [] ∧ u.mem = s₁.mem :=
        ⟨fun _ hm => absurd hm.1 (by simp), fun _ hm => absurd hm.1 (by simp),
          fun _ hm => absurd hm.1 (by simp)⟩
      have hmem : s3.mem = s₁.mem := by
        rcases ((ha.rel hclean).unmap_safe hkept ⟨rfl, rfl⟩).of_eq_ok hunmap with
          ⟨-, rfl, -⟩ | ⟨-, -, -, v', -, ⟨-, hm⟩, -⟩
        · rfl
        · exact hm
      have hsame : Steady s₁ s3 := steady_of_eq fun q => by simp [hmem]
      cases ret with
      | err e => cases hmapin
      | ok =>
        rcases mapin_done hmapin with ⟨hfail, -⟩ | ⟨-, hdone⟩
        · exact absurd rfl hfail
        · refine (ha.steady.trans hsame).trans (hdone.steady ?_)
          simp [hmem, ha.mem, Vmr.fresh]
  refine ⟨_, hrel, ?_⟩
  intro p hp
  rcases hsteady p ((hrel.mapped p).2 hp) with ⟨hmapped, -⟩ | hnew
  · simp [mmapClean, Vmr.fresh] at hmapped
  · omega

/-- In every state that such calls lead to, every region in the list is referenced, and
`mmap_remove` frees the region that it is called on. -/
theorem region_refs_kept {π : Type} {env : Env π} {pt : π} {s₀ : State π} {cs : List Call}
    (hinit : mmapInit env pt = .ok (.ok, s₀))
    (hrun : guarded (call env) (Call.keepsRefs env) s₀ cs = true) :
    Safe (OpFault env) (run env s₀ cs) (RefsKept env) := by
  rcases mmapInit_counted hinit with ⟨v, h, hc⟩
  have hstep : ∀ s c, (∃ v, Rel s v ∧ Counted s v) → c.keepsRefs env s = true →
      Safe (OpFault env) (call env s c) fun s' => ∃ v', Rel s' v' ∧ Counted s' v' := by
    rintro s c ⟨v, h, hc⟩ hok
    exact hc.call_safe h c hok
  refine (Safe.runs hstep ⟨v, h, hc⟩ hrun).mono ?_
  rintro s ⟨v, h, hc⟩
  exact hc.refsKept h

def threePages (start : BitVec 64) : Region :=
  newRegion start 0x3000 (PROT_READ ||| PROT_WRITE) MAP_PRIVATE

theorem region_refs_kept_calls :
    let cs := [Call.vmrAlloc (threePages 0x1000000), .mapin 1, .vmrAlloc (threePages 0x2000000),
      .mapin 2, .protect 0x1000000 0x1000 PROT_READ, .split 2 0x2001000 true,
      .unmap 0x1001000 0x1001000, .remove 1]
    guarded (call Env.plain) (Call.keepsRefs Env.plain) bootState cs = true ∧
    (run Env.plain bootState cs).isOk = true ∧
    Safe (OpFault Env.plain) (run Env.plain bootState cs) (RefsKept Env.plain) := by
  intro cs
  have hinit : mmapInit Env.plain () = .ok (.ok, bootState) := rfl
  have hrun : guarded (call Env.plain) (Call.keepsRefs Env.plain) bootState cs = true := by
    decide +kernel
  exact ⟨hrun, by decide +kernel, region_refs_kept hinit hrun⟩

def aloneTwice : State Unit :=
  match run Env.plain bootState [.vmrAlloc (threePages 0x1000000), .mapin 1, .remove 1,
    .vmrAlloc (threePages 0x1000000), .mapin 2, .remove 2] with
  | .ok s => s
  | .error _ => bootState

def middleProtected : State Unit :=
  match run Env.plain bootState [.vmrAlloc (threePages 0x1000000), .mapin 1,
    .protect 0x1001000 0x1000 PROT_READ] with
  | .ok s => s
  | .error _ => bootState

def middleRemoved : State Unit :=
  match mmapRemove Env.plain middleProtected 3 with
  | .ok (_, s) => s
  | .error _ => middleProtected

/-- Both ways to go wrong: a listed region without a reference, and a removed region that keeps
one. -/
theorem region_refs_lost :
    mmapInit Env.plain () = .ok (.ok, bootState) ∧
    run Env.plain bootState [.vmrAlloc (threePages 0x1000000), .mapin 1, .remove 1,
      .vmrAlloc (threePages 0x1000000), .mapin 2, .remove 2] = .ok aloneTwice ∧
    (mmapContains aloneTwice 0).toOption = some true ∧ (aloneTwice.mem 0).refs = 0 ∧
    ¬ RefsKept Env.plain aloneTwice ∧
    run Env.plain bootState [.vmrAlloc (threePages 0x1000000), .mapin 1,
      .protect 0x1001000 0x1000 PROT_READ] = .ok middleProtected ∧
    ¬ RefsKept Env.plain middleProtected := by
  have hlisted : mmapContains aloneTwice 0 = .ok true := rfl
  have hnone : (aloneTwice.mem 0).refs = 0 := by decide +kernel
  refine ⟨rfl, rfl, by decide +kernel, hnone, ?_, rfl, ?_⟩
  · intro h
    have hpos := h.positive 0 hlisted
    omega
  · intro h
    have hlast : mmapContains middleProtected 3 = .ok true := rfl
    have hleft : (middleRemoved.mem 3).refs = 1 := by decide +kernel
    have hfreed := h.freed 3 .ok middleRemoved hlast rfl
    omega

end Mmap
end Mm
end XytherOS
