import XytherOS.Mm.MmapRefine

/-!
# MmapOps — what each operation does to the view of an address space

One specification per function of `mm/mmap.c`.  The loop of `mmap_unmap` is summed up in an
induction rule: whatever is kept by removing a region inside the range, by cutting off the front
of a region at the end of the range and by taking the last byte off a region is kept by the whole
call.
-/

namespace XytherOS
namespace Mm
namespace Mmap

open Links Spans

variable {π : Type} {env : Env π} {s s' : State π} {v v₁ v₂ : View} {p : Nat} {r : Region}

/-! ## Keeping the back pointers -/

theorem Rel.mem_of_mapped (h : Rel s v) (hp : (s.mem p).mapped = true) :
    ∃ v₁ v₂, v = v₁ ++ (p, s.region p) :: v₂ := by
  rcases exists_of_mem_ids ((h.mapped p).1 hp) with ⟨r, hr⟩
  have hreg : s.region p = r := h.region (p, r) hr
  rcases List.append_of_mem hr with ⟨v₁, v₂, rfl⟩
  exact ⟨v₁, v₂, by rw [hreg]⟩

theorem Rel.setRegion {r' : Region} (h : Rel s (v₁ ++ (p, r) :: v₂))
    (hle : r'.start ≤ r'.endAddr) (hlim : r'.endAddr ≤ mmapLimit)
    (h₁ : ∀ e ∈ v₁, e.2.endAddr < r'.start) (h₂ : ∀ e ∈ v₂, r'.endAddr < e.2.start) :
    Rel (s.setRegion p r') (v₁ ++ (p, r') :: v₂) where
  toListed := h.toListed.setRegion hle hlim h₁ h₂
  mapped := by
    intro q
    rw [State.setRegion_mapped, h.mapped q]
    simp

theorem Inserted.rel (hins : Inserted s s' p r v₁ v₂)
    (hmap : ∀ q, q ≠ p → ((s.mem q).mapped = true ↔ q ∈ ids (v₁ ++ v₂))) :
    Rel s' (v₁ ++ (p, r) :: v₂) where
  toListed := hins.listed
  mapped := by
    intro q
    rw [hins.mapped q]
    by_cases hq : q = p
    · simp [hq]
    · rw [if_neg hq, hmap q hq]
      simp [hq]

theorem Inserted.pt_eq (hins : Inserted s s' p r v₁ v₂) : s'.pt = s.pt := by
  have hpt := congrArg Account.pt hins.account
  exact hpt

theorem Removed.rel (h : Rel s (v₁ ++ (p, r) :: v₂)) (hrem : Removed env s s' p r v₁ v₂) :
    Rel s' (v₁ ++ v₂) where
  toListed := hrem.listed
  mapped := by
    intro q
    rw [hrem.mapped q]
    by_cases hq : q = p
    · have hp := h.not_mem_of_split
      subst hq
      simp [hp]
    · rw [if_neg hq, h.mapped q]
      simp [hq]

theorem Rel.modify_not_mem (h : Rel s v) (hp : p ∉ ids v) {f : Vmr → Vmr}
    (hf : (f (s.mem p)).mapped = false) : Rel (s.modify p f) v where
  toListed := by
    refine h.toListed.congr rfl rfl (le_of_eq rfl) ?_
    intro q hq
    have hne : q ≠ p := fun heq => hp (heq ▸ hq)
    simp [nexts, prevs, State.region, State.modify_mem, hne]
  mapped := by
    intro q
    rw [State.modify_mem, ← h.mapped q]
    by_cases hq : q = p
    · subst hq
      have hmap : ¬ (s.mem q).mapped = true := fun htrue => hp ((h.mapped q).1 htrue)
      simp [hf, hmap]
    · simp [hq]

theorem Rel.not_mapped (h : Rel s v) (hp : p ∉ ids v) : (s.mem p).mapped = false := by
  rw [Bool.eq_false_iff]
  exact fun htrue => hp ((h.mapped p).1 htrue)

theorem Rel.vmrFree (h : Rel s v) (hp : p ∉ ids v) : Rel (vmrFree s p) v :=
  h.modify_not_mem hp (f := (·.addRefs (-1))) (h.not_mapped hp)

/-! ## Unmapping a range -/

/-- The faults of the address space code: those of the architecture, and the null pointer that
`mmap_unmap` hands to `vmr_split`. -/
def OpFault (env : Env π) (e : Fault) : Prop := e = .nullDeref ∨ env.Fault e

/-- What is kept by each of the three edits that `mmap_unmap(start, len)` makes. -/
structure KeptByUnmap (env : Env π) (start len : BitVec 64) (M : State π → View → Prop) :
    Prop where
  remove : ∀ {s s' v₁ p r v₂}, Rel s (v₁ ++ (p, r) :: v₂) → M s (v₁ ++ (p, r) :: v₂) →
    start ≤ r.start → r.endAddr.toNat < start.toNat + len.toNat →
    Removed env s s' p r v₁ v₂ → M s' (v₁ ++ v₂)
  front : ∀ {s v₁ p r v₂}, Rel s (v₁ ++ (p, r) :: v₂) → M s (v₁ ++ (p, r) :: v₂) →
    start ≤ r.start → r.start.toNat < start.toNat + len.toNat →
    start.toNat + len.toNat ≤ r.endAddr.toNat →
    M (s.setRegion p (r.withBounds (start + len) r.endAddr))
      (v₁ ++ (p, r.withBounds (start + len) r.endAddr) :: v₂)
  last : ∀ {s v₁ p r v₂}, Rel s (v₁ ++ (p, r) :: v₂) → M s (v₁ ++ (p, r) :: v₂) →
    r.start < start → r.endAddr = start →
    M (s.setRegion p (r.withBounds r.start (r.endAddr - 1)))
      (v₁ ++ (p, r.withBounds r.start (r.endAddr - 1)) :: v₂)

/-- Where the loop of `mmap_unmap(start, len)` stands: it is at `cur` with `rem` bytes to go, has
passed the regions `v₁` and has the regions `v₂` before it.  Only at the beginning can it stand
inside a region. -/
structure Standing (start len cur rem : BitVec 64) (v₁ v₂ : View) : Prop where
  total : cur.toNat + rem.toNat = start.toNat + len.toNat
  le : start ≤ cur
  passed : ∀ e ∈ v₁, e.2.endAddr < start
  ahead : ∀ e ∈ v₂, cur ≤ e.2.endAddr
  aligned : cur = start ∨ ∀ e ∈ v₂, cur ≤ e.2.start

def Cleared (start len : BitVec 64) (v : View) : Prop :=
  ∀ e ∈ v, e.2.endAddr < start ∨ start.toNat + len.toNat ≤ e.2.start.toNat

/-- The faults that `mmap_unmap(start, len)` can run into: those of unmapping pages, and the null
pointer that it passes on strictly inside a region of `v`. -/
structure UnmapFaults (env : Env π) (start : BitVec 64) (F : Fault → Prop)
    (M : State π → View → Prop) (v : View) : Prop where
  unmapN : ∀ {s v₁ p r v₂}, Rel s (v₁ ++ (p, r) :: v₂) → M s (v₁ ++ (p, r) :: v₂) →
    Safe F (env.unmapN s.pt r.start r.size) fun _ => True
  inside : ∀ e ∈ v, vmrCanSplit e.2 start = true → F .nullDeref

theorem UnmapFaults.opFault (env : Env π) (start : BitVec 64) (M : State π → View → Prop)
    (v : View) : UnmapFaults env start (OpFault env) M v where
  unmapN := fun _ _ => (env.unmapN_safe _ _ _).faults fun _ => .inr
  inside := fun _ _ _ => .inl rfl

theorem UnmapFaults.tail {F : Fault → Prop} {M : State π → View → Prop} {start : BitVec 64}
    {e : Nat × Region} (h : UnmapFaults env start F M (e :: v)) : UnmapFaults env start F M v where
  unmapN := h.unmapN
  inside := fun e' he' => h.inside e' (by simp [he'])

def Unmapped (start len : BitVec 64) (M : State π → View → Prop) (s : State π) : Prop :=
  ∃ v, Rel s v ∧ M s v ∧ Cleared start len v

section UnmapLoop

variable {start len cur rem : BitVec 64} {M : State π → View → Prop} {n : Nat}
  {F : Fault → Prop}

theorem Standing.gap (hst : Standing start len cur rem v₁ v₂) (hcur : ∀ e ∈ v₂, cur < e.2.start) :
    Gap lo hi cur.toNat v₁ v₂ := by
  refine ⟨?_, hcur⟩
  intro e he
  exact lt_of_lt_of_le (hst.passed e he) hst.le

theorem unmapStep_exact (h : Rel s (v₁ ++ (p, r) :: v₂)) (hcur : cur = r.start)
    (hend : cur + rem - 1 = r.endAddr)
    (hunmap : Safe F (env.unmapN s.pt r.start r.size) fun _ => True) :
    Safe F (unmapStep env s cur rem) fun x => ∃ s', Removed env s s' p r v₁ v₂ ∧
      x = some (cur + (r.endAddr - cur), rem - (r.endAddr - cur), s') := by
  have hb := h.around
  have hfind : mmapFind s cur = .ok (some p) :=
    h.find_at (hcur ▸ BitVec.le_refl _) (hcur ▸ hb.1)
  have hreg : s.region p = r := h.region (p, r) (by simp)
  have hexact : mmapFindExact s cur (cur + rem - 1) = .ok (some p) := by
    rw [mmapFindExact, hfind, ok_bind]
    simp [hreg, hcur, ← hend]
  rw [unmapStep, hexact, ok_bind]
  refine (h.remove_within hunmap).bind ?_
  rintro ⟨ret, s'⟩ ⟨-, hrem⟩
  exact ⟨s', hrem, by rw [hend]⟩

theorem unmapStep_at (h : Rel s (v₁ ++ (p, r) :: v₂)) (hlo : r.start ≤ cur) (hhi : cur ≤ r.endAddr)
    (hne : ¬ (cur = r.start ∧ cur + rem - 1 = r.endAddr)) :
    unmapStep env s cur rem = (do
      let res ← unmapAt env s p cur rem
      return some res) := by
  have hfind : mmapFind s cur = .ok (some p) := h.find_at hlo hhi
  have hreg : s.region p = r := h.region (p, r) (by simp)
  have hexact : mmapFindExact s cur (cur + rem - 1) = .ok none := by
    rw [mmapFindExact, hfind, ok_bind]
    simp only [hreg]
    rw [if_neg hne]
    rfl
  rw [unmapStep, hexact, ok_bind]
  simp only
  rw [hfind, ok_bind]

theorem unmapStep_gap (env : Env π) (rem : BitVec 64) (h : Rel s (v₁ ++ v₂)) (hgap : Gap lo hi cur.toNat v₁ v₂)
    (hlim : cur ≤ mmapLimit) :
    (rem < ceiling v₂ - cur ∧ unmapStep env s cur rem = .ok (some (cur + rem, 0, s))) ∨
      (¬ rem < ceiling v₂ - cur ∧ unmapStep env s cur rem =
        .ok (some (ceiling v₂, rem - (ceiling v₂ - cur), s))) := by
  have hceil := h.lt_ceiling hgap hlim
  have hhole : ¬ ceiling v₂ - cur = 0 := by bv_omega
  have hsum : cur + (ceiling v₂ - cur) = ceiling v₂ := by bv_omega
  have hexact : mmapFindExact s cur (cur + rem - 1) = .ok none := by
    rw [mmapFindExact, h.find_gap hgap]
    rfl
  rw [unmapStep, hexact, ok_bind]
  simp only
  rw [h.find_gap hgap, ok_bind]
  simp only
  rw [h.getholesize_gap hgap hlim, ok_bind]
  simp only [if_neg hhole]
  rcases Classical.em (rem < ceiling v₂ - cur) with hlt | hlt
  · refine .inl ⟨hlt, ?_⟩
    rw [if_pos hlt, BitVec.sub_self]
    rfl
  · refine .inr ⟨hlt, ?_⟩
    rw [if_neg hlt, hsum]
    rfl

theorem unmapStep_beyond (h : Rel s v) (hlim : mmapLimit < cur) :
    unmapStep env s cur rem = .ok none := by
  rcases h.locate cur with ⟨v₁, p, r, v₂, rfl, -, hhi⟩ | ⟨v₁, v₂, rfl, hgap⟩
  · have hle := h.limit (p, r) (by simp)
    exact absurd hlim (by bv_omega)
  · have hexact : mmapFindExact s cur (cur + rem - 1) = .ok none := by
      rw [mmapFindExact, h.find_gap hgap]
      rfl
    rw [unmapStep, hexact, ok_bind]
    simp only
    rw [h.find_gap hgap, ok_bind]
    simp only
    rw [Listed.getholesize_beyond hlim, ok_bind]
    rfl

theorem Standing.cleared_front (hst : Standing start len cur rem v₁ ((p, r) :: v₂))
    (h : Rel s (v₁ ++ (p, r) :: v₂)) {r' : Region}
    (hstart : start.toNat + len.toNat ≤ r'.start.toNat)
    (hend : start.toNat + len.toNat ≤ r.endAddr.toNat) :
    Cleared start len (v₁ ++ (p, r') :: v₂) := by
  intro e he
  simp only [List.mem_append, List.mem_cons] at he
  rcases he with he | rfl | he
  · exact .inl (hst.passed e he)
  · exact .inr hstart
  · have hlt := h.around.2.2 e he
    exact .inr (by bv_omega)

/-- One turn at a region, and the rest of the loop by the induction hypothesis `ih`. -/
theorem unmapLoop_region (hM : KeptByUnmap env start len M) (h : Rel s (v₁ ++ (p, r) :: v₂))
    (hm : M s (v₁ ++ (p, r) :: v₂)) (hst : Standing start len cur rem v₁ ((p, r) :: v₂))
    (hF : UnmapFaults env start F M ((p, r) :: v₂)) (hlo : r.start ≤ cur) (hrem : rem ≠ 0)
    (ih : ∀ {v₁ s cur rem}, Rel s (v₁ ++ v₂) → M s (v₁ ++ v₂) →
      Standing start len cur rem v₁ v₂ →
      Safe F (unmapLoop env (n + 1) s cur rem) (Unmapped start len M)) :
    Safe F (unmapLoop env (n + 2) s cur rem) (Unmapped start len M) := by
  have hreg : s.region p = r := h.region (p, r) (by simp)
  have hhi : cur ≤ r.endAddr := hst.ahead (p, r) (by simp)
  have htotal := hst.total
  have hle := hst.le
  have hlim := h.limit (p, r) (by simp)
  simp only [mmapLimit] at hlim
  rcases h.around with ⟨hb, -, hafter⟩
  rw [unmapLoop, if_neg hrem]
  by_cases hexact : cur = r.start ∧ cur + rem - 1 = r.endAddr
  · -- the region is the rest of the range; one byte of the range is left behind it
    rcases hexact with ⟨hcur, hend⟩
    refine (unmapStep_exact h hcur hend (hF.unmapN h hm)).bind ?_
    rintro _ ⟨s', hrmd, rfl⟩
    refine ih (hrmd.rel h) (hM.remove h hm (by bv_omega) (by bv_omega) hrmd) ?_
    have hcur' : cur + (r.endAddr - cur) = r.endAddr := by bv_omega
    have hrem' : rem - (r.endAddr - cur) = 1 := by bv_omega
    rw [hcur', hrem']
    refine ⟨by bv_omega, by bv_omega, hst.passed, ?_, .inr ?_⟩
    · intro e he
      have hbe := (h.bounds (e := e) (by simp [he])).1
      have hlt := hafter e he
      bv_omega
    · intro e he
      have hlt := hafter e he
      bv_omega
  rw [unmapStep_at h hlo hhi hexact]
  by_cases hcur : r.start = cur
  · by_cases hlt : rem < r.size
    · -- the range ends inside the region
      have hat : unmapAt env s p cur rem =
          .ok (cur, 0, s.setRegion p (r.withBounds (start + len) r.endAddr)) := by
        have hnew : r.start + rem = start + len := by bv_omega
        simp only [unmapAt, hreg, if_pos hcur, if_pos hlt, hnew, pure_eq_ok]
      simp only [Region.size] at hlt
      rw [hat, ok_bind, pure_eq_ok, ok_bind]
      simp only [unmapLoop]
      have hend : start.toNat + len.toNat ≤ r.endAddr.toNat := by bv_omega
      have hnew : (start + len).toNat = start.toNat + len.toNat := by bv_omega
      have hnewle : start + len ≤ r.endAddr := by bv_omega
      refine ⟨_, h.setRegion hnewle (h.limit (p, r) (by simp)) ?_ hafter,
        hM.front h hm (by bv_omega) (by bv_omega) hend,
        hst.cleared_front h (by simp [Region.withBounds, hnew]) hend⟩
      intro e he
      have hpassed := hst.passed e he
      simp only [Region.withBounds]
      bv_omega
    · -- the region ends inside the range
      have hsize : r.size < rem := by
        simp only [Region.size] at hlt ⊢
        have hne : ¬ cur + rem - 1 = r.endAddr := fun heq => hexact ⟨hcur.symm, heq⟩
        bv_omega
      have hat : unmapAt env s p cur rem = (do
          let x ← mmapRemove env s p
          return (r.upperBound, rem - r.size, x.2)) := by
        simp only [unmapAt, hreg, if_pos hcur, if_neg hlt, if_pos hsize]
      simp only [Region.size] at hlt hsize
      rw [hat, bind_assoc, bind_assoc]
      refine (h.remove_within (hF.unmapN h hm)).bind ?_
      rintro ⟨ret, s'⟩ ⟨-, hrmd⟩
      refine ih (hrmd.rel h) (hM.remove h hm (by bv_omega) (by bv_omega) hrmd) ?_
      simp only [Region.upperBound, Region.size]
      refine ⟨by bv_omega, by bv_omega, hst.passed, ?_, .inr ?_⟩
      · intro e he
        have hbe := (h.bounds (e := e) (by simp [he])).1
        have hlt := hafter e he
        bv_omega
      · intro e he
        have hlt := hafter e he
        bv_omega
  · have hstart : cur = start := by
      rcases hst.aligned with heq | hal
      · exact heq
      · have hal' := hal (p, r) (by simp)
        exact absurd hal' (by simp only; bv_omega)
    by_cases hend : r.endAddr = cur
    · -- the range starts at the last byte of the region
      have hat : unmapAt env s p cur rem =
          .ok (cur, rem, s.setRegion p (r.withBounds r.start (r.endAddr - 1))) := by
        simp only [unmapAt, hreg, if_neg hcur, if_pos hend, pure_eq_ok]
      rw [hat, ok_bind, pure_eq_ok, ok_bind]
      have hrel : Rel (s.setRegion p (r.withBounds r.start (r.endAddr - 1)))
          (v₁ ++ (p, r.withBounds r.start (r.endAddr - 1)) :: v₂) := by
        refine h.setRegion ?_ ?_ h.around.2.1 ?_
        · simp only [Region.withBounds]
          bv_omega
        · simp only [Region.withBounds, mmapLimit]
          bv_omega
        · intro e he
          have hlt := hafter e he
          simp only [Region.withBounds]
          bv_omega
      have hm' := hM.last h hm (by bv_omega) (by bv_omega)
      rw [List.append_cons] at hrel hm'
      refine ih hrel hm' ⟨htotal, hle, ?_, ?_, .inl hstart⟩
      · intro e he
        rcases List.mem_append.1 he with he | he
        · exact hst.passed e he
        · rw [List.mem_singleton] at he
          subst he
          simp only [Region.withBounds]
          bv_omega
      · exact fun e he => hst.ahead e (by simp [he])
    · -- strictly inside a region `vmr_split` is called with a null pointer
      have hsplit : vmrCanSplit r cur = true := by
        simp only [vmrCanSplit, Bool.and_eq_true, decide_eq_true_eq]
        constructor <;> bv_omega
      have hat : unmapAt env s p cur rem = .error .nullDeref := by
        simp only [unmapAt, hreg, if_neg hcur, if_neg hend, vmrSplit, hsplit, if_true]
        rfl
      rw [hat]
      exact hF.inside (p, r) (by simp) (hstart ▸ hsplit)

theorem Standing.cleared (hst : Standing start len cur 0 v₁ v₂) (hlen : len ≠ 0) :
    Cleared start len (v₁ ++ v₂) := by
  have htotal := hst.total
  intro e he
  rcases List.mem_append.1 he with he | he
  · exact .inl (hst.passed e he)
  rcases hst.aligned with heq | hal
  · subst heq
    exact absurd hlen (by simp only [ne_eq, not_not]; bv_omega)
  · have hle := hal e he
    exact .inr (by bv_omega)

theorem Standing.cleared_nil (hst : Standing start len cur rem v₁ []) :
    Cleared start len (v₁ ++ []) := by
  intro e he
  rw [List.append_nil] at he
  exact .inl (hst.passed e he)

theorem Standing.advance (hst : Standing start len cur rem v₁ v₂) (h : Rel s (v₁ ++ v₂))
    (hgap : Gap lo hi cur.toNat v₁ v₂) (hlim : cur ≤ mmapLimit)
    (hrem : ¬ rem < ceiling v₂ - cur) :
    Standing start len (ceiling v₂) (rem - (ceiling v₂ - cur)) v₁ v₂ := by
  have hceil := h.lt_ceiling hgap hlim
  have htotal := hst.total
  have hle := hst.le
  simp only [mmapLimit] at hceil
  have hahead : ∀ e ∈ v₂, ceiling v₂ ≤ e.2.start := by
    cases v₂ with
    | nil => exact fun e he => absurd he (by simp)
    | cons e v₂ =>
      exact fun e' he' => (ascending_append.1 h.ascending).2.1.head_le he'
  refine ⟨by bv_omega, by bv_omega, hst.passed, ?_, .inr hahead⟩
  intro e he
  exact BitVec.le_trans (hahead e he) (h.bounds (e := e) (by simp [he])).1

theorem Standing.cleared_gap (hst : Standing start len cur rem v₁ v₂) (h : Rel s (v₁ ++ v₂))
    (hgap : Gap lo hi cur.toNat v₁ v₂) (hlim : cur ≤ mmapLimit)
    (hrem : rem < ceiling v₂ - cur) : Cleared start len (v₁ ++ v₂) := by
  have hceil := h.lt_ceiling hgap hlim
  have htotal := hst.total
  intro e he
  rcases List.mem_append.1 he with he | he
  · exact .inl (hst.passed e he)
  · cases v₂ with
    | nil => exact absurd he (by simp)
    | cons e' v₂ =>
      have hle : ceiling (e' :: v₂) ≤ e.2.start :=
        (ascending_append.1 h.ascending).2.1.head_le he
      exact .inr (by bv_omega)

theorem unmapLoop_zero (s : State π) (cur : BitVec 64) :
    unmapLoop env (n + 1) s cur 0 = .ok s := by
  simp [unmapLoop]

theorem unmapLoop_of_step {x : Option (BitVec 64 × BitVec 64 × State π)} (hrem : rem ≠ 0)
    (hstep : unmapStep env s cur rem = .ok x) :
    unmapLoop env (n + 1) s cur rem =
      x.elim (.ok s) fun y => unmapLoop env n y.2.2 y.1 y.2.1 := by
  rw [unmapLoop, if_neg hrem, hstep, ok_bind]
  cases x <;> rfl

theorem unmapLoop_safe (hM : KeptByUnmap env start len M) (hlen : len ≠ 0)
    (h : Rel s (v₁ ++ v₂)) (hm : M s (v₁ ++ v₂)) (hst : Standing start len cur rem v₁ v₂)
    (hF : UnmapFaults env start F M v₂) (hn : 2 * v₂.length + 2 ≤ n) :
    Safe F (unmapLoop env n s cur rem) (Unmapped start len M) := by
  -- induction on the regions ahead
  induction v₂ generalizing v₁ s cur rem n with
  | nil =>
    obtain ⟨n, rfl⟩ : ∃ k, n = k + 2 := ⟨n - 2, by simp at hn; omega⟩
    have hdone : Unmapped start len M s := ⟨_, h, hm, hst.cleared_nil⟩
    by_cases hrem : rem = 0
    · subst hrem
      rw [unmapLoop_zero]
      exact hdone
    by_cases hlim : mmapLimit < cur
    · rw [unmapLoop_of_step hrem (unmapStep_beyond h hlim)]
      exact hdone
    have hgap : Gap lo hi cur.toNat v₁ [] := hst.gap (by simp)
    rcases unmapStep_gap env rem h hgap (BitVec.not_lt.1 hlim) with
      ⟨-, hstep⟩ | ⟨-, hstep⟩
    · rw [unmapLoop_of_step hrem hstep, Option.elim_some, unmapLoop_zero]
      exact hdone
    · rw [unmapLoop_of_step hrem hstep, Option.elim_some]
      by_cases hrem' : rem - (ceiling [] - cur) = 0
      · rw [hrem', unmapLoop_zero]
        exact hdone
      · have hbeyond : mmapLimit < ceiling [] := by decide
        rw [unmapLoop_of_step hrem' (unmapStep_beyond h hbeyond)]
        exact hdone
  | cons e v₂ ih =>
    obtain ⟨n, rfl⟩ : ∃ k, n = k + 3 := ⟨n - 3, by simp at hn; omega⟩
    simp only [List.length_cons] at hn
    by_cases hrem : rem = 0
    · subst hrem
      rw [unmapLoop_zero]
      exact ⟨_, h, hm, hst.cleared hlen⟩
    by_cases hlo : e.2.start ≤ cur
    · exact unmapLoop_region hM h hm hst hF hlo hrem
        fun h hm hst => ih h hm hst hF.tail (by omega)
    -- the loop stands in the gap in front of `e`
    have hbe := h.bounds (e := e) (by simp)
    have hlim : cur ≤ mmapLimit := by
      simp only [mmapLimit] at hbe ⊢
      bv_omega
    have hgap : Gap lo hi cur.toNat v₁ (e :: v₂) := by
      refine hst.gap ?_
      intro e' he'
      have hle : e.2.start ≤ e'.2.start := (ascending_append.1 h.ascending).2.1.head_le he'
      bv_omega
    rcases unmapStep_gap env rem h hgap hlim with
      ⟨hlt, hstep⟩ | ⟨hlt, hstep⟩
    · rw [unmapLoop_of_step hrem hstep, Option.elim_some, unmapLoop_zero]
      exact ⟨_, h, hm, hst.cleared_gap h hgap hlim hlt⟩
    · rw [unmapLoop_of_step hrem hstep, Option.elim_some]
      have hst' := hst.advance h hgap hlim hlt
      by_cases hrem' : rem - (ceiling (e :: v₂) - cur) = 0
      · rw [hrem'] at hst' ⊢
        rw [unmapLoop_zero]
        exact ⟨_, h, hm, hst'.cleared hlen⟩
      · exact unmapLoop_region hM h hm hst' hF (BitVec.le_refl _) hrem'
          fun h hm hst => ih h hm hst hF.tail (by omega)

theorem Rel.unmap_within (h : Rel s v) (hM : KeptByUnmap env start len M) (hm : M s v)
    (hF : UnmapFaults env start F M v) :
    Safe F (mmapUnmap env s start len) fun x =>
      (x.1 ≠ .ok ∧ x.2 = s ∧ (len = 0 ∨ validAddr (start + len - 1) = false)) ∨
        (x.1 = .ok ∧ len ≠ 0 ∧ validAddr (start + len - 1) = true ∧
          Unmapped start len M x.2) := by
  rw [mmapUnmap]
  by_cases hlen : len = 0
  · rw [if_pos hlen]
    exact .inl ⟨by simp, rfl, .inl hlen⟩
  rw [if_neg hlen]
  by_cases hvalid : validAddr (start + len - 1) = true
  swap
  · rw [if_pos (by simpa using hvalid)]
    exact .inl ⟨by simp, rfl, .inr (by simpa using hvalid)⟩
  rw [if_neg (by simpa using hvalid)]
  -- the regions that end below `start` are passed from the outset
  obtain ⟨v₁, v₂, rfl, hst⟩ : ∃ v₁ v₂, v = v₁ ++ v₂ ∧ Standing start len start len v₁ v₂ := by
    rcases h.locate start with ⟨v₁, p, r, v₂, rfl, hlo, hhi⟩ | ⟨v₁, v₂, rfl, hgap⟩
    · refine ⟨v₁, (p, r) :: v₂, rfl, rfl, BitVec.le_refl _, ?_, ?_, .inl rfl⟩
      · intro e he
        have hlt := h.around.2.1 e he
        bv_omega
      · intro e he
        rcases List.mem_cons.1 he with rfl | he
        · exact hhi
        · have hlt := h.around.2.2 e he
          have hbe := (h.bounds (e := e) (by simp [he])).1
          bv_omega
    · refine ⟨v₁, v₂, rfl, rfl, BitVec.le_refl _, hgap.below, ?_, .inl rfl⟩
      intro e he
      have hlt : start < e.2.start := hgap.above e he
      have hbe := (h.bounds (e := e) (by simp [he])).1
      bv_omega
  have hfuel : 2 * v₂.length + 2 ≤ 2 * s.allocs + 4 := by
    have hlen := h.length_le
    simp only [ids, List.length_map, List.length_append] at hlen
    omega
  have hF2 : UnmapFaults env start F M v₂ :=
    ⟨hF.unmapN, fun e he => hF.inside e (List.mem_append_right v₁ he)⟩
  refine (unmapLoop_safe hM hlen h hm hst hF2 hfuel).bind ?_
  exact fun s' hs' => .inr ⟨rfl, hlen, hvalid, hs'⟩

theorem Rel.unmap_safe (h : Rel s v) (hM : KeptByUnmap env start len M) (hm : M s v) :
    Safe (OpFault env) (mmapUnmap env s start len) fun x =>
      (x.1 ≠ .ok ∧ x.2 = s ∧ (len = 0 ∨ validAddr (start + len - 1) = false)) ∨
        (x.1 = .ok ∧ len ≠ 0 ∧ validAddr (start + len - 1) = true ∧
          Unmapped start len M x.2) :=
  h.unmap_within hM hm (.opFault env start M v)

end UnmapLoop

/-! ## Making and splitting regions -/

/-- `s'` is `s` with a fresh object `q` of contents `r`, in no list. -/
structure Allocated (s s' : State π) (q : Nat) (r : Region) : Prop where
  eq : q = s.allocs
  allocs : s'.allocs = s.allocs + 1
  mem : s'.mem = Function.update s.mem q (Vmr.fresh r)
  head : s'.head = s.head
  tail : s'.tail = s.tail
  account : s'.toAccount = s.toAccount

theorem vmrAlloc_cases (env : Env π) (s : State π) (r : Region) :
    (∃ s', vmrAlloc env s r = (none, s') ∧ s'.mem = s.mem ∧ s'.allocs = s.allocs + 1 ∧
      s'.head = s.head ∧ s'.tail = s.tail ∧ s'.toAccount = s.toAccount) ∨
      ∃ q s', vmrAlloc env s r = (some q, s') ∧ Allocated s s' q r := by
  rw [vmrAlloc]
  by_cases hoom : env.oom s.allocs = true
  · rw [if_pos hoom]
    exact .inl ⟨_, rfl, rfl, rfl, rfl, rfl, rfl⟩
  · rw [if_neg hoom]
    exact .inr ⟨_, _, rfl, rfl, rfl, rfl, rfl, rfl, rfl⟩

theorem Listed.allocs_not_mem (h : Listed s v) : s.allocs ∉ ids v := by
  intro hmem
  rcases exists_of_mem_ids hmem with ⟨r, hr⟩
  exact absurd (h.alloc _ hr) (lt_irrefl _)

theorem Listed.ne_allocs (h : Listed s v) (hp : p ∈ ids v) : p ≠ s.allocs :=
  fun heq => h.allocs_not_mem (heq ▸ hp)

theorem Rel.of_mem_eq (h : Rel s v) (hmem : s'.mem = s.mem) (halloc : s'.allocs = s.allocs + 1)
    (hhead : s'.head = s.head) (htail : s'.tail = s.tail) : Rel s' v where
  toListed := by
    refine h.toListed.congr hhead htail (by omega) ?_
    intro q _
    simp [State.region, hmem]
  mapped := by
    intro q
    rw [hmem]
    exact h.mapped q

namespace Allocated

variable {q : Nat}

theorem region_self (ha : Allocated s s' q r) : s'.region q = r := by
  simp [State.region, ha.mem, Vmr.fresh]

theorem mem_of_ne (ha : Allocated s s' q r) {p : Nat} (hp : p ≠ q) : s'.mem p = s.mem p := by
  simp [ha.mem, hp]

theorem lt (ha : Allocated s s' q r) : q < s'.allocs := by
  rw [ha.allocs, ha.eq]
  exact Nat.lt_succ_self _

theorem links (ha : Allocated s s' q r) : (s'.mem q).next = none ∧ (s'.mem q).prev = none := by
  simp [ha.mem, Vmr.fresh]

theorem not_mapped (ha : Allocated s s' q r) : (s'.mem q).mapped = false := by
  simp [ha.mem, Vmr.fresh]

theorem not_mem (ha : Allocated s s' q r) (h : Rel s v) : q ∉ ids v := ha.eq ▸ h.allocs_not_mem

theorem listed (ha : Allocated s s' q r) (h : Listed s v) : Listed s' v := by
  refine h.congr ha.head ha.tail (by rw [ha.allocs]; omega) ?_
  intro p hp
  have hne : p ≠ q := ha.eq ▸ h.ne_allocs hp
  simp [nexts, prevs, State.region, ha.mem_of_ne hne]

theorem rel (ha : Allocated s s' q r) (h : Rel s v) : Rel s' v where
  toListed := ha.listed h.toListed
  mapped := by
    intro p
    by_cases hp : p = q
    · subst hp
      simp [ha.not_mapped, ha.not_mem h]
    · rw [ha.mem_of_ne hp]
      exact h.mapped p

end Allocated

theorem Rel.mapin_behind {q : Nat} {r₀ : Region} (h : Listed s (v₁ ++ (p, r₀) :: v₂))
    (hq : q ∉ ids (v₁ ++ (p, r₀) :: v₂)) (halloc : q < s.allocs) (hreg : s.region q = r)
    (hlt : r₀.endAddr < r.start) (hle : r.start ≤ r.endAddr) (hlim : r.endAddr ≤ mmapLimit)
    (hafter : ∀ e ∈ v₂, r.endAddr < e.2.start) :
    ∃ s', mmapMapin s q = .ok (.ok, s') ∧ Inserted s s' q r (v₁ ++ [(p, r₀)]) v₂ := by
  rw [List.append_cons] at h hq
  refine h.mapin_fits ⟨hq, halloc, hreg, hle, hlim, ?_, hafter⟩ (by simp) (by simp)
  intro e he
  rcases List.mem_append.1 he with he | he
  · rcases ascending_append.1 h.ascending with ⟨hasc, -, -⟩
    have hlt' := hasc.around.2.1 e he
    have hle' := (h.bounds (e := (p, r₀)) (by simp)).1
    simp only [hi, lo] at hlt'
    bv_omega
  · rw [List.mem_singleton] at he
    exact he ▸ hlt

inductive SplitOutcome (s : State π) (v : View) (p : Nat) (addr : BitVec 64)
    (x : Ret × Option Nat × State π) : Prop
  | failed (ret : x.1 ≠ .ok) (rel : Rel x.2.2 v) (account : x.2.2.toAccount = s.toAccount)
  | split {v₁ v₂ : View} {r : Region} {q : Nat} (view : v = v₁ ++ (p, r) :: v₂) (can : vmrCanSplit r addr = true)
      (ret : x.1 = .ok) (fresh : q ∉ ids v)
      (rel : Rel x.2.2
        (v₁ ++ (p, r.withBounds r.start (addr - 1)) :: (q, splitRegion r addr) :: v₂))
      (account : x.2.2.toAccount = s.toAccount.grown (splitRegion r addr))

theorem Rel.split_safe (h : Rel s v) (p : Nat) (addr : BitVec 64) (pvmr : Bool) :
    Safe (OpFault env) (vmrSplit env s p addr pvmr) (SplitOutcome s v p addr) := by
  rw [vmrSplit]
  by_cases hcan : vmrCanSplit (s.region p) addr = true
  swap
  · rw [if_neg hcan]
    exact .failed (by simp) h rfl
  rw [if_pos hcan]
  cases pvmr with
  | false => exact .inl rfl
  | true =>
    simp only [if_true]
    rcases vmrAlloc_cases env s (splitRegion (s.region p) addr) with
      ⟨s₁, heq, hmem, halloc, hhead, htail, hacc⟩ | ⟨q, s₁, heq, ha⟩
    · rw [heq]
      exact .failed (by simp) (h.of_mem_eq hmem halloc hhead htail) hacc
    rw [heq]
    simp only
    have h₁ := ha.rel h
    by_cases hp : p ∈ ids v
    swap
    · -- an object outside the list is cut short, and the new one is given back
      have hp1 := h₁.not_mapped hp
      rw [State.setRegion_mapped, hp1, if_neg (by simp)]
      have h₂ := h₁.modify_not_mem hp (f := (·.setRegion
        ((s₁.region p).withBounds (s₁.region p).start (addr - 1)))) hp1
      exact .failed (by simp) (h₂.vmrFree (ha.not_mem h)) ha.account
    rcases h.mem_of_mapped ((h.mapped p).2 hp) with ⟨v₁, v₂, rfl⟩
    have hpq : p ≠ q := fun heq => ha.not_mem h (heq ▸ hp)
    have hreg : s₁.region p = s.region p := by simp [State.region, ha.mem_of_ne hpq]
    simp only [vmrCanSplit, Bool.and_eq_true, decide_eq_true_eq] at hcan
    have hlim := h.limit (p, s.region p) (by simp)
    have hafter := h.around.2.2
    simp only [mmapLimit] at hlim
    have h₂ : Rel (s₁.setRegion p ((s.region p).withBounds (s.region p).start (addr - 1)))
        (v₁ ++ (p, (s.region p).withBounds (s.region p).start (addr - 1)) :: v₂) := by
      refine h₁.setRegion ?_ ?_ h.around.2.1 ?_
      · simp only [Region.withBounds]
        bv_omega
      · simp only [Region.withBounds, mmapLimit]
        bv_omega
      · intro e he
        have hlt := hafter e he
        simp only [Region.withBounds]
        bv_omega
    have hqreg : (s₁.setRegion p ((s.region p).withBounds (s.region p).start (addr - 1))).region q
        = splitRegion (s.region p) addr := by
      rw [State.setRegion_region, if_neg hpq.symm, ha.region_self]
    have hqmem : q ∉ ids
        (v₁ ++ (p, (s.region p).withBounds (s.region p).start (addr - 1)) :: v₂) := by
      have hq := ha.not_mem h
      simpa using hq
    rcases Rel.mapin_behind h₂.toListed hqmem ha.lt hqreg
        (by simp only [Region.withBounds, splitRegion]; bv_omega)
        (by simp only [splitRegion]; bv_omega)
        (by simp only [splitRegion, mmapLimit]; bv_omega)
        (by intro e he; exact hafter e he) with ⟨s3, hmapin, hins⟩
    have hmap : (s₁.mem p).mapped = true := (h₁.mapped p).2 hp
    rw [State.setRegion_mapped, hmap, if_pos rfl, hreg, hmapin]
    refine .split rfl (by simpa [vmrCanSplit] using hcan) rfl (ha.not_mem h) ?_ ?_
    · have hrel := hins.rel (fun q' hq' => by
        rw [h₂.mapped q', List.append_cons])
      simpa using hrel
    · refine hins.account.trans ?_
      rw [State.setRegion_toAccount, ha.account]

/-! ## Growing and shrinking -/

def Region.resized (r : Region) (incr : BitVec 64) : Region :=
  if r.growsdown then r.withBounds (r.start - incr) r.endAddr
  else r.withBounds r.start (r.endAddr + incr)

/-- The hole next to the region has room for `incr` more bytes. -/
def HoleFor (s : State π) (r : Region) (incr : BitVec 64) : Prop :=
  ∃ hole, mmapGetholesize s (if r.growsdown then r.start - incr else r.upperBound) =
    .ok (.ok, hole) ∧ incr ≤ hole

/-- What `mmap_vmr_expand` does: nothing, a store to an object outside the list, a resized region
or a removed one. -/
inductive ExpandOutcome (env : Env π) (s : State π) (v : View) (p : Nat) (incr : BitVec 64)
    (x : Ret × State π) : Prop
  | unchanged (state : x.2 = s) (ret : x.1 = .ok → incr = 0)
  | unlisted (fresh : p ∉ ids v) (rel : Rel x.2 v) (account : x.2.toAccount = s.toAccount)
  | resized {v₁ v₂ : View} {r : Region} (view : v = v₁ ++ (p, r) :: v₂) (ret : x.1 = .ok) (ne : incr ≠ 0)
      (can : r.dontexpand = false) (state : x.2 = s.setRegion p (r.resized incr))
      (rel : Rel x.2 (v₁ ++ (p, r.resized incr) :: v₂))
      (pos : 0 < (r.size.toNat : Int) + incr.toInt) (hole : 0 ≤ incr.toInt → HoleFor s r incr)
  | removed {v₁ v₂ : View} {r : Region} (view : v = v₁ ++ (p, r) :: v₂) (ret : x.1 = .ok)
      (can : r.dontexpand = false) (rem : Removed env s x.2 p r v₁ v₂)
      (zero : (r.size.toNat : Int) + incr.toInt = 0)

section Expand

variable {incr : BitVec 64} {F : Fault → Prop}

theorem Rel.size_eq (h : Rel s (v₁ ++ (p, r) :: v₂)) :
    r.size.toNat = r.endAddr.toNat + 1 - r.start.toNat ∧ r.size.toNat ≤ 2 ^ 47 ∧
      r.start ≤ r.endAddr ∧ r.endAddr.toNat < 2 ^ 47 := by
  have hb := h.bounds (e := (p, r)) (by simp)
  simp only [mmapLimit] at hb
  simp only [Region.size]
  refine ⟨by bv_omega, by bv_omega, hb.1, by bv_omega⟩

variable {a b : BitVec 64}

theorem slt_add_iff (ha : a.toNat ≤ 2 ^ 47) :
    a.slt (a + b) = true ↔ 0 < b.toInt ∧ a.toNat + b.toNat < 2 ^ 63 := by
  simp only [BitVec.slt, BitVec.toInt_eq_toNat_cond, BitVec.toNat_add, decide_eq_true_eq]
  have hb := b.isLt
  split_ifs <;> omega

theorem add_slt_zero_iff (ha : a.toNat ≤ 2 ^ 47) :
    (a + b).slt 0 = true ↔
      (a.toNat : Int) + b.toInt < 0 ∨ (0 < b.toInt ∧ 2 ^ 63 ≤ a.toNat + b.toNat) := by
  have hzero : (0 : BitVec 64).toInt = 0 := rfl
  simp only [BitVec.slt, hzero, BitVec.toInt_eq_toNat_cond, BitVec.toNat_add,
    decide_eq_true_eq]
  have hb := b.isLt
  split_ifs <;> omega

theorem toNat_add_toInt (ha : a.toNat ≤ 2 ^ 47)
    (hlo : 0 ≤ (a.toNat : Int) + b.toInt) : ((a + b).toNat : Int) = a.toNat + b.toInt := by
  have hb := b.isLt
  rw [BitVec.toInt_eq_toNat_cond] at hlo ⊢
  rw [BitVec.toNat_add]
  split_ifs at hlo ⊢ <;> omega

theorem shrink_eq (ha : a.toNat ≤ 2 ^ 47) (hb : b ≠ 0)
    (hgrow : ¬ a.slt (a + b) = true) (hneg : ¬ (a + b).slt 0 = true) :
    b.toInt < 0 ∧ ((a + b).toNat : Int) = a.toNat + b.toInt := by
  rw [add_slt_zero_iff ha] at hneg
  rw [slt_add_iff ha] at hgrow
  have hb' : b.toNat ≠ 0 := fun heq => hb (BitVec.eq_of_toNat_eq heq)
  simp only [BitVec.toInt_eq_toNat_cond, BitVec.toNat_add] at hgrow hneg ⊢
  have hlt := b.isLt
  split_ifs at hgrow hneg ⊢ <;> omega

theorem Rel.shrink_safe (h : Rel s (v₁ ++ (p, r) :: v₂))
    (hF : Safe F (env.unmapN s.pt r.start r.size) fun _ => True) (hincr : incr ≠ 0)
    (hcan : r.dontexpand = false) (hgrow : ¬ r.size.slt (r.size + incr) = true)
    (hfit : incr.toInt < 0 → 0 < (r.size.toNat : Int) + incr.toInt →
      Rel (s.setRegion p (r.resized incr)) (v₁ ++ (p, r.resized incr) :: v₂)) :
    Safe F
      (if (r.size + incr).slt 0 then .ok (.err .EINVAL, s)
        else if r.size + incr = 0 then mmapRemove env s p
        else .ok (.ok, s.setRegion p (r.resized incr)))
      (ExpandOutcome env s (v₁ ++ (p, r) :: v₂) p incr) := by
  by_cases hneg : (r.size + incr).slt 0 = true
  · rw [if_pos hneg]
    exact .unchanged rfl (by simp)
  rw [if_neg hneg]
  rcases shrink_eq h.size_eq.2.1 hincr hgrow hneg with ⟨hlt, hnewsz⟩
  by_cases hzero : r.size + incr = 0
  · rw [if_pos hzero]
    refine (h.remove_within hF).mono ?_
    rintro ⟨ret, s'⟩ ⟨hret, hrem⟩
    refine .removed rfl hret hcan hrem ?_
    rw [← hnewsz, hzero]
    rfl
  · rw [if_neg hzero]
    have hpos : 0 < (r.size + incr).toNat :=
      Nat.pos_of_ne_zero fun heq => hzero (BitVec.eq_of_toNat_eq heq)
    exact .resized rfl rfl hincr hcan rfl (hfit hlt (by omega)) (by omega)
      fun hle => absurd hle (by omega)

theorem Rel.shrink_end (h : Rel s (v₁ ++ (p, r) :: v₂)) (hneg : incr.toInt < 0)
    (hpos : 0 < (r.size.toNat : Int) + incr.toInt) :
    r.start ≤ r.endAddr + incr ∧ r.endAddr + incr ≤ r.endAddr := by
  rcases h.size_eq with ⟨hsize, -, hb, hend⟩
  have hlt := incr.isLt
  rw [BitVec.toInt_eq_toNat_cond] at hneg hpos
  simp only [BitVec.le_def, BitVec.toNat_add] at hb ⊢
  split_ifs at hneg hpos <;> omega

theorem Rel.shrink_start (h : Rel s (v₁ ++ (p, r) :: v₂)) (hneg : incr.toInt < 0)
    (hpos : 0 < (r.size.toNat : Int) + incr.toInt) :
    r.start ≤ r.start - incr ∧ r.start - incr ≤ r.endAddr := by
  rcases h.size_eq with ⟨hsize, -, hb, hend⟩
  have hlt := incr.isLt
  rw [BitVec.toInt_eq_toNat_cond] at hneg hpos
  simp only [BitVec.le_def, BitVec.toNat_sub] at hb ⊢
  split_ifs at hneg hpos <;> omega

theorem Rel.ceiling_le {w₁ w₂ : View} (h : Rel s v) (hw : v = w₁ ++ w₂)
    (hgap : Gap lo hi a.toNat w₁ w₂) {e : Nat × Region} (he : e ∈ v) (ha : a ≤ e.2.endAddr) :
    ceiling w₂ ≤ e.2.start := by
  subst hw
  rcases List.mem_append.1 he with he | he
  · have hlt := hgap.below e he
    simp only [hi] at hlt
    exact absurd hlt (by bv_omega)
  · cases w₂ with
    | nil => exact absurd he (by simp)
    | cons e' w₂ => exact (ascending_append.1 h.ascending).2.1.head_le he

theorem Rel.expandUp_safe (h : Rel s (v₁ ++ (p, r) :: v₂))
    (hF : Safe F (env.unmapN s.pt r.start r.size) fun _ => True) (hincr : incr ≠ 0)
    (hcan : r.dontexpand = false) (hdir : r.growsdown = false) :
    Safe F (expandUp env s p incr) (ExpandOutcome env s (v₁ ++ (p, r) :: v₂) p incr) := by
  have hreg : s.region p = r := h.region (p, r) (by simp)
  have hresized : r.resized incr = r.withBounds r.start (r.endAddr + incr) := by
    simp [Region.resized, hdir]
  rcases h.size_eq with ⟨hsize, hsize', hb, hend⟩
  rcases h.around with ⟨-, hbelow, hafter⟩
  have hlim := h.limit (p, r) (by simp)
  simp only [expandUp, hreg]
  by_cases hgrow : r.size.slt (r.size + incr) = true
  swap
  · have hnew : r.withBounds r.start (r.endAddr - (r.size - (r.size + incr))) = r.resized incr := by
      rw [hresized]
      congr 1
      bv_omega
    rw [if_neg hgrow, hnew]
    refine h.shrink_safe hF hincr hcan hgrow fun hneg hpos => ?_
    rcases h.shrink_end hneg hpos with ⟨hstart, hend'⟩
    rw [hresized]
    refine h.setRegion hstart (BitVec.le_trans hend' hlim) hbelow ?_
    intro e he
    have hlt := hafter e he
    simp only [Region.withBounds]
    bv_omega
  rw [if_pos hgrow]
  rw [slt_add_iff hsize'] at hgrow
  rcases h.getholesize_cases r.upperBound with hhole | ⟨w₁, w₂, hw, hle, hgap, hhole⟩
  · rw [hhole]
    exact .unchanged rfl (by simp)
  rw [hhole]
  simp only [ok_bind]
  by_cases hroom : incr ≤ ceiling w₂ - r.upperBound
  swap
  · rw [if_neg hroom]
    exact .unchanged rfl (by simp)
  have hnew : r.withBounds r.start (r.start + (r.size + incr) - 1) = r.resized incr := by
    rw [hresized]
    congr 1
    simp only [Region.size]
    bv_omega
  have hint : incr.toInt = incr.toNat := by
    rw [BitVec.toInt_eq_toNat_cond] at hgrow ⊢
    split_ifs at hgrow ⊢ <;> omega
  have hceil := (hw ▸ h.toListed).lt_ceiling hgap hle
  rw [if_pos hroom, hnew]
  refine .resized rfl rfl hincr hcan rfl ?_ (by omega)
    fun _ => ⟨_, by simpa [hdir] using hhole, hroom⟩
  simp only [Region.upperBound, mmapLimit] at hceil hroom
  rw [hresized]
  refine h.setRegion ?_ ?_ hbelow ?_
  · simp only [Region.withBounds]
    bv_omega
  · simp only [Region.withBounds, mmapLimit]
    bv_omega
  · intro e he
    have hlt := hafter e he
    have hbe := (h.bounds (e := e) (by simp [he])).1
    have hle' : ceiling w₂ ≤ e.2.start :=
      h.ceiling_le hw hgap (by simp [he]) (by simp only [Region.upperBound]; bv_omega)
    simp only [Region.withBounds]
    bv_omega

theorem Rel.expandDown_safe (h : Rel s (v₁ ++ (p, r) :: v₂))
    (hF : Safe F (env.unmapN s.pt r.start r.size) fun _ => True) (hincr : incr ≠ 0)
    (hcan : r.dontexpand = false) (hdir : r.growsdown = true) :
    Safe F (expandDown env s p incr) (ExpandOutcome env s (v₁ ++ (p, r) :: v₂) p incr) := by
  have hreg : s.region p = r := h.region (p, r) (by simp)
  have hresized : r.resized incr = r.withBounds (r.start - incr) r.endAddr := by
    simp [Region.resized, hdir]
  rcases h.size_eq with ⟨hsize, hsize', hb, hend⟩
  rcases h.around with ⟨-, hbelow, hafter⟩
  have hlim := h.limit (p, r) (by simp)
  simp only [expandDown, hreg]
  by_cases hgrow : r.size.slt (r.size + incr) = true
  swap
  · have hnew : r.withBounds (r.start + (r.size - (r.size + incr))) r.endAddr = r.resized incr := by
      rw [hresized]
      congr 1
      bv_omega
    rw [if_neg hgrow, hnew]
    refine h.shrink_safe hF hincr hcan hgrow fun hneg hpos => ?_
    rcases h.shrink_start hneg hpos with ⟨hstart, hend'⟩
    rw [hresized]
    refine h.setRegion hend' hlim ?_ hafter
    intro e he
    have hlt := hbelow e he
    simp only [Region.withBounds]
    bv_omega
  rw [if_pos hgrow]
  rw [slt_add_iff hsize'] at hgrow
  rcases h.getholesize_cases (r.start - incr) with hhole | ⟨w₁, w₂, hw, hle, hgap, hhole⟩
  · rw [hhole]
    exact .unchanged rfl (by simp)
  rw [hhole]
  simp only [ok_bind]
  by_cases hroom : incr ≤ ceiling w₂ - (r.start - incr)
  swap
  · rw [if_neg hroom]
    exact .unchanged rfl (by simp)
  have hint : incr.toInt = incr.toNat := by
    rw [BitVec.toInt_eq_toNat_cond] at hgrow ⊢
    split_ifs at hgrow ⊢ <;> omega
  have hceil := (hw ▸ h.toListed).lt_ceiling hgap hle
  simp only [mmapLimit] at hceil hle
  have hstart : incr.toNat ≤ r.start.toNat := by bv_omega
  -- the hole reaches up to the region itself
  have hself : ceiling w₂ ≤ r.start :=
    h.ceiling_le (e := (p, r)) hw hgap (by simp) (by bv_omega)
  rw [if_pos hroom, ← hresized]
  refine .resized rfl rfl hincr hcan rfl ?_ (by omega)
    fun _ => ⟨_, by simpa [hdir] using hhole, hroom⟩
  rw [hresized]
  refine h.setRegion ?_ hlim ?_ hafter
  · simp only [Region.withBounds]
    bv_omega
  · intro e he
    have hlt := hbelow e he
    have hbe := (h.bounds (e := e) (by simp [he])).1
    by_contra hnot
    have hle' : ceiling w₂ ≤ e.2.start := by
      refine h.ceiling_le hw hgap (by simp [he]) ?_
      simp only [Region.withBounds] at hnot
      bv_omega
    bv_omega

theorem Rel.expand_unlisted (h : Rel s v) (hp : p ∉ ids v) (x : Ret × State π)
    (hx : x.2 = s ∨ ∃ r', x.2 = s.setRegion p r') : ExpandOutcome env s v p incr x := by
  rcases hx with heq | ⟨r', heq⟩
  · exact .unlisted hp (heq ▸ h) (by rw [heq])
  · refine .unlisted hp ?_ (by rw [heq]; rfl)
    rw [heq]
    exact h.modify_not_mem hp (f := (·.setRegion r')) (h.not_mapped hp)

theorem Rel.expand_listed (h : Rel s (v₁ ++ (p, r) :: v₂))
    (hF : Safe F (env.unmapN s.pt r.start r.size) fun _ => True) (incr : BitVec 64) :
    Safe F (mmapVmrExpand env s p incr) (ExpandOutcome env s (v₁ ++ (p, r) :: v₂) p incr) := by
  have hreg : s.region p = r := h.region (p, r) (by simp)
  rw [mmapVmrExpand, hreg]
  by_cases hincr : incr = 0
  · rw [if_pos hincr]
    exact .unchanged rfl fun _ => hincr
  rw [if_neg hincr]
  by_cases hcan : r.dontexpand = true
  · rw [if_pos hcan]
    exact .unchanged rfl (by simp)
  rw [if_neg hcan]
  rw [Bool.not_eq_true] at hcan
  by_cases hdir : r.growsdown = true
  · rw [if_pos hdir]
    exact h.expandDown_safe hF hincr hcan hdir
  · rw [if_neg hdir]
    exact h.expandUp_safe hF hincr hcan (by simpa using hdir)

theorem Rel.expand_safe (h : Rel s v) (p : Nat) (incr : BitVec 64) :
    Safe (OpFault env) (mmapVmrExpand env s p incr) (ExpandOutcome env s v p incr) := by
  by_cases hp : p ∈ ids v
  · rcases h.mem_of_mapped ((h.mapped p).2 hp) with ⟨v₁, v₂, rfl⟩
    exact h.expand_listed ((env.unmapN_safe _ _ _).faults fun _ => .inr) incr
  rw [mmapVmrExpand]
  by_cases hincr : incr = 0
  · rw [if_pos hincr]
    exact .unchanged rfl fun _ => hincr
  rw [if_neg hincr]
  by_cases hcan : (s.region p).dontexpand = true
  · rw [if_pos hcan]
    exact .unchanged rfl (by simp)
  rw [if_neg hcan]
  have hhole : ∀ a, ∃ y, mmapGetholesize s a = .ok y := by
    intro a
    rcases h.getholesize_cases a with heq | ⟨w₁, w₂, -, -, -, heq⟩
    · exact ⟨_, heq⟩
    · exact ⟨_, heq⟩
  split
  · rw [expandDown]
    rcases hhole ((s.region p).start - incr) with ⟨⟨ret, hole⟩, heq⟩
    rw [heq, h.remove_not_mem hp]
    cases ret with
    | ok =>
      simp only [ok_bind, pure_eq_ok]
      split_ifs <;> exact h.expand_unlisted hp _ (by simp)
    | err e =>
      simp only [ok_bind, pure_eq_ok]
      split_ifs <;> exact h.expand_unlisted hp _ (by simp)
  · rw [expandUp]
    rcases hhole (s.region p).upperBound with ⟨⟨ret, hole⟩, heq⟩
    rw [heq, h.remove_not_mem hp]
    cases ret with
    | ok =>
      simp only [ok_bind, pure_eq_ok]
      split_ifs <;> exact h.expand_unlisted hp _ (by simp)
    | err e =>
      simp only [ok_bind, pure_eq_ok]
      split_ifs <;> exact h.expand_unlisted hp _ (by simp)

end Expand

end Mmap
end Mm
end XytherOS
