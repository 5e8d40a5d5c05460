import XytherOS.Mm.MmapRun

/-!
# MmapFile — the file offsets behind an address space

The page-fault handler reads the page of an address from `file_pos + (addr - start)` of the region
that contains the address.  An operation that moves the start of a region, or makes a region of a
part of another, has to move `file_pos` along.  `vmr_split` counts from zero instead of the
`file_pos` of the region it splits, and `mmap_unmap` and `mmap_protect` leave `file_pos` as it is.
-/

namespace XytherOS
namespace Mm
namespace Mmap

open Links Spans

variable {π : Type} {env : Env π} {s s' : State π} {v v₁ v₂ : View} {p : Nat} {r : Region}

/-! ## Offsets -/

def pground (addr : BitVec 64) : BitVec 64 := addr &&& ~~~0xFFF

namespace Region

def fileOffset (r : Region) (addr : BitVec 64) : BitVec 64 := addr - r.start + r.filePos

/-- The offset that `default_pgf_handler` computes for a fault at `addr`. -/
def pgfOffset (r : Region) (addr : BitVec 64) : BitVec 64 := r.fileOffset (pground addr)

/-- `r` is a part of `r₀` and finds its bytes at the same place of the same file. -/
structure PartOf (r r₀ : Region) : Prop where
  start : r₀.start ≤ r.start
  endAddr : r.endAddr ≤ r₀.endAddr
  file : r.file = r₀.file
  offset : r.file.isSome → r.filePos - r.start = r₀.filePos - r₀.start

namespace PartOf

variable {r r₀ r₁ : Region}

protected theorem refl (r : Region) : r.PartOf r :=
  ⟨BitVec.le_refl _, BitVec.le_refl _, rfl, fun _ => rfl⟩

protected theorem trans (h : r.PartOf r₁) (h₁ : r₁.PartOf r₀) : r.PartOf r₀ :=
  ⟨BitVec.le_trans h₁.start h.start, BitVec.le_trans h.endAddr h₁.endAddr, h.file.trans h₁.file,
    fun hsome => (h.offset hsome).trans (h₁.offset (h.file ▸ hsome))⟩

theorem contains (h : r.PartOf r₀) {a : BitVec 64} (ha : r.contains a = true) :
    r₀.contains a = true := by
  simp only [Region.contains, Bool.and_eq_true, decide_eq_true_eq] at ha ⊢
  exact ⟨BitVec.le_trans h.start ha.1, BitVec.le_trans ha.2 h.endAddr⟩

theorem fileOffset_eq (h : r.PartOf r₀) (hsome : r₀.file.isSome) (a : BitVec 64) :
    r.fileOffset a = r₀.fileOffset a := by
  have hoffset := h.offset (h.file ▸ hsome)
  calc r.fileOffset a = a + (r.filePos - r.start) := by
        simp only [fileOffset]
        bv_omega
    _ = a + (r₀.filePos - r₀.start) := by rw [hoffset]
    _ = r₀.fileOffset a := by
        simp only [fileOffset]
        bv_omega

end PartOf

end Region

def PartsOf (v₀ v : View) : Prop := ∀ e ∈ v, ∃ e₀ ∈ v₀, e.2.PartOf e₀.2

theorem PartsOf.refl (v : View) : PartsOf v v := fun e he => ⟨e, he, .refl _⟩

theorem PartsOf.trans {v₀ v₁ v₂ : View} (h₁ : PartsOf v₀ v₁) (h₂ : PartsOf v₁ v₂) :
    PartsOf v₀ v₂ := by
  intro e he
  rcases h₂ e he with ⟨e1, he1, hpart⟩
  rcases h₁ e1 he1 with ⟨e0, he0, hpart1⟩
  exact ⟨e0, he0, hpart.trans hpart1⟩

theorem PartsOf.replace {w : View} (hw : ∀ e ∈ w, e.2.PartOf r) :
    PartsOf (v₁ ++ (p, r) :: v₂) (v₁ ++ w ++ v₂) := by
  intro e he
  simp only [List.mem_append] at he
  rcases he with (he | he) | he
  · exact ⟨e, by simp [he], .refl _⟩
  · exact ⟨(p, r), by simp, hw e he⟩
  · exact ⟨e, by simp [he], .refl _⟩

/-! ## Calls that keep the offsets -/

/-- The calls of `vmr_split`, `mmap_unmap` and `mmap_protect` that keep the file offset of every
address: none splits a region whose `file_pos` it would lose, and none cuts off the front of a
region of a file.  Nor does one make a new first region, which `mmap_mapin` does not link
properly. -/
def Call.keepsOffsets (s : State π) : Call → Bool
  | .split p addr _ => !((s.mem p).mapped && vmrCanSplit (s.region p) addr &&
      (s.region p).file.isSome && (s.region p).filePos != 0)
  | .unmap start len => s.everyRegion fun r =>
    !(r.file.isSome && start ≤ r.start && decide (r.start.toNat < start.toNat + len.toNat) &&
      decide (start.toNat + len.toNat ≤ r.endAddr.toNat))
  | .protect addr len prot => !s.splitsHead addr len prot && s.everyRegion fun r =>
    !(r.file.isSome && decide (Splits r addr len prot))
  | _ => false

/-- Every call of a run keeps the offsets in the state in which it is made. -/
def offsetsRun (env : Env π) : State π → List Call → Bool :=
  guarded (call env) Call.keepsOffsets

/-- While `mmap_unmap` is at work, a region that starts below the end of its range still has the
start that it had before. -/
def PartsAhead (start len : BitVec 64) (v₀ v : View) : Prop :=
  ∀ e ∈ v, ∃ e₀ ∈ v₀, e.2.PartOf e₀.2 ∧
    (e.2.start.toNat < start.toNat + len.toNat → e.2.start = e₀.2.start)

theorem PartsAhead.replace {start len : BitVec 64} {v₀ : View} {r' : Region}
    (h : PartsAhead start len v₀ (v₁ ++ (p, r) :: v₂))
    (hr : ∃ e0 ∈ v₀, r'.PartOf e0.2 ∧
      (r'.start.toNat < start.toNat + len.toNat → r'.start = e0.2.start)) :
    PartsAhead start len v₀ (v₁ ++ (p, r') :: v₂) := by
  exact forall_replace h hr

theorem keptByUnmap_parts (env : Env π) {start len : BitVec 64} {v₀ : View}
    (hfront : ∀ e ∈ v₀, e.2.file.isSome → start ≤ e.2.start →
      e.2.start.toNat < start.toNat + len.toNat →
        ¬ start.toNat + len.toNat ≤ e.2.endAddr.toNat) :
    KeptByUnmap env start len fun (_ : State π) v => PartsAhead start len v₀ v where
  remove := by
    intro s s' v₁ p r v₂ _ hm _ _ _
    exact forall_remove hm
  front := by
    intro s v₁ p r v₂ h hm hlo hmid hhi
    refine hm.replace ?_
    rcases hm (p, r) (by simp) with ⟨e0, he0, hpart, hstart⟩
    have heq : r.start = e0.2.start := hstart hmid
    have hend : r.endAddr ≤ e0.2.endAddr := hpart.endAddr
    have hlim := h.limit (p, r) (by simp)
    simp only [mmapLimit] at hlim
    -- a region of a file is not cut, by the hypothesis on the regions before the call
    have hnone : ¬ r.file.isSome := by
      intro hsome
      refine hfront e0 he0 (hpart.file ▸ hsome) (heq ▸ hlo) (heq ▸ hmid) ?_
      exact hhi.trans hend
    refine ⟨e0, he0, ⟨?_, hend, hpart.file, fun hsome => absurd hsome hnone⟩, ?_⟩
    · simp only [Region.withBounds]
      bv_omega
    · simp only [Region.withBounds]
      intro hlt
      exact absurd hlt (by bv_omega)
  last := by
    intro s v₁ p r v₂ h hm hlt hend
    refine hm.replace ?_
    rcases hm (p, r) (by simp) with ⟨e0, he0, hpart, hstart⟩
    refine ⟨e0, he0, Region.PartOf.trans ?_ hpart, hstart⟩
    refine ⟨BitVec.le_refl _, ?_, rfl, fun _ => rfl⟩
    simp only [Region.withBounds]
    bv_omega

theorem Rel.split_parts (h : Rel s v) {addr : BitVec 64} (pvmr : Bool)
    (hok : (Call.split p addr pvmr).keepsOffsets s = true) :
    Safe (OpFault env) (vmrSplit env s p addr pvmr) fun x =>
      ∃ v', Rel x.2.2 v' ∧ PartsOf v v' := by
  refine (h.split_safe p addr pvmr).mono ?_
  rintro ⟨ret, out, s'⟩ hout
  cases hout with
  | failed ret rel account => exact ⟨v, rel, .refl v⟩
  | @split v₁ v₂ r q view can ret fresh rel account =>
    subst view
    have hmapped : (s.mem p).mapped = true := (h.mapped p).2 (by simp)
    have hreg : s.region p = r := h.region (p, r) (by simp)
    have hfile : r.file.isSome → r.filePos = 0 := by
      have hcases : r.file = none ∨ r.filePos = 0 := by
        simpa [Call.keepsOffsets, hmapped, hreg, can] using hok
      intro hsome
      rcases hcases with hnone | hzero
      · simp [hnone] at hsome
      · exact hzero
    simp only [vmrCanSplit, Bool.and_eq_true, decide_eq_true_eq] at can
    refine ⟨_, rel, ?_⟩
    have hparts : PartsOf (v₁ ++ (p, r) :: v₂) (v₁ ++
        [(p, r.withBounds r.start (addr - 1)), (q, splitRegion r addr)] ++ v₂) := by
      refine .replace ?_
      intro e he
      simp only [List.mem_cons, List.not_mem_nil, or_false] at he
      rcases he with rfl | rfl
      · refine ⟨BitVec.le_refl _, ?_, rfl, fun _ => rfl⟩
        simp only [Region.withBounds]
        bv_omega
      · refine ⟨?_, BitVec.le_refl _, rfl, ?_⟩
        · simp only [splitRegion]
          bv_omega
        · intro hsome
          have hsome' : r.file.isSome = true := hsome
          simp only [splitRegion, hsome', if_true, hfile hsome']
          bv_omega
    simpa using hparts

theorem Rel.protect_parts (h : Rel s v) {addr len : BitVec 64} {prot : BitVec 32}
    (hok : (Call.protect addr len prot).keepsOffsets s = true) :
    Safe (OpFault env) (mmapProtect env s addr len prot) fun x =>
      ∃ v', Rel x.2 v' ∧ PartsOf v v' := by
  simp only [Call.keepsOffsets, Bool.and_eq_true, h.everyRegion_iff, Bool.not_eq_eq_eq_not,
    Bool.not_true, Bool.and_eq_false_imp, decide_eq_false_iff_not] at hok
  refine ((h.protect_safe (h.orderly_protect hok.1)).faults fun _ => .inr).mono ?_
  rintro ⟨ret, s'⟩ hout
  cases hout with
  | unchanged rel account => exact ⟨v, rel, .refl v⟩
  | @whole v₁ v₂ p r pt view found allowed size mprotect rel account =>
    subst view
    have hparts : PartsOf (v₁ ++ (p, r) :: v₂) (v₁ ++ [(p, r.protect prot)] ++ v₂) := by
      refine .replace ?_
      intro e he
      rw [List.mem_singleton.1 he]
      exact ⟨BitVec.le_refl _, BitVec.le_refl _, rfl, fun _ => rfl⟩
    exact ⟨_, rel, by simpa using hparts⟩
  | @split v₁ v₂ left right p r pt view splits leftPart rightPart mprotect rel tables =>
    subst view
    -- the region has no file, so that only the bounds matter
    have hnone : ¬ r.file.isSome := fun hsome => hok.2 (p, r) (by simp) hsome splits
    rcases splits.bounds h with ⟨hlo, hmid, hhi, hlim, -⟩
    have hpart : ∀ a b : BitVec 64, r.start ≤ a → b ≤ r.endAddr → (r.withBounds a b).PartOf r :=
      fun a b ha hb => ⟨ha, hb, rfl, fun hsome => absurd hsome hnone⟩
    have hparts : PartsOf (v₁ ++ (p, r) :: v₂) (v₁ ++
        (left ++ (p, (r.withBounds addr (addr + len - 1)).protect prot) :: right) ++ v₂) := by
      refine .replace ?_
      intro e he
      simp only [List.mem_append, List.mem_cons] at he
      rcases he with he | rfl | he
      · cases leftPart with
        | none eq => exact absurd he (by simp)
        | some lt =>
          rw [List.mem_singleton.1 he]
          exact hpart _ _ (BitVec.le_refl _) (by bv_omega)
      · exact ⟨hlo, hhi, rfl, fun hsome => absurd hsome hnone⟩
      · cases rightPart with
        | none eq => exact absurd he (by simp)
        | some lt =>
          rw [List.mem_singleton.1 he]
          exact hpart _ _ (by bv_omega) (BitVec.le_refl _)
    exact ⟨_, rel, by simpa using hparts⟩

theorem Rel.unmap_parts (h : Rel s v) {start len : BitVec 64}
    (hok : (Call.unmap start len).keepsOffsets s = true) :
    Safe (OpFault env) (mmapUnmap env s start len) fun x =>
      ∃ v', Rel x.2 v' ∧ PartsOf v v' := by
  simp only [Call.keepsOffsets, h.everyRegion_iff, Bool.not_eq_eq_eq_not, Bool.not_true,
    Bool.and_eq_false_imp, Bool.and_eq_true, decide_eq_true_eq, decide_eq_false_iff_not] at hok
  have hm : PartsAhead start len v v := fun e he => ⟨e, he, .refl _, fun _ => rfl⟩
  refine (h.unmap_safe (keptByUnmap_parts env fun e he hsome hlo hmid =>
    hok e he ⟨⟨hsome, hlo⟩, hmid⟩) hm).mono ?_
  rintro ⟨ret, s'⟩ (⟨-, rfl, -⟩ | ⟨-, -, -, v', hrel, hparts, -⟩)
  · exact ⟨v, h, .refl v⟩
  · refine ⟨v', hrel, fun e he => ?_⟩
    rcases hparts e he with ⟨e0, he0, hpart, -⟩
    exact ⟨e0, he0, hpart⟩

/-- The step lemma: after such a call every region is a part of one before it. -/
theorem Rel.call_parts (h : Rel s v) (c : Call) (hok : c.keepsOffsets s = true) :
    Safe (OpFault env) (call env s c) fun s' => ∃ v', Rel s' v' ∧ PartsOf v v' := by
  cases c with
  | split p addr pvmr => exact Safe.bind (h.split_parts pvmr hok) fun _ hx => hx
  | unmap start len => exact Safe.bind (h.unmap_parts hok) fun _ hx => hx
  | protect addr len prot => exact Safe.bind (h.protect_parts hok) fun _ hx => hx
  | vmrAlloc r => exact absurd hok (by simp [Call.keepsOffsets])
  | mapin p => exact absurd hok (by simp [Call.keepsOffsets])
  | mapRegion addr len prot flags pvmr => exact absurd hok (by simp [Call.keepsOffsets])
  | remove p => exact absurd hok (by simp [Call.keepsOffsets])
  | expand p incr => exact absurd hok (by simp [Call.keepsOffsets])

theorem Rel.of_find (h : Rel s v) {a : BitVec 64} (hfind : mmapFind s a = .ok (some p)) :
    (p, s.region p) ∈ v ∧ (s.region p).contains a = true := by
  rcases h.locate a with ⟨v₁, q, r, v₂, rfl, hlo, hhi⟩ | ⟨v₁, v₂, rfl, hgap⟩
  · rw [h.find_at hlo hhi] at hfind
    cases hfind
    have hreg : s.region p = r := h.region (p, r) (by simp)
    rw [hreg]
    exact ⟨by simp, by simp [Region.contains, hlo, hhi]⟩
  · rw [h.find_gap hgap] at hfind
    exact absurd hfind (by simp)

/-- As long as no split loses a `file_pos` and no region of a file loses its front, the page-fault
handler reads every address that stays mapped from the same offset of the same file. -/
theorem file_offsets_stable {π : Type} (env : Env π) (s₁ : State π) (v : View) (cs : List Call)
    (hwf : Rel s₁ v) (hrun : offsetsRun env s₁ cs = true) :
    Safe (OpFault env) (run env s₁ cs) fun s₂ => ∀ a p₁ p₂,
      mmapFind s₁ a = .ok (some p₁) → (s₁.region p₁).file.isSome →
      mmapFind s₂ a = .ok (some p₂) →
        (s₂.region p₂).file = (s₁.region p₁).file ∧
        (s₂.region p₂).fileOffset a = (s₁.region p₁).fileOffset a ∧
        (s₂.region p₂).pgfOffset a = (s₁.region p₁).pgfOffset a := by
  have hstep : ∀ s c, (∃ v', Rel s v' ∧ PartsOf v v') → Call.keepsOffsets s c = true →
      Safe (OpFault env) (call env s c) fun s' => ∃ v', Rel s' v' ∧ PartsOf v v' := by
    rintro s c ⟨v', h, hparts⟩ hok
    refine (h.call_parts c hok).mono ?_
    rintro s' ⟨v'', h', hparts'⟩
    exact ⟨v'', h', hparts.trans hparts'⟩
  refine (Safe.runs hstep ⟨v, hwf, .refl v⟩ hrun).mono ?_
  rintro s₂ ⟨v', h, hparts⟩ a p₁ p₂ hfind₁ hsome hfind₂
  rcases hwf.of_find hfind₁ with ⟨hmem₁, ha₁⟩
  rcases h.of_find hfind₂ with ⟨hmem₂, ha₂⟩
  rcases hparts _ hmem₂ with ⟨e₀, he₀, hpart⟩
  -- both regions contain the address, and regions do not overlap
  have ha₀ := hpart.contains ha₂
  simp only [Region.contains, Bool.and_eq_true, decide_eq_true_eq] at ha₀ ha₁
  have heq : e₀ = (p₁, s₁.region p₁) := hwf.ascending.eq_of_mem he₀ hmem₁ ha₀ ha₁
  subst heq
  exact ⟨hpart.file, hpart.fileOffset_eq hsome a, hpart.fileOffset_eq hsome _⟩

def fileRegion : Region :=
  { Region.zero with
    start := 0x2000000
    endAddr := 0x2003FFF
    flags := VM_READ
    vflags := pteFlags VM_READ
    file := some 7 }

def fileState : State Unit :=
  match run Env.plain bootState [.vmrAlloc fileRegion, .mapin 1] with
  | .ok s => s
  | .error _ => bootState

theorem fileState_rel : ∃ v, Rel fileState v := by
  have hinit : mmapInit Env.plain () = .ok (.ok, bootState) := rfl
  rcases mmapInit_rel hinit with ⟨q, hrel, -⟩
  have hrun : orderlyRun Env.plain bootState [.vmrAlloc fileRegion, .mapin 1] = true := by
    decide +kernel
  exact (hrel.run_safe hrun).of_eq_ok rfl

theorem file_offsets_stable_calls :
    let cs := [Call.split 1 0x2001000 true, .unmap 0x2000000 0x1000,
      .protect 0x2001000 0x3000 (PROT_READ ||| PROT_WRITE)]
    offsetsRun Env.plain fileState cs = true ∧ ∃ v, Rel fileState v ∧
      Safe (OpFault Env.plain) (run Env.plain fileState cs) fun s₂ => ∀ a p₁ p₂,
        mmapFind fileState a = .ok (some p₁) → (fileState.region p₁).file.isSome →
        mmapFind s₂ a = .ok (some p₂) →
          (s₂.region p₂).file = (fileState.region p₁).file ∧
          (s₂.region p₂).fileOffset a = (fileState.region p₁).fileOffset a ∧
          (s₂.region p₂).pgfOffset a = (fileState.region p₁).pgfOffset a := by
  intro cs
  have hrun : offsetsRun Env.plain fileState cs = true := by decide +kernel
  rcases fileState_rel with ⟨v, hwf⟩
  exact ⟨hrun, v, hwf, file_offsets_stable Env.plain fileState v cs hwf hrun⟩

def truncatedState : State Unit :=
  match run Env.plain fileState [.unmap 0x2000000 0x1000] with
  | .ok s => s
  | .error _ => fileState

/-- The front truncation leaves `file_pos` as it was: the second page is now read from the
offset 0. -/
theorem unmap_shifts_file_offset :
    (∃ v, Rel fileState v) ∧
    run Env.plain fileState [.unmap 0x2000000 0x1000] = .ok truncatedState ∧
    mmapFind fileState 0x2001000 = .ok (some 1) ∧
    mmapFind truncatedState 0x2001000 = .ok (some 1) ∧
    (fileState.region 1).file = some 7 ∧ (truncatedState.region 1).file = some 7 ∧
    (fileState.region 1).pgfOffset 0x2001000 = 0x1000 ∧
    (truncatedState.region 1).pgfOffset 0x2001000 = 0 ∧
    (truncatedState.region 1).fileOffset 0x2001000 ≠
      (fileState.region 1).fileOffset 0x2001000 := by
  refine ⟨fileState_rel, rfl, rfl, rfl, ?_, ?_, ?_, ?_, ?_⟩ <;> decide +kernel

end Mmap
end Mm
end XytherOS
