import XytherOS.Mm.MmapMap
import XytherOS.Mm.MmapProtect

/-!
# MmapRun — address spaces stay well formed

A step lemma takes the view of an address space through any call, and a run lemma through any
sequence of calls.  Two things must not happen.  A region must not be mapped in ahead of the first
one: `mmap_mapin` advances `node` before it stores `node->prev`, so that the old first region never
learns of its new neighbour.  And a region must not end below its start, which `mmap_mapin` does
not check and a fixed mapping that wraps around produces.
-/

namespace XytherOS
namespace Mm
namespace Mmap

open Links Spans

variable {π : Type} {env : Env π} {s s' : State π} {v v₁ v₂ : View} {p : Nat} {r : Region}

/-! ## Well-formed address spaces -/

/-- The regions of `s` are `l`: an ascending doubly linked list of disjoint ranges below the
limit. -/
structure WellFormed (s : State π) (l : List Nat) : Prop where
  head : s.head = l.head?
  tail : s.tail = l.getLast?
  chain : Chain (nexts s.mem) (prevs s.mem) none l none
  inverse : ∀ p ∈ l, ∀ q ∈ l, (s.mem p).next = some q ↔ (s.mem q).prev = some p
  first : ∀ h, s.head = some h → (s.mem h).prev = none
  last : ∀ t, s.tail = some t → (s.mem t).next = none
  bounds : ∀ p ∈ l, (s.region p).start ≤ (s.region p).endAddr ∧
    (s.region p).endAddr ≤ mmapLimit
  ascending : l.Pairwise fun p q => (s.region p).endAddr < (s.region q).start

theorem Listed.wellFormed (h : Listed s v) : WellFormed s (ids v) where
  head := h.head
  tail := h.tail
  chain := h.chain
  inverse := fun p hp q hq => h.chain.next_iff_prev hp hq
  first := by
    intro p hp
    cases v with
    | nil => exact absurd (h.head.symm.trans hp) (by simp)
    | cons e v =>
      cases h.head.symm.trans hp
      have h' : Listed s ([] ++ e :: v) := h
      exact h'.links_at.2
  last := by
    intro p hp
    rcases List.eq_nil_or_concat v with rfl | ⟨l, e, rfl⟩
    · exact absurd (h.tail.symm.trans hp) (by simp)
    · rw [List.concat_eq_append] at h
      have htail := h.tail.symm.trans hp
      rw [ids_append, ids_cons, ids_nil, List.getLast?_concat] at htail
      cases htail
      exact h.links_at.1
  bounds := by
    intro p hp
    rcases exists_of_mem_ids hp with ⟨r, hr⟩
    rw [h.region (p, r) hr]
    exact h.bounds hr
  ascending := by
    rw [ids, List.pairwise_map]
    refine h.ascending.apart.imp_of_mem ?_
    intro e e' he he' hlt
    rw [h.region e he, h.region e' he']
    exact hlt

/-! ## Orderly calls -/

namespace State

def belowHead (s : State π) (addr : BitVec 64) : Bool :=
  match s.head with
  | none => false
  | some h => addr < (s.region h).start

/-- The first region does not start below `addr`, and the last one ends above `endAddr`. -/
def aroundRange (s : State π) (addr endAddr : BitVec 64) : Bool :=
  match s.head, s.tail with
  | some h, some t => addr ≤ (s.region h).start && endAddr < (s.region t).endAddr
  | _, _ => false

/-- `mmap_protect(addr, len, prot)` splits the first region, and not at its start. -/
def splitsHead (s : State π) (addr len : BitVec 64) (prot : BitVec 32) : Bool :=
  match s.head with
  | none => false
  | some h => Splits (s.region h) addr len prot && (s.region h).start != addr

def everyRegion (s : State π) (f : Region → Bool) : Bool :=
  (List.range s.allocs).all fun p => !(s.mem p).mapped || f (s.region p)

/-- The object `p` was made by `vmr_alloc` and has never been in the list; its bounds are in
order, or such that `mmap_mapin` refuses it. -/
def spare (s : State π) (p : Nat) : Bool :=
  p < s.allocs && (s.mem p).next.isNone && (s.mem p).prev.isNone &&
    ((s.region p).start ≤ (s.region p).endAddr || (s.region p).size == 0 ||
      mmapLimit < (s.region p).endAddr)

end State

/-- The range of a fixed mapping, when `mmap_unmap` accepts it, neither wraps around nor leaves
regions behind it only. -/
def orderlyFixed (s : State π) (addr len : BitVec 64) : Bool :=
  !validAddr (addr + len - 1) ||
    (addr.toNat + len.toNat ≤ 2 ^ 64 && !s.aroundRange addr (addr + len - 1))

def orderlyHole (s : State π) (addr len : BitVec 64) (whence : Whence) : Bool :=
  match mmapFindHoleat s addr len whence with
  | .ok (.ok a) => !s.belowHead a
  | _ => true

/-- The calls that keep an address space well formed: none maps a region in ahead of the first
one, or one that ends below its start. -/
def Call.orderly (s : State π) : Call → Bool
  | .mapin p => (s.mem p).mapped ||
      (s.spare p && !((s.region p).start ≤ (s.region p).endAddr &&
        s.belowHead (s.region p).endAddr))
  | .mapRegion addr len _ flags _ =>
    if has flags MAP_FIXED then orderlyFixed s addr (mapLen len flags)
    else orderlyHole s addr (mapLen len flags) (mapWhence flags)
  | .protect addr len prot => !s.splitsHead addr len prot
  | _ => true

def orderlyRun (env : Env π) : State π → List Call → Bool := guarded (call env) Call.orderly

/-! ## Conditions on the state, read off the view -/

theorem Rel.everyRegion_iff (h : Rel s v) {f : Region → Bool} :
    s.everyRegion f = true ↔ ∀ e ∈ v, f e.2 = true := by
  simp only [State.everyRegion, List.all_eq_true, List.mem_range, Bool.or_eq_true,
    Bool.not_eq_eq_eq_not, Bool.not_true]
  constructor
  · intro hall e he
    have hmapped : (s.mem e.1).mapped = true := (h.mapped e.1).2 (mem_ids_of_mem he)
    have hf := hall e.1 (h.alloc e he)
    rw [hmapped, h.region e he] at hf
    simpa using hf
  · intro hall p _
    by_cases hp : (s.mem p).mapped = true
    · rcases h.mem_of_mapped hp with ⟨v₁, v₂, rfl⟩
      exact .inr (hall (p, s.region p) (by simp))
    · exact .inl (by simpa using hp)

theorem Rel.belowHead_cons {e : Nat × Region} (h : Rel s (e :: v)) (a : BitVec 64) :
    s.belowHead a = decide (a < e.2.start) := by
  have hhead : s.head = some e.1 := h.head
  have hreg : s.region e.1 = e.2 := h.region e (by simp)
  simp [State.belowHead, hhead, hreg]

theorem Rel.aroundRange_of (h : Rel s v) {a b : BitVec 64} (hbelow : ∀ e ∈ v, ¬ e.2.start < a)
    (habove : ∃ e ∈ v, ¬ e.2.endAddr ≤ b) : s.aroundRange a b = true := by
  rcases habove with ⟨e, he, hlt⟩
  rcases List.eq_nil_or_concat v with rfl | ⟨l, t, rfl⟩
  · exact absurd he (by simp)
  rw [List.concat_eq_append] at h he hbelow
  have htail : s.tail = some t.1 := by simpa using h.tail
  have htreg : s.region t.1 = t.2 := h.region t (by simp)
  have hend : e.2.endAddr ≤ t.2.endAddr := by
    rcases List.mem_append.1 he with he | he
    · have hlt' := h.around.2.1 e he
      have hb := h.around.1
      bv_omega
    · rw [List.mem_singleton.1 he]
      exact BitVec.le_refl _
  obtain ⟨f, hf, hhead⟩ : ∃ f ∈ l ++ [t], s.head = some f.1 := by
    cases l with
    | nil => exact ⟨t, by simp, by simpa using h.head⟩
    | cons f l => exact ⟨f, by simp, by simpa using h.head⟩
  have hfreg : s.region f.1 = f.2 := h.region f hf
  have hstart := hbelow f hf
  simp only [State.aroundRange, hhead, htail, hfreg, htreg, Bool.and_eq_true, decide_eq_true_eq]
  constructor <;> bv_omega

theorem Rel.call_mapin (h : Rel s v) (hok : (Call.mapin p).orderly s = true) :
    Safe NoFault (mmapMapin s p) fun x => (x.1 ≠ .ok ∧ x.2 = s) ∨
      (x.1 = .ok ∧ ∃ v₁ v₂, v = v₁ ++ v₂ ∧ Inserted s x.2 p (s.region p) v₁ v₂ ∧
        Rel x.2 (v₁ ++ (p, s.region p) :: v₂)) := by
  by_cases hmapped : (s.mem p).mapped = true
  · have hmem : p ∈ ids v := (h.mapped p).1 hmapped
    have heq : mmapMapin s p = .ok (.err .EEXIST, s) := by
      rw [mmapMapin, h.contains_eq, ok_bind, if_pos (by simpa using hmem)]
      rfl
    rw [heq]
    exact .inl ⟨by simp, rfl⟩
  simp only [Call.orderly, hmapped, Bool.false_or, State.spare, Bool.and_eq_true,
    decide_eq_true_eq, Option.isNone_iff_eq_none, Bool.or_eq_true, beq_iff_eq] at hok
  rcases hok with ⟨⟨⟨⟨halloc, hnext⟩, hprev⟩, horder⟩, hbelow⟩
  rcases h.mapin_cases halloc (by tauto) with ⟨e, heq⟩ | ⟨v₁, v₂, rfl, hfit⟩
  · rw [heq]
    exact .inl ⟨by simp, rfl⟩
  have hfirst : v₁ = [] → v₂ = [] := by
    rintro rfl
    cases v₂ with
    | nil => rfl
    | cons e v₂ =>
      have hlt := hfit.above e (by simp)
      have hle := hfit.le
      rw [List.nil_append] at h
      simp [h.belowHead_cons, hlt, hle] at hbelow
  rcases h.mapin_fits hfit hfirst (fun _ => ⟨hnext, hprev⟩) with ⟨s', heq, hins⟩
  rw [heq]
  exact .inr ⟨rfl, v₁, v₂, rfl, hins, hins.rel fun q _ => h.mapped q⟩

section Calls

variable {addr len : BitVec 64} {prot flags : BitVec 32}

theorem Rel.orderly_hole (h : Rel s v)
    (hok : orderlyHole s addr (mapLen len flags) (mapWhence flags) = true) :
    ∀ a e v', v = e :: v' →
      mmapFindHoleat s addr (mapLen len flags) (mapWhence flags) = .ok (.ok a) →
        ¬ a < e.2.start := by
  intro a e v' hv hfind
  subst hv
  rw [orderlyHole, hfind] at hok
  simpa [h.belowHead_cons] using hok

theorem Rel.orderly_fixed (h : Rel s v) {L : BitVec 64} (hok : orderlyFixed s addr L = true)
    (hvalid : validAddr (addr + L - 1) = true) :
    addr.toNat + L.toNat ≤ 2 ^ 64 ∧
      ((∃ e ∈ v, e.2.start < addr) ∨ ∀ e ∈ v, e.2.endAddr ≤ addr + L - 1) := by
  simp only [orderlyFixed, hvalid, Bool.not_true, Bool.false_or, Bool.and_eq_true,
    decide_eq_true_eq, Bool.not_eq_eq_eq_not] at hok
  refine ⟨hok.1, ?_⟩
  by_contra hcon
  simp only [not_or, not_exists, not_and, not_forall] at hcon
  have haround := h.aroundRange_of hcon.1 (by
    rcases hcon.2 with ⟨e, he, hlt⟩
    exact ⟨e, he, hlt⟩)
  rw [haround] at hok
  exact absurd hok.2 (by simp)

theorem Rel.orderly_protect (h : Rel s v) (hok : s.splitsHead addr len prot = false) :
    ∀ p r v', v = (p, r) :: v' → Splits r addr len prot → r.start = addr := by
  intro p r v' hv hs
  subst hv
  have hhead : s.head = some p := h.head
  have hreg : s.region p = r := h.region (p, r) (by simp)
  simp only [State.splitsHead, hhead, hreg] at hok
  simpa [hs] using hok

theorem keptByUnmap_true (env : Env π) : KeptByUnmap env addr len fun _ _ => True :=
  ⟨fun _ _ _ _ _ => trivial, fun _ _ _ _ _ => trivial, fun _ _ _ _ => trivial⟩

/-- The step lemma: an orderly call takes a listed address space to a listed one. -/
theorem Rel.call_safe (h : Rel s v) (c : Call) (hok : c.orderly s = true) :
    Safe (OpFault env) (call env s c) fun s' => ∃ v', Rel s' v' := by
  cases c with
  | vmrAlloc r =>
    rcases vmrAlloc_cases env s r with ⟨s', heq, hmem, halloc, hhd, htl, -⟩ | ⟨q, s', heq, ha⟩
    · exact ⟨v, by simpa [heq] using h.of_mem_eq hmem halloc hhd htl⟩
    · exact ⟨v, by simpa [heq] using ha.rel h⟩
  | mapin p =>
    refine ((h.call_mapin hok).faults fun _ hf => hf.elim).bind ?_
    rintro ⟨ret, s'⟩ (⟨-, rfl⟩ | ⟨-, v₁, v₂, -, -, hrel⟩)
    · exact ⟨v, h⟩
    · exact ⟨_, hrel⟩
  | mapRegion addr len prot flags pvmr =>
    by_cases hfixed : has flags MAP_FIXED = true
    · simp only [Call.orderly, if_pos hfixed] at hok
      refine Safe.bind (h.mapFixed_safe hfixed pvmr
        (fun hvalid => (h.orderly_fixed hok hvalid).1)
        (fun hvalid => (h.orderly_fixed hok hvalid).2)
        (keptByUnmap_true env) fun _ _ _ => trivial) ?_
      rintro ⟨ret, out, s'⟩ hout
      cases hout with
      | failed ret rel account => exact ⟨v, rel⟩
      | mapped ret fresh out rel₂ kept inserted rel => exact ⟨_, rel⟩
    · simp only [Call.orderly, if_neg hfixed] at hok
      refine Safe.bind ((h.mapRegion_safe (by simpa using hfixed) pvmr
        (h.orderly_hole hok)).faults fun _ hf => hf.elim) ?_
      rintro ⟨ret, out, s'⟩ ⟨a, hout, -⟩
      cases hout with
      | failed ret rel account => exact ⟨v, rel⟩
      | mapped view ret fresh out rel account => exact ⟨_, rel⟩
  | unmap start len =>
    refine Safe.bind (h.unmap_safe (keptByUnmap_true env) trivial) ?_
    rintro ⟨ret, s'⟩ (⟨-, rfl, -⟩ | ⟨-, -, -, v', hrel, -, -⟩)
    · exact ⟨v, h⟩
    · exact ⟨v', hrel⟩
  | remove p =>
    by_cases hp : p ∈ ids v
    · rcases h.mem_of_mapped ((h.mapped p).2 hp) with ⟨v₁, v₂, rfl⟩
      refine Safe.bind (h.remove_safe.faults fun _ => .inr) ?_
      rintro ⟨ret, s'⟩ ⟨-, hrem⟩
      exact ⟨_, hrem.rel h⟩
    · simp only [call, h.remove_not_mem hp]
      exact ⟨v, h⟩
  | expand p incr =>
    refine Safe.bind (h.expand_safe p incr) ?_
    rintro ⟨ret, s'⟩ hout
    cases hout with
    | unchanged state ret =>
      cases state
      exact ⟨v, h⟩
    | unlisted fresh rel account => exact ⟨v, rel⟩
    | resized view ret ne can state rel pos hole => exact ⟨_, rel⟩
    | removed view ret can rem zero => exact ⟨_, rem.rel (view ▸ h)⟩
  | protect addr len prot =>
    have hhead := h.orderly_protect (by simpa [Call.orderly] using hok)
    refine Safe.bind ((h.protect_safe hhead).faults fun _ => .inr) ?_
    rintro ⟨ret, s'⟩ hout
    cases hout with
    | unchanged rel account => exact ⟨v, rel⟩
    | whole view found allowed size mprotect rel account => exact ⟨_, rel⟩
    | split view splits leftPart rightPart mprotect rel tables => exact ⟨_, rel⟩
  | split p addr pvmr =>
    refine Safe.bind (h.split_safe p addr pvmr) ?_
    rintro ⟨ret, out, s'⟩ hout
    cases hout with
    | failed ret rel account => exact ⟨v, rel⟩
    | split view can ret fresh rel account => exact ⟨_, rel⟩

end Calls

theorem Rel.run_safe (h : Rel s v) {cs : List Call} (hrun : orderlyRun env s cs = true) :
    Safe (OpFault env) (run env s cs) fun s' => ∃ v', Rel s' v' := by
  refine Safe.runs ?_ ⟨v, h⟩ hrun
  rintro s c ⟨v, h⟩ hok
  exact h.call_safe c hok

theorem rel_mmapClean (pt : π) : Rel (mmapClean pt) [] where
  chain := trivial
  head := rfl
  tail := rfl
  alloc := by simp
  region := by simp
  ascending := ascending_nil
  limit := by simp
  mapped := by simp [mmapClean, Vmr.fresh]

def nullRegion : Region :=
  newRegion 0 0x1000000 0 (MAP_FIXED ||| MAP_PRIVATE ||| MAP_DONTEXPAND)

theorem keptByUnmap_cleared (env : Env π) (start len : BitVec 64) (v₀ : View) (a : Account π) :
    KeptByUnmap env start len fun s v => Cleared start len v₀ → v = v₀ ∧ s.toAccount = a where
  remove := by
    intro s s' v₁ p r v₂ h hm hlo hhi _ hclear
    rcases hm hclear with ⟨rfl, -⟩
    have hb := (h.bounds (e := (p, r)) (by simp)).1
    have hmiss := hclear (p, r) (by simp)
    exact absurd hmiss (by simp only; bv_omega)
  front := by
    intro s v₁ p r v₂ h hm hlo hmid hhi hclear
    rcases hm hclear with ⟨rfl, -⟩
    have hmiss := hclear (p, r) (by simp)
    exact absurd hmiss (by simp only; bv_omega)
  last := by
    intro s v₁ p r v₂ h hm hlt hend hclear
    rcases hm hclear with ⟨rfl, -⟩
    have hmiss := hclear (p, r) (by simp)
    exact absurd hmiss (by simp only; bv_omega)

theorem mmapInit_rel {pt : π} (h : mmapInit env pt = .ok (.ok, s)) :
    ∃ q, Rel s [(q, nullRegion)] ∧
      s.toAccount = (mmapClean pt).toAccount.grown nullRegion := by
  have hclean := rel_mmapClean pt
  have hfixed : Safe (OpFault env) (mmapMapRegion env (mmapClean pt) 0 0x1000000 0
      (MAP_FIXED ||| MAP_PRIVATE ||| MAP_DONTEXPAND) false)
      (FixedOutcome (mmapClean pt) [] nullRegion fun s v =>
        Cleared 0 0x1000000 [] → v = [] ∧ s.toAccount = (mmapClean pt).toAccount) :=
    hclean.mapFixed_safe (by decide) false (fun _ => by decide) (fun _ => .inr (by simp))
      (keptByUnmap_cleared env _ _ _ _) fun s₁ q ha _ => ⟨rfl, ha.account⟩
  rcases bind_ok_iff.1 h with ⟨⟨ret, out, s'⟩, hmap, heq⟩
  cases heq
  have hout := hfixed.of_eq_ok hmap
  cases hout with
  | failed ret rel account => exact absurd rfl ret
  | mapped ret fresh out rel₂ kept inserted rel =>
    rcases kept (by simp [Cleared]) with ⟨hnil, hacc⟩
    rcases List.append_eq_nil_iff.1 hnil with ⟨rfl, rfl⟩
    exact ⟨_, rel, inserted.account.trans (by rw [hacc])⟩

/-- In every state that orderly calls lead to, the regions are an ascending, doubly linked list of
disjoint ranges below the limit.  A run that does not come back ends in a fault of the
architecture, or in the null pointer that `mmap_unmap` passes on inside a region. -/
theorem address_space_well_formed {π : Type} (env : Env π) (pt : π) (s₀ : State π)
    (cs : List Call) (hinit : mmapInit env pt = .ok (.ok, s₀))
    (hrun : orderlyRun env s₀ cs = true) :
    Safe (OpFault env) (run env s₀ cs) fun s => ∃ l, WellFormed s l := by
  rcases mmapInit_rel hinit with ⟨q, hrel, -⟩
  exact (hrel.run_safe hrun).mono fun s ⟨v, hv⟩ => ⟨ids v, hv.wellFormed⟩

def Env.plain : Env Unit :=
  { oom := fun _ => false
    unmapN := fun _ _ _ => .ok ()
    mprotect := fun _ _ _ _ => .ok (.ok, ()) }

def bootState : State Unit :=
  match mmapInit Env.plain () with
  | .ok (_, s) => s
  | .error _ => mmapClean ()

theorem address_space_well_formed_calls :
    let cs := [Call.mapRegion 0 0x4000 3 MAP_PRIVATE true,
      .mapRegion 0x2000000 0x3000 1 (MAP_FIXED ||| MAP_PRIVATE) false,
      .protect 0x1001000 0x1000 1, .expand 2 0x1000, .unmap 0x1002000 0x2000, .remove 2]
    orderlyRun Env.plain bootState cs = true ∧ (run Env.plain bootState cs).isOk = true ∧
      Safe (OpFault Env.plain) (run Env.plain bootState cs) fun s => ∃ l, WellFormed s l := by
  intro cs
  have hrun : orderlyRun Env.plain bootState cs = true := by decide +kernel
  refine ⟨hrun, by decide +kernel, ?_⟩
  exact address_space_well_formed Env.plain () bootState cs rfl hrun

/-- The boot address space after the permissions of its second page have been changed. -/
def splitState : State Unit :=
  match run Env.plain bootState [.protect 0x1000 0x1000 PROT_READ] with
  | .ok s => s
  | .error _ => bootState

/-- The part in front of the page has become the first region, and the region behind that part
has no link back. -/
theorem protect_breaks_first_link :
    mmapInit Env.plain () = .ok (.ok, bootState) ∧
    run Env.plain bootState [.protect 0x1000 0x1000 PROT_READ] = .ok splitState ∧
    ¬ ∃ l, WellFormed splitState l := by
  refine ⟨rfl, rfl, ?_⟩
  rintro ⟨l, hl⟩
  have hhead : splitState.head = some 1 := by decide +kernel
  have hnext : (splitState.mem 1).next = some 0 := by decide +kernel
  have hprev : (splitState.mem 0).prev = none := by decide +kernel
  have hmem : 1 ∈ l := List.mem_of_head? (hl.head.symm.trans hhead)
  have hmem' : 0 ∈ l := hl.chain.next_mem hmem hnext
  have hback := (hl.inverse 1 hmem 0 hmem').1 hnext
  rw [hprev] at hback
  exact absurd hback (by simp)

end Mmap
end Mm
end XytherOS
