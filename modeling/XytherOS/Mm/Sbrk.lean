import XytherOS.Mm.MmapRun

/-!
# Sbrk — the program break

`sbrk` moves the break of the current process and resizes its heap region by the same number of
bytes.  The region starts out larger than what lies below the break, so that a negative increment
can be too much for the break although the region has room for it.  And a heap that `sbrk` has to
make first stays when the resize is refused.
-/

namespace XytherOS
namespace Mm
namespace Mmap

open Links Spans

variable {π : Type} {env : Env π} {s s' m : State π} {v v₁ v₂ : View} {p : Nat} {r : Region}

def UHEAP_MAX : BitVec 64 := 0x40000000

def PROT_RWX : BitVec 32 := PROT_READ ||| PROT_WRITE ||| PROT_EXEC

namespace State

def withBrk (s : State π) (brk : BitVec 64) : State π :=
  s.withAccount { s.toAccount with brk := brk }

/-- `mmap->heap = heap` and `mmap->brk = __vmr_start(heap)`. -/
def adoptHeap (s : State π) (heap : Nat) : State π :=
  s.withAccount { s.toAccount with heap := some heap, brk := (s.region heap).start }

end State

/-- The first half of `sbrk`: a process without a heap is given one. -/
def sbrkHeap (env : Env π) (s : State π) : Except Fault (Ret × State π) :=
  match s.heap with
  | some _ => return (.ok, s)
  | none => do
      match ← mmapAllocVmr env s UHEAP_MAX PROT_RWX MAP_PRIVATE with
      | (.err e, _, s) => return (.err e, s)
      | (.ok, none, _) => throw .nullDeref
      | (.ok, some heap, s) => return (.ok, s.adoptHeap heap)

def heapExpand (env : Env π) (s : State π) (increment : BitVec 64) :
    Except Fault (Ret × State π) :=
  match s.heap with
  | none => return (.err .EINVAL, s)
  | some heap => mmapVmrExpand env s heap increment

/-- The second half of `sbrk`: the heap is resized, and the break moves along. -/
def sbrkMove (env : Env π) (s : State π) (increment : BitVec 64) :
    Except Fault (Except Errno (BitVec 64) × State π) := do
  match ← heapExpand env s increment with
  | (.err e, s) => return (.error e, s)
  | (.ok, s) => return (.ok s.brk, s.withBrk (s.brk + increment))

def sbrk (env : Env π) (s : State π) (increment : BitVec 64) :
    Except Fault (Except Errno (BitVec 64) × State π) := do
  match ← sbrkHeap env s with
  | (.err e, s) => return (.error e, s)
  | (.ok, s) => sbrkMove env s increment

def sbrkStep (env : Env π) (s : State π) (increment : BitVec 64) : Except Fault (State π) := do
  let (_, s) ← sbrk env s increment
  return s

def BreakInside (s : State π) : Prop :=
  ∀ h, s.heap = some h →
    (s.region h).start ≤ s.brk ∧ s.brk.toNat ≤ (s.region h).endAddr.toNat + 1

def HeapKept (s s' : State π) : Prop :=
  s'.brk = s.brk ∧ s'.heap = s.heap ∧ ∀ h, s.heap = some h → s'.region h = s.region h

/-- A heap of the contents `r` with the break `brk` stays in step with a move by `increment`: the
break does not fall below the start of a heap that shrinks. -/
def keepsBreak (r : Region) (brk increment : BitVec 64) : Bool :=
  r.dontexpand || decide (0 ≤ increment.toInt) ||
    decide ((r.size.toNat : Int) + increment.toInt ≤ 0) ||
    decide ((r.start.toNat : Int) ≤ brk.toNat + increment.toInt)

def State.hasRoom (s : State π) (addr increment : BitVec 64) : Bool :=
  match mmapGetholesize s addr with
  | .ok (.ok, hole) => increment ≤ hole
  | _ => false

/-- A process that has a heap does not move the break below it; one that has none and finds a place
for one then leaves it alone, gives it up again, or grows it into free space. -/
def sbrkOrderly (env : Env π) (s : State π) (increment : BitVec 64) : Bool :=
  match s.heap with
  | some heap => keepsBreak (s.region heap) s.brk increment
  | none =>
    match mmapFindHoleat s 0 UHEAP_MAX .start with
    | .ok (.ok addr) => env.oom s.allocs || increment == 0 || increment == -UHEAP_MAX ||
        (decide (0 < increment.toInt) && s.hasRoom (addr + UHEAP_MAX) increment)
    | _ => true

/-! ## Moving the break -/

/-- The heap of `s` is a region of the list that grows up, and the break is inside. -/
structure HeapRel (s : State π) (v : View) : Prop where
  rel : Rel s v
  heap : ∀ h, s.heap = some h → h ∈ ids v ∧ (s.region h).growsdown = false
  inside : BreakInside s

theorem HeapRel.of_none (hrel : Rel s v) (hheap : s.heap = none) : HeapRel s v := by
  refine ⟨hrel, ?_, ?_⟩
  · exact fun h hh => absurd (hheap.symm.trans hh) (by simp)
  · exact fun h hh => absurd (hheap.symm.trans hh) (by simp)

section Move

variable {incr : BitVec 64}

theorem moved_break {brk : BitVec 64} (hle : r.start ≤ r.endAddr) (hlim : r.endAddr ≤ mmapLimit)
    (hin : r.start ≤ brk ∧ brk.toNat ≤ r.endAddr.toNat + 1) (hcan : r.dontexpand = false)
    (hpos : 0 < (r.size.toNat : Int) + incr.toInt) (hok : keepsBreak r brk incr = true) :
    r.start ≤ brk + incr ∧ (brk + incr).toNat ≤ (r.endAddr + incr).toNat + 1 := by
  have hend : r.endAddr.toNat < 2 ^ 47 := by
    simp only [mmapLimit] at hlim
    bv_omega
  simp only [BitVec.le_def] at hle hin ⊢
  have hsize : (r.size.toNat : Int) = r.endAddr.toNat + 1 - r.start.toNat := by
    simp only [Region.size]
    bv_omega
  have hlo : (r.start.toNat : Int) ≤ brk.toNat + incr.toInt := by
    simp only [keepsBreak, hcan, Bool.false_or, Bool.or_eq_true, decide_eq_true_eq] at hok
    omega
  have hbrk : ((brk + incr).toNat : Int) = brk.toNat + incr.toInt :=
    toNat_add_toInt (by omega) (by omega)
  have hend' : ((r.endAddr + incr).toNat : Int) = r.endAddr.toNat + incr.toInt :=
    toNat_add_toInt (by omega) (by omega)
  omega

theorem HeapRel.move_safe (h : HeapRel s v) (hheap : s.heap = some p)
    (hok : keepsBreak (s.region p) s.brk incr = true) :
    Safe (OpFault env) (sbrkMove env s incr) fun x =>
      (∃ v', HeapRel x.2 v') ∧ (x.1.isOk = false → x.2 = s) := by
  rw [sbrkMove, heapExpand, hheap]
  refine (h.rel.expand_safe p incr).bind ?_
  rintro ⟨ret, s'⟩ hout
  rcases h.heap p hheap with ⟨hmem, hdir⟩
  have hinside := h.inside p hheap
  cases hout with
  | unchanged state ret =>
    have heq : s' = s := state
    subst heq
    rename_i ret'
    cases ret' with
    | err e => exact ⟨⟨v, h⟩, fun _ => rfl⟩
    | ok =>
      have hsame : s'.withBrk (s'.brk + incr) = s' := by
        have hadd : s'.brk + 0 = s'.brk := BitVec.add_zero s'.brk
        rw [ret rfl, hadd]
        rfl
      exact ⟨⟨v, hsame.symm ▸ h⟩, fun _ => hsame⟩
  | unlisted fresh rel account => exact absurd hmem fresh
  | @resized v₁ v₂ r view ret ne can state rel pos hole =>
    subst view
    cases ret
    simp only at state rel
    have hreg : s.region p = r := h.rel.region (p, r) (by simp)
    have hreg' : s'.region p = r.withBounds r.start (r.endAddr + incr) := by
      rw [hreg] at hdir
      simp [state, Region.resized, hdir]
    have hacc : s'.toAccount = s.toAccount := by rw [state]; rfl
    have hbrk : s'.brk = s.brk := congrArg Account.brk hacc
    have hheap' : s'.heap = some p := (congrArg Account.heap hacc).trans hheap
    refine ⟨⟨_, rel.withAccount _, ?_, ?_⟩, fun hfalse => absurd hfalse (by simp [Except.isOk, Except.toBool])⟩
    · intro h' hh'
      cases hheap'.symm.trans hh'
      refine ⟨by simp, ?_⟩
      change (s'.region p).growsdown = false
      rw [hreg']
      exact hreg ▸ hdir
    · intro h' hh'
      cases hheap'.symm.trans hh'
      change (s'.region p).start ≤ s'.brk + incr ∧
        (s'.brk + incr).toNat ≤ (s'.region p).endAddr.toNat + 1
      rw [hreg] at hinside hok
      rw [hreg', hbrk]
      have hb := h.rel.bounds (e := (p, r)) (by simp)
      exact moved_break hb.1 hb.2 hinside can pos hok
  | @removed v₁ v₂ r view ret can rem zero =>
    subst view
    cases ret
    rcases rem.account with ⟨pt, -, hacc⟩
    have hnone : s'.heap = none := by
      rw [hacc]
      simp [forget, hheap, Account.withPt]
    refine ⟨⟨_, .of_none ((rem.rel h.rel).withAccount _) hnone⟩, fun hfalse => absurd hfalse (by simp [Except.isOk, Except.toBool])⟩

theorem Near.move (hnear : Near s p m) (hheap : s.heap = some p)
    (hmem : mmapContains s p = .ok true) (incr : BitVec 64) :
    sbrkMove env s incr = sbrkMove env m incr ∨
      ∃ ret s' m', sbrkMove env s incr = .ok (ret, s') ∧ Near s' p m' ∧ s'.heap = some p ∧
        sbrkMove env m incr = .ok (ret, m') := by
  cases hnear with
  | same => exact .inl rfl
  | @slip q hslip =>
    have hheap' : (s.mend q p).heap = some p := hheap
    simp only [sbrkMove, heapExpand, hheap, hheap']
    rcases hslip.expand hmem incr with heq | ⟨ret, s', hs, hslip', hacc, hm⟩
    · exact .inl (by rw [heq])
    · rw [hs, hm]
      have hheap'' : s'.heap = some p := (congrArg Account.heap hacc).trans hheap
      cases ret with
      | err e => exact .inr ⟨_, _, _, rfl, .slip hslip', hheap'', rfl⟩
      | ok =>
        have hslip'' : Slip (s'.withBrk (s'.brk + incr)) p q :=
          ⟨hslip'.ne, hslip'.head, hslip'.next, hslip'.prev, hslip'.back⟩
        exact .inr ⟨_, _, _, rfl, .slip hslip'', hheap'', rfl⟩

/-- The heap is in order, up to the link that is missing when it was slipped in ahead of the first
region. -/
def HeapOk (s : State π) : Prop :=
  ∃ m v, HeapRel m v ∧ (m = s ∨ ∃ p, s.heap = some p ∧ Near s p m)

theorem HeapKept.refl (s : State π) : HeapKept s s := ⟨rfl, rfl, fun _ _ => rfl⟩

theorem HeapKept.of_eq (hacc : s'.toAccount = s.toAccount)
    (hreg : ∀ x, s'.region x = s.region x) : HeapKept s s' :=
  ⟨congrArg Account.brk hacc, congrArg Account.heap hacc, fun h _ => hreg h⟩

theorem HeapOk.inside (h : HeapOk s) : BreakInside s := by
  rcases h with ⟨m, v, hrel, rfl | ⟨p, hheap, hnear⟩⟩
  · exact hrel.inside
  · intro h hh
    have hheap' : m.heap = some h := (congrArg Account.heap hnear.account).trans hh
    have hbrk : m.brk = s.brk := congrArg Account.brk hnear.account
    have hin := hrel.inside h hheap'
    rw [hnear.region, hbrk] at hin
    exact hin

theorem HeapRel.contains_heap (h : HeapRel m v) (hnear : Near s p m) (hheap : m.heap = some p) :
    mmapContains s p = .ok true := by
  have hcontains := h.rel.contains_eq p
  rw [decide_eq_true (h.heap p hheap).1] at hcontains
  cases hnear with
  | same => exact hcontains
  | slip hslip => rwa [mmapContains_mend] at hcontains

theorem HeapOk.move (h : HeapOk s) (hheap : s.heap = some p)
    (hok : keepsBreak (s.region p) s.brk incr = true) :
    Safe (OpFault env) (sbrkMove env s incr) fun x =>
      HeapOk x.2 ∧ (x.1.isOk = false → HeapKept s x.2) := by
  rcases h with ⟨m, v, hrel, rfl | ⟨p', hheap', hnear⟩⟩
  · refine (hrel.move_safe hheap hok).mono ?_
    rintro ⟨ret, s'⟩ ⟨⟨v', hrel'⟩, herr⟩
    refine ⟨⟨s', v', hrel', .inl rfl⟩, fun hfalse => ?_⟩
    have heq : s' = m := herr hfalse
    exact heq ▸ .refl _
  cases hheap.symm.trans hheap'
  have hbrk : m.brk = s.brk := congrArg Account.brk hnear.account
  have hmheap : m.heap = some p := (congrArg Account.heap hnear.account).trans hheap
  have hmove : Safe (OpFault env) (sbrkMove env m incr) fun x =>
      (∃ v', HeapRel x.2 v') ∧ (x.1.isOk = false → x.2 = m) :=
    hrel.move_safe hmheap (by rw [hnear.region, hbrk]; exact hok)
  have hmem := hrel.contains_heap hnear hmheap
  rcases hnear.move hheap hmem incr with heq | ⟨ret, s', m', hs, hnear', hheap'', hm⟩
  · -- the removal has mended the list
    rw [heq]
    refine hmove.mono ?_
    rintro ⟨ret, m'⟩ ⟨⟨v', hrel'⟩, herr⟩
    refine ⟨⟨m', v', hrel', .inl rfl⟩, fun hfalse => ?_⟩
    have heq : m' = m := herr hfalse
    exact heq ▸ .of_eq hnear.account hnear.region
  · rcases hmove.of_eq_ok hm with ⟨⟨v', hrel'⟩, herr⟩
    rw [hs]
    refine ⟨⟨m', v', hrel', .inr ⟨p, hheap'', hnear'⟩⟩, fun hfalse => ?_⟩
    have heq : m' = m := herr hfalse
    subst heq
    exact .of_eq (hnear'.account.symm.trans hnear.account)
      fun x => (hnear'.region x).symm.trans (hnear.region x)

end Move

/-! ## Making a heap -/

section Create

variable {incr : BitVec 64} {q : Nat}

theorem Rel.room_behind (h : Rel s (v₁ ++ v₂)) (hm : Rel m (v₁ ++ (q, r) :: v₂))
    (hdir : r.growsdown = false) (hroom : s.hasRoom r.upperBound incr = true) :
    HoleFor m r incr := by
  rcases h.getholesize_cases r.upperBound with hnone | ⟨w₁, w₂, hw, hle, hgap, hhole⟩
  · simp [State.hasRoom, hnone] at hroom
  rcases hm.around with ⟨hb, hbelow, habove⟩
  have hlim := hm.limit (q, r) (by simp)
  simp only [mmapLimit] at hlim
  have habove' : ∀ e ∈ v₂, r.upperBound.toNat < lo e := by
    intro e he
    have hlt := habove e he
    have hbe := (h.bounds (e := e) (by simp [he])).1
    have hmem : e ∈ w₁ ++ w₂ := hw ▸ by simp [he]
    rcases List.mem_append.1 hmem with hmem | hmem
    · have hlt' := hgap.below e hmem
      simp only [hi, Region.upperBound] at hlt'
      exact absurd hlt' (by bv_omega)
    · exact hgap.above e hmem
  have hgap1 : Gap lo hi r.upperBound.toNat v₁ v₂ := by
    refine ⟨?_, habove'⟩
    intro e he
    have hlt := hbelow e he
    simp only [hi, Region.upperBound]
    bv_omega
  have hgap2 : Gap lo hi r.upperBound.toNat (v₁ ++ [(q, r)]) v₂ := by
    refine ⟨?_, habove'⟩
    intro e he
    rcases List.mem_append.1 he with he | he
    · exact hgap1.below e he
    · rw [List.mem_singleton.1 he]
      simp only [hi, Region.upperBound]
      bv_omega
  rw [List.append_cons] at hm
  have hhole1 := h.getholesize_gap hgap1 hle
  have hhole2 := hm.getholesize_gap hgap2 hle
  refine ⟨_, by simpa [hdir] using hhole2, ?_⟩
  simpa [State.hasRoom, hhole1] using hroom

theorem Rel.expand_ok (h : Rel s (v₁ ++ (p, r) :: v₂)) (hcan : r.dontexpand = false)
    (hdir : r.growsdown = false)
    (hcond : incr = 0 ∨ r.size + incr = 0 ∨ (0 < incr.toInt ∧ HoleFor s r incr)) :
    Safe (OpFault env) (mmapVmrExpand env s p incr) fun x => x.1 = .ok := by
  have hreg : s.region p = r := h.region (p, r) (by simp)
  have hsize := h.size_eq.2.1
  rw [mmapVmrExpand]
  by_cases hincr : incr = 0
  · rw [if_pos hincr]
    rfl
  simp only [if_neg hincr, hreg, hcan, hdir, Bool.false_eq_true, if_false, expandUp]
  rcases hcond with hzero | hzero | ⟨hpos, hole, hhole, hle⟩
  · exact absurd hzero hincr
  · have hslt : ¬ r.size.slt (r.size + incr) = true := by
      rw [slt_add_iff hsize]
      rintro ⟨hpos, hlt⟩
      rw [BitVec.toInt_eq_toNat_cond] at hpos
      split_ifs at hpos <;> bv_omega
    rw [if_neg hslt, hzero, if_neg (by decide), if_pos rfl]
    refine (h.remove_safe.faults fun _ => .inr).mono ?_
    exact fun x hx => hx.1
  · simp only [hdir, Bool.false_eq_true, if_false] at hhole
    have hbound : hole.toNat ≤ 2 ^ 47 := by
      rcases h.getholesize_cases r.upperBound with hnone | ⟨w₁, w₂, hw, hlim, hgap, heq⟩
      · rw [hnone] at hhole
        cases hhole
      · have hceil := (hw ▸ h.toListed).lt_ceiling hgap hlim
        rw [heq] at hhole
        cases hhole
        simp only [mmapLimit] at hceil
        bv_omega
    have hslt : r.size.slt (r.size + incr) = true := by
      rw [slt_add_iff hsize]
      exact ⟨hpos, by bv_omega⟩
    rw [if_pos hslt, hhole]
    simp only [ok_bind, if_pos hle]
    rfl

def heapRegion (addr : BitVec 64) : Region := newRegion addr UHEAP_MAX PROT_RWX MAP_PRIVATE

theorem heapRegion_size (addr : BitVec 64) : (heapRegion addr).size = UHEAP_MAX := by
  simp only [heapRegion, newRegion, Region.size]
  bv_omega

theorem heapRegion_upperBound (addr : BitVec 64) :
    (heapRegion addr).upperBound = addr + UHEAP_MAX := by
  simp only [heapRegion, newRegion, Region.upperBound]
  bv_omega

theorem heapRegion_dontexpand (addr : BitVec 64) : (heapRegion addr).dontexpand = false := by
  change has (mapFlags PROT_RWX MAP_PRIVATE) VM_DONTEXPAND = false
  decide

theorem heapRegion_growsdown (addr : BitVec 64) : (heapRegion addr).growsdown = false := by
  change has (mapFlags PROT_RWX MAP_PRIVATE) VM_GROWSDOWN = false
  decide

theorem Rel.adoptHeap {addr : BitVec 64} (h : Rel m (v₁ ++ (q, heapRegion addr) :: v₂)) :
    HeapRel (m.adoptHeap q) (v₁ ++ (q, heapRegion addr) :: v₂) := by
  have hreg : (m.adoptHeap q).region q = heapRegion addr :=
    h.region (q, heapRegion addr) (by simp)
  have hbrk : (m.adoptHeap q).brk = (heapRegion addr).start :=
    congrArg Region.start (h.region (q, heapRegion addr) (by simp))
  have hb := h.bounds (e := (q, heapRegion addr)) (by simp)
  refine ⟨h.withAccount _, ?_, ?_⟩
  · rintro h' hh'
    cases hh'
    exact ⟨by simp, hreg ▸ heapRegion_growsdown addr⟩
  · rintro h' hh'
    cases hh'
    rw [hreg, hbrk]
    exact ⟨BitVec.le_refl _, by bv_omega⟩

theorem Near.adoptHeap (hnear : Near s q m) : Near (s.adoptHeap q) q (m.adoptHeap q) := by
  cases hnear with
  | same => exact .same
  | @slip q' hslip =>
    have hslip' : Slip (s.adoptHeap q) q q' :=
      ⟨hslip.ne, hslip.head, hslip.next, hslip.prev, hslip.back⟩
    have hmend : (s.mend q' q).adoptHeap q = (s.adoptHeap q).mend q' q := by
      simp only [State.adoptHeap, State.mend_region]
      rfl
    exact hmend ▸ .slip hslip'

theorem Rel.move_ok {addr : BitVec 64} (h : Rel m (v₁ ++ (q, heapRegion addr) :: v₂))
    (hheap : m.heap = some q)
    (hcond : incr = 0 ∨ incr = -UHEAP_MAX ∨ (0 < incr.toInt ∧ HoleFor m (heapRegion addr) incr)) :
    Safe (OpFault env) (sbrkMove env m incr) fun x => x.1.isOk = true := by
  rw [sbrkMove, heapExpand, hheap]
  have hexpand : Safe (OpFault env) (mmapVmrExpand env m q incr) fun x => x.1 = .ok := by
    refine h.expand_ok (heapRegion_dontexpand addr) (heapRegion_growsdown addr) ?_
    rcases hcond with hzero | hneg | hgrow
    · exact .inl hzero
    · refine .inr (.inl ?_)
      rw [heapRegion_size, hneg]
      decide
    · exact .inr (.inr hgrow)
  refine hexpand.bind ?_
  rintro ⟨ret, s'⟩ hret
  cases hret
  rfl

theorem HeapOk.create (h : Rel s v) (hheap : s.heap = none)
    (hok : sbrkOrderly env s incr = true) :
    Safe (OpFault env) (sbrk env s incr) fun x =>
      HeapOk x.2 ∧ (x.1.isOk = false → HeapKept s x.2) := by
  have halloc : mmapAllocVmr env s UHEAP_MAX PROT_RWX MAP_PRIVATE =
      mmapMapRegion env s 0 UHEAP_MAX PROT_RWX MAP_PRIVATE true := by
    rw [mmapAllocVmr, if_neg (by decide)]
  rw [sbrk, sbrkHeap, hheap]
  simp only
  rw [halloc, bind_assoc]
  refine ((h.mapRegion_place (by decide) true).faults fun _ hf => hf.elim).bind ?_
  rintro ⟨ret, out, s₁⟩ ⟨a, hout, hfind⟩
  cases hout with
  | failed hret rel account =>
    cases ret with
    | ok => exact absurd rfl hret
    | err e =>
      have hnone : s₁.heap = none := (congrArg Account.heap account).trans hheap
      refine ⟨⟨s₁, v, .of_none rel hnone, .inl rfl⟩, fun _ => ?_⟩
      refine ⟨congrArg Account.brk account, hnone.trans hheap.symm, ?_⟩
      exact fun h hh => absurd (hheap.symm.trans hh) (by simp)
  | @mapped m v₁ v₂ q view hret fresh hout near memory same rel account =>
    cases hret
    cases hout
    subst view
    have hlen : mapLen UHEAP_MAX MAP_PRIVATE = UHEAP_MAX := rfl
    rw [hlen] at rel account hfind
    have hregion : newRegion a UHEAP_MAX PROT_RWX MAP_PRIVATE = heapRegion a := rfl
    rw [hregion] at rel account
    -- the new heap, with and without the missing link
    have hmheap : (m.adoptHeap q).heap = some q := rfl
    have hnew : HeapOk (s₁.adoptHeap q) :=
      ⟨_, _, rel.adoptHeap, .inr ⟨q, rfl, near.adoptHeap⟩⟩
    have hreg : s₁.region q = heapRegion a :=
      (near.region q).symm.trans (rel.region (q, heapRegion a) (by simp))
    have hcond : incr = 0 ∨ incr = -UHEAP_MAX ∨
        (0 < incr.toInt ∧ HoleFor (m.adoptHeap q) (heapRegion a) incr) := by
      have hfind' : mmapFindHoleat s 0 UHEAP_MAX .start = .ok (.ok a) := hfind rfl
      simp only [sbrkOrderly, hheap, hfind', memory, Bool.false_or, Bool.or_eq_true,
        Bool.and_eq_true, beq_iff_eq, decide_eq_true_eq] at hok
      rcases hok with (hzero | hneg) | ⟨hpos, hroom⟩
      · exact .inl hzero
      · exact .inr (.inl hneg)
      · rw [← heapRegion_upperBound] at hroom
        exact .inr (.inr ⟨hpos, h.room_behind rel.adoptHeap.rel (heapRegion_growsdown a) hroom⟩)
    have hkeeps : keepsBreak ((s₁.adoptHeap q).region q) (s₁.adoptHeap q).brk incr = true := by
      have hreg' : (s₁.adoptHeap q).region q = heapRegion a := hreg
      rw [hreg']
      simp only [keepsBreak, heapRegion_size, Bool.or_eq_true, decide_eq_true_eq]
      rcases hcond with rfl | rfl | ⟨hpos, -⟩
      · exact .inl (.inl (.inr (by decide)))
      · exact .inl (.inr (by decide))
      · exact .inl (.inl (.inr (by omega)))
    have hret : Safe (OpFault env) (sbrkMove env (s₁.adoptHeap q) incr)
        fun x => x.1.isOk = true := by
      have hmove : Safe (OpFault env) (sbrkMove env (m.adoptHeap q) incr)
          fun x => x.1.isOk = true := rel.adoptHeap.rel.move_ok hmheap hcond
      have hmem := rel.adoptHeap.contains_heap near.adoptHeap hmheap
      rcases near.adoptHeap.move rfl hmem incr with heq | ⟨ret, s', m', hs, -, -, hm⟩
      · rw [heq]
        exact hmove
      · have hisOk := hmove.of_eq_ok hm
        rw [hs]
        exact hisOk
    have hmoved : Safe (OpFault env) (sbrkMove env (s₁.adoptHeap q) incr) fun x =>
        HeapOk x.2 ∧ (x.1.isOk = false → HeapKept (s₁.adoptHeap q) x.2) :=
      hnew.move rfl hkeeps
    refine (hmoved.and hret).mono ?_
    rintro x ⟨⟨hheapOk, -⟩, hisOk⟩
    exact ⟨hheapOk, fun hfalse => absurd (hisOk.symm.trans hfalse) (by simp)⟩

end Create

/-- The step lemma. -/
theorem HeapOk.sbrk_safe (h : HeapOk s) {incr : BitVec 64}
    (hok : sbrkOrderly env s incr = true) :
    Safe (OpFault env) (sbrk env s incr) fun x =>
      HeapOk x.2 ∧ (x.1.isOk = false → HeapKept s x.2) := by
  cases hheap : s.heap with
  | some p =>
    have hkeeps : keepsBreak (s.region p) s.brk incr = true := by
      simpa [sbrkOrderly, hheap] using hok
    rw [sbrk, sbrkHeap, hheap]
    exact h.move hheap hkeeps
  | none =>
    rcases h with ⟨m, v, hrel, rfl | ⟨p, hheap', -⟩⟩
    · exact HeapOk.create hrel.rel hheap hok
    · exact absurd (hheap.symm.trans hheap') (by simp)

/-- Over every sequence of `sbrk` calls that do not move the break below the heap, and of which
none makes a heap that it then cannot resize, the break stays inside the heap, and a call that
returns an error leaves both alone. -/
theorem program_break_inside {π : Type} (env : Env π) (s₀ : State π) (v : View) (heap : Nat)
    (increments : List (BitVec 64)) (hwf : Rel s₀ v) (hheap : s₀.heap = some heap)
    (hmapped : (s₀.mem heap).mapped = true) (hup : (s₀.region heap).growsdown = false)
    (hinside : BreakInside s₀)
    (hrun : guarded (sbrkStep env) (sbrkOrderly env) s₀ increments = true) :
    Safe (OpFault env) (runs (sbrkStep env) s₀ increments) fun s => BreakInside s ∧
      ∀ increment, sbrkOrderly env s increment = true →
        Safe (OpFault env) (sbrk env s increment) fun x =>
          BreakInside x.2 ∧ (x.1.isOk = false → HeapKept s x.2) := by
  have h₀ : HeapOk s₀ := by
    refine ⟨s₀, v, ⟨hwf, ?_, hinside⟩, .inl rfl⟩
    intro h hh
    cases hheap.symm.trans hh
    exact ⟨(hwf.mapped heap).1 hmapped, hup⟩
  have hstep : ∀ s incr, HeapOk s → sbrkOrderly env s incr = true →
      Safe (OpFault env) (sbrkStep env s incr) HeapOk :=
    fun s incr h hok => (h.sbrk_safe hok).bind fun x hx => hx.1
  refine (Safe.runs hstep h₀ hrun).mono ?_
  intro s h
  refine ⟨h.inside, fun increment hok => ?_⟩
  refine (h.sbrk_safe hok).mono ?_
  exact fun x hx => ⟨hx.1.inside, hx.2⟩

/-- The boot address space with a heap of `UHEAP_MAX` bytes. -/
def heapState : State Unit :=
  match run Env.plain bootState [.mapRegion 0 UHEAP_MAX PROT_RWX MAP_PRIVATE true] with
  | .ok s => s.adoptHeap 1
  | .error _ => bootState

theorem heapState_rel : ∃ v, Rel heapState v := by
  have hinit : mmapInit Env.plain () = .ok (.ok, bootState) := rfl
  rcases mmapInit_rel hinit with ⟨q, hrel, -⟩
  have hrun : orderlyRun Env.plain bootState
      [.mapRegion 0 UHEAP_MAX PROT_RWX MAP_PRIVATE true] = true := by
    decide +kernel
  rcases (hrel.run_safe hrun).of_eq_ok rfl with ⟨v, hv⟩
  exact ⟨v, hv.withAccount _⟩

theorem program_break_inside_calls :
    let increments := [0x1000, -0x800, 0x7FFFFFFFFFFF, -0x50000000, -0x40000800, 0, 0x2000]
    guarded (sbrkStep Env.plain) (sbrkOrderly Env.plain) heapState increments = true ∧
    (runs (sbrkStep Env.plain) heapState increments).isOk = true ∧
    Safe (OpFault Env.plain) (runs (sbrkStep Env.plain) heapState increments) fun s =>
      BreakInside s ∧ ∀ increment, sbrkOrderly Env.plain s increment = true →
        Safe (OpFault Env.plain) (sbrk Env.plain s increment) fun x =>
          BreakInside x.2 ∧ (x.1.isOk = false → HeapKept s x.2) := by
  intro increments
  have hrun : guarded (sbrkStep Env.plain) (sbrkOrderly Env.plain) heapState increments = true := by
    decide +kernel
  rcases heapState_rel with ⟨v, hwf⟩
  refine ⟨hrun, by decide +kernel, ?_⟩
  refine program_break_inside Env.plain heapState v 1 increments hwf rfl (by decide +kernel)
    (by decide +kernel) ?_ hrun
  intro h hh
  cases hh
  decide +kernel

def fallenState : State Unit :=
  match sbrkStep Env.plain heapState (-0x1000) with
  | .ok s => s
  | .error _ => heapState

/-- The region shrinks at its end, and the break moves below its start. -/
theorem sbrk_moves_break_below_heap :
    (∃ v, Rel heapState v) ∧ heapState.heap = some 1 ∧ BreakInside heapState ∧
    sbrkStep Env.plain heapState (-0x1000) = .ok fallenState ∧
    (sbrk Env.plain heapState (-0x1000)).toOption.map (·.1.isOk) = some true ∧
    ¬ BreakInside fallenState := by
  refine ⟨heapState_rel, rfl, ?_, rfl, by decide +kernel, ?_⟩
  · intro h hh
    cases hh
    decide +kernel
  · intro hin
    have hlow := (hin 1 rfl).1
    exact absurd hlow (by decide +kernel)

end Mmap
end Mm
end XytherOS
