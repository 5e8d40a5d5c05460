import XytherOS.Mm.PmmAccount

/-!
# PmmSound — the blocks that the page allocator hands out

A `Heap` is the zones with the blocks that were allocated and not freed again.  `do_page_alloc_n`
takes the first run of clear bits, so that blocks never share a frame and a request fails only when
there is no run.

Two things are not as they should be at the end of a zone.  The last page handle of a zone whose
size is no multiple of the page size stands for a frame that sticks out of the zone, and it is
handed out like the others.  And `do_page_free_n` takes a block that ends with the zone for one
that lies outside, and frees nothing.
-/

namespace XytherOS
namespace Mm
namespace Pmm

open Ds Bitmap

/-! ## Frames -/

structure SameFrames (zone zone' : Zone) : Prop where
  start : zone'.start = zone.start
  size : zone'.size = zone.size
  npages : zone'.npages = zone.npages
  valid : zone'.valid = zone.valid
  bits : zone'.bitmap.size = zone.bitmap.size

theorem SameFrames.refl (zone : Zone) : SameFrames zone zone := ⟨rfl, rfl, rfl, rfl, rfl⟩

theorem SameFrames.trans {zone1 zone2 zone3 : Zone} (h : SameFrames zone1 zone2)
    (h' : SameFrames zone2 zone3) : SameFrames zone1 zone3 :=
  ⟨h'.start.trans h.start, h'.size.trans h.size, h'.npages.trans h.npages,
    h'.valid.trans h.valid, h'.bits.trans h.bits⟩

variable {zones : Zones} {order : BitVec 64} {gfp : BitVec 32}

theorem sameFrames_setZone {z : Fin NZONE} {zone : Zone}
    (h : SameFrames (zones z) zone) : ∀ y, SameFrames (zones y) (setZone zones z zone y) := by
  intro y
  by_cases hy : y = z
  · subst hy
    simpa [setZone] using h
  · simpa [setZone, hy] using SameFrames.refl (zones y)

theorem getzoneByaddr_congr {zones' : Zones} (h : ∀ z, SameFrames (zones z) (zones' z))
    (paddr size : BitVec 64) :
    getzoneByaddr zones' paddr size = getzoneByaddr zones paddr size := by
  simp only [getzoneByaddr, (h _).start, (h _).size, (h _).valid]

def frames (zone : Zone) : Nat := zone.size.toNat / 4096

/-- A zone as `zones_init` leaves it: the accounts agree, there is a handle for each frame, also
for a last one that sticks out, and the zone does not wrap around the address space. -/
structure Formed (zone : Zone) : Prop where
  accounted : Accounted zone
  npages : zone.npages = (NPAGE zone.size).toNat
  inMemory : zone.start.toNat + zone.size.toNat ≤ 2 ^ 64

theorem toNat_NPAGE (x : BitVec 64) :
    (NPAGE x).toNat = x.toNat / 4096 + if x.toNat % 4096 = 0 then 0 else 1 := by
  have hmask : (x &&& (PGSZ - 1) = 0) ↔ x.toNat % 4096 = 0 := by
    have hand : (x &&& (PGSZ - 1)).toNat = x.toNat % 4096 := by
      rw [BitVec.toNat_and]
      exact Nat.and_two_pow_sub_one_eq_mod x.toNat 12
    rw [← hand]
    constructor
    · intro h
      rw [h]
      rfl
    · intro h
      exact BitVec.eq_of_toNat_eq h
  have hdiv : (x / PGSZ).toNat = x.toNat / 4096 := by
    rw [BitVec.toNat_udiv]
    rfl
  have hlt := x.isLt
  rw [NPAGE]
  split_ifs with h₁ h₂ h₂
  · simp [hdiv]
  · exact absurd (hmask.1 h₁) h₂
  · exact absurd (hmask.2 h₂) h₁
  · rw [BitVec.toNat_add, hdiv]
    change (x.toNat / 4096 + 1) % 2 ^ 64 = x.toNat / 4096 + 1
    omega

theorem toNat_mul_PGSZ {i : Nat} (hi : i * 4096 < 2 ^ 64) :
    (BitVec.ofNat 64 i * PGSZ).toNat = i * 4096 := by
  have hi64 : i % 2 ^ 64 = i := Nat.mod_eq_of_lt (by omega)
  rw [BitVec.toNat_mul, BitVec.toNat_ofNat, hi64]
  change i * 4096 % 2 ^ 64 = i * 4096
  exact Nat.mod_eq_of_lt hi

theorem Formed.frames_le {zone : Zone} (h : Formed zone) :
    frames zone ≤ zone.npages ∧ zone.npages ≤ frames zone + 1 := by
  rw [h.npages, toNat_NPAGE, frames]
  split_ifs <;> omega

/-! ## The heap -/

structure Block where
  page : PagePtr
  order : BitVec 64
  deriving DecidableEq

namespace Block

def count (b : Block) : Nat := (BS b.order).toNat

def covers (b : Block) (z : Fin NZONE) (i : Nat) : Bool :=
  b.page.zone = z && b.page.index ≤ i && i < b.page.index + b.count

theorem covers_iff {b : Block} {z : Fin NZONE} {i : Nat} :
    b.covers z i = true ↔ b.page.zone = z ∧ b.page.index ≤ i ∧ i < b.page.index + b.count := by
  simp [covers, and_assoc]

end Block

structure Heap where
  zones : Zones
  live : List Block

def Heap.start (zones : Zones) : Heap := { zones := zones, live := [] }

/-- Allocation, and the release of the block number `k` by its handle or by its address. -/
inductive Op
  | alloc (gfp : BitVec 32) (order : BitVec 64)
  | free (k : Nat)
  | freeAddr (k : Nat)

def blockOf (order : BitVec 64) : Option (PagePtr × BitVec 64) → List Block
  | some (page, _) => [⟨page, order⟩]
  | none => []

def operate (env : Env) (h : Heap) : Op → Except Fault Heap
  | .alloc gfp order => do
      let (_, res, zones) ← doPageAllocN env h.zones gfp order
      return { zones := zones, live := blockOf order res ++ h.live }
  | .free k =>
    match h.live[k]? with
    | none => return h
    | some b => do
        let zones ← pageFreeN env h.zones b.page b.order
        return { zones := zones, live := h.live.eraseIdx k }
  | .freeAddr k =>
    match h.live[k]? with
    | none => return h
    | some b => do
        let addr := pageAddr (h.zones b.page.zone) b.page.index
        let zones ← pageFreeNAddr env h.zones addr b.order
        return { zones := zones, live := h.live.eraseIdx k }

/-- The frame is neither reserved, that is, marked in `zones₀`, nor in a block. -/
def FreeFrame (zones₀ : Zones) (h : Heap) (z : Fin NZONE) (i : Nat) : Prop :=
  (zones₀ z).bitmap.bits i = false ∧ ∀ b ∈ h.live, b.covers z i = false

def FreeRun (zones₀ : Zones) (h : Heap) (z : Fin NZONE) (n : Nat) : Prop :=
  ∃ i, i + n ≤ frames (zones₀ z) ∧ ∀ k, i ≤ k → k < i + n → FreeFrame zones₀ h z k

/-- A request that succeeds returns `2 ^ order` free frames in a row inside a zone, and one that
fails with `-ENOMEM` finds no such frames in its zone. -/
structure AllocSound (env : Env) (zones₀ : Zones) (h : Heap) (gfp : BitVec 32)
    (order : BitVec 64) : Prop where
  success : ∀ ret page addr zones',
    doPageAllocN env h.zones gfp order = .ok (ret, some (page, addr), zones') →
    ret = .ok ∧ gfpToZoneIndex gfp = some page.zone ∧
      addr.toNat = (zones₀ page.zone).start.toNat + page.index * 4096 ∧
      addr.toNat + 2 ^ order.toNat * 4096 ≤
        (zones₀ page.zone).start.toNat + (zones₀ page.zone).size.toNat ∧
      ∀ k, page.index ≤ k → k < page.index + 2 ^ order.toNat → FreeFrame zones₀ h page.zone k
  failure : ∀ res zones' z,
    doPageAllocN env h.zones gfp order = .ok (.err .ENOMEM, res, zones') →
    gfpToZoneIndex gfp = some z → ¬ FreeRun zones₀ h z (2 ^ order.toNat)

/-- There are `n` clear bits in a row among the first `limit`. -/
def hasRun (bits : Nat → Bool) (limit n : Nat) : Bool :=
  (List.range (limit + 1 - n)).any fun i => !anyBit bits i n true

/-- The frame that sticks out of the zone is not needed: the request finds its frames entirely in
the zone, or does not find them at all. -/
def allocFits (h : Heap) (gfp : BitVec 32) (order : BitVec 64) : Bool :=
  match gfpToZoneIndex gfp with
  | none => true
  | some z => decide (MAX_PAGE_ORDER ≤ order) ||
      hasRun (h.zones z).bitmap.bits (frames (h.zones z)) (BS order).toNat ||
      !hasRun (h.zones z).bitmap.bits (h.zones z).npages (BS order).toNat

def endsBefore (h : Heap) (b : Block) : Bool :=
  pageAddr (h.zones b.page.zone) b.page.index + BS b.order * PGSZ <
    (h.zones b.page.zone).start + (h.zones b.page.zone).size

def opFits (h : Heap) : Op → Bool
  | .alloc gfp order => allocFits h gfp order
  | .free k => (h.live[k]?).all fun b => endsBefore h b
  | .freeAddr k => (h.live[k]?).all fun b => endsBefore h b &&
      getzoneByaddr h.zones (pageAddr (h.zones b.page.zone) b.page.index) (BS b.order * PGSZ) =
        some b.page.zone

def HeapSound (env : Env) (zones₀ : Zones) (h : Heap) : Prop :=
  h.live.Pairwise (fun b b' => ∀ z i, b.covers z i = true → b'.covers z i = false) ∧
    ∀ gfp order, allocFits h gfp order = true → AllocSound env zones₀ h gfp order

/-! ## Allocation -/

theorem toNat_BS (h : order.toNat < 64) : (BS order).toNat = 2 ^ order.toNat := by
  have hpow : 2 ^ order.toNat < 2 ^ 64 := Nat.pow_lt_pow_right (by decide) h
  rw [BS, Nat.mod_eq_of_lt h, Nat.shiftLeft_eq, Nat.one_mul, BitVec.natCast_eq_ofNat,
    BitVec.toNat_ofNat, Nat.mod_eq_of_lt hpow]

theorem zeroFillIf_asserted (env : Env) (zero : Bool) (zone : Zone) (i : Nat) (z : Fin NZONE) :
    Safe Asserted (zeroFillIf env zero zone i z) fun _ => True := by
  rw [zeroFillIf]
  split_ifs
  · refine Safe.bind (P := fun _ => True) (assert_safe.mono fun _ _ => trivial) fun _ _ => ?_
    refine Safe.bind (P := fun _ => True) ?_ fun _ _ => assert_safe.mono fun _ _ => trivial
    rw [mountedAt]
    split_ifs
    · cases env.mount (pageAddr zone i) with
      | none => exact ⟨_, rfl⟩
      | some vaddr => trivial
    · trivial
  · trivial

theorem takePages_asserted (env : Env) (zero : Bool) (z : Fin NZONE) (n i : Nat) (zone : Zone) :
    Safe Asserted (takePages env zero z n i zone) fun _ => True := by
  induction n generalizing i zone with
  | zero => trivial
  | succ n ih =>
    refine assert_safe.bind fun _ _ => ?_
    refine assert_safe.bind fun _ _ => ?_
    refine Safe.bind (P := fun _ => True) (assert_safe.mono fun _ _ => trivial) fun _ _ => ?_
    exact (zeroFillIf_asserted env zero _ i z).bind fun _ _ => ih _ _

theorem doPageAllocN_asserted (env : Env) (zones : Zones) (gfp : BitVec 32) (order : BitVec 64) :
    Safe Asserted (doPageAllocN env zones gfp order) fun _ => True := by
  rw [doPageAllocN]
  cases selectZone zones gfp order with
  | error e => trivial
  | ok z =>
    simp only [allocInZone]
    split
    · trivial
    · exact (takePages_asserted env _ z _ _ _).bind fun _ _ => trivial

theorem selectZone_nomem
    (h : selectZone zones gfp order = .error .ENOMEM) : 64 ≤ order.toNat := by
  rw [selectZone] at h
  by_contra hlt
  have horder : ¬ MAX_PAGE_ORDER ≤ order := by
    rw [BitVec.le_def]
    exact hlt
  rw [validateInput, if_neg horder] at h
  split_ifs at h
  · simp at h
  · cases hindex : gfpToZoneIndex gfp with
    | none => simp [hindex] at h
    | some whence =>
      simp only [hindex, getzoneByindex] at h
      split_ifs at h
      simp at h

theorem selectZone_ok {z : Fin NZONE}
    (h : selectZone zones gfp order = .ok z) :
    order.toNat < 64 ∧ gfpToZoneIndex gfp = some z ∧ (zones z).valid = true := by
  rw [selectZone] at h
  cases hinput : validateInput gfp order with
  | err e => simp [hinput] at h
  | ok =>
    rw [hinput] at h
    have horder : ¬ MAX_PAGE_ORDER ≤ order := by
      intro hge
      rw [validateInput, if_pos hge] at hinput
      simp at hinput
    have hlt : order.toNat < 64 := by
      rw [BitVec.le_def] at horder
      exact Nat.lt_of_not_le horder
    cases hindex : gfpToZoneIndex gfp with
    | none => simp [hindex] at h
    | some whence =>
      simp only [hindex, getzoneByindex] at h
      split_ifs at h with hvalid
      · simp only [Except.ok.injEq] at h
        subst h
        exact ⟨hlt, rfl, hvalid⟩

inductive AllocOutcome (zones : Zones) (gfp : BitVec 32) (order : BitVec 64) :
    Ret → Option (PagePtr × BitVec 64) → Zones → Prop
  /-- The request makes no sense, or is out of all bounds. -/
  | refused (e : Errno) (he : e = .ENOMEM → 64 ≤ order.toNat) :
      AllocOutcome zones gfp order (.err e) none zones
  /-- The zone is too small for the request. -/
  | tooLarge : AllocOutcome zones gfp order (.err .EINVAL) none zones
  /-- The zone has no free range. -/
  | exhausted (z : Fin NZONE) (hz : gfpToZoneIndex gfp = some z) (horder : order.toNat < 64)
      (hnone : ∀ j, j + (BS order).toNat ≤ (zones z).bitmap.size →
        ¬ ∀ k, j ≤ k → k < j + (BS order).toNat → (zones z).bitmap.bits k = false) :
      AllocOutcome zones gfp order (.err .ENOMEM) none zones
  /-- The first free range is taken. -/
  | taken (z : Fin NZONE) (index : Nat) (zone' : Zone) (hz : gfpToZoneIndex gfp = some z)
      (horder : order.toNat < 64) (hvalid : (zones z).valid = true)
      (hle : index + (BS order).toNat ≤ (zones z).bitmap.size)
      (hclear : ∀ k, index ≤ k → k < index + (BS order).toNat →
        (zones z).bitmap.bits k = false)
      (hfirst : ∀ j, (∀ k, j ≤ k → k < j + (BS order).toNat →
        (zones z).bitmap.bits k = false) → index ≤ j)
      (hsame : SameFrames (zones z) zone')
      (hbits : zone'.bitmap.bits = fill (zones z).bitmap.bits index (BS order).toNat true)
      (hpages : zone'.pages = taken (zones z).pages index (BS order).toNat) :
      AllocOutcome zones gfp order .ok
        (some (⟨z, index⟩, pageAddr (zones z) index)) (setZone zones z zone')

theorem doPageAllocN_outcome {env : Env} {zones' : Zones} {ret : Ret} {res : Option (PagePtr × BitVec 64)}
    (h : doPageAllocN env zones gfp order = .ok (ret, res, zones')) :
    AllocOutcome zones gfp order ret res zones' := by
  rw [doPageAllocN] at h
  cases hselect : selectZone zones gfp order with
  | error e =>
    simp only [hselect, Except.ok.injEq, Prod.mk.injEq] at h
    rcases h with ⟨rfl, rfl, rfl⟩
    refine .refused e ?_
    rintro rfl
    exact selectZone_nomem hselect
  | ok z =>
    rcases selectZone_ok hselect with ⟨horder, hz, hvalid⟩
    simp only [hselect, allocInZone] at h
    cases hrange : (zones z).bitmap.bitmapAllocRange (BS order).toNat with
    | mk err rest =>
      rcases rest with ⟨pos, bitmap⟩
      rw [hrange] at h
      cases pos with
      | none =>
        simp only [Except.ok.injEq, Prod.mk.injEq] at h
        rcases h with ⟨rfl, rfl, rfl⟩
        rcases bitmapAllocRange_none hrange with ⟨-, rfl | ⟨rfl, hnone⟩⟩
        · exact .tooLarge
        · exact .exhausted z hz horder hnone
      | some index =>
        rcases bitmapAllocRange_ok hrange with ⟨hle, hclear, rfl⟩
        rcases bind_ok_iff.1 h with ⟨zone, htake, h⟩
        rcases takePages_spec htake with ⟨-, rfl⟩
        simp only [pure_eq_ok, Except.ok.injEq, Prod.mk.injEq] at h
        rcases h with ⟨rfl, rfl, rfl⟩
        have hfirst := fun j => bitmapAllocRange_le (j := j) hrange
        exact .taken z index _ hz horder hvalid hle hclear hfirst ⟨rfl, rfl, rfl, rfl, rfl⟩
          rfl rfl

/-! ## Invariant -/

def Block.Apart (b b' : Block) : Prop := ∀ z i, b.covers z i = true → b'.covers z i = false

theorem Block.Apart.symm {b b' : Block} (h : b.Apart b') : b'.Apart b := by
  intro z i hcovers
  by_contra hne
  have hfalse := h z i (by simpa using hne)
  rw [hcovers] at hfalse
  exact absurd hfalse (by decide)

structure HeapInv (zones₀ : Zones) (h : Heap) : Prop where
  formed : ∀ z, Formed (zones₀ z)
  same : ∀ z, SameFrames (zones₀ z) (h.zones z)
  accounted : AllAccounted h.zones
  bits : ∀ z i, i < (zones₀ z).npages → ((h.zones z).bitmap.bits i = true ↔
    (zones₀ z).bitmap.bits i = true ∨ ∃ b ∈ h.live, b.covers z i = true)
  valid : ∀ b ∈ h.live, (zones₀ b.page.zone).valid = true
  order : ∀ b ∈ h.live, b.order.toNat < 64
  inside : ∀ b ∈ h.live, b.page.index + b.count ≤ frames (zones₀ b.page.zone)
  unreserved : ∀ b ∈ h.live, ∀ z i, b.covers z i = true → (zones₀ z).bitmap.bits i = false
  once : ∀ b ∈ h.live, ∀ z i, b.covers z i = true → ((h.zones z).pages i).refcnt = 1
  disjoint : h.live.Pairwise Block.Apart

theorem heapInv_start {zones₀ : Zones} (h : ∀ z, Formed (zones₀ z)) :
    HeapInv zones₀ (Heap.start zones₀) where
  formed := h
  same z := .refl _
  accounted z := (h z).accounted
  bits z i _ := by simp [Heap.start]
  valid b hb := absurd hb List.not_mem_nil
  order b hb := absurd hb List.not_mem_nil
  inside b hb := absurd hb List.not_mem_nil
  unreserved b hb := absurd hb List.not_mem_nil
  once b hb := absurd hb List.not_mem_nil
  disjoint := List.Pairwise.nil

theorem hasRun_iff {bits : Nat → Bool} {limit n : Nat} : hasRun bits limit n = true ↔
    ∃ i, i + n ≤ limit ∧ ∀ k, i ≤ k → k < i + n → bits k = false := by
  simp only [hasRun, List.any_eq_true, List.mem_range, Bool.not_eq_true']
  constructor
  · rintro ⟨i, hi, hfree⟩
    exact ⟨i, by omega, anyBit_eq_false_iff.1 hfree⟩
  · rintro ⟨i, hi, hfree⟩
    exact ⟨i, by omega, anyBit_eq_false_iff.2 hfree⟩

section Steps

variable {env : Env} {zones₀ : Zones} {h : Heap}

theorem HeapInv.bitmapSize (hi : HeapInv zones₀ h) (z : Fin NZONE) :
    (h.zones z).bitmap.size = (zones₀ z).npages := by
  rw [(hi.accounted z).size, (hi.same z).npages]

variable {b : Block} {z : Fin NZONE} {gfp : BitVec 32} {order : BitVec 64}

theorem HeapInv.freeFrame_iff (hi : HeapInv zones₀ h) {i : Nat}
    (hlt : i < (zones₀ z).npages) :
    FreeFrame zones₀ h z i ↔ (h.zones z).bitmap.bits i = false := by
  rw [← Bool.not_eq_true, hi.bits z i hlt, FreeFrame]
  simp only [not_or, not_exists, not_and, Bool.not_eq_true]

theorem HeapInv.inside_of_allocFits (hi : HeapInv zones₀ h) {index : Nat} (hok : allocFits h gfp order = true)
    (hz : gfpToZoneIndex gfp = some z) (horder : order.toNat < 64)
    (hle : index + (BS order).toNat ≤ (h.zones z).bitmap.size)
    (hclear : ∀ k, index ≤ k → k < index + (BS order).toNat →
      (h.zones z).bitmap.bits k = false)
    (hfirst : ∀ j, (∀ k, j ≤ k → k < j + (BS order).toNat →
      (h.zones z).bitmap.bits k = false) → index ≤ j) :
    index + (BS order).toNat ≤ frames (zones₀ z) := by
  have hframes : frames (h.zones z) = frames (zones₀ z) := by
    rw [frames, frames, (hi.same z).size]
  have hlt : ¬ MAX_PAGE_ORDER ≤ order := by
    rw [BitVec.le_def]
    exact Nat.not_le.2 horder
  simp only [allocFits, hz, hlt, decide_false, Bool.false_or, Bool.or_eq_true,
    Bool.not_eq_true', hframes] at hok
  rcases hok with hrun | hnone
  · rcases hasRun_iff.1 hrun with ⟨j, hj, hfree⟩
    have hij := hfirst j hfree
    omega
  · have hsome : hasRun (h.zones z).bitmap.bits (h.zones z).npages (BS order).toNat = true := by
      refine hasRun_iff.2 ⟨index, ?_, hclear⟩
      rw [(hi.same z).npages, ← hi.bitmapSize z]
      exact hle
    rw [hnone] at hsome
    exact absurd hsome (by decide)

theorem HeapInv.toNat_pageAddr (hi : HeapInv zones₀ h) {i : Nat}
    (hlt : i < frames (zones₀ z)) :
    (pageAddr (h.zones z) i).toNat = (zones₀ z).start.toNat + i * 4096 := by
  have hmem := (hi.formed z).inMemory
  rw [frames] at hlt
  have hbound := (zones₀ z).size.isLt
  rw [pageAddr, (hi.same z).start, BitVec.toNat_add, toNat_mul_PGSZ (by omega),
    Nat.mod_eq_of_lt (by omega)]

theorem HeapInv.allocSound (hi : HeapInv zones₀ h)
    (hok : allocFits h gfp order = true) : AllocSound env zones₀ h gfp order := by
  refine ⟨fun ret page addr zones' hcall => ?_, fun res zones' z hcall hz => ?_⟩
  · cases doPageAllocN_outcome hcall with
    | taken z index zone' hz horder hvalid hle hclear hfirst hsame hbits hpages =>
      have hin := hi.inside_of_allocFits hok hz horder hle hclear hfirst
      have hpow := toNat_BS horder
      have hpos : 0 < 2 ^ order.toNat := Nat.two_pow_pos _
      have haddr := hi.toNat_pageAddr (z := z) (i := index) (by omega)
      rw [hpow] at hin
      refine ⟨rfl, hz, haddr, ?_, fun k hlo hhi => ?_⟩
      · have hfr : frames (zones₀ z) * 4096 ≤ (zones₀ z).size.toNat :=
          Nat.div_mul_le_self _ _
        rw [haddr]
        simp only
        omega
      · have hnp := (hi.formed z).frames_le.1
        simp only at hlo hhi
        rw [hpow] at hclear
        have hk : k < (zones₀ z).npages := by omega
        exact (hi.freeFrame_iff hk).2 (hclear k hlo hhi)
  · rintro ⟨i, hin, hfree⟩
    have hfr := (hi.formed z).frames_le.1
    cases doPageAllocN_outcome hcall with
    | refused e he =>
      have hbig := Nat.pow_le_pow_right (show 0 < 2 by decide) (he rfl)
      have hlt := (zones₀ z).size.isLt
      rw [frames] at hin
      omega
    | exhausted z' hz' horder hnone =>
      have heq : z' = z := Option.some.inj (hz'.symm.trans hz)
      subst heq
      rw [toNat_BS horder, hi.bitmapSize z'] at hnone
      refine hnone i (hin.trans hfr) fun k hlo hhi => ?_
      exact (hi.freeFrame_iff (by omega)).1 (hfree k hlo hhi)

theorem HeapInv.alloc (hi : HeapInv zones₀ h) {ret : Ret}
    {res : Option (PagePtr × BitVec 64)} {zones' : Zones} (hok : allocFits h gfp order = true)
    (hcall : doPageAllocN env h.zones gfp order = .ok (ret, res, zones')) :
    HeapInv zones₀ { zones := zones', live := blockOf order res ++ h.live } := by
  have hacc := hi.accounted.doPageAllocN hcall
  cases doPageAllocN_outcome hcall with
  | refused e he => exact hi
  | tooLarge => exact hi
  | exhausted z hz horder hnone => exact hi
  | taken z index zone' hz horder hvalid hle hclear hfirst hsame hbits hpages =>
    have hin := hi.inside_of_allocFits hok hz horder hle hclear hfirst
    have hnp := (hi.formed z).frames_le.1
    have hsame' := sameFrames_setZone hsame
    have hfree : ∀ i, index ≤ i → i < index + (BS order).toNat → FreeFrame zones₀ h z i := by
      intro i hlo hhi
      exact (hi.freeFrame_iff (by omega)).2 (hclear i hlo hhi)
    have hnew : ∀ y i, (Block.mk ⟨z, index⟩ order).covers y i = true ↔
        z = y ∧ index ≤ i ∧ i < index + (BS order).toNat := fun y i => Block.covers_iff
    have hapart : ∀ b ∈ h.live, (Block.mk ⟨z, index⟩ order).Apart b := by
      intro b hb y i hcovers
      rcases (hnew y i).1 hcovers with ⟨rfl, hlo, hhi⟩
      exact (hfree i hlo hhi).2 b hb
    refine ⟨hi.formed, fun y => (hi.same y).trans (hsame' y), hacc, ?_, ?_, ?_, ?_, ?_, ?_, ?_⟩
    · intro y i hlt
      simp only [blockOf, List.cons_append, List.nil_append, List.exists_mem_cons_iff, hnew]
      by_cases hy : y = z
      · subst hy
        by_cases hrange : index ≤ i ∧ i < index + (BS order).toNat
        · simp [setZone, hbits, fill, hrange]
        · simp [setZone, hbits, fill, hrange, hi.bits y i hlt]
      · simp [setZone, hy, Ne.symm hy, hi.bits y i hlt]
    · refine List.forall_mem_cons.2 ⟨?_, hi.valid⟩
      rw [← (hi.same z).valid]
      exact hvalid
    · exact List.forall_mem_cons.2 ⟨horder, hi.order⟩
    · exact List.forall_mem_cons.2 ⟨hin, hi.inside⟩
    · refine List.forall_mem_cons.2 ⟨fun y i hcovers => ?_, hi.unreserved⟩
      rcases (hnew y i).1 hcovers with ⟨rfl, hlo, hhi⟩
      exact (hfree i hlo hhi).1
    · refine List.forall_mem_cons.2 ⟨fun y i hcovers => ?_, fun b hb y i hcovers => ?_⟩
      · rcases (hnew y i).1 hcovers with ⟨rfl, hlo, hhi⟩
        simp [setZone, hpages, taken, hlo, hhi, Page.withRefcnt]
      · -- the pages of the other blocks are not touched
        have hold := hi.once b hb y i hcovers
        by_cases hy : y = z
        · subst hy
          have hrange : ¬ (index ≤ i ∧ i < index + (BS order).toNat) := by
            rintro ⟨hlo, hhi⟩
            have hfalse := (hfree i hlo hhi).2 b hb
            rw [hcovers] at hfalse
            exact absurd hfalse (by decide)
          simpa [setZone, hpages, taken, hrange] using hold
        · simpa [setZone, hy] using hold
    · exact List.pairwise_cons.2 ⟨hapart, hi.disjoint⟩

/-! ## Release -/

theorem releasePages_spec {n pos : Nat} {zone : Zone} (hsize : zone.bitmap.size = zone.npages)
    (hpages : ∀ k, pos ≤ k → k < pos + n → k < zone.npages ∧ (zone.pages k).refcnt = 1 ∧
      zone.bitmap.bits k = true) :
    ∃ zone', releasePages n pos zone = .ok zone' ∧ SameFrames zone zone' ∧
      zone'.bitmap.bits = fill zone.bitmap.bits pos n false ∧
      zone'.upages = zone.upages - BitVec.ofNat 64 n ∧
      (∀ k, pos ≤ k → k < pos + n → (zone'.pages k).refcnt = 0) ∧
      ∀ k, ¬ (pos ≤ k ∧ k < pos + n) → zone'.pages k = zone.pages k := by
  -- induction on the pages that are left
  induction n generalizing pos zone with
  | zero =>
    refine ⟨zone, rfl, .refl zone, ?_, by simp, fun k hlo hhi => by omega, fun _ _ => rfl⟩
    funext k
    have hno : ¬ (pos ≤ k ∧ k < pos) := by omega
    simp [fill, hno]
  | succ n ih =>
    rcases hpages pos (by omega) (by omega) with ⟨hlt, href, hbit⟩
    let zone1 : Zone := { zone with
      bitmap := { zone.bitmap with bits := Function.update zone.bitmap.bits pos false }
      upages := zone.upages - 1 }.setPage pos
        { (zone.pages pos).withRefcnt 0 with flags := 0 ||| PG_SWAPPABLE, icache := none }
    have hone : zone.release pos ((zone.pages pos).withRefcnt 0) = .ok zone1 := by
      rw [Zone.release, bitmapUnset_one (by omega) hbit]
    have hpages1 : ∀ k, pos + 1 ≤ k → k < pos + 1 + n → k < zone1.npages ∧
        (zone1.pages k).refcnt = 1 ∧ zone1.bitmap.bits k = true := by
      intro k hlo hhi
      have hne : k ≠ pos := by omega
      simpa [zone1, Zone.setPage, hne] using hpages k (by omega) (by omega)
    rcases @ih (pos + 1) zone1 hsize hpages1 with ⟨zone', hok, hsame, hbits, hup, hzero, hother⟩
    refine ⟨zone', ?_, ⟨hsame.start, hsame.size, hsame.npages, hsame.valid, hsame.bits⟩, ?_, ?_,
      ?_, ?_⟩
    · rw [releasePages, inBounds, if_pos hlt, ok_bind, assert, if_pos (by simp [href]), ok_bind]
      have hzero : (zone.pages pos).refcnt - 1 = 0 := by
        rw [href]
        rfl
      rw [hzero]
      simp only [Page.withRefcnt, ne_eq, not_true_eq_false, if_false]
      rw [← Page.withRefcnt, hone, ok_bind, hok]
    · rw [hbits]
      funext k
      by_cases hk : k = pos
      · subst hk
        simp [zone1, Zone.setPage, fill]
      · have hiff : (pos + 1 ≤ k ∧ k < pos + 1 + n) ↔ (pos ≤ k ∧ k < pos + (n + 1)) := by omega
        simp only [zone1, Zone.setPage, fill, hiff, Function.update_of_ne hk]
    · rw [hup]
      simp only [zone1, Zone.setPage]
      bv_omega
    · intro k hlo hhi
      by_cases hk : k = pos
      · rw [hother k (by omega), hk]
        simp [zone1, Zone.setPage, Page.withRefcnt]
      · exact hzero k (by omega) (by omega)
    · intro k hk
      have hne : k ≠ pos := by omega
      rw [hother k (by omega)]
      simp [zone1, Zone.setPage, hne]

structure Freed (zones : Zones) (b : Block) (zones' : Zones) : Prop where
  same : ∀ z, SameFrames (zones z) (zones' z)
  bits : ∀ z i, (zones' z).bitmap.bits i = ((zones z).bitmap.bits i && !b.covers z i)
  pages : ∀ z i, b.covers z i = false → (zones' z).pages i = (zones z).pages i

theorem HeapInv.freeInZone_safe (hi : HeapInv zones₀ h) (hb : b ∈ h.live)
    (hend : endsBefore h b = true) :
    Safe Asserted (freeInZone env h.zones b.page.zone b.page.index b.order)
      (Freed h.zones b) := by
  have hin := hi.inside b hb
  have hfr := (hi.formed b.page.zone).frames_le.1
  have hpages : ∀ k, b.page.index ≤ k → k < b.page.index + (BS b.order).toNat →
      k < (h.zones b.page.zone).npages ∧ ((h.zones b.page.zone).pages k).refcnt = 1 ∧
        (h.zones b.page.zone).bitmap.bits k = true := by
    intro k hlo hhi
    have hcovers : b.covers b.page.zone k = true := Block.covers_iff.2 ⟨rfl, hlo, hhi⟩
    have hlt : k < (zones₀ b.page.zone).npages := by
      rw [Block.count] at hin
      omega
    refine ⟨?_, hi.once b hb _ k hcovers, (hi.bits _ k hlt).2 (.inr ⟨b, hb, hcovers⟩)⟩
    rw [(hi.same _).npages]
    exact hlt
  rcases releasePages_spec (hi.accounted b.page.zone).size hpages with
    ⟨zone', hok, hsame, hbits, -, -, hother⟩
  have hbranch : ¬ (h.zones b.page.zone).start + (h.zones b.page.zone).size ≤
      pageAddr (h.zones b.page.zone) b.page.index + BS b.order * PGSZ := by
    simp only [endsBefore, decide_eq_true_eq] at hend
    exact BitVec.not_le.2 hend
  refine assert_safe.bind fun _ _ => ?_
  rw [if_neg hbranch, hok]
  -- the frames of the block, and only they, are free now
  refine ⟨sameFrames_setZone hsame, fun z i => ?_, fun z i hnot => ?_⟩
  · by_cases hz : z = b.page.zone
    · subst hz
      by_cases hrange : b.page.index ≤ i ∧ i < b.page.index + (BS b.order).toNat
      · have hcovers : b.covers b.page.zone i = true := Block.covers_iff.2 ⟨rfl, hrange⟩
        simp [setZone, hbits, fill, hrange, hcovers]
      · have hcovers : b.covers b.page.zone i = false := by
          rw [← Bool.not_eq_true, Block.covers_iff]
          exact fun hc => hrange hc.2
        simp [setZone, hbits, fill, hrange, hcovers]
    · have hcovers : b.covers z i = false := by
        rw [← Bool.not_eq_true, Block.covers_iff]
        exact fun hc => hz hc.1.symm
      simp [setZone, hz, hcovers]
  · by_cases hz : z = b.page.zone
    · subst hz
      have hrange : ¬ (b.page.index ≤ i ∧ i < b.page.index + (BS b.order).toNat) := by
        intro hr
        rw [← Bool.not_eq_true, Block.covers_iff] at hnot
        exact hnot ⟨rfl, hr⟩
      simp [setZone, hother i hrange]
    · simp [setZone, hz]

theorem HeapInv.pageFreeN_safe (hi : HeapInv zones₀ h) (hb : b ∈ h.live)
    (hend : endsBefore h b = true) :
    Safe Asserted (pageFreeN env h.zones b.page b.order) (Freed h.zones b) := by
  have hin := hi.inside b hb
  have hfr := (hi.formed b.page.zone).frames_le.1
  have hpos : 0 < b.count := by
    rw [Block.count, toNat_BS (hi.order b hb)]
    exact Nat.two_pow_pos _
  have hlt : b.page.index < (h.zones b.page.zone).npages := by
    rw [(hi.same _).npages]
    omega
  have hvalid : (h.zones b.page.zone).valid = true := by
    rw [(hi.same _).valid]
    exact hi.valid b hb
  have hzone : getzoneBypage h.zones b.page = some b.page.zone := by
    simp [getzoneBypage, hvalid, hlt]
  refine assert_safe.bind fun _ _ => ?_
  rw [hzone]
  exact hi.freeInZone_safe hb hend

theorem index_pageAddr {zone : Zone} {i : Nat} (hi : i * 4096 < 2 ^ 64) :
    ((pageAddr zone i - zone.start) / PGSZ).toNat = i := by
  have hsub : pageAddr zone i - zone.start = BitVec.ofNat 64 i * PGSZ := by
    rw [pageAddr, BitVec.add_comm, BitVec.add_sub_cancel]
  rw [hsub, BitVec.toNat_udiv, toNat_mul_PGSZ hi]
  exact Nat.mul_div_cancel i (by decide)

theorem HeapInv.pageFreeNAddr_safe (hi : HeapInv zones₀ h) (hb : b ∈ h.live)
    (hend : endsBefore h b = true)
    (hzone : getzoneByaddr h.zones (pageAddr (h.zones b.page.zone) b.page.index)
      (BS b.order * PGSZ) = some b.page.zone) :
    Safe Asserted (pageFreeNAddr env h.zones (pageAddr (h.zones b.page.zone) b.page.index) b.order)
      (Freed h.zones b) := by
  have hin := hi.inside b hb
  have hfr := (hi.formed b.page.zone).frames_le.1
  have hpos : 0 < b.count := by
    rw [Block.count, toNat_BS (hi.order b hb)]
    exact Nat.two_pow_pos _
  have hlt : b.page.index < frames (zones₀ b.page.zone) := by omega
  have hindex : ((pageAddr (h.zones b.page.zone) b.page.index - (h.zones b.page.zone).start) /
      PGSZ).toNat = b.page.index := by
    have hsize := (zones₀ b.page.zone).size.isLt
    rw [frames] at hlt
    exact index_pageAddr (by omega)
  refine assert_safe.bind fun _ _ => ?_
  rw [hzone]
  simp only [hindex]
  rw [inBounds, if_pos (by rw [(hi.same _).npages]; omega), ok_bind]
  refine assert_safe.bind fun _ _ => ?_
  exact hi.freeInZone_safe hb hend

theorem HeapInv.freed (hi : HeapInv zones₀ h) {k : Nat} {zones' : Zones}
    (hk : h.live[k]? = some b) (hfreed : Freed h.zones b zones') (hacc : AllAccounted zones') :
    HeapInv zones₀ { zones := zones', live := h.live.eraseIdx k } := by
  have hlt : k < h.live.length := (List.getElem?_eq_some_iff.1 hk).1
  have hperm : (b :: h.live.eraseIdx k).Perm h.live := by
    have hget : h.live[k] = b := (List.getElem?_eq_some_iff.1 hk).2
    rw [← hget]
    exact List.getElem_cons_eraseIdx_perm hlt
  have hmem : ∀ b', b' ∈ h.live ↔ b' = b ∨ b' ∈ h.live.eraseIdx k := by
    intro b'
    rw [← hperm.mem_iff, List.mem_cons]
  have hpairwise : (b :: h.live.eraseIdx k).Pairwise Block.Apart :=
    (hperm.pairwise_iff Block.Apart.symm).2 hi.disjoint
  rw [List.pairwise_cons] at hpairwise
  have hrest : ∀ b' ∈ h.live.eraseIdx k, b' ∈ h.live := fun b' hb' => (hmem b').2 (.inr hb')
  have hb : b ∈ h.live := (hmem b).2 (.inl rfl)
  refine ⟨hi.formed, fun z => (hi.same z).trans (hfreed.same z), hacc, ?_,
    fun b' hb' => hi.valid b' (hrest b' hb'), fun b' hb' => hi.order b' (hrest b' hb'),
    fun b' hb' => hi.inside b' (hrest b' hb'), fun b' hb' => hi.unreserved b' (hrest b' hb'), ?_,
    hpairwise.2⟩
  · intro z i hlt'
    rw [hfreed.bits z i]
    by_cases hcovers : b.covers z i = true
    · have hreserved := hi.unreserved b hb z i hcovers
      have hothers : ∀ b' ∈ h.live.eraseIdx k, b'.covers z i = false :=
        fun b' hb' => hpairwise.1 b' hb' z i hcovers
      simp only [hcovers, Bool.not_true, Bool.and_false, hreserved, Bool.false_eq_true, false_or,
        false_iff, not_exists, not_and]
      exact fun b' hb' hc => absurd (hothers b' hb') (by simp [hc])
    · have hfalse : b.covers z i = false := by simpa using hcovers
      rw [hfalse, Bool.not_false, Bool.and_true, hi.bits z i hlt']
      refine or_congr_right ⟨?_, ?_⟩
      · rintro ⟨b', hb', hc⟩
        rcases (hmem b').1 hb' with rfl | hb'
        · exact absurd hc hcovers
        · exact ⟨b', hb', hc⟩
      · rintro ⟨b', hb', hc⟩
        exact ⟨b', hrest b' hb', hc⟩
  · intro b' hb' z i hcovers
    have hnot : b.covers z i = false := (hpairwise.1 b' hb').symm z i hcovers
    rw [hfreed.pages z i hnot]
    exact hi.once b' (hrest b' hb') z i hcovers

/-- The step lemma. -/
theorem HeapInv.operate_safe (hi : HeapInv zones₀ h) (op : Op) (hok : opFits h op = true) :
    Safe Asserted (operate env h op) (HeapInv zones₀) := by
  cases op with
  | alloc gfp order =>
    rw [operate]
    have hasserted := doPageAllocN_asserted env h.zones gfp order
    cases hcall : doPageAllocN env h.zones gfp order with
    | error e =>
      rw [hcall] at hasserted
      exact hasserted
    | ok res =>
      rcases res with ⟨ret, res, zones'⟩
      exact hi.alloc hok hcall
  | free k =>
    rw [operate]
    cases hk : h.live[k]? with
    | none => exact hi
    | some b =>
      have hend : endsBefore h b = true := by simpa [opFits, hk] using hok
      have hsafe : Safe Asserted (pageFreeN env h.zones b.page b.order) (Freed h.zones b) :=
        hi.pageFreeN_safe (List.mem_of_getElem? hk) hend
      cases hcall : pageFreeN env h.zones b.page b.order with
      | error e =>
        rw [hcall] at hsafe
        simp only [hcall]
        exact hsafe
      | ok zones' =>
        rw [hcall] at hsafe
        simp only [hcall]
        exact hi.freed hk hsafe (hi.accounted.pageFreeN hcall)
  | freeAddr k =>
    rw [operate]
    cases hk : h.live[k]? with
    | none => exact hi
    | some b =>
      have hfits : endsBefore h b = true ∧ getzoneByaddr h.zones
          (pageAddr (h.zones b.page.zone) b.page.index) (BS b.order * PGSZ) =
            some b.page.zone := by
        simpa [opFits, hk] using hok
      have hsafe : Safe Asserted (pageFreeNAddr env h.zones
          (pageAddr (h.zones b.page.zone) b.page.index) b.order) (Freed h.zones b) :=
        hi.pageFreeNAddr_safe (List.mem_of_getElem? hk) hfits.1 hfits.2
      cases hcall : pageFreeNAddr env h.zones (pageAddr (h.zones b.page.zone) b.page.index)
          b.order with
      | error e =>
        rw [hcall] at hsafe
        simp only [hcall]
        exact hsafe
      | ok zones' =>
        rw [hcall] at hsafe
        simp only [hcall]
        exact hi.freed hk hsafe (hi.accounted.pageFreeNAddr hcall)

end Steps

/-- In every run of allocations and releases in which no request needs the frame that sticks out of
a zone and no block that is freed ends with its zone, the blocks share no frame, every request
returns free frames inside its zone, and it fails with `-ENOMEM` only when there are none. -/
theorem page_allocator_sound {env : Env} {zones₀ : Zones} (hformed : ∀ z, Formed (zones₀ z))
    (ops : List Op) (hrun : guarded (operate env) opFits (Heap.start zones₀) ops = true) :
    Safe Asserted (runs (operate env) (Heap.start zones₀) ops) (HeapSound env zones₀) := by
  have hstep : ∀ (h : Heap) (op : Op), HeapInv zones₀ h → opFits h op = true →
      Safe Asserted (operate env h op) (HeapInv zones₀) := fun h op hi hok => hi.operate_safe op hok
  refine (Safe.runs hstep (heapInv_start hformed) hrun).mono ?_
  exact fun h hi => ⟨hi.disjoint, fun gfp order hok => hi.allocSound hok⟩

/-- A machine whose normal zone has `kib` KiB, without reserved memory. -/
def bootNormal (kib : BitVec 64) : BootInfo :=
  { total := 16 * 1024 + kib, memhi := 0, holeSize := 0, maps := [], bootAlloc := fun _ => true
    fits := Nat.zero_le _ }

def normalZones (kib : BitVec 64) : Zones :=
  (outcome (zonesInit (bootNormal kib)) (.ok, fun _ => Zone.zero)).2

def normalHeap (kib : BitVec 64) (ops : List Op) : Heap :=
  outcome (runs (operate highKernel) (Heap.start (normalZones kib)) ops)
    (Heap.start (normalZones kib))

theorem page_allocator_sound_four_pages :
    let ops := [.alloc GFP_NORMAL 1, .alloc GFP_NORMAL 0, .free 1, .freeAddr 0]
    (runs (operate highKernel) (Heap.start (normalZones 16)) ops).isOk = true ∧
      Safe Asserted (runs (operate highKernel) (Heap.start (normalZones 16)) ops)
        (HeapSound highKernel (normalZones 16)) := by
  intro ops
  have hinit : zonesInit (bootNormal 16) =
      .ok (outcome (zonesInit (bootNormal 16)) (.ok, fun _ => Zone.zero)) :=
    eq_ok_outcome (by decide +kernel)
  have hgeometry : ∀ z, (normalZones 16 z).npages = (NPAGE (normalZones 16 z).size).toNat ∧
      (normalZones 16 z).start.toNat + (normalZones 16 z).size.toNat ≤ 2 ^ 64 := by
    decide +kernel
  have hformed : ∀ z, Formed (normalZones 16 z) := fun z =>
    ⟨zonesInit_accounted hinit z, (hgeometry z).1, (hgeometry z).2⟩
  exact ⟨by decide +kernel, page_allocator_sound hformed ops (by decide +kernel)⟩

/-- In a zone of 17 KiB the fifth page is handed out although it sticks out of the zone; in a zone
of four pages the block of all four cannot be freed, and the next request fails. -/
theorem end_of_zone :
    ¬ AllocSound highKernel (normalZones 17) (normalHeap 17 [.alloc GFP_NORMAL 2]) GFP_NORMAL 0 ∧
    ¬ AllocSound highKernel (normalZones 16) (normalHeap 16 [.alloc GFP_NORMAL 2, .free 0])
      GFP_NORMAL 0 := by
  refine ⟨fun h => ?_, fun h => ?_⟩
  · have hcall : (doPageAllocN highKernel (normalHeap 17 [.alloc GFP_NORMAL 2]).zones GFP_NORMAL
        0).toOption.map (fun r => r.2.1) = some (some (⟨1, 4⟩, 0x1004000)) := by decide +kernel
    rcases ok_of_toOption hcall with ⟨⟨ret, res, zones'⟩, hok, rfl⟩
    have hinside := (h.success ret ⟨1, 4⟩ 0x1004000 zones' hok).2.2.2.1
    exact absurd hinside (by decide +kernel)
  · have hcall : (doPageAllocN highKernel (normalHeap 16 [.alloc GFP_NORMAL 2, .free 0]).zones
        GFP_NORMAL 0).toOption.map (fun r => r.1) = some (.err .ENOMEM) := by decide +kernel
    rcases ok_of_toOption hcall with ⟨⟨ret, res, zones'⟩, hok, rfl⟩
    have hlive : (normalHeap 16 [.alloc GFP_NORMAL 2, .free 0]).live = [] := by decide +kernel
    refine h.failure res zones' 1 hok (by decide) ⟨0, by decide +kernel, fun k _ hk => ?_⟩
    have hzero : k = 0 := by
      change k < 0 + 2 ^ 0 at hk
      omega
    subst hzero
    refine ⟨by decide +kernel, fun b hb => ?_⟩
    rw [hlive] at hb
    exact absurd hb List.not_mem_nil

end Pmm
end Mm
end XytherOS
