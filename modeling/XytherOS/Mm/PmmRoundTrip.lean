import XytherOS.Mm.PmmSound

/-!
# PmmRoundTrip — a block that is allocated and freed again

`do_page_free_n` finds the zone of a block again, from the page handle or from the address, and
compares the end of the block with the end of the zone.  The comparison is not strict where
`getzone_byaddr` has a strict one: a block that ends with its zone passes for one that sticks out
of it, and nothing is freed.
-/

namespace XytherOS
namespace Mm
namespace Pmm

open Function Ds Bitmap

/-- Bitmap, reference counts and counter of used pages are what they were. -/
structure Restored (zones zones' : Zones) : Prop where
  bitmap : ∀ z, (zones' z).bitmap = (zones z).bitmap
  refcnt : ∀ z i, ((zones' z).pages i).refcnt = ((zones z).pages i).refcnt
  upages : ∀ z, (zones' z).upages = (zones z).upages

def Restores (zones : Zones) (release : Except Fault Zones) : Prop :=
  ∃ zones', release = .ok zones' ∧ Restored zones zones'

/-- The block is not taken for a part of the kernel image, and it does not end with its zone. -/
structure Releasable (env : Env) (zones : Zones) (page : PagePtr) (order : BitVec 64) : Prop where
  outside : isKernelAddr env (pageAddr (zones page.zone) page.index) = false
  before : pageAddr (zones page.zone) page.index + BS order * PGSZ <
    (zones page.zone).start + (zones page.zone).size

/-- The block does not wrap around to an address before its zone, and no zone before its own
reaches over it. -/
structure Unshadowed (zones : Zones) (page : PagePtr) (order : BitVec 64) : Prop where
  above : (zones page.zone).start ≤ pageAddr (zones page.zone) page.index
  first : ∀ y < page.zone, (zones y).valid = true →
    (zones y).start ≤ pageAddr (zones page.zone) page.index →
    (zones y).start + (zones y).size < pageAddr (zones page.zone) page.index + BS order * PGSZ

/-! ## Zones in a run -/

structure Handled (zone : Zone) : Prop where
  size : zone.bitmap.size = zone.npages
  npages : zone.npages = (NPAGE zone.size).toNat

variable {e : Ret} {zone' : Zone} {z : Fin NZONE}

theorem Handled.congr {zone : Zone} (h : Handled zone) (hsame : SameFrames zone zone') :
    Handled zone' :=
  ⟨by rw [hsame.bits, hsame.npages, h.size], by rw [hsame.npages, hsame.size, h.npages]⟩

theorem Handled.npages_le {zone : Zone} (h : Handled zone) : zone.npages ≤ 2 ^ 52 := by
  have hlt := zone.size.isLt
  rw [h.npages, toNat_NPAGE]
  split_ifs <;> omega

theorem handled_zero : Handled Zone.zero := ⟨rfl, rfl⟩

theorem handled_setZone {zones : Zones} (h : ∀ y, Handled (zones y)) {zone : Zone}
    (hz : Handled zone) : ∀ y, Handled (setZone zones z zone y) := by
  intro y
  by_cases hy : y = z
  · subst hy
    simpa [setZone] using hz
  · simpa [setZone, hy] using h y

theorem initializeMemoryZone_handled {boot : BootInfo} {zones zones' : Zones}
    {memsz memsz' : BitVec 64} (h : ∀ y, Handled (zones y))
    (hinit : initializeMemoryZone boot zones z memsz = .ok (e, zones', memsz')) :
    ∀ y, Handled (zones' y) := by
  have h0 := handled_setZone h (z := z) handled_zero
  have hzz : setZone zones z Zone.zero z = Zone.zero := by simp [setZone]
  unfold initializeMemoryZone at hinit
  generalize setZone zones z Zone.zero = zones₀ at h0 hzz hinit
  simp only at hinit
  split_ifs at hinit with hmem
  · simp only [pure_eq_ok, Except.ok.injEq, Prod.mk.injEq] at hinit
    exact hinit.2.1 ▸ h0
  · generalize zoneWindow boot z memsz = w at hinit
    rcases bind_ok_iff.1 hinit with ⟨⟨e1, zones1⟩, hset, hinit⟩
    have hz1 : zones1 = zones' := by
      cases e1 <;> simp only [pure_eq_ok, Except.ok.injEq, Prod.mk.injEq] at hinit <;>
        exact hinit.2.1
    subst hz1
    unfold zoneSetAddressRange at hset
    split_ifs at hset with hprev hsize hboot
    · simp only [Except.ok.injEq, Prod.mk.injEq] at hset
      exact hset.2 ▸ h0
    · simp only [Except.ok.injEq, Prod.mk.injEq] at hset
      rw [← hset.2]
      refine handled_setZone h0 ⟨?_, rfl⟩
      rw [hzz, hsize]
      rfl
    · simp only [Except.ok.injEq, Prod.mk.injEq] at hset
      rw [← hset.2]
      exact handled_setZone h0 ⟨rfl, rfl⟩

theorem initializeZones_handled {boot : BootInfo} {zs : List (Fin NZONE)} {zones zones' : Zones}
    {memsz : BitVec 64} (h : ∀ y, Handled (zones y))
    (hinit : initializeZones boot zs zones memsz = .ok (e, zones')) : ∀ y, Handled (zones' y) := by
  induction zs generalizing zones memsz with
  | nil =>
    simp only [initializeZones, Except.ok.injEq, Prod.mk.injEq] at hinit
    exact hinit.2 ▸ h
  | cons z zs ih =>
    rcases bind_ok_iff.1 hinit with ⟨⟨e1, zones1, memsz1⟩, hone, hinit⟩
    have h₁ := initializeMemoryZone_handled h hone
    cases e1 with
    | ok => exact ih h₁ hinit
    | err err =>
      simp only [pure_eq_ok, Except.ok.injEq, Prod.mk.injEq] at hinit
      exact hinit.2 ▸ h₁

theorem markReservedPages_same {n pos : Nat} {zone : Zone}
    (hmark : markReservedPages n pos zone = .ok zone') : SameFrames zone zone' := by
  induction n generalizing pos zone with
  | zero =>
    have hz : zone = zone' := Except.ok.inj hmark
    exact hz ▸ .refl zone
  | succ n ih =>
    simp only [markReservedPages, inBounds_bind_ok_iff] at hmark
    have hrest := ih hmark.2
    have hbits : (zone.bitmap.bitmapSet pos 1).2.size = zone.bitmap.size := by
      rw [bitmapSet]
      split_ifs <;> rfl
    exact ⟨hrest.start, hrest.size, hrest.npages, hrest.valid, hrest.bits.trans hbits⟩

theorem processMemoryMaps_same {maps : List BootMmap} {zones zones' : Zones}
    (hmaps : processMemoryMaps maps zones = .ok zones') : ∀ z, SameFrames (zones z) (zones' z) := by
  induction maps generalizing zones with
  | nil =>
    have hz : zones = zones' := Except.ok.inj hmaps
    exact hz ▸ fun z => .refl _
  | cons map maps ih =>
    rcases bind_ok_iff.1 hmaps with ⟨zones1, hone, hmaps⟩
    have hsame : ∀ z, SameFrames (zones z) (zones1 z) := by
      unfold processMemoryMap at hone
      split_ifs at hone
      · exact Except.ok.inj hone ▸ fun z => .refl _
      · simp only at hone
        split at hone
        · simp at hone
        · rcases bind_ok_iff.1 hone with ⟨zone, hmark, hone⟩
          rw [← Except.ok.inj hone]
          exact sameFrames_setZone (markReservedPages_same hmark)
    exact fun z => (hsame z).trans (ih hmaps z)

theorem zonesInit_handled {boot : BootInfo} {zones : Zones}
    (h : zonesInit boot = .ok (e, zones)) : ∀ z, Handled (zones z) := by
  rcases bind_ok_iff.1 h with ⟨⟨e1, zones1⟩, hinit, h⟩
  have h₁ := initializeZones_handled (fun _ => handled_zero) hinit
  cases e1 with
  | err err =>
    simp only [pure_eq_ok, Except.ok.injEq, Prod.mk.injEq] at h
    exact h.2 ▸ h₁
  | ok =>
    rcases bind_ok_iff.1 h with ⟨zones2, hmaps, h⟩
    simp only [pure_eq_ok, Except.ok.injEq, Prod.mk.injEq] at h
    rw [← h.2]
    exact fun z => (h₁ z).congr (processMemoryMaps_same hmaps z)

theorem release_same {zone : Zone} {pos : Nat} {page : Page}
    (h : zone.release pos page = .ok zone') : SameFrames zone zone' := by
  have hbits : (zone.bitmap.bitmapUnset pos 1).2.size = zone.bitmap.size := by
    rw [bitmapUnset]
    split_ifs <;> rfl
  rw [Zone.release] at h
  split at h
  · simp at h
  · rename_i bitmap hunset
    rw [hunset] at hbits
    rw [← Except.ok.inj h]
    exact ⟨rfl, rfl, rfl, rfl, hbits⟩

theorem releasePages_same {n pos : Nat} {zone : Zone}
    (h : releasePages n pos zone = .ok zone') : SameFrames zone zone' := by
  induction n generalizing pos zone with
  | zero =>
    have hz : zone = zone' := Except.ok.inj h
    exact hz ▸ .refl zone
  | succ n ih =>
    simp only [releasePages, inBounds_bind_ok_iff, assert_bind_ok_iff] at h
    rcases h with ⟨-, -, h⟩
    split_ifs at h
    · have hrest := ih h
      exact ⟨hrest.start, hrest.size, hrest.npages, hrest.valid, hrest.bits⟩
    · rcases bind_ok_iff.1 h with ⟨zone1, hone, h⟩
      exact (release_same hone).trans (ih h)

theorem freeInZone_cases {env : Env} {zones zones' : Zones} {pos : Nat}
    {order : BitVec 64} (h : freeInZone env zones z pos order = .ok zones') :
    ∃ zone, zones' = setZone zones z zone ∧ SameFrames (zones z) zone := by
  simp only [freeInZone, assert_bind_ok_iff] at h
  rcases h with ⟨-, h⟩
  split_ifs at h
  · refine ⟨zones z, ?_, .refl _⟩
    rw [← Except.ok.inj h, setZone, update_eq_self]
  · rcases bind_ok_iff.1 h with ⟨zone, hrel, h⟩
    exact ⟨zone, (Except.ok.inj h).symm, releasePages_same hrel⟩

theorem freeInZone_same {env : Env} {zones zones' : Zones} {pos : Nat}
    {order : BitVec 64} (h : freeInZone env zones z pos order = .ok zones') :
    ∀ y, SameFrames (zones y) (zones' y) := by
  rcases freeInZone_cases h with ⟨zone, rfl, hsame⟩
  exact sameFrames_setZone hsame

theorem doPageAllocN_same {env : Env} {zones zones' : Zones} {gfp : BitVec 32}
    {order : BitVec 64} {ret : Ret} {res : Option (PagePtr × BitVec 64)}
    (h : doPageAllocN env zones gfp order = .ok (ret, res, zones')) :
    ∀ y, SameFrames (zones y) (zones' y) := by
  cases doPageAllocN_outcome h with
  | refused e he => exact fun y => .refl _
  | tooLarge => exact fun y => .refl _
  | exhausted z hz horder hnone => exact fun y => .refl _
  | taken z index zone' hz horder hvalid hle hclear hfirst hsame hbits hpages =>
    exact sameFrames_setZone hsame

theorem pageFreeN_same {env : Env} {zones zones' : Zones} {page : PagePtr} {order : BitVec 64}
    (h : pageFreeN env zones page order = .ok zones') : ∀ y, SameFrames (zones y) (zones' y) := by
  simp only [pageFreeN, assert_bind_ok_iff] at h
  rcases h with ⟨-, h⟩
  split at h
  · simp at h
  · exact freeInZone_same h

theorem pageFreeNAddr_same {env : Env} {zones zones' : Zones} {addr order : BitVec 64}
    (h : pageFreeNAddr env zones addr order = .ok zones') :
    ∀ y, SameFrames (zones y) (zones' y) := by
  simp only [pageFreeNAddr, assert_bind_ok_iff] at h
  rcases h with ⟨-, h⟩
  split at h
  · simp at h
  · simp only [inBounds_bind_ok_iff, assert_bind_ok_iff] at h
    exact freeInZone_same h.2.2

theorem increment_same {zones zones' : Zones} {loc : Except Errno (Fin NZONE × Nat)}
    (h : increment zones loc = .ok (e, zones')) : ∀ y, SameFrames (zones y) (zones' y) := by
  cases loc with
  | error err =>
    simp only [increment, Except.ok.injEq, Prod.mk.injEq] at h
    exact h.2 ▸ fun y => .refl _
  | ok zi =>
    simp only [increment, incrementInZone, assert_bind_ok_iff, inBounds_bind_ok_iff, pure_eq_ok,
      Except.ok.injEq, Prod.mk.injEq] at h
    rw [← h.2.2.2]
    exact sameFrames_setZone ⟨rfl, rfl, rfl, rfl, rfl⟩

theorem decrement_same {zones zones' : Zones} {loc : Except Errno (Fin NZONE × Nat)}
    (h : decrement zones loc = .ok (e, zones')) : ∀ y, SameFrames (zones y) (zones' y) := by
  cases loc with
  | error err =>
    simp only [decrement, Except.ok.injEq, Prod.mk.injEq] at h
    exact h.2 ▸ fun y => .refl _
  | ok zi =>
    rcases zi with ⟨z, i⟩
    simp only [decrement, decrementInZone, assert_bind_ok_iff, inBounds_bind_ok_iff] at h
    rcases h with ⟨-, -, h⟩
    split_ifs at h
    · have hbits : ((zones z).bitmap.bitmapUnset i 1).2.size = (zones z).bitmap.size := by
        rw [bitmapUnset]
        split_ifs <;> rfl
      split at h
      · simp at h
      · rename_i bitmap hunset
        have hbits' : bitmap.size = (zones z).bitmap.size := by
          rw [← hbits]
          exact congrArg (fun b => b.2.size) hunset.symm
        simp only [pure_eq_ok, Except.ok.injEq, Prod.mk.injEq] at h
        rw [← h.2]
        exact sameFrames_setZone ⟨rfl, rfl, rfl, rfl, hbits'⟩
    · simp only [pure_eq_ok, Except.ok.injEq, Prod.mk.injEq] at h
      rw [← h.2]
      exact sameFrames_setZone ⟨rfl, rfl, rfl, rfl, rfl⟩

theorem call_same {env : Env} {zones zones' : Zones} {c : Call}
    (h : call env zones c = .ok zones') : ∀ y, SameFrames (zones y) (zones' y) := by
  cases c with
  | pageAllocN gfp order =>
    rcases bind_ok_iff.1 h with ⟨⟨e, res, zs⟩, hok, h⟩
    rcases bind_ok_iff.1 hok with ⟨⟨e', res', zs'⟩, hok, heq⟩
    simp only [pure_eq_ok, Except.ok.injEq, Prod.mk.injEq] at heq h
    rw [← heq.2.2.trans h]
    exact doPageAllocN_same hok
  | pageAllocNAddr gfp order =>
    rcases bind_ok_iff.1 h with ⟨⟨e, res, zs⟩, hok, h⟩
    rcases bind_ok_iff.1 hok with ⟨⟨e', res', zs'⟩, hok, heq⟩
    simp only [pure_eq_ok, Except.ok.injEq, Prod.mk.injEq] at heq h
    rw [← heq.2.2.trans h]
    exact doPageAllocN_same hok
  | pageFreeN page order => exact pageFreeN_same h
  | pageFreeNAddr addr order => exact pageFreeNAddr_same h
  | pageGet page =>
    rcases bind_ok_iff.1 h with ⟨⟨e, zs⟩, hok, h⟩
    exact Except.ok.inj h ▸ increment_same hok
  | pageGetAddr paddr =>
    rcases bind_ok_iff.1 h with ⟨⟨e, zs⟩, hok, h⟩
    exact Except.ok.inj h ▸ increment_same hok
  | pagePut page =>
    rcases bind_ok_iff.1 h with ⟨⟨e, zs⟩, hok, h⟩
    rw [assert_bind_ok_iff] at h
    exact Except.ok.inj h.2 ▸ decrement_same hok
  | pagePutAddr paddr =>
    rcases bind_ok_iff.1 h with ⟨⟨e, zs⟩, hok, h⟩
    exact Except.ok.inj h ▸ decrement_same hok
  | mmFree paddr =>
    rcases bind_ok_iff.1 h with ⟨⟨e, zs⟩, hok, h⟩
    exact Except.ok.inj h ▸ decrement_same hok

theorem run_same {env : Env} {zones zones' : Zones} {cs : List Call}
    (h : run env zones cs = .ok zones') : ∀ y, SameFrames (zones y) (zones' y) := by
  induction cs generalizing zones with
  | nil => exact Except.ok.inj h ▸ fun y => .refl _
  | cons c cs ih =>
    rcases bind_ok_iff.1 h with ⟨zs, hcall, h⟩
    exact fun y => (call_same hcall y).trans (ih h y)

theorem bootRun_handled {env : Env} {boot : BootInfo} {zones : Zones} {cs : List Call}
    (h : bootRun env boot cs = .ok zones) : ∀ z, Handled (zones z) := by
  rcases bind_ok_iff.1 h with ⟨⟨e, zones₀⟩, hinit, hrun⟩
  exact fun z => (zonesInit_handled hinit z).congr (run_same hrun z)

/-! ## Allocation -/

def grabbed (zone : Zone) (i n : Nat) : Zone :=
  { zone with
    bitmap := { zone.bitmap with bits := fill zone.bitmap.bits i n true }
    pages := taken zone.pages i n
    upages := zone.upages + BitVec.ofNat 64 n }

structure Grabbed (zones : Zones) (page : PagePtr) (order : BitVec 64) (zones' : Zones) :
    Prop where
  small : order.toNat < 64
  valid : (zones page.zone).valid = true
  inside : page.index + (BS order).toNat ≤ (zones page.zone).bitmap.size
  clear : ∀ k, page.index ≤ k → k < page.index + (BS order).toNat →
    (zones page.zone).bitmap.bits k = false
  unused : ∀ k, page.index ≤ k → k < page.index + (BS order).toNat →
    ((zones page.zone).pages k).refcnt = 0
  after : zones' =
    setZone zones page.zone (grabbed (zones page.zone) page.index (BS order).toNat)

theorem doPageAllocN_grabbed {env : Env} {zones zones' : Zones} {gfp : BitVec 32}
    {order addr : BitVec 64} {ret : Ret} {page : PagePtr}
    (h : doPageAllocN env zones gfp order = .ok (ret, some (page, addr), zones')) :
    Grabbed zones page order zones' ∧ addr = pageAddr (zones page.zone) page.index := by
  rw [doPageAllocN] at h
  cases hselect : selectZone zones gfp order with
  | error e => simp [hselect] at h
  | ok z =>
    rcases selectZone_ok hselect with ⟨horder, -, hvalid⟩
    simp only [hselect, allocInZone] at h
    split at h
    · simp at h
    · rename_i err index bitmap hrange
      rcases bitmapAllocRange_ok hrange with ⟨hle, hclear, rfl⟩
      rcases bind_ok_iff.1 h with ⟨zone, htake, h⟩
      rcases takePages_spec htake with ⟨hunused, rfl⟩
      simp only [pure_eq_ok, Except.ok.injEq, Prod.mk.injEq, Option.some.injEq] at h
      rcases h with ⟨-, ⟨rfl, rfl⟩, rfl⟩
      refine ⟨⟨horder, hvalid, hle, hclear, hunused, ?_⟩, rfl⟩
      simp only [grabbed, BitVec.ofNat_toNat, BitVec.setWidth_eq]

section Release

variable {env : Env} {zones zones' : Zones} {page : PagePtr} {order : BitVec 64}

theorem Grabbed.same (hg : Grabbed zones page order zones') :
    ∀ y, SameFrames (zones y) (zones' y) := by
  rw [hg.after]
  exact sameFrames_setZone ⟨rfl, rfl, rfl, rfl, rfl⟩

theorem Grabbed.zone (hg : Grabbed zones page order zones') :
    zones' page.zone = grabbed (zones page.zone) page.index (BS order).toNat := by
  rw [hg.after, setZone, update_self]

theorem Grabbed.count_pos (hg : Grabbed zones page order zones') : 0 < (BS order).toNat := by
  rw [toNat_BS hg.small]
  exact Nat.two_pow_pos _

theorem Grabbed.not_restored (hg : Grabbed zones page order zones') {zones'' : Zones}
    (hsame : zones'' page.zone = zones' page.zone) : ¬ Restored zones zones'' := by
  intro hr
  have hpos := hg.count_pos
  have hold := hg.clear page.index (Nat.le_refl _) (by omega)
  rw [← hr.bitmap page.zone, hsame, hg.zone] at hold
  simp [grabbed, fill, hpos] at hold

/-! ## Release -/

theorem releasePages_grabbed {zone : Zone} {i n : Nat} (hsize : zone.bitmap.size = zone.npages)
    (hle : i + n ≤ zone.npages)
    (hclear : ∀ k, i ≤ k → k < i + n → zone.bitmap.bits k = false)
    (hunused : ∀ k, i ≤ k → k < i + n → (zone.pages k).refcnt = 0) :
    ∃ zone', releasePages n i (grabbed zone i n) = .ok zone' ∧ zone'.bitmap = zone.bitmap ∧
      (∀ k, (zone'.pages k).refcnt = (zone.pages k).refcnt) ∧ zone'.upages = zone.upages := by
  have hpages : ∀ k, i ≤ k → k < i + n → k < (grabbed zone i n).npages ∧
      ((grabbed zone i n).pages k).refcnt = 1 ∧ (grabbed zone i n).bitmap.bits k = true := by
    intro k hlo hhi
    refine ⟨?_, ?_, ?_⟩
    · change k < zone.npages
      omega
    · simp [grabbed, taken, hlo, hhi, Page.withRefcnt]
    · simp [grabbed, fill, hlo, hhi]
  have hspec := @releasePages_spec n i (grabbed zone i n) hsize hpages
  rcases hspec with ⟨zone', hok, hsame, hbits, hup, hzero, hother⟩
  refine ⟨zone', hok, ?_, fun k => ?_, ?_⟩
  · have hb : zone'.bitmap.bits = zone.bitmap.bits := by
      rw [hbits]
      funext k
      by_cases hin : i ≤ k ∧ k < i + n
      · simp [fill, hin, hclear k hin.1 hin.2]
      · simp [grabbed, fill, hin]
    have hs : zone'.bitmap.size = zone.bitmap.size := hsame.bits
    calc
      zone'.bitmap = ⟨zone'.bitmap.size, zone'.bitmap.bits⟩ := rfl
      _ = ⟨zone.bitmap.size, zone.bitmap.bits⟩ := congrArg₂ Bitmap.mk hs hb
  · by_cases hin : i ≤ k ∧ k < i + n
    · rw [hzero k hin.1 hin.2, hunused k hin.1 hin.2]
    · rw [hother k hin]
      simp [grabbed, taken, hin]
  · rw [hup]
    exact BitVec.add_sub_cancel _ _

theorem Grabbed.freeInZone_iff (hg : Grabbed zones page order zones')
    (hh : Handled (zones page.zone)) :
    Restores zones (freeInZone env zones' page.zone page.index order) ↔
      Releasable env zones page order := by
  have hsame := hg.same page.zone
  have haddr : pageAddr (zones' page.zone) page.index = pageAddr (zones page.zone) page.index := by
    rw [pageAddr, pageAddr, hsame.start]
  rw [freeInZone, haddr, hsame.start, hsame.size]
  constructor
  · rintro ⟨zones'', hfree, hr⟩
    rw [assert_bind_ok_iff] at hfree
    rcases hfree with ⟨houtside, hfree⟩
    refine ⟨houtside, ?_⟩
    by_contra hend
    rw [if_pos (BitVec.not_lt.1 hend)] at hfree
    exact hg.not_restored (congrFun (Except.ok.inj hfree).symm _) hr
  · rintro ⟨houtside, hbefore⟩
    have hle := hg.inside
    rw [hh.size] at hle
    rcases releasePages_grabbed hh.size hle hg.clear hg.unused with
      ⟨zone', hok, hbitmap, hrefcnt, hupages⟩
    refine ⟨setZone zones' page.zone zone', ?_, ?_⟩
    · rw [assert, if_pos houtside, ok_bind, if_neg (BitVec.not_le.2 hbefore), hg.zone, hok]
      rfl
    · -- the zones are those before the allocation, but for the handle flags
      rw [hg.after]
      refine ⟨fun z => ?_, fun z i => ?_, fun z => ?_⟩
      · by_cases hz : z = page.zone
        · subst hz
          simp [setZone, hbitmap]
        · simp [setZone, hz]
      · by_cases hz : z = page.zone
        · subst hz
          simp [setZone, hrefcnt]
        · simp [setZone, hz]
      · by_cases hz : z = page.zone
        · subst hz
          simp [setZone, hupages]
        · simp [setZone, hz]

theorem Grabbed.pageFreeN_eq (hg : Grabbed zones page order zones')
    (hh : Handled (zones page.zone)) :
    pageFreeN env zones' page order = freeInZone env zones' page.zone page.index order := by
  have hsame := hg.same page.zone
  have hpos := hg.count_pos
  have hin := hg.inside
  rw [hh.size] at hin
  have hzone : getzoneBypage zones' page = some page.zone := by
    have hlt : page.index < (zones page.zone).npages := by omega
    simp [getzoneBypage, hsame.valid, hsame.npages, hg.valid, hlt]
  have horder : order ≤ 64 := by
    rw [BitVec.le_def]
    exact hg.small.le
  rw [pageFreeN, assert, if_pos horder, ok_bind, hzone]

theorem getzoneByaddr_eq_some_iff {paddr size : BitVec 64} {z : Fin NZONE} :
    getzoneByaddr zones paddr size = some z ↔
      ((zones z).start ≤ paddr ∧ (zones z).valid = true ∧
        paddr + size ≤ (zones z).start + (zones z).size) ∧
      ∀ y < z, (zones y).valid = true → (zones y).start ≤ paddr →
        (zones y).start + (zones y).size < paddr + size := by
  rw [getzoneByaddr, List.find?_eq_some_iff_getElem]
  have hlength : z.val < (List.finRange NZONE).length := by simp
  have hz : (List.finRange NZONE).get ⟨z.val, hlength⟩ = z := by simp
  constructor
  · rintro ⟨hfound, i, hi, rfl, hbefore⟩
    simp only [List.getElem_finRange, Bool.and_eq_true, decide_eq_true_eq] at hfound ⊢
    refine ⟨⟨hfound.1.1, hfound.1.2, hfound.2⟩, fun y hy hvalid hstart => ?_⟩
    have hlt : y.val < i := hy
    have hno := hbefore y.val hlt
    simpa [hvalid, hstart] using hno
  · rintro ⟨⟨hstart, hvalid, hend⟩, hbefore⟩
    refine ⟨by simp [hstart, hvalid, hend], z.val, by simp, hz, fun j hj => ?_⟩
    have hno := fun hstart hvalid => hbefore ⟨j, hj.trans z.isLt⟩ hj hvalid hstart
    simpa [Bool.and_eq_false_iff, Classical.or_iff_not_imp_left] using hno

theorem Grabbed.getzoneByaddr_iff (hg : Grabbed zones page order zones')
    (hbefore : pageAddr (zones page.zone) page.index + BS order * PGSZ <
      (zones page.zone).start + (zones page.zone).size) :
    getzoneByaddr zones' (pageAddr (zones page.zone) page.index) (BS order * PGSZ) =
      some page.zone ↔ Unshadowed zones page order := by
  rw [getzoneByaddr_congr hg.same, getzoneByaddr_eq_some_iff]
  constructor
  · rintro ⟨⟨habove, -, -⟩, hfirst⟩
    exact ⟨habove, hfirst⟩
  · rintro ⟨habove, hfirst⟩
    exact ⟨⟨habove, hg.valid, BitVec.le_of_lt hbefore⟩, hfirst⟩

theorem pageFreeNAddr_cases {zones'' : Zones} {addr : BitVec 64}
    (h : pageFreeNAddr env zones' addr order = .ok zones'') :
    ∃ z, getzoneByaddr zones' addr (BS order * PGSZ) = some z ∧
      freeInZone env zones' z ((addr - (zones' z).start) / PGSZ).toNat order = .ok zones'' := by
  simp only [pageFreeNAddr, assert_bind_ok_iff] at h
  rcases h with ⟨-, h⟩
  split at h
  · simp at h
  · rename_i z hz
    simp only [inBounds_bind_ok_iff, assert_bind_ok_iff] at h
    exact ⟨z, hz, h.2.2⟩

theorem Grabbed.index_eq (hg : Grabbed zones page order zones') (hh : Handled (zones page.zone)) :
    ((pageAddr (zones page.zone) page.index - (zones' page.zone).start) / PGSZ).toNat =
      page.index := by
  have hle := hh.npages_le
  have hin := hg.inside
  have hpos := hg.count_pos
  rw [hh.size] at hin
  rw [(hg.same page.zone).start]
  exact index_pageAddr (by omega)

theorem Grabbed.pageFreeNAddr_eq (hg : Grabbed zones page order zones')
    (hh : Handled (zones page.zone))
    (hzone : getzoneByaddr zones' (pageAddr (zones page.zone) page.index) (BS order * PGSZ) =
      some page.zone) :
    pageFreeNAddr env zones' (pageAddr (zones page.zone) page.index) order =
      freeInZone env zones' page.zone page.index order := by
  have hpos := hg.count_pos
  have hin := hg.inside
  rw [hh.size] at hin
  have horder : order ≤ 64 := by
    rw [BitVec.le_def]
    exact hg.small.le
  have hlt : page.index < (zones' page.zone).npages := by
    rw [(hg.same page.zone).npages]
    omega
  have htaken : ((zones' page.zone).pages page.index).refcnt ≠ 0 ∧
      (zones' page.zone).bitmap.bitmapTest page.index 1 = true := by
    rw [hg.zone]
    refine ⟨?_, ?_⟩
    · simp [grabbed, taken, hpos, Page.withRefcnt]
    · simp [grabbed, bitmapTest, anyBit_one, fill, hpos]
  rw [pageFreeNAddr, assert, if_pos horder, ok_bind, hzone]
  simp only [hg.index_eq hh]
  rw [inBounds, if_pos hlt, ok_bind, assert, if_pos htaken, ok_bind]

theorem Grabbed.pageFreeNAddr_iff (hg : Grabbed zones page order zones')
    (hh : ∀ z, Handled (zones z)) :
    Restores zones (pageFreeNAddr env zones' (pageAddr (zones page.zone) page.index) order) ↔
      Releasable env zones page order ∧ Unshadowed zones page order := by
  constructor
  · rintro ⟨zones'', hfree, hr⟩
    rcases pageFreeNAddr_cases hfree with ⟨z, hzone, hin⟩
    by_cases hz : z = page.zone
    · subst hz
      rw [hg.index_eq (hh _)] at hin
      have hok := (hg.freeInZone_iff (hh _)).1 ⟨zones'', hin, hr⟩
      exact ⟨hok, (hg.getzoneByaddr_iff hok.before).1 hzone⟩
    · -- another zone is searched for the block, and its own is left alone
      rcases freeInZone_cases hin with ⟨zone, rfl, -⟩
      refine absurd hr (hg.not_restored ?_)
      rw [setZone, update_of_ne (Ne.symm hz)]
  · rintro ⟨hok, hhome⟩
    have hzone := (hg.getzoneByaddr_iff hok.before).2 hhome
    rw [hg.pageFreeNAddr_eq (hh _) hzone]
    exact (hg.freeInZone_iff (hh _)).2 hok

end Release

/-- In every state that a run reaches from initialisation, a block that an allocation returns is
taken back by `page_free_n` if and only if it lies outside the kernel image and ends before its zone
does, and by `__page_free_n` if and only if, moreover, its zone is the first that contains it. -/
theorem release_restores_iff {env : Env} {boot : BootInfo} {cs : List Call} {zones : Zones}
    (hrun : bootRun env boot cs = .ok zones) {gfp : BitVec 32} {order addr : BitVec 64} {ret : Ret}
    {page : PagePtr} {zones' : Zones}
    (halloc : doPageAllocN env zones gfp order = .ok (ret, some (page, addr), zones')) :
    (Restores zones (pageFreeN env zones' page order) ↔ Releasable env zones page order) ∧
      (Restores zones (pageFreeNAddr env zones' addr order) ↔
        Releasable env zones page order ∧ Unshadowed zones page order) := by
  have hh := bootRun_handled hrun
  rcases doPageAllocN_grabbed halloc with ⟨hg, rfl⟩
  refine ⟨?_, hg.pageFreeNAddr_iff hh⟩
  rw [hg.pageFreeN_eq (hh _)]
  exact hg.freeInZone_iff (hh _)

theorem bootRun_normal : bootRun highKernel (bootNormal 16) [] = .ok (normalZones 16) := by
  have hinit : zonesInit (bootNormal 16) =
      .ok (outcome (zonesInit (bootNormal 16)) (.ok, fun _ => Zone.zero)) :=
    eq_ok_outcome (by decide +kernel)
  rw [bootRun, hinit]
  rfl

theorem release_restores_two_pages :
    ∃ ret zones', doPageAllocN highKernel (normalZones 16) GFP_NORMAL 1 =
        .ok (ret, some (⟨1, 0⟩, 0x1000000), zones') ∧
      Restores (normalZones 16) (pageFreeN highKernel zones' ⟨1, 0⟩ 1) ∧
      Restores (normalZones 16) (pageFreeNAddr highKernel zones' 0x1000000 1) := by
  have hcall : (doPageAllocN highKernel (normalZones 16) GFP_NORMAL 1).toOption.map
      (fun r => r.2.1) = some (some (⟨1, 0⟩, 0x1000000)) := by decide +kernel
  rcases ok_of_toOption hcall with ⟨⟨ret, res, zones'⟩, hok, rfl⟩
  have hlaw := release_restores_iff bootRun_normal hok
  have hreleasable : Releasable highKernel (normalZones 16) ⟨1, 0⟩ 1 :=
    ⟨by decide +kernel, by decide +kernel⟩
  have hhome : Unshadowed (normalZones 16) ⟨1, 0⟩ 1 := ⟨by decide +kernel, by decide +kernel⟩
  exact ⟨ret, zones', hok, hlaw.1.2 hreleasable, hlaw.2.2 ⟨hreleasable, hhome⟩⟩

/-- The block of all four pages is not taken back, by its handle or by its address. -/
theorem whole_zone_not_released :
    ∃ ret zones', doPageAllocN highKernel (normalZones 16) GFP_NORMAL 2 =
        .ok (ret, some (⟨1, 0⟩, 0x1000000), zones') ∧
      ¬ Restores (normalZones 16) (pageFreeN highKernel zones' ⟨1, 0⟩ 2) ∧
      ¬ Restores (normalZones 16) (pageFreeNAddr highKernel zones' 0x1000000 2) := by
  have hcall : (doPageAllocN highKernel (normalZones 16) GFP_NORMAL 2).toOption.map
      (fun r => r.2.1) = some (some (⟨1, 0⟩, 0x1000000)) := by decide +kernel
  rcases ok_of_toOption hcall with ⟨⟨ret, res, zones'⟩, hok, rfl⟩
  have hend : ¬ Releasable highKernel (normalZones 16) ⟨1, 0⟩ 2 :=
    fun h => absurd h.before (by decide +kernel)
  have hh := bootRun_handled bootRun_normal
  rcases doPageAllocN_grabbed hok with ⟨hg, haddr⟩
  refine ⟨ret, zones', hok, fun h => hend ?_, fun h => hend ?_⟩
  · rw [hg.pageFreeN_eq (hh _)] at h
    exact (hg.freeInZone_iff (hh _)).1 h
  · rw [haddr] at h
    exact ((hg.pageFreeNAddr_iff hh).1 h).1

end Pmm
end Mm
end XytherOS
