import XytherOS.Mm.Pmm

/-!
# PmmAccount — bitmap, reference counts and counters of the page allocator

`Accounted zone` says that the bitmap, the reference counts, the counter of used pages and the
handles of free pages agree.  `zones_init` establishes it, and so do allocation, release and the
taking of references.  `page_decrement` and `__page_decrement` keep it only while they do not drop
the last reference: then they clear the bit, but neither count the page as free nor reset its
handle, as `do_page_free_n` does.
-/

namespace XytherOS
namespace Mm
namespace Pmm

open Function Ds Bitmap

/-! ## The invariant of a zone -/

/-- The handle of a free page: as `zones_init` or `do_page_free_n` leaves it. -/
def FreePage (page : Page) : Prop :=
  (page.flags = 0 ∨ page.flags = PG_SWAPPABLE) ∧ page.icache = none

structure Accounted (zone : Zone) : Prop where
  bit : ∀ i, i < zone.npages → (zone.bitmap.bits i = true ↔ 0 < (zone.pages i).refcnt.toNat)
  upages : zone.upages.toNat = countSet zone.bitmap.bits zone.npages
  free : ∀ i, i < zone.npages → (zone.pages i).refcnt = 0 → FreePage (zone.pages i)
  size : zone.bitmap.size = zone.npages
  npages_lt : zone.npages < 2 ^ 64

theorem toNat_pos_iff {x : BitVec 64} : 0 < x.toNat ↔ x ≠ 0 := by
  constructor
  · rintro h rfl
    simp at h
  · intro h
    refine Nat.pos_of_ne_zero fun h0 => h ?_
    exact BitVec.eq_of_toNat_eq (by simpa using h0)

section Zone

variable {zone : Zone} {i : Nat} {page : Page}

theorem Accounted.setPage (h : Accounted zone) (hbit : zone.bitmap.bits i = true)
    (hpage : page.refcnt ≠ 0) : Accounted (zone.setPage i page) where
  bit j hj := by
    by_cases hji : j = i
    · subst hji
      simpa [Zone.setPage, hbit] using toNat_pos_iff.2 hpage
    · simpa [Zone.setPage, hji] using h.bit j hj
  upages := h.upages
  free j hj := by
    by_cases hji : j = i
    · subst hji
      intro hzero
      exact absurd (by simpa [Zone.setPage] using hzero) hpage
    · simpa [Zone.setPage, hji] using h.free j hj
  size := h.size
  npages_lt := h.npages_lt

theorem Accounted.take (h : Accounted zone) (hi : i < zone.npages)
    (hbit : zone.bitmap.bits i = false) (hpage : page.refcnt ≠ 0) :
    Accounted ({ zone with
      bitmap := { zone.bitmap with bits := update zone.bitmap.bits i true }
      upages := zone.upages + 1 }.setPage i page) where
  bit j hj := by
    by_cases hji : j = i
    · subst hji
      simpa [Zone.setPage] using toNat_pos_iff.2 hpage
    · simpa [Zone.setPage, hji] using h.bit j hj
  upages := by
    have hcount := countSet_update_true hi hbit
    have hle := countSet_le (update zone.bitmap.bits i true) zone.npages
    have hlt := h.npages_lt
    have hup := h.upages
    simp only [Zone.setPage, hcount]
    bv_omega
  free j hj := by
    by_cases hji : j = i
    · subst hji
      intro hzero
      exact absurd (by simpa [Zone.setPage] using hzero) hpage
    · simpa [Zone.setPage, hji] using h.free j hj
  size := h.size
  npages_lt := h.npages_lt

theorem Accounted.drop (h : Accounted zone) (hi : i < zone.npages)
    (hbit : zone.bitmap.bits i = true) (hpage : page.refcnt = 0) (hfree : FreePage page) :
    Accounted ({ zone with
      bitmap := { zone.bitmap with bits := update zone.bitmap.bits i false }
      upages := zone.upages - 1 }.setPage i page) where
  bit j hj := by
    by_cases hji : j = i
    · subst hji
      simp [Zone.setPage, hpage]
    · simpa [Zone.setPage, hji] using h.bit j hj
  upages := by
    have hcount := countSet_update_false hi hbit
    have hup := h.upages
    simp only [Zone.setPage]
    bv_omega
  free j hj := by
    by_cases hji : j = i
    · subst hji
      simpa [Zone.setPage] using fun _ => hfree
    · simpa [Zone.setPage, hji] using h.free j hj
  size := h.size
  npages_lt := h.npages_lt

theorem Accounted.refcnt_ne_zero (h : Accounted zone) (hi : i < zone.npages)
    (hbit : zone.bitmap.bits i = true) : (zone.pages i).refcnt ≠ 0 :=
  toNat_pos_iff.1 ((h.bit i hi).1 hbit)

theorem Accounted.bit_of_refcnt (h : Accounted zone) (hi : i < zone.npages)
    (href : (zone.pages i).refcnt ≠ 0) : zone.bitmap.bits i = true :=
  (h.bit i hi).2 (toNat_pos_iff.2 href)

end Zone

/-! ## Allocation -/

def taken (pages : Nat → Page) (i n : Nat) : Nat → Page := fun k =>
  if i ≤ k ∧ k < i + n then (pages k).withRefcnt 1 else pages k

variable {zones zones' : Zones} {e : Ret} {env : Env} {z : Fin NZONE} {zone' : Zone}
    {order : BitVec 64}

theorem takePages_spec {zero : Bool} {whence : Fin NZONE} {n i : Nat}
    {zone : Zone} (h : takePages env zero whence n i zone = .ok zone') :
    (∀ k, i ≤ k → k < i + n → (zone.pages k).refcnt = 0) ∧
      zone' = { zone with pages := taken zone.pages i n } := by
  induction n generalizing i zone with
  | zero =>
    have hz : zone' = zone := (Except.ok.inj h).symm
    refine ⟨fun k hlo hhi => by omega, ?_⟩
    have hpages : taken zone.pages i 0 = zone.pages := by
      funext k
      have hno : ¬ (i ≤ k ∧ k < i) := by omega
      simp [taken, hno]
    rw [hz, hpages]
  | succ n ih =>
    simp only [takePages, assert_bind_ok_iff] at h
    rcases h with ⟨_, href, h⟩
    rcases bind_ok_iff.1 h with ⟨_, _, h⟩
    rcases bind_ok_iff.1 h with ⟨_, _, h⟩
    rcases ih h with ⟨hrest, hz⟩
    refine ⟨fun k hlo hhi => ?_, ?_⟩
    · by_cases hk : k = i
      · rw [hk]
        exact href
      · simpa [Zone.setPage, hk] using hrest k (by omega) (by omega)
    · rw [hz]
      simp only [Zone.setPage, Zone.mk.injEq, true_and, and_true]
      funext k
      by_cases hk : k = i
      · subst hk
        have hno : ¬ (k + 1 ≤ k ∧ k < k + 1 + n) := by omega
        simp [taken, hno, href]
      · have hiff : (i + 1 ≤ k ∧ k < i + 1 + n) ↔ (i ≤ k ∧ k < i + (n + 1)) := by omega
        simp only [taken, hiff, update_of_ne hk]

theorem Accounted.alloc {zone : Zone} (h : Accounted zone) {bitmap : Bitmap} {n i : Nat}
    (hn : n < 2 ^ 64) (hrange : zone.bitmap.bitmapAllocRange n = (e, some i, bitmap)) :
    Accounted { zone with
      bitmap := bitmap
      pages := taken zone.pages i n
      upages := zone.upages + BitVec.ofNat 64 n } := by
  rcases bitmapAllocRange_ok hrange with ⟨hle, hclear, rfl⟩
  rw [h.size] at hle
  have hcount := countSet_fill_true hle hclear
  refine ⟨fun k hk => ?_, ?_, fun k hk hzero => ?_, h.size, h.npages_lt⟩
  · by_cases hin : i ≤ k ∧ k < i + n
    · simp [fill, taken, hin, Page.withRefcnt]
    · simpa [fill, taken, hin] using h.bit k hk
  · have hbound := countSet_le (fill zone.bitmap.bits i n true) zone.npages
    have hlt := h.npages_lt
    have hup := h.upages
    simp only [hcount] at hbound ⊢
    rw [BitVec.toNat_add, BitVec.toNat_ofNat, Nat.mod_eq_of_lt hn, hup, Nat.mod_eq_of_lt (by omega)]
  · by_cases hin : i ≤ k ∧ k < i + n
    · simp [taken, hin, Page.withRefcnt] at hzero
    · simp only [taken, hin, if_false] at hzero ⊢
      exact h.free k hk hzero

/-! ## Release and references -/

theorem bits_of_bitmapTest {b : Bitmap} {pos : Nat} (hpos : pos < b.size)
    (h : b.bitmapTest pos 1 = true) : b.bits pos = true := by
  have hrange : ¬ b.size < pos + 1 := by omega
  simpa [bitmapTest, hrange, anyBit_one] using h

theorem Accounted.release {zone : Zone} (h : Accounted zone) {pos : Nat} {page : Page}
    (hpos : pos < zone.npages) (hbit : zone.bitmap.bits pos = true) (hpage : page.refcnt = 0)
    (hrel : zone.release pos page = .ok zone') :
    Accounted zone' ∧ zone'.npages = zone.npages := by
  have hpos' : pos < zone.bitmap.size := by rw [h.size]; exact hpos
  rw [Zone.release, bitmapUnset_one hpos' hbit] at hrel
  have hz := Except.ok.inj hrel
  subst hz
  exact ⟨h.drop hpos hbit hpage ⟨Or.inr rfl, rfl⟩, rfl⟩

theorem Accounted.releasePages {n pos : Nat} {zone : Zone} (h : Accounted zone)
    (hrel : Pmm.releasePages n pos zone = .ok zone') : Accounted zone' := by
  induction n generalizing pos zone with
  | zero =>
    have hz : zone = zone' := Except.ok.inj hrel
    exact hz ▸ h
  | succ n ih =>
    simp only [Pmm.releasePages, inBounds_bind_ok_iff, assert_bind_ok_iff] at hrel
    rcases hrel with ⟨hpos, href, hrel⟩
    have hbit := h.bit_of_refcnt hpos href
    split_ifs at hrel with hlast
    · exact ih (h.setPage hbit hlast) hrel
    · rcases bind_ok_iff.1 hrel with ⟨zone1, hone, hrel⟩
      exact ih (h.release hpos hbit (by simpa using hlast) hone).1 hrel

/-! ## The zones -/

def AllAccounted (zones : Zones) : Prop := ∀ z, Accounted (zones z)

theorem AllAccounted.setZone (h : AllAccounted zones) {zone : Zone}
    (hz : Accounted zone) : AllAccounted (setZone zones z zone) := by
  intro y
  by_cases hy : y = z
  · subst hy
    simpa [Pmm.setZone] using hz
  · simpa [Pmm.setZone, hy] using h y

theorem AllAccounted.doPageAllocN (h : AllAccounted zones)
    {gfp : BitVec 32} {res : Option (PagePtr × BitVec 64)}
    (hcall : Pmm.doPageAllocN env zones gfp order = .ok (e, res, zones')) :
    AllAccounted zones' := by
  unfold Pmm.doPageAllocN allocInZone at hcall
  split at hcall
  · simp only [Except.ok.injEq, Prod.mk.injEq] at hcall
    exact hcall.2.2 ▸ h
  · split at hcall
    · simp only [Except.ok.injEq, Prod.mk.injEq] at hcall
      exact hcall.2.2 ▸ h
    · rename_i z _ _ _ index bitmap hrange
      rcases bind_ok_iff.1 hcall with ⟨zone, htake, hcall⟩
      simp only [pure_eq_ok, Except.ok.injEq, Prod.mk.injEq] at hcall
      rcases takePages_spec htake with ⟨_, hzone⟩
      have hacc := (h z).alloc (BS order).isLt hrange
      rw [← hcall.2.2]
      refine h.setZone ?_
      simpa [hzone] using hacc

theorem AllAccounted.freeInZone (h : AllAccounted zones) {pos : Nat}
    (hcall : Pmm.freeInZone env zones z pos order = .ok zones') : AllAccounted zones' := by
  simp only [Pmm.freeInZone, assert_bind_ok_iff] at hcall
  rcases hcall with ⟨_, hcall⟩
  split_ifs at hcall
  · exact Except.ok.inj hcall ▸ h
  · rcases bind_ok_iff.1 hcall with ⟨zone, hrel, hcall⟩
    rw [← Except.ok.inj hcall]
    exact h.setZone ((h z).releasePages hrel)

theorem AllAccounted.pageFreeN (h : AllAccounted zones)
    {page : PagePtr} (hcall : Pmm.pageFreeN env zones page order = .ok zones') :
    AllAccounted zones' := by
  simp only [Pmm.pageFreeN, assert_bind_ok_iff] at hcall
  rcases hcall with ⟨_, hcall⟩
  split at hcall
  · simp at hcall
  · exact h.freeInZone hcall

theorem AllAccounted.pageFreeNAddr (h : AllAccounted zones)
    {addr : BitVec 64} (hcall : Pmm.pageFreeNAddr env zones addr order = .ok zones') :
    AllAccounted zones' := by
  simp only [Pmm.pageFreeNAddr, assert_bind_ok_iff] at hcall
  rcases hcall with ⟨_, hcall⟩
  split at hcall
  · simp at hcall
  · simp only [inBounds_bind_ok_iff, assert_bind_ok_iff] at hcall
    exact h.freeInZone hcall.2.2

theorem AllAccounted.incrementInZone (h : AllAccounted zones) {i : Nat} (hmax : ((zones z).pages i).refcnt ≠ -1)
    (hcall : Pmm.incrementInZone zones z i = .ok (e, zones')) : AllAccounted zones' := by
  simp only [Pmm.incrementInZone, assert_bind_ok_iff, inBounds_bind_ok_iff] at hcall
  rcases hcall with ⟨htest, hi, hcall⟩
  simp only [pure_eq_ok, Except.ok.injEq, Prod.mk.injEq] at hcall
  have hbit := bits_of_bitmapTest (by rw [(h z).size]; exact hi) htest
  rw [← hcall.2]
  refine h.setZone ((h z).setPage hbit ?_)
  simp only [Page.withRefcnt]
  intro hzero
  apply hmax
  bv_omega

theorem AllAccounted.decrementInZone (h : AllAccounted zones) {i : Nat} (hlast : ((zones z).pages i).refcnt ≠ 1)
    (hcall : Pmm.decrementInZone zones z i = .ok (e, zones')) : AllAccounted zones' := by
  simp only [Pmm.decrementInZone, assert_bind_ok_iff, inBounds_bind_ok_iff] at hcall
  rcases hcall with ⟨htest, hi, hcall⟩
  have hbit := bits_of_bitmapTest (by rw [(h z).size]; exact hi) htest
  have hne : ((zones z).pages i).refcnt - 1 ≠ 0 := by
    intro hzero
    apply hlast
    bv_omega
  rw [if_neg hne] at hcall
  simp only [pure_eq_ok, Except.ok.injEq, Prod.mk.injEq] at hcall
  rw [← hcall.2]
  exact h.setZone ((h z).setPage hbit hne)

def refcntAt (zones : Zones) : Except Errno (Fin NZONE × Nat) → Option (BitVec 64)
  | .ok (z, i) => some ((zones z).pages i).refcnt
  | .error _ => none

/-- The calls that keep the accounts: no `put` drops the last reference, and no `get` is made at
the largest count. -/
def Call.Keeps (zones : Zones) : Call → Prop
  | .pageGet page => refcntAt zones (locatePage zones page) ≠ some (-1)
  | .pageGetAddr paddr => refcntAt zones (locateAddr zones paddr) ≠ some (-1)
  | .pagePut page => refcntAt zones (locatePage zones page) ≠ some 1
  | .pagePutAddr paddr => refcntAt zones (locateAddr zones paddr) ≠ some 1
  | .mmFree paddr => refcntAt zones (locateAddr zones paddr) ≠ some 1
  | _ => True

instance (zones : Zones) : ∀ c : Call, Decidable (c.Keeps zones)
  | .pageGet _ | .pageGetAddr _ | .pagePut _ | .pagePutAddr _ | .mmFree _ =>
    inferInstanceAs (Decidable (_ ≠ _))
  | .pageAllocN _ _ | .pageAllocNAddr _ _ | .pageFreeN _ _ | .pageFreeNAddr _ _ => isTrue trivial

/-- Every call of a run is made in a state in which it keeps the accounts. -/
def KeepingRun (env : Env) : Zones → List Call → Prop
  | _, [] => True
  | zones, c :: cs => c.Keeps zones ∧
      match call env zones c with
      | .ok zones' => KeepingRun env zones' cs
      | .error _ => True

theorem AllAccounted.increment (h : AllAccounted zones)
    {loc : Except Errno (Fin NZONE × Nat)} (hmax : refcntAt zones loc ≠ some (-1))
    (hcall : Pmm.increment zones loc = .ok (e, zones')) : AllAccounted zones' := by
  cases loc with
  | error err =>
    simp only [Pmm.increment, Except.ok.injEq, Prod.mk.injEq] at hcall
    exact hcall.2 ▸ h
  | ok zi => exact h.incrementInZone (fun heq => hmax (by simp [refcntAt, heq])) hcall

theorem AllAccounted.decrement (h : AllAccounted zones)
    {loc : Except Errno (Fin NZONE × Nat)} (hlast : refcntAt zones loc ≠ some 1)
    (hcall : Pmm.decrement zones loc = .ok (e, zones')) : AllAccounted zones' := by
  cases loc with
  | error err =>
    simp only [Pmm.decrement, Except.ok.injEq, Prod.mk.injEq] at hcall
    exact hcall.2 ▸ h
  | ok zi => exact h.decrementInZone (fun heq => hlast (by simp [refcntAt, heq])) hcall

theorem AllAccounted.call (h : AllAccounted zones) {c : Call}
    (hc : c.Keeps zones) (hcall : Pmm.call env zones c = .ok zones') : AllAccounted zones' := by
  cases c with
  | pageAllocN gfp order =>
    rcases bind_ok_iff.1 hcall with ⟨⟨e, res, zs⟩, hok, hcall⟩
    rcases bind_ok_iff.1 hok with ⟨⟨e', res', zs'⟩, hok, heq⟩
    have hzs : zs' = zones' := by
      simp only [pure_eq_ok, Except.ok.injEq, Prod.mk.injEq] at heq hcall
      exact heq.2.2.trans hcall
    exact hzs ▸ h.doPageAllocN hok
  | pageAllocNAddr gfp order =>
    rcases bind_ok_iff.1 hcall with ⟨⟨e, res, zs⟩, hok, hcall⟩
    rcases bind_ok_iff.1 hok with ⟨⟨e', res', zs'⟩, hok, heq⟩
    have hzs : zs' = zones' := by
      simp only [pure_eq_ok, Except.ok.injEq, Prod.mk.injEq] at heq hcall
      exact heq.2.2.trans hcall
    exact hzs ▸ h.doPageAllocN hok
  | pageFreeN page order => exact h.pageFreeN hcall
  | pageFreeNAddr addr order => exact h.pageFreeNAddr hcall
  | pageGet page =>
    rcases bind_ok_iff.1 hcall with ⟨⟨e, zs⟩, hok, hcall⟩
    exact Except.ok.inj hcall ▸ h.increment hc hok
  | pageGetAddr paddr =>
    rcases bind_ok_iff.1 hcall with ⟨⟨e, zs⟩, hok, hcall⟩
    exact Except.ok.inj hcall ▸ h.increment hc hok
  | pagePut page =>
    rcases bind_ok_iff.1 hcall with ⟨⟨e, zs⟩, hok, hcall⟩
    rw [assert_bind_ok_iff] at hcall
    exact Except.ok.inj hcall.2 ▸ h.decrement hc hok
  | pagePutAddr paddr =>
    rcases bind_ok_iff.1 hcall with ⟨⟨e, zs⟩, hok, hcall⟩
    exact Except.ok.inj hcall ▸ h.decrement hc hok
  | mmFree paddr =>
    rcases bind_ok_iff.1 hcall with ⟨⟨e, zs⟩, hok, hcall⟩
    exact Except.ok.inj hcall ▸ h.decrement hc hok

theorem AllAccounted.run {cs : List Call}
    (h : AllAccounted zones) (hcs : KeepingRun env zones cs)
    (hrun : Pmm.run env zones cs = .ok zones') : AllAccounted zones' := by
  induction cs generalizing zones with
  | nil => exact Except.ok.inj hrun ▸ h
  | cons c cs ih =>
    rcases bind_ok_iff.1 hrun with ⟨zs, hcall, hrun⟩
    rcases hcs with ⟨hc, hcs⟩
    rw [hcall] at hcs
    exact ih (h.call hc hcall) hcs hrun

/-! ## Initialisation -/

def Bounded (c : Nat) (zones : Zones) : Prop :=
  ∀ z i, ((zones z).pages i).refcnt.toNat ≤ c

theorem Bounded.setZone {c : Nat} (h : Bounded c zones)
    {zone : Zone} (hz : ∀ i, (zone.pages i).refcnt.toNat ≤ c) : Bounded c (setZone zones z zone) := by
  intro y i
  by_cases hy : y = z
  · subst hy
    simpa [Pmm.setZone] using hz i
  · simpa [Pmm.setZone, hy] using h y i

theorem accounted_fresh {zone : Zone} {w : Watermark} (hpages : zone.pages = fun _ => Page.init w)
    (hbits : zone.bitmap.bits = fun _ => false) (hup : zone.upages = 0)
    (hsize : zone.bitmap.size = zone.npages) (hlt : zone.npages < 2 ^ 64) : Accounted zone where
  bit i _ := by simp [hpages, hbits, Page.init]
  upages := by
    have hcount : countSet (fun _ => false) zone.npages = 0 := by
      simp [countSet, Nat.count_eq_card_filter_range]
    rw [hup, hbits, hcount]
    rfl
  free i _ _ := by
    rw [hpages]
    exact ⟨Or.inl rfl, rfl⟩
  size := hsize
  npages_lt := hlt

theorem accounted_zero : Accounted Zone.zero :=
  accounted_fresh (w := .reserved) rfl rfl rfl rfl (by decide)

theorem initializeMemoryZone_accounted {boot : BootInfo}
    {memsz memsz' : BitVec 64} (h : AllAccounted zones) (hb : Bounded 0 zones)
    (hinit : initializeMemoryZone boot zones z memsz = .ok (e, zones', memsz')) :
    AllAccounted zones' ∧ Bounded 0 zones' := by
  have h0 : AllAccounted (setZone zones z Zone.zero) := h.setZone accounted_zero
  have hb0 : Bounded 0 (setZone zones z Zone.zero) := hb.setZone fun i => by
    simp [Zone.zero, Page.init]
  have hzz : setZone zones z Zone.zero z = Zone.zero := by simp [Pmm.setZone]
  unfold initializeMemoryZone at hinit
  generalize setZone zones z Zone.zero = zones₀ at h0 hb0 hzz hinit
  simp only at hinit
  split_ifs at hinit with hmem
  · simp only [pure_eq_ok, Except.ok.injEq, Prod.mk.injEq] at hinit
    exact hinit.2.1 ▸ ⟨h0, hb0⟩
  · generalize zoneWindow boot z memsz = w at hinit
    rcases bind_ok_iff.1 hinit with ⟨⟨e1, zones1⟩, hset, hinit⟩
    have hz1 : zones1 = zones' := by
      cases e1 <;> simp only [pure_eq_ok, Except.ok.injEq, Prod.mk.injEq] at hinit <;>
        exact hinit.2.1
    subst hz1
    unfold zoneSetAddressRange at hset
    split_ifs at hset with hprev hsize hboot
    · simp only [Except.ok.injEq, Prod.mk.injEq] at hset
      exact hset.2 ▸ ⟨h0, hb0⟩
    · simp only [Except.ok.injEq, Prod.mk.injEq] at hset
      rw [← hset.2]
      refine ⟨h0.setZone ?_, hb0.setZone fun i => by simpa [hzz] using hb0 z i⟩
      rw [hzz, hsize]
      exact accounted_fresh (w := .reserved) rfl rfl rfl rfl (BitVec.isLt _)
    · simp only [Except.ok.injEq, Prod.mk.injEq] at hset
      rw [← hset.2]
      refine ⟨h0.setZone ?_, hb0.setZone fun i => by simp [Page.init]⟩
      rw [hzz]
      exact accounted_fresh rfl rfl rfl rfl (BitVec.isLt _)

theorem initializeZones_accounted {boot : BootInfo} {zs : List (Fin NZONE)}
    {memsz : BitVec 64} (h : AllAccounted zones) (hb : Bounded 0 zones)
    (hinit : initializeZones boot zs zones memsz = .ok (e, zones')) :
    AllAccounted zones' ∧ Bounded 0 zones' := by
  induction zs generalizing zones memsz with
  | nil =>
    simp only [initializeZones, Except.ok.injEq, Prod.mk.injEq] at hinit
    exact hinit.2 ▸ ⟨h, hb⟩
  | cons z zs ih =>
    rcases bind_ok_iff.1 hinit with ⟨⟨e1, zones1, memsz1⟩, hone, hinit⟩
    rcases initializeMemoryZone_accounted h hb hone with ⟨h₁, hb1⟩
    cases e1 with
    | ok => exact ih h₁ hb1 hinit
    | err err =>
      simp only [pure_eq_ok, Except.ok.injEq, Prod.mk.injEq] at hinit
      exact hinit.2 ▸ ⟨h₁, hb1⟩

theorem Accounted.reserve {zone : Zone} (h : Accounted zone) {pos : Nat} (hpos : pos < zone.npages)
    (hmax : (zone.pages pos).refcnt ≠ -1) :
    Accounted ({ zone with
      bitmap := (zone.bitmap.bitmapSet pos 1).2
      upages := if (zone.pages pos).refcnt = 0 then zone.upages + 1 else zone.upages }.setPage pos
        (zone.pages pos).reserve) := by
  have hrange : ¬ zone.bitmap.size < pos + 1 := by rw [h.size]; omega
  have hne : (zone.pages pos).reserve.refcnt ≠ 0 := by
    simp only [Page.reserve]
    intro hzero
    apply hmax
    bv_omega
  by_cases href : (zone.pages pos).refcnt = 0
  · have hbit : zone.bitmap.bits pos = false := by
      cases hb : zone.bitmap.bits pos with
      | false => rfl
      | true => exact absurd href (h.refcnt_ne_zero hpos hb)
    have hset : (zone.bitmap.bitmapSet pos 1).2 =
        { zone.bitmap with bits := update zone.bitmap.bits pos true } := by
      simp [bitmapSet, hrange, anyBit_one, hbit, fill_one]
    rw [hset, if_pos href]
    exact h.take hpos hbit hne
  · have hbit := h.bit_of_refcnt hpos href
    have hset : (zone.bitmap.bitmapSet pos 1).2 = zone.bitmap := by
      simp [bitmapSet, hrange, anyBit_one, hbit]
    rw [hset, if_neg href]
    exact h.setPage hbit hne

theorem Accounted.markReservedPages {c n pos : Nat} {zone : Zone} (h : Accounted zone)
    (hc : c + 1 < 2 ^ 64) (hb : ∀ i, (zone.pages i).refcnt.toNat ≤ c + 1)
    (hb' : ∀ i, pos ≤ i → (zone.pages i).refcnt.toNat ≤ c)
    (hmark : Pmm.markReservedPages n pos zone = .ok zone') :
    Accounted zone' ∧ ∀ i, (zone'.pages i).refcnt.toNat ≤ c + 1 := by
  induction n generalizing pos zone with
  | zero =>
    have hz : zone = zone' := Except.ok.inj hmark
    exact hz ▸ ⟨h, hb⟩
  | succ n ih =>
    simp only [Pmm.markReservedPages, inBounds_bind_ok_iff] at hmark
    rcases hmark with ⟨hpos, hmark⟩
    have hpb := hb' pos (Nat.le_refl pos)
    have hmax : (zone.pages pos).refcnt ≠ -1 := by
      intro heq
      rw [heq] at hpb
      simp at hpb
      omega
    refine ih (h.reserve hpos hmax) ?_ ?_ hmark
    · intro i
      by_cases hi : i = pos
      · subst hi
        simp only [Zone.setPage, update_self, Page.reserve]
        bv_omega
      · simpa [Zone.setPage, hi] using hb i
    · intro i hi
      have hne : i ≠ pos := by omega
      simpa [Zone.setPage, hne] using hb' i (by omega)

theorem processMemoryMaps_accounted {maps : List BootMmap} {c : Nat}
    (h : AllAccounted zones) (hb : Bounded c zones) (hc : c + maps.length < 2 ^ 64)
    (hmaps : processMemoryMaps maps zones = .ok zones') : AllAccounted zones' := by
  induction maps generalizing c zones with
  | nil => exact Except.ok.inj hmaps ▸ h
  | cons map maps ih =>
    rcases bind_ok_iff.1 hmaps with ⟨zones1, hone, hmaps⟩
    rw [List.length_cons] at hc
    have hone' : AllAccounted zones1 ∧ Bounded (c + 1) zones1 := by
      unfold processMemoryMap at hone
      split_ifs at hone
      · exact Except.ok.inj hone ▸ ⟨h, fun z i => (hb z i).trans (Nat.le_succ c)⟩
      · simp only at hone
        split at hone
        · simp at hone
        · rename_i z _
          rcases bind_ok_iff.1 hone with ⟨zone, hmark, hone⟩
          rcases (h z).markReservedPages (c := c) (by omega)
            (fun i => (hb z i).trans (Nat.le_succ c)) (fun i _ => hb z i) hmark with ⟨hz, hbz⟩
          rw [← Except.ok.inj hone]
          refine ⟨h.setZone hz, Bounded.setZone (fun y i => (hb y i).trans (Nat.le_succ c)) hbz⟩
    exact ih hone'.1 hone'.2 (by omega) hmaps

theorem zonesInit_accounted {boot : BootInfo}
    (h : zonesInit boot = .ok (e, zones)) : AllAccounted zones := by
  rcases bind_ok_iff.1 h with ⟨⟨e1, zones1⟩, hinit, h⟩
  have hb0 : Bounded 0 fun _ => Zone.zero := fun _ i => by simp [Zone.zero, Page.init]
  rcases initializeZones_accounted (fun _ => accounted_zero) hb0 hinit with ⟨h₁, hb1⟩
  cases e1 with
  | err err =>
    simp only [pure_eq_ok, Except.ok.injEq, Prod.mk.injEq] at h
    exact h.2 ▸ h₁
  | ok =>
    rcases bind_ok_iff.1 h with ⟨zones2, hmaps, h⟩
    simp only [pure_eq_ok, Except.ok.injEq, Prod.mk.injEq] at h
    have hfits : 0 + boot.maps.length < 2 ^ 64 := by
      have := boot.fits
      simp only [NMMAP] at this
      omega
    exact h.2 ▸ processMemoryMaps_accounted h₁ hb1 hfits hmaps

def KeepingBoot (env : Env) (boot : BootInfo) (cs : List Call) : Prop :=
  match zonesInit boot with
  | .ok (_, zones) => KeepingRun env zones cs
  | .error _ => True

/-- In every state that a run reaches from initialisation, bitmap, reference counts, counters and
free handles of each zone agree, when no `page_put`, `__page_put` or `pmman.free` of the run drops
a last reference and no `page_get` or `__page_get` is made at the largest count. -/
theorem pages_accounted {env : Env} {boot : BootInfo} {zones : Zones} {cs : List Call}
    (hcs : KeepingBoot env boot cs) (hrun : bootRun env boot cs = .ok zones) :
    ∀ z, Accounted (zones z) := by
  rcases bind_ok_iff.1 hrun with ⟨⟨e, zones₀⟩, hinit, hrun⟩
  rw [KeepingBoot, hinit] at hcs
  exact (zonesInit_accounted hinit).run hcs hrun

def bootFourPages : BootInfo :=
  { total := 16 * 1024 + 16, memhi := 0, holeSize := 0, maps := [], bootAlloc := fun _ => true
    fits := by decide }

def highKernel : Env :=
  { kernBase := 0xFFFF800000100000, kernSize := 0x100000, mount := fun _ => none }

/-- What a run from initialisation leaves in the counter and in the bitmap of the normal zone. -/
def normalZoneCounts (cs : List Call) : Option (Nat × Nat) :=
  (bootRun highKernel bootFourPages cs).toOption.map fun zones =>
    ((zones 1).upages.toNat, countSet (zones 1).bitmap.bits (zones 1).npages)

theorem pages_accounted_four_pages :
    ∃ zones, bootRun highKernel bootFourPages [.pageAllocN GFP_NORMAL 1, .pageGet ⟨1, 0⟩,
        .pagePutAddr 0x1000000, .pageFreeN ⟨1, 0⟩ 0] = .ok zones ∧ ∀ z, Accounted (zones z) := by
  have hok : normalZoneCounts [.pageAllocN GFP_NORMAL 1, .pageGet ⟨1, 0⟩, .pagePutAddr 0x1000000,
      .pageFreeN ⟨1, 0⟩ 0] = some (1, 1) := by decide +kernel
  cases hrun : bootRun highKernel bootFourPages [.pageAllocN GFP_NORMAL 1, .pageGet ⟨1, 0⟩,
      .pagePutAddr 0x1000000, .pageFreeN ⟨1, 0⟩ 0] with
  | error f =>
    rw [normalZoneCounts, hrun] at hok
    simp [Except.toOption] at hok
  | ok zones =>
    refine ⟨zones, rfl, pages_accounted ?_ hrun⟩
    exact ⟨trivial, by decide +kernel, by decide +kernel, trivial, trivial⟩

/-- `page_put` of a page just allocated leaves it counted as used. -/
theorem page_put_drops_last :
    ∃ zones, bootRun highKernel bootFourPages [.pageAllocN GFP_NORMAL 0, .pagePut ⟨1, 0⟩] =
        .ok zones ∧ ¬ Accounted (zones 1) := by
  have hok : normalZoneCounts [.pageAllocN GFP_NORMAL 0, .pagePut ⟨1, 0⟩] = some (1, 0) := by
    decide +kernel
  cases hrun : bootRun highKernel bootFourPages [.pageAllocN GFP_NORMAL 0, .pagePut ⟨1, 0⟩] with
  | error f =>
    rw [normalZoneCounts, hrun] at hok
    simp [Except.toOption] at hok
  | ok zones =>
    simp only [normalZoneCounts, hrun, Except.toOption, Option.map_some, Option.some.injEq,
      Prod.mk.injEq] at hok
    refine ⟨zones, rfl, fun hacc => ?_⟩
    have hup := hacc.upages
    omega

end Pmm
end Mm
end XytherOS
