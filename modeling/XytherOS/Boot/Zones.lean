import XytherOS.Boot.BootAlloc
import XytherOS.Mm.PmmSound

/-!
# Zones — `zones_init` on the boot information

The zones are laid out one after the other, each with a bitmap and an array of page handles from
`boot_alloc`, which adds these regions to the memory map.  Then every entry of the memory map that
is not available memory is marked as used.

`Mm.Pmm.initializeMemoryZone` lays out a zone whose buffers are granted; here the buffers are
requested as the source does.
-/

namespace XytherOS
namespace Boot
namespace Zones

open Ds Bitmap Mm.Pmm

def layoutOf (b : Bootinfo) : BootInfo :=
  { total := b.total
    memhi := b.memhi
    holeSize := b.holeSize
    maps := []
    bootAlloc := fun _ => true
    fits := Nat.zero_le NMMAP }

def pageHandleSize : BitVec 64 := 40

def zoneAllocBuffers (b : Bootinfo) (npages : BitVec 64) : Except Fault Bootinfo := do
  let (_, b) ← bootAlloc b (PGROUNDUP ((npages + 64 - 1) / 64 * 8)) PGSZ
  let (_, b) ← bootAlloc b (PGROUNDUP (npages * pageHandleSize)) PGSZ
  return b

def buffersOf (b : Bootinfo) (zone : Zone) : Except Fault Bootinfo :=
  if zone.valid then zoneAllocBuffers b (NPAGE zone.size) else .ok b

def initializeMemoryZone (b : Bootinfo) (zones : Zones) (z : Fin NZONE) (memsz : BitVec 64) :
    Except Fault (Ret × Zones × BitVec 64 × Bootinfo) := do
  let (e, zones, memsz) ← Mm.Pmm.initializeMemoryZone (layoutOf b) zones z memsz
  let b ← buffersOf b (zones z)
  return (e, zones, memsz, b)

def initializeZones : List (Fin NZONE) → Bootinfo → Zones → BitVec 64 →
    Except Fault (Ret × Zones × Bootinfo)
  | [], b, zones, _ => .ok (.ok, zones, b)
  | z :: rest, b, zones, memsz => do
      match ← initializeMemoryZone b zones z memsz with
      | (.err e, zones, _, b) => return (.err e, zones, b)
      | (.ok, zones, memsz, b) => initializeZones rest b zones memsz

def layOut (b : Bootinfo) : Except Fault (Ret × Zones × Bootinfo) :=
  initializeZones (List.finRange NZONE) b (fun _ => Zone.zero) b.total

def zonesInit (b : Bootinfo) : Except Fault (Ret × Zones × Bootinfo) := do
  match ← layOut b with
  | (.err e, zones, b) => return (.err e, zones, b)
  | (.ok, zones, b) =>
    let zones ← processMemoryMaps b.maps zones
    return (.ok, zones, { b with watermark := true })

/-! ## Laying out -/

variable {b b' : Bootinfo} {e : Ret} {z : Fin NZONE}

theorem layoutOf_bootAlloc {size alignment addr : BitVec 64}
    (h : bootAlloc b size alignment = .ok (addr, b')) : layoutOf b' = layoutOf b := by
  simp only [bootAlloc, bootinfoAddMmap, assert_bind_ok_iff] at h
  rcases bind_ok_iff.1 h.2.2.2.2.2 with ⟨b₁, hadd, h⟩
  rw [assert_bind_ok_iff] at hadd
  have hb1 := Except.ok.inj hadd.2
  simp only [pure_eq_ok, Except.ok.injEq, Prod.mk.injEq] at h
  rcases h with ⟨-, rfl⟩
  subst hb1
  rfl

theorem layoutOf_buffersOf {zone : Zone} (h : buffersOf b zone = .ok b') :
    layoutOf b' = layoutOf b := by
  rw [buffersOf] at h
  split_ifs at h
  · rcases bind_ok_iff.1 h with ⟨⟨_, b₁⟩, hbitmap, h⟩
    rcases bind_ok_iff.1 h with ⟨⟨_, b₂⟩, hpages, h⟩
    have hb2 : b₂ = b' := Except.ok.inj h
    rw [← hb2, layoutOf_bootAlloc hpages, layoutOf_bootAlloc hbitmap]
  · rw [Except.ok.inj h]

theorem initializeZones_granted {zs : List (Fin NZONE)} {zones zones' : Zones}
    {memsz : BitVec 64} (h : initializeZones zs b zones memsz = .ok (e, zones', b')) :
    Mm.Pmm.initializeZones (layoutOf b) zs zones memsz = .ok (e, zones') := by
  -- induction on the zones that are left
  induction zs generalizing b zones memsz with
  | nil =>
    simp only [initializeZones, Except.ok.injEq, Prod.mk.injEq] at h
    rw [Mm.Pmm.initializeZones, h.1, h.2.1]
  | cons z zs ih =>
    rw [initializeZones] at h
    rcases bind_ok_iff.1 h with ⟨⟨e1, zones1, memsz1, b₁⟩, hone, h⟩
    rcases bind_ok_iff.1 hone with ⟨⟨e2, zones2, memsz2⟩, hzone, hone⟩
    rcases bind_ok_iff.1 hone with ⟨b₂, hbuffers, hone⟩
    simp only [pure_eq_ok, Except.ok.injEq, Prod.mk.injEq] at hone
    rcases hone with ⟨rfl, rfl, rfl, rfl⟩
    rw [Mm.Pmm.initializeZones, hzone, ok_bind]
    cases e2 with
    | err err =>
      simp only [pure_eq_ok, Except.ok.injEq, Prod.mk.injEq] at h
      simp only [pure_eq_ok, h.1, h.2.1]
    | ok =>
      simp only at h ⊢
      rw [← layoutOf_buffersOf hbuffers]
      exact ih h

theorem layOut_clear {zones : Zones}
    (h : layOut b = .ok (e, zones, b')) :
    AllAccounted zones ∧ ∀ z i, i < (zones z).npages → (zones z).bitmap.bits i = false := by
  have hb0 : Bounded 0 fun _ => Zone.zero := fun _ i => by simp [Zone.zero, Page.init]
  rcases initializeZones_accounted (fun _ => accounted_zero) hb0 (initializeZones_granted h)
    with ⟨hacc, hbound⟩
  refine ⟨hacc, fun z i hi => ?_⟩
  have hzero : ¬ 0 < ((zones z).pages i).refcnt.toNat := Nat.not_lt.2 (hbound z i)
  have hbit := mt ((hacc z).bit i hi).1 hzero
  exact Bool.eq_false_iff.2 hbit

/-! ## Marking -/

def markOne (zone : Zone) (pos : Nat) : Zone :=
  { zone with
    bitmap := (zone.bitmap.bitmapSet pos 1).2
    upages := if (zone.pages pos).refcnt = 0 then zone.upages + 1 else zone.upages }.setPage pos
    (zone.pages pos).reserve

theorem markReservedPages_succ {n pos : Nat} {zone : Zone} :
    markReservedPages (n + 1) pos zone =
      (inBounds pos zone.npages >>= fun _ => markReservedPages n (pos + 1) (markOne zone pos)) :=
  rfl

theorem markOne_spec {zone : Zone} {pos : Nat} (hsize : zone.bitmap.size = zone.npages)
    (hpos : pos < zone.npages) :
    SameFrames zone (markOne zone pos) ∧
      (markOne zone pos).bitmap.bits = fill zone.bitmap.bits pos 1 true := by
  have hrange : ¬ zone.bitmap.size < pos + 1 := by omega
  have hset : (zone.bitmap.bitmapSet pos 1).2 =
      { zone.bitmap with bits := fill zone.bitmap.bits pos 1 true } := by
    rw [bitmapSet, if_neg hrange, anyBit_one]
    cases hbit : zone.bitmap.bits pos with
    | false => rfl
    | true =>
      have hfill : fill zone.bitmap.bits pos 1 true = zone.bitmap.bits := by
        rw [fill_one, ← hbit, Function.update_eq_self]
      simp [hfill]
  refine ⟨⟨rfl, rfl, rfl, rfl, ?_⟩, ?_⟩
  · simp only [markOne, Zone.setPage, hset]
  · simp only [markOne, Zone.setPage, hset]

theorem fill_fill_succ (bits : Nat → Bool) (pos n : Nat) :
    fill (fill bits pos 1 true) (pos + 1) n true = fill bits pos (n + 1) true := by
  funext k
  simp only [fill]
  split_ifs <;> first | rfl | omega

theorem markReservedPages_spec {n pos : Nat} {zone : Zone}
    (hsize : zone.bitmap.size = zone.npages) (hle : pos + n ≤ zone.npages) :
    ∃ zone', markReservedPages n pos zone = .ok zone' ∧ SameFrames zone zone' ∧
      zone'.bitmap.bits = fill zone.bitmap.bits pos n true := by
  induction n generalizing pos zone with
  | zero =>
    refine ⟨zone, rfl, .refl zone, ?_⟩
    funext k
    have hno : ¬ (pos ≤ k ∧ k < pos) := by omega
    simp [fill, hno]
  | succ n ih =>
    have hpos : pos < zone.npages := by omega
    rcases markOne_spec hsize hpos with ⟨hsame, hbits⟩
    have hsize' : (markOne zone pos).bitmap.size = (markOne zone pos).npages := by
      rw [hsame.bits, hsame.npages, hsize]
    have hle' : pos + 1 + n ≤ (markOne zone pos).npages := by
      rw [hsame.npages]
      omega
    rcases ih hsize' hle' with ⟨zone', hok, hsame', hbits'⟩
    refine ⟨zone', ?_, hsame.trans hsame', ?_⟩
    · rw [markReservedPages_succ, inBounds, if_pos hpos, ok_bind, hok]
    · rw [hbits', hbits, fill_fill_succ]

theorem markReservedPages_bounds {n pos : Nat} {zone zone' : Zone}
    (hsize : zone.bitmap.size = zone.npages) (h : markReservedPages n pos zone = .ok zone') :
    n = 0 ∨ pos + n ≤ zone.npages := by
  induction n generalizing pos zone with
  | zero => exact .inl rfl
  | succ n ih =>
    rw [markReservedPages_succ, inBounds_bind_ok_iff] at h
    rcases h with ⟨hpos, h⟩
    rcases markOne_spec hsize hpos with ⟨hsame, -⟩
    have hsize' : (markOne zone pos).bitmap.size = (markOne zone pos).npages := by
      rw [hsame.bits, hsame.npages, hsize]
    have hrest := ih hsize' h
    rw [hsame.npages] at hrest
    omega

/-! ## The memory map -/

def skipped (map : BootMmap) : Bool := MEMMIO + VMA_BASE ≤ map.addr || map.available

def base (map : BootMmap) : BitVec 64 := PGROUND (map.addr - VMA_BASE)

/-- The index in the zone `z` of the first page that is marked for an entry. -/
def firstPage (zones : Zones) (map : BootMmap) (z : Fin NZONE) : Nat :=
  (NPAGE (base map - (zones z).start)).toNat

def pageCount (map : BootMmap) : Nat := (NPAGE map.size).toNat

def placed (zones : Zones) (map : BootMmap) : Bool :=
  skipped map ||
    match getzoneByaddr zones (base map) map.size with
    | none => false
    | some z => pageCount map = 0 || firstPage zones map z + pageCount map ≤ (zones z).npages

/-- The page `i` of the zone `z` is one of the pages that are marked for an entry. -/
def marks (zones : Zones) (z : Fin NZONE) (i : Nat) (map : BootMmap) : Bool :=
  !skipped map && getzoneByaddr zones (base map) map.size = some z &&
    firstPage zones map z ≤ i && i < firstPage zones map z + pageCount map

section Maps

variable {zones zones' : Zones} {map : BootMmap} {maps : List BootMmap}

theorem firstPage_congr (h : ∀ z, SameFrames (zones z) (zones' z)) (z : Fin NZONE) :
    firstPage zones' map z = firstPage zones map z := by
  rw [firstPage, firstPage, (h z).start]

theorem placed_congr (h : ∀ z, SameFrames (zones z) (zones' z)) :
    placed zones' map = placed zones map := by
  rw [placed, placed, getzoneByaddr_congr h]
  cases getzoneByaddr zones (base map) map.size with
  | none => rfl
  | some z => simp only [firstPage_congr h, (h z).npages]

theorem marks_congr (h : ∀ z, SameFrames (zones z) (zones' z)) (z : Fin NZONE) (i : Nat) :
    marks zones' z i map = marks zones z i map := by
  rw [marks, marks, getzoneByaddr_congr h, firstPage_congr h]

def Sized (zones : Zones) : Prop := ∀ z, (zones z).bitmap.size = (zones z).npages

theorem Sized.congr (hs : Sized zones) (h : ∀ z, SameFrames (zones z) (zones' z)) :
    Sized zones' := by
  intro z
  rw [(h z).bits, (h z).npages, hs z]

theorem processMemoryMap_spec (hs : Sized zones) (h : placed zones map = true) :
    ∃ zones', processMemoryMap zones map = .ok zones' ∧
      (∀ z, SameFrames (zones z) (zones' z)) ∧
      ∀ z i, (zones' z).bitmap.bits i = ((zones z).bitmap.bits i || marks zones z i map) := by
  rw [placed] at h
  by_cases hskip : skipped map = true
  · refine ⟨zones, ?_, fun z => .refl _, fun z i => ?_⟩
    · have hskip' : MEMMIO + VMA_BASE ≤ map.addr ∨ map.available = true := by
        simpa [skipped] using hskip
      rw [processMemoryMap, if_pos hskip']
    · simp [marks, hskip]
  · have hskip' : ¬ ( MEMMIO + VMA_BASE ≤ map.addr ∨ map.available = true) := by
      simpa [skipped] using hskip
    have hfalse : skipped map = false := by simpa using hskip
    simp only [hfalse, Bool.false_or] at h
    cases hzone : getzoneByaddr zones (base map) map.size with
    | none => simp [hzone] at h
    | some z =>
      have hbound : pageCount map = 0 ∨
          firstPage zones map z + pageCount map ≤ (zones z).npages := by
        simpa [hzone] using h
      have hmark : ∃ zone', markReservedPages (pageCount map) (firstPage zones map z) (zones z) =
          .ok zone' ∧ SameFrames (zones z) zone' ∧ zone'.bitmap.bits =
            fill (zones z).bitmap.bits (firstPage zones map z) (pageCount map) true := by
        rcases hbound with hzero | hle
        · refine ⟨zones z, by rw [hzero]; rfl, .refl _, ?_⟩
          funext k
          have hno : ¬ (firstPage zones map z ≤ k ∧ k < firstPage zones map z) := by omega
          simp [fill, hzero, hno]
        · exact markReservedPages_spec (hs z) hle
      rcases hmark with ⟨zone', hok, hsame, hbits⟩
      refine ⟨setZone zones z zone', ?_, sameFrames_setZone hsame, fun y i => ?_⟩
      · rw [processMemoryMap, if_neg hskip']
        simp only [base] at hzone
        simp only [hzone]
        simp only [firstPage, base, pageCount] at hok
        rw [hok]
        rfl
      · by_cases hy : y = z
        · subst hy
          by_cases hin : firstPage zones map y ≤ i ∧ i < firstPage zones map y + pageCount map
          · simp [setZone, hbits, fill, hin, marks, hfalse, hzone]
          · simp only [setZone, Function.update_self, hbits, fill, if_neg hin]
            rw [not_and_or] at hin
            rcases hin with hin | hin
            · simp [marks, hin]
            · simp [marks, hin]
        · have hne : z ≠ y := Ne.symm hy
          simp [setZone, hy, marks, hzone, hne]

theorem placed_of_processMemoryMap (hs : Sized zones)
    (h : processMemoryMap zones map = .ok zones') : placed zones map = true := by
  rw [placed]
  by_cases hskip : skipped map = true
  · simp [hskip]
  · have hskip' : ¬ ( MEMMIO + VMA_BASE ≤ map.addr ∨ map.available = true) := by
      simpa [skipped] using hskip
    rw [processMemoryMap, if_neg hskip'] at h
    simp only at h
    cases hzone : getzoneByaddr zones (base map) map.size with
    | none =>
      rw [base] at hzone
      simp [hzone] at h
    | some z =>
      have hzone' := hzone
      rw [base] at hzone'
      rw [hzone'] at h
      rcases bind_ok_iff.1 h with ⟨zone, hmark, -⟩
      have hbound := markReservedPages_bounds (hs z) hmark
      simp only [Bool.or_eq_true, decide_eq_true_eq]
      exact .inr hbound

theorem processMemoryMaps_spec (hs : Sized zones) (h : ∀ map ∈ maps, placed zones map = true) :
    ∃ zones', processMemoryMaps maps zones = .ok zones' ∧
      (∀ z, SameFrames (zones z) (zones' z)) ∧
      ∀ z i, (zones' z).bitmap.bits i =
        ((zones z).bitmap.bits i || maps.any (marks zones z i)) := by
  induction maps generalizing zones with
  | nil => exact ⟨zones, rfl, fun z => .refl _, fun z i => by simp⟩
  | cons map maps ih =>
    have hmap := h map List.mem_cons_self
    rcases processMemoryMap_spec hs hmap with ⟨zones1, hone, hsame, hbits⟩
    have hrest : ∀ map' ∈ maps, placed zones1 map' = true := by
      intro map' hmem
      rw [placed_congr hsame]
      exact h map' (List.mem_cons_of_mem _ hmem)
    rcases ih (hs.congr hsame) hrest with ⟨zones', hok, hsame', hbits'⟩
    refine ⟨zones', ?_, fun z => (hsame z).trans (hsame' z), fun z i => ?_⟩
    · rw [processMemoryMaps, hone, ok_bind, hok]
    · have hany : maps.any (marks zones1 z i) = maps.any (marks zones z i) := by
        congr 1
        funext map'
        exact marks_congr hsame z i
      rw [hbits', hbits, hany, List.any_cons, Bool.or_assoc]

theorem placed_of_processMemoryMaps (hs : Sized zones)
    (h : processMemoryMaps maps zones = .ok zones') : ∀ map ∈ maps, placed zones map = true := by
  induction maps generalizing zones with
  | nil => exact fun map hmem => absurd hmem List.not_mem_nil
  | cons map maps ih =>
    rcases bind_ok_iff.1 h with ⟨zones1, hone, hrest⟩
    have hmap := placed_of_processMemoryMap hs hone
    rcases processMemoryMap_spec hs hmap with ⟨zones2, htwo, hsame, -⟩
    have heq : zones2 = zones1 := Except.ok.inj (htwo.symm.trans hone)
    subst heq
    refine List.forall_mem_cons.2 ⟨hmap, fun map' hmem => ?_⟩
    rw [← placed_congr hsame]
    exact ih (hs.congr hsame) hrest map' hmem

end Maps

/-! ## Reserved memory -/

/-- The page `i` of the zone overlaps the entry of the memory map. -/
def Touches (zone : Zone) (i : Nat) (map : BootMmap) : Prop :=
  ∃ a : Nat, zone.start.toNat + i * 4096 ≤ a ∧ a < zone.start.toNat + (i + 1) * 4096 ∧
    (V2LO map.addr).toNat ≤ a ∧ a < (V2LO map.addr).toNat + map.size.toNat

/-- The page `i` of the zone `z` overlaps memory that is not available. -/
def Reserved (zones : Zones) (maps : List BootMmap) (z : Fin NZONE) (i : Nat) : Prop :=
  (zones z).valid = true ∧ i < (zones z).npages ∧
    ∃ map ∈ maps, map.available = false ∧ Touches (zones z) i map

/-- `zones_init` returns without a panic, the pages of reserved memory are marked, and no
allocation returns one of them. -/
def KeepsReserved (b : Bootinfo) : Prop :=
  ∃ zones b', zonesInit b = .ok (.ok, zones, b') ∧
    (∀ z i, Reserved zones b'.maps z i → (zones z).bitmap.bits i = true) ∧
    ∀ env gfp order page addr zones', doPageAllocN env zones gfp order =
        .ok (.ok, some (page, addr), zones') →
      ∀ i, page.index ≤ i → i < page.index + (BS order).toNat →
        ¬ Reserved zones b'.maps page.zone i

/-- The zones can be laid out with their buffers, every entry has its pages in one zone, and every
page that an entry touches is one of those that are counted for some entry. -/
def Covers (b : Bootinfo) : Prop :=
  ∃ zones b', layOut b = .ok (.ok, zones, b') ∧ (∀ map ∈ b'.maps, placed zones map = true) ∧
    ∀ z i, Reserved zones b'.maps z i → b'.maps.any (marks zones z i) = true

theorem reserved_congr {zones zones' : Zones} (h : ∀ z, SameFrames (zones z) (zones' z))
    {maps : List BootMmap} {i : Nat} :
    Reserved zones' maps z i ↔ Reserved zones maps z i := by
  simp only [Reserved, Touches, (h z).valid, (h z).npages, (h z).start]

theorem zonesInit_ok {zones : Zones} (h : zonesInit b = .ok (.ok, zones, b')) :
    ∃ zones1 b₁, layOut b = .ok (.ok, zones1, b₁) ∧
      processMemoryMaps b₁.maps zones1 = .ok zones ∧ b'.maps = b₁.maps := by
  rcases bind_ok_iff.1 h with ⟨⟨e, zones1, b₁⟩, hlay, h⟩
  cases e with
  | err e => simp at h
  | ok =>
    rcases bind_ok_iff.1 h with ⟨zones2, hmaps, h⟩
    simp only [pure_eq_ok, Except.ok.injEq, Prod.mk.injEq, true_and] at h
    rcases h with ⟨rfl, rfl⟩
    exact ⟨zones1, b₁, hlay, hmaps, rfl⟩

theorem sized_of_layOut {zones : Zones}
    (h : layOut b = .ok (e, zones, b')) : Sized zones :=
  fun z => ((layOut_clear h).1 z).size

theorem zonesInit_of_placed {b₁ : Bootinfo} {zones1 : Zones}
    (hlay : layOut b = .ok (.ok, zones1, b₁)) (h : ∀ map ∈ b₁.maps, placed zones1 map = true) :
    ∃ zones, zonesInit b = .ok (.ok, zones, { b₁ with watermark := true }) ∧
      (∀ z, SameFrames (zones1 z) (zones z)) ∧
      ∀ z i, (zones z).bitmap.bits i =
        ((zones1 z).bitmap.bits i || b₁.maps.any (marks zones1 z i)) := by
  rcases processMemoryMaps_spec (sized_of_layOut hlay) h with ⟨zones, hok, hsame, hbits⟩
  refine ⟨zones, ?_, hsame, hbits⟩
  rw [zonesInit, hlay, ok_bind]
  simp only [hok, ok_bind, pure_eq_ok]

theorem alloc_unmarked {env : Env} {zones zones' : Zones} {gfp : BitVec 32} {order : BitVec 64}
    {page : PagePtr} {addr : BitVec 64} {ret : Ret}
    (h : doPageAllocN env zones gfp order = .ok (ret, some (page, addr), zones')) {i : Nat}
    (hlo : page.index ≤ i) (hhi : i < page.index + (BS order).toNat) :
    (zones page.zone).bitmap.bits i = false := by
  cases doPageAllocN_outcome h with
  | taken z index zone' hz horder hvalid hle hclear hfirst hsame hbits hpages =>
    exact hclear i hlo hhi

/-- Reserved memory is kept from the page allocator exactly when the zones and their buffers have
room, every entry of the memory map below the device memory lies, from the start of its first page
on, in one zone, and every page that an entry touches is one of the `NPAGE(size)` pages from the
start of the first page of some entry on. -/
theorem reserved_memory_kept (b : Bootinfo) : KeepsReserved b ↔ Covers b := by
  constructor
  · rintro ⟨zones, b', hinit, hmarked, -⟩
    rcases zonesInit_ok hinit with ⟨zones₁, b₁, hlay, hmaps, heq⟩
    have hplaced := placed_of_processMemoryMaps (sized_of_layOut hlay) hmaps
    rcases processMemoryMaps_spec (sized_of_layOut hlay) hplaced with ⟨zones₂, hok, hsame, hbits⟩
    have hzones : zones₂ = zones := Except.ok.inj (hok.symm.trans hmaps)
    subst hzones
    refine ⟨zones₁, b₁, hlay, hplaced, fun z i hres => ?_⟩
    have hbit := hmarked z i (by rw [heq]; exact (reserved_congr hsame).2 hres)
    rw [hbits, (layOut_clear hlay).2 z i hres.2.1, Bool.false_or] at hbit
    exact hbit
  · rintro ⟨zones₁, b₁, hlay, hplaced, hcovers⟩
    rcases zonesInit_of_placed hlay hplaced with ⟨zones, hinit, hsame, hbits⟩
    have hmarked : ∀ z i, Reserved zones b₁.maps z i → (zones z).bitmap.bits i = true := by
      intro z i hres
      rw [hbits, hcovers z i ((reserved_congr hsame).1 hres), Bool.or_true]
    refine ⟨zones, _, hinit, hmarked, ?_⟩
    intro env gfp order page addr zones' hcall i hlo hhi hres
    have hbit := hmarked page.zone i hres
    rw [alloc_unmarked hcall hlo hhi] at hbit
    exact absurd hbit (by decide)

/-! ## The pages of one entry -/

theorem toNat_base (map : BootMmap) :
    (base map).toNat = (V2LO map.addr).toNat / 4096 * 4096 :=
  Align.toNat_roundDown (k := 12) (V2LO map.addr) rfl

theorem touches_iff {zones : Zones} {i : Nat} {map : BootMmap}
    (hstart : (zones z).start.toNat % 4096 = 0) (hle : (zones z).start ≤ base map) :
    Touches (zones z) i map ↔ map.size ≠ 0 ∧ firstPage zones map z ≤ i ∧
      i * 4096 < firstPage zones map z * 4096 + (V2LO map.addr).toNat % 4096 +
        map.size.toNat := by
  have hbase := toNat_base map
  have hsub : (base map - (zones z).start).toNat =
      (base map).toNat - (zones z).start.toNat := BitVec.toNat_sub_of_le hle
  rw [BitVec.le_def] at hle
  have hfirst : (zones z).start.toNat + firstPage zones map z * 4096 = (base map).toNat := by
    rw [firstPage, toNat_NPAGE, hsub, if_pos (by omega)]
    omega
  have hne : map.size ≠ 0 ↔ 0 < map.size.toNat := toNat_pos_iff.symm
  rw [hne, Touches]
  constructor
  · rintro ⟨a, hlo, hhi, hlo', hhi'⟩
    omega
  · rintro ⟨hpos, hlo, hhi⟩
    by_cases hcase : (zones z).start.toNat + i * 4096 ≤ (V2LO map.addr).toNat
    · exact ⟨(V2LO map.addr).toNat, by omega, by omega, by omega, by omega⟩
    · exact ⟨(zones z).start.toNat + i * 4096, by omega, by omega, by omega, by omega⟩

theorem missed_page {zones : Zones} {i : Nat} {map : BootMmap}
    (hstart : (zones z).start.toNat % 4096 = 0) (hle : (zones z).start ≤ base map)
    (hskip : skipped map = false)
    (hzone : getzoneByaddr zones (base map) map.size = some z)
    (htouch : Touches (zones z) i map) (hmiss : marks zones z i map = false) :
    i = firstPage zones map z + pageCount map ∧
      pageCount map * 4096 < (V2LO map.addr).toNat % 4096 + map.size.toNat := by
  rw [touches_iff hstart hle] at htouch
  have hcount : map.size.toNat ≤ pageCount map * 4096 := by
    rw [pageCount, toNat_NPAGE]
    split_ifs <;> omega
  have hbeyond : firstPage zones map z + pageCount map ≤ i := by
    by_contra hlt
    have hin : i < firstPage zones map z + pageCount map := by omega
    simp [marks, hskip, hzone, htouch.2.1, hin] at hmiss
  omega

/-! ## A machine with firmware tables -/

def tinyKernel : Kernel := ⟨0xFFFF800000100000, 0xFFFF800000110000⟩

/-- A machine of 17 MiB with firmware tables of the given size at the given address. -/
def tablesAt (addr size : BitVec 64) : MultibootInfo :=
  { memUpper := 0x4000
    mmap := some [⟨0, 0x9fc00, true⟩, ⟨0x9fc00, 0x400, false⟩, ⟨0x100000, addr - 0x100000, true⟩,
      ⟨addr, size, false⟩, ⟨addr + size, 0x1100000 - (addr + size), true⟩]
    mods := none
    framebuffer := none }

def tinyBoot (addr size : BitVec 64) : Bootinfo :=
  outcome (multibootInfoProcess tinyKernel (tablesAt addr size))
    (bootinfoInit tinyKernel (tablesAt addr size))

def twoGiB : MultibootInfo :=
  { memUpper := 2096128
    mmap := some [⟨0, 0x9fc00, true⟩, ⟨0x9fc00, 0x400, false⟩, ⟨0x100000, 0x7FF00000, true⟩]
    mods := none
    framebuffer := none }

def twoGiBBoot : Bootinfo :=
  outcome (multibootInfoProcess tinyKernel twoGiB) (bootinfoInit tinyKernel twoGiB)

theorem twoGiB_not_placed :
    ∃ zones b', layOut twoGiBBoot = .ok (.ok, zones, b') ∧ ∃ map ∈ b'.maps,
      placed zones map = false := by
  have hread : (layOut twoGiBBoot).toOption.map (fun r => (r.1, r.2.2.maps.any fun map =>
      !placed r.2.1 map)) = some (.ok, true) := by decide +kernel
  rcases ok_of_toOption hread with ⟨⟨e, zones, b'⟩, hlay, hfields⟩
  simp only [Prod.mk.injEq, List.any_eq_true, Bool.not_eq_true'] at hfields
  rcases hfields with ⟨rfl, hmap⟩
  exact ⟨zones, b', hlay, hmap⟩

/-- Tables of one page that do not start at a page boundary: the second page that they touch stays
free.  And on a machine of 2 GiB `zones_init` panics over the page handles of the normal zone. -/
theorem reserved_memory_lost :
    (multibootInfoProcess tinyKernel (tablesAt 0xFE0800 0x1000) =
        .ok (tinyBoot 0xFE0800 0x1000) ∧
      (zonesInit (tinyBoot 0xFE0800 0x1000)).isOk = true ∧
      ¬ KeepsReserved (tinyBoot 0xFE0800 0x1000)) ∧
    (multibootInfoProcess tinyKernel twoGiB = .ok twoGiBBoot ∧ ¬ KeepsReserved twoGiBBoot) := by
  refine ⟨⟨eq_ok_outcome (by decide +kernel), by decide +kernel, ?_⟩,
    eq_ok_outcome (by decide +kernel), ?_⟩
  · rintro ⟨zones, b', hinit, hmarked, -⟩
    have hread : (zonesInit (tinyBoot 0xFE0800 0x1000)).toOption.map (fun r =>
        ((r.2.1 0).bitmap.bits 0xFE1, (r.2.1 0).valid, (r.2.1 0).start, (r.2.1 0).npages,
          r.2.2.maps.any fun map => map.addr = V2HI 0xFE0800 && map.size = 0x1000 &&
            !map.available)) = some (false, true, 0, 0x1000, true) := by decide +kernel
    rw [hinit] at hread
    simp only [Except.toOption, Option.map_some, Option.some.injEq, Prod.mk.injEq,
      List.any_eq_true, Bool.and_eq_true, decide_eq_true_eq, Bool.not_eq_true'] at hread
    rcases hread with ⟨hbit, hvalid, hstart, hnpages, map, hmem, ⟨haddr, hsize⟩, havail⟩
    have hres : Reserved zones b'.maps 0 0xFE1 := by
      refine ⟨hvalid, by rw [hnpages]; decide, map, hmem, havail, 0xFE1000, ?_⟩
      rw [hstart, haddr, hsize]
      decide
    rw [hmarked 0 0xFE1 hres] at hbit
    exact absurd hbit (by decide)
  · rintro ⟨zones, b', hinit, -⟩
    rcases zonesInit_ok hinit with ⟨zones₁, b₁, hlay, hmaps, -⟩
    rcases twoGiB_not_placed with ⟨zones₂, b₂, hlay', map, hmem, hnot⟩
    rw [hlay] at hlay'
    simp only [Except.ok.injEq, Prod.mk.injEq, true_and] at hlay'
    rcases hlay' with ⟨rfl, rfl⟩
    rw [placed_of_processMemoryMaps (sized_of_layOut hlay) hmaps map hmem] at hnot
    exact absurd hnot (by decide)

end Zones
end Boot
end XytherOS
