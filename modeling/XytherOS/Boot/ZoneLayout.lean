import XytherOS.Boot.Zones

/-!
# ZoneLayout — where the zones lie and how large they are

The first two zones take what there is of the first 2 GiB, and the size of each is taken off the
running total.  The size of the third comes from another source, the upper memory and the first
hole, and what is left of the running total goes to the last zone.  The layout is sound exactly
when the two sources agree: beyond 2 GiB of memory, upper memory and hole must reach into the third
window, end with it at the latest, and account for no more than is left.
-/

namespace XytherOS
namespace Boot
namespace Zones

open Mm.Pmm

def neverBelow (boot : BootInfo) : List (Fin NZONE) → Zones → BitVec 64 → Bool
  | [], _, _ => true
  | z :: rest, zones, memsz =>
    match Mm.Pmm.initializeMemoryZone boot zones z memsz with
    | .ok (.ok, zones', memsz') =>
      decide (memsz' ≤ memsz) && neverBelow boot rest zones' memsz'
    | _ => true

def zoneEnd (zone : Zone) : Nat := zone.start.toNat + zone.size.toNat

/-- The zones do not overlap, each fits its window, and all together they are no larger than the
memory. -/
structure Layout (b : Bootinfo) (zones : Zones) : Prop where
  disjoint : ∀ y z, y ≠ z → Apart (zones y).start.toNat (zoneEnd (zones y))
    (zones z).start.toNat (zoneEnd (zones z))
  dma : (zones 0).size.toNat ≤ 16 * 2 ^ 20
  norm : (zones 1).size.toNat ≤ 2032 * 2 ^ 20
  hole : (zones 2).size.toNat ≤ 2 * 2 ^ 30
  running : neverBelow (layoutOf b) (List.finRange NZONE) (fun _ => Zone.zero) b.total = true
  sum : (zones 0).size.toNat + (zones 1).size.toNat + (zones 2).size.toNat +
    (zones 3).size.toNat ≤ 1024 * b.total.toNat

/-- The size of the third zone: how far upper memory and hole reach beyond 2 GiB. -/
def beyond (b : Bootinfo) : BitVec 64 := KiB (b.memhi + KiB 1) + b.holeSize - GiB 2

/-- What is left of the total, in KiB, behind the 2 GiB of the first two zones. -/
def left (b : Bootinfo) : Nat := b.total.toNat - 2097152

/-- There is no memory beyond 2 GiB, or upper memory and hole reach beyond 2 GiB by no more than
the window and no more than is left, in whole KiB (unless so much is left that its bytes do not fit
a word). -/
def agrees (b : Bootinfo) : Bool :=
  b.total.toNat ≤ 2 * 2 ^ 20 ||
    ((beyond b).toNat ≤ 2 * 2 ^ 30 && (beyond b).toNat / 1024 ≤ left b &&
      ((beyond b).toNat % 1024 = 0 || 2 ^ 54 ≤ left b - (beyond b).toNat / 1024))

/-! ## One zone -/

def laid (z : Fin NZONE) (addr size : BitVec 64) : Zone :=
  { Zone.zero with
    start := addr
    size := size
    npages := (NPAGE size).toNat
    bitmap := Ds.Bitmap.bitmapInit (NPAGE size).toNat
    pages := fun _ => Page.init (zoneWatermark z)
    valid := true }

def bare (addr : BitVec 64) : Zone := { Zone.zero with start := addr }

section OneZone

variable {b : Bootinfo} {zones : Zones} {z : Fin NZONE} {memsz : BitVec 64}

theorem initializeMemoryZone_nothing :
    Mm.Pmm.initializeMemoryZone (layoutOf b) zones z 0 =
      .ok (.ok, setZone zones z Zone.zero, 0) := rfl

theorem setZone_setZone (zones : Zones) (z : Fin NZONE) (zone zone' : Zone) :
    setZone (setZone zones z zone) z zone' = setZone zones z zone' :=
  Function.update_idem _ _ _

theorem initializeMemoryZone_laid {addr size : BitVec 64} (hmem : memsz ≠ 0)
    (hwindow : zoneWindow (layoutOf b) z memsz = (addr, size)) (hsize : size ≠ 0)
    (hprev : ¬ (0 < z.val ∧ (!(setZone zones z Zone.zero (z - 1)).valid) = true)) :
    Mm.Pmm.initializeMemoryZone (layoutOf b) zones z memsz =
      .ok (.ok, setZone zones z (laid z addr size), memsz - size / 1024) := by
  have hself : setZone zones z Zone.zero z = Zone.zero := by simp [setZone]
  simp only [Mm.Pmm.initializeMemoryZone, if_neg hmem, hwindow, zoneSetAddressRange,
    if_neg hprev, if_neg hsize, hself]
  simp only [layoutOf, if_true, ok_bind, pure_eq_ok, setZone_setZone]
  simp [laid, setZone]

theorem initializeMemoryZone_bare {addr : BitVec 64} (hmem : memsz ≠ 0)
    (hwindow : zoneWindow (layoutOf b) z memsz = (addr, 0))
    (hprev : ¬ (0 < z.val ∧ (!(setZone zones z Zone.zero (z - 1)).valid) = true)) :
    Mm.Pmm.initializeMemoryZone (layoutOf b) zones z memsz =
      .ok (.ok, setZone zones z (bare addr), memsz) := by
  have hself : setZone zones z Zone.zero z = Zone.zero := by simp [setZone]
  simp only [Mm.Pmm.initializeMemoryZone, if_neg hmem, hwindow, zoneSetAddressRange,
    if_neg hprev, if_true, hself, ok_bind, pure_eq_ok, setZone_setZone]
  have hzone : { Zone.zero with start := addr, size := 0, npages := (NPAGE 0).toNat } =
      bare addr := rfl
  rw [hzone]
  simp [setZone, bare, Zone.zero]

theorem initializeMemoryZone_refused (hmem : memsz ≠ 0)
    (hprev : 0 < z.val ∧ (!(setZone zones z Zone.zero (z - 1)).valid) = true) :
    Mm.Pmm.initializeMemoryZone (layoutOf b) zones z memsz =
      .ok (.err .EINVAL, setZone zones z Zone.zero, memsz) := by
  simp only [Mm.Pmm.initializeMemoryZone, if_neg hmem, zoneSetAddressRange, if_pos hprev, ok_bind,
    pure_eq_ok]

end OneZone

/-! ## All zones -/

def zoneBase : Fin NZONE → BitVec 64
  | 0 => 0
  | 1 => MiB 16
  | 2 => GiB 2
  | 3 => GiB 4

def sizes (s₀ s₁ s₂ s₃ : BitVec 64) : Fin NZONE → BitVec 64
  | 0 => s₀
  | 1 => s₁
  | 2 => s₂
  | 3 => s₃

theorem forall_zone {P : Fin NZONE → Prop} (h0 : P 0) (h₁ : P 1) (h₂ : P 2) (h3 : P 3) :
    ∀ z, P z
  | 0 => h0
  | 1 => h₁
  | 2 => h₂
  | 3 => h3

/-- The starts and sizes of the zones, and whether the running total stays above zero. -/
structure Shape (b : Bootinfo) (zones : Zones) (size : Fin NZONE → BitVec 64) (below : Bool) :
    Prop where
  start : ∀ z, (zones z).size = 0 ∨ (zones z).start = zoneBase z
  size : ∀ z, (zones z).size = size z
  below : neverBelow (layoutOf b) [0, 1, 2, 3] (fun _ => Zone.zero) b.total = below

section Turns

variable {boot : BootInfo} {b : Bootinfo} {z : Fin NZONE} {zs : List (Fin NZONE)}
  {zones zones' : Zones} {memsz memsz' : BitVec 64} {e : Ret}

theorem finRange_zones : List.finRange NZONE = [0, 1, 2, 3] := rfl

theorem initializeZones_turn
    (h : Mm.Pmm.initializeMemoryZone boot zones z memsz = .ok (.ok, zones', memsz')) :
    Mm.Pmm.initializeZones boot (z :: zs) zones memsz =
      Mm.Pmm.initializeZones boot zs zones' memsz' := by
  rw [Mm.Pmm.initializeZones, h]
  rfl

theorem neverBelow_turn
    (h : Mm.Pmm.initializeMemoryZone boot zones z memsz = .ok (.ok, zones', memsz')) :
    neverBelow boot (z :: zs) zones memsz =
      (decide (memsz' ≤ memsz) && neverBelow boot zs zones' memsz') := by
  rw [neverBelow, h]

theorem initializeZones_nothing :
    Mm.Pmm.initializeZones (layoutOf b) zs zones 0 =
      .ok (.ok, zs.foldl (fun zones z => setZone zones z Zone.zero) zones) := by
  induction zs generalizing zones with
  | nil => rfl
  | cons z zs ih =>
    rw [initializeZones_turn initializeMemoryZone_nothing, ih]
    rfl

theorem neverBelow_nothing : neverBelow (layoutOf b) zs zones 0 = true := by
  induction zs generalizing zones with
  | nil => rfl
  | cons z zs ih =>
    rw [neverBelow_turn initializeMemoryZone_nothing, ih]
    rfl

end Turns

section Shapes

variable {b : Bootinfo} {zones : Zones} {e : Ret}

theorem zero_le_word (x : BitVec 64) : 0 ≤ x := by
  rw [BitVec.le_def]
  exact Nat.zero_le _

theorem KiB_div {x : BitVec 64} (h : x.toNat < 2 ^ 54) : KiB x / 1024 = x := by
  apply BitVec.eq_of_toNat_eq
  rw [BitVec.toNat_udiv, KiB, BitVec.toNat_mul]
  change 1024 * x.toNat % 2 ^ 64 / 1024 = x.toNat
  omega

theorem KiB_ne_zero {x : BitVec 64} (h : x.toNat < 2 ^ 54) (hx : x ≠ 0) : KiB x ≠ 0 := by
  intro hzero
  have hdiv := KiB_div h
  rw [hzero] at hdiv
  exact hx hdiv.symm

theorem shape_none (hzero : b.total = 0)
    (h : Mm.Pmm.initializeZones (layoutOf b) [0, 1, 2, 3] (fun _ => Zone.zero) b.total =
      .ok (e, zones)) : Shape b zones (sizes 0 0 0 0) true := by
  rw [hzero, initializeZones_nothing] at h
  simp only [Except.ok.injEq, Prod.mk.injEq] at h
  rcases h with ⟨rfl, rfl⟩
  refine ⟨?_, ?_, ?_⟩
  · exact forall_zone (.inl rfl) (.inl rfl) (.inl rfl) (.inl rfl)
  · exact forall_zone rfl rfl rfl rfl
  · rw [hzero, neverBelow_nothing]

theorem first_small (hpos : b.total ≠ 0) (hle : b.total.toNat ≤ 16384) (zones : Zones) :
    Mm.Pmm.initializeMemoryZone (layoutOf b) zones 0 b.total =
      .ok (.ok, setZone zones 0 (laid 0 0 (KiB b.total)), 0) := by
  have hwindow : zoneWindow (layoutOf b) 0 b.total = (0, KiB b.total) := by
    have hnot : ¬ KiB 16 < b.total := by
      rw [BitVec.lt_def]
      exact Nat.not_lt.2 hle
    rw [zoneWindow, if_neg hnot]
  have hlt : b.total.toNat < 2 ^ 54 := by omega
  rw [initializeMemoryZone_laid hpos hwindow (KiB_ne_zero hlt hpos) (by simp), KiB_div hlt,
    BitVec.sub_self]
  rfl

theorem first_full (hlt : 16384 < b.total.toNat) (zones : Zones) :
    Mm.Pmm.initializeMemoryZone (layoutOf b) zones 0 b.total =
      .ok (.ok, setZone zones 0 (laid 0 0 (MiB 16)), b.total - 16384) := by
  have hwindow : zoneWindow (layoutOf b) 0 b.total = (0, MiB 16) := by
    have hmore : KiB 16 < b.total := by
      rw [BitVec.lt_def]
      exact hlt
    rw [zoneWindow, if_pos hmore]
  have hpos : b.total ≠ 0 := by
    intro hzero
    rw [hzero] at hlt
    exact absurd hlt (by decide)
  rw [initializeMemoryZone_laid hpos hwindow (by decide) (by simp)]
  rfl

theorem shape_dma (hpos : b.total ≠ 0) (hle : b.total.toNat ≤ 16384)
    (h : Mm.Pmm.initializeZones (layoutOf b) [0, 1, 2, 3] (fun _ => Zone.zero) b.total =
      .ok (e, zones)) : Shape b zones (sizes (KiB b.total) 0 0 0) true := by
  have hone := first_small hpos hle fun _ => Zone.zero
  rw [initializeZones_turn hone, initializeZones_nothing] at h
  simp only [Except.ok.injEq, Prod.mk.injEq] at h
  rcases h with ⟨rfl, rfl⟩
  refine ⟨?_, ?_, ?_⟩
  · exact forall_zone (.inr rfl) (.inl rfl) (.inl rfl) (.inl rfl)
  · exact forall_zone rfl rfl rfl rfl
  · rw [neverBelow_turn hone, neverBelow_nothing, decide_eq_true (zero_le_word _)]
    rfl

def zonesFirst : Zones := setZone (fun _ => Zone.zero) 0 (laid 0 0 (MiB 16))

theorem shape_norm (hlt : 16384 < b.total.toNat) (hle : b.total.toNat ≤ 2 * 2 ^ 20)
    (h : Mm.Pmm.initializeZones (layoutOf b) [0, 1, 2, 3] (fun _ => Zone.zero) b.total =
      .ok (e, zones)) :
    Shape b zones (sizes (MiB 16) (KiB (b.total - 16384)) 0 0) true := by
  have hone := first_full hlt fun _ => Zone.zero
  have hsub : (b.total - 16384).toNat = b.total.toNat - 16384 := by bv_omega
  have hpos : b.total - 16384 ≠ 0 := by
    intro hzero
    rw [hzero] at hsub
    simp at hsub
    omega
  have hwindow : zoneWindow (layoutOf b) 1 (b.total - 16384) =
      (MiB 16, KiB (b.total - 16384)) := by
    have hnot : ¬ KiB 2032 < b.total - 16384 := by
      rw [BitVec.lt_def, hsub]
      change ¬ 2080768 < b.total.toNat - 16384
      omega
    rw [zoneWindow, if_neg hnot]
  have hlt' : (b.total - 16384).toNat < 2 ^ 54 := by omega
  have htwo : Mm.Pmm.initializeMemoryZone (layoutOf b) zonesFirst 1 (b.total - 16384) =
      .ok (.ok, setZone zonesFirst 1 (laid 1 (MiB 16) (KiB (b.total - 16384))), 0) := by
    rw [initializeMemoryZone_laid hpos hwindow (KiB_ne_zero hlt' hpos) (by decide), KiB_div hlt',
      BitVec.sub_self]
    rfl
  rw [initializeZones_turn hone, ← zonesFirst, initializeZones_turn htwo,
    initializeZones_nothing] at h
  simp only [Except.ok.injEq, Prod.mk.injEq] at h
  rcases h with ⟨rfl, rfl⟩
  refine ⟨?_, ?_, ?_⟩
  · exact forall_zone (.inr rfl) (.inr rfl) (.inl rfl) (.inl rfl)
  · exact forall_zone rfl rfl rfl rfl
  · have hdec : b.total - 16384 ≤ b.total := by
      rw [BitVec.le_def]
      omega
    rw [neverBelow_turn hone, ← zonesFirst, neverBelow_turn htwo, neverBelow_nothing,
      decide_eq_true hdec, decide_eq_true (zero_le_word _)]
    rfl

def zonesLow : Zones := setZone zonesFirst 1 (laid 1 (MiB 16) (MiB 2032))

theorem first_two (hlt : 2 * 2 ^ 20 < b.total.toNat) (zs : List (Fin NZONE)) :
    Mm.Pmm.initializeZones (layoutOf b) (0 :: 1 :: zs) (fun _ => Zone.zero) b.total =
        Mm.Pmm.initializeZones (layoutOf b) zs zonesLow (b.total - 2097152) ∧
      neverBelow (layoutOf b) (0 :: 1 :: zs) (fun _ => Zone.zero) b.total =
        neverBelow (layoutOf b) zs zonesLow (b.total - 2097152) := by
  have hone := first_full (by omega : 16384 < b.total.toNat) fun _ => Zone.zero
  have hsub : (b.total - 16384).toNat = b.total.toNat - 16384 := by bv_omega
  have hpos : b.total - 16384 ≠ 0 := by
    intro hzero
    rw [hzero] at hsub
    simp at hsub
    omega
  have hwindow : zoneWindow (layoutOf b) 1 (b.total - 16384) = (MiB 16, MiB 2032) := by
    have hmore : KiB 2032 < b.total - 16384 := by
      rw [BitVec.lt_def, hsub]
      change 2080768 < b.total.toNat - 16384
      omega
    rw [zoneWindow, if_pos hmore]
  have hleft : b.total - 16384 - MiB 2032 / 1024 = b.total - 2097152 := by
    have hdiv : MiB 2032 / 1024 = (2080768 : BitVec 64) := by decide
    rw [hdiv]
    bv_omega
  have htwo : Mm.Pmm.initializeMemoryZone (layoutOf b) zonesFirst 1 (b.total - 16384) =
      .ok (.ok, zonesLow, b.total - 2097152) := by
    rw [initializeMemoryZone_laid hpos hwindow (by decide) (by decide), hleft]
    rfl
  refine ⟨?_, ?_⟩
  · rw [initializeZones_turn hone, ← zonesFirst, initializeZones_turn htwo]
  · have hdec : b.total - 16384 ≤ b.total := by
      rw [BitVec.le_def]
      omega
    have hdec' : b.total - 2097152 ≤ b.total - 16384 := by bv_omega
    rw [neverBelow_turn hone, ← zonesFirst, neverBelow_turn htwo, decide_eq_true hdec,
      decide_eq_true hdec', Bool.true_and, Bool.true_and]

def afterHole (b : Bootinfo) : BitVec 64 := b.total - 2097152 - beyond b / 1024

def zonesHole (b : Bootinfo) : Zones := setZone zonesLow 2 (laid 2 (GiB 2) (beyond b))

theorem afterHigh_le (x : BitVec 64) : x - KiB x / 1024 ≤ x := by
  have hdiv : (KiB x / 1024).toNat ≤ x.toNat := by
    rw [BitVec.toNat_udiv, KiB, BitVec.toNat_mul]
    change 1024 * x.toNat % 2 ^ 64 / 1024 ≤ x.toNat
    omega
  generalize KiB x / 1024 = y at hdiv ⊢
  bv_omega

theorem shape_gap (hlt : 2 * 2 ^ 20 < b.total.toNat) (hgap : beyond b = 0)
    (h : Mm.Pmm.initializeZones (layoutOf b) [0, 1, 2, 3] (fun _ => Zone.zero) b.total =
      .ok (e, zones)) :
    Shape b zones (sizes (MiB 16) (MiB 2032) 0 0) true := by
  rcases first_two hlt [2, 3] with ⟨hrun, hbelow⟩
  have hpos : b.total - 2097152 ≠ 0 := by
    intro hzero
    have hnat := congrArg BitVec.toNat hzero
    have hsub : (b.total - 2097152).toNat = b.total.toNat - 2097152 := by bv_omega
    rw [hsub] at hnat
    simp at hnat
    omega
  have hwindow : zoneWindow (layoutOf b) 2 (b.total - 2097152) = (GiB 2, 0) :=
    congrArg (Prod.mk (GiB 2)) hgap
  have hthree : Mm.Pmm.initializeMemoryZone (layoutOf b) zonesLow 2 (b.total - 2097152) =
      .ok (.ok, setZone zonesLow 2 (bare (GiB 2)), b.total - 2097152) :=
    initializeMemoryZone_bare hpos hwindow (by decide)
  have hfour : Mm.Pmm.initializeMemoryZone (layoutOf b) (setZone zonesLow 2 (bare (GiB 2))) 3
      (b.total - 2097152) = .ok (.err .EINVAL,
        setZone (setZone zonesLow 2 (bare (GiB 2))) 3 Zone.zero, b.total - 2097152) :=
    initializeMemoryZone_refused hpos (by decide)
  rw [hrun, initializeZones_turn hthree, Mm.Pmm.initializeZones, hfour] at h
  simp only [ok_bind, pure_eq_ok, Except.ok.injEq, Prod.mk.injEq] at h
  rcases h with ⟨rfl, rfl⟩
  refine ⟨?_, ?_, ?_⟩
  · exact forall_zone (.inr rfl) (.inr rfl) (.inl rfl) (.inl rfl)
  · exact forall_zone rfl rfl rfl rfl
  · have hle : b.total - 2097152 ≤ b.total - 2097152 := BitVec.le_refl _
    rw [hbelow, neverBelow_turn hthree, decide_eq_true hle, neverBelow, hfour]
    rfl

theorem shape_full (hlt : 2 * 2 ^ 20 < b.total.toNat) (hgap : beyond b ≠ 0)
    (h : Mm.Pmm.initializeZones (layoutOf b) [0, 1, 2, 3] (fun _ => Zone.zero) b.total =
      .ok (e, zones)) :
    Shape b zones (sizes (MiB 16) (MiB 2032) (beyond b) (KiB (afterHole b)))
      (afterHole b ≤ b.total - 2097152) := by
  rcases first_two hlt [2, 3] with ⟨hrun, hbelow⟩
  have hpos : b.total - 2097152 ≠ 0 := by
    intro hzero
    have hnat := congrArg BitVec.toNat hzero
    have hsub : (b.total - 2097152).toNat = b.total.toNat - 2097152 := by bv_omega
    rw [hsub] at hnat
    simp at hnat
    omega
  have hthree : Mm.Pmm.initializeMemoryZone (layoutOf b) zonesLow 2 (b.total - 2097152) =
      .ok (.ok, zonesHole b, afterHole b) :=
    initializeMemoryZone_laid hpos rfl hgap (by decide)
  rw [hrun, initializeZones_turn hthree] at h
  -- the last zone gets what is left, which may be nothing
  have hlast : ∃ zone e', Mm.Pmm.initializeZones (layoutOf b) [3] (zonesHole b) (afterHole b) =
      .ok (e', setZone (zonesHole b) 3 zone) ∧ zone.size = KiB (afterHole b) ∧
        (zone.size = 0 ∨ zone.start = GiB 4) ∧
        neverBelow (layoutOf b) [3] (zonesHole b) (afterHole b) = true := by
    by_cases hnone : afterHole b = 0
    · refine ⟨Zone.zero, .ok, ?_, ?_, .inl rfl, ?_⟩
      · rw [hnone, initializeZones_nothing]
        rfl
      · rw [hnone]
        rfl
      · rw [hnone, neverBelow_nothing]
    · have hprev : ¬ (0 < (3 : Fin NZONE).val ∧
          (!(setZone (zonesHole b) 3 Zone.zero (3 - 1)).valid) = true) :=
        fun hc => Bool.false_ne_true hc.2
      by_cases hzero : KiB (afterHole b) = 0
      · have hwindow : zoneWindow (layoutOf b) 3 (afterHole b) = (GiB 4, 0) :=
          congrArg (Prod.mk (GiB 4)) hzero
        have hfour := initializeMemoryZone_bare hnone hwindow hprev
        refine ⟨bare (GiB 4), .ok, ?_, hzero.symm, .inl rfl, ?_⟩
        · rw [initializeZones_turn hfour]
          rfl
        · rw [neverBelow_turn hfour, decide_eq_true (BitVec.le_refl _)]
          rfl
      · have hfour : Mm.Pmm.initializeMemoryZone (layoutOf b) (zonesHole b) 3 (afterHole b) =
            .ok (.ok, setZone (zonesHole b) 3 (laid 3 (GiB 4) (KiB (afterHole b))),
              afterHole b - KiB (afterHole b) / 1024) :=
          initializeMemoryZone_laid hnone rfl hzero hprev
        refine ⟨laid 3 (GiB 4) (KiB (afterHole b)), .ok, ?_, rfl, .inr rfl, ?_⟩
        · rw [initializeZones_turn hfour]
          rfl
        · rw [neverBelow_turn hfour, decide_eq_true (afterHigh_le _)]
          rfl
  rcases hlast with ⟨zone, e', hok, hsize, hstart, hbelow'⟩
  rw [hok] at h
  simp only [Except.ok.injEq, Prod.mk.injEq] at h
  rcases h with ⟨rfl, rfl⟩
  refine ⟨?_, ?_, ?_⟩
  · exact forall_zone (.inr rfl) (.inr rfl) (.inr rfl) hstart
  · exact forall_zone rfl rfl rfl hsize
  · rw [hbelow, neverBelow_turn hthree, hbelow', Bool.and_true]

end Shapes

/-! ## Soundness of the layout -/

def windowOf : Fin NZONE → Nat × Nat
  | 0 => (0, 16 * 2 ^ 20)
  | 1 => (16 * 2 ^ 20, 2 * 2 ^ 30)
  | 2 => (2 * 2 ^ 30, 4 * 2 ^ 30)
  | 3 => (4 * 2 ^ 30, 2 ^ 65)

theorem windows_apart : ∀ y z : Fin NZONE, y ≠ z →
    (windowOf y).2 ≤ (windowOf z).1 ∨ (windowOf z).2 ≤ (windowOf y).1 := by
  decide

theorem disjoint_of_windows {zones : Zones}
    (hstart : ∀ z, (zones z).size = 0 ∨ (zones z).start = zoneBase z)
    (hsize : ∀ z, (windowOf z).1 + (zones z).size.toNat ≤ (windowOf z).2) :
    ∀ y z, y ≠ z → Apart (zones y).start.toNat (zoneEnd (zones y))
      (zones z).start.toNat (zoneEnd (zones z)) := by
  have hbase : ∀ z, (zoneBase z).toNat = (windowOf z).1 := by decide
  have hin : ∀ z a, (zones z).start.toNat ≤ a → a < zoneEnd (zones z) →
      (windowOf z).1 ≤ a ∧ a < (windowOf z).2 := by
    intro z a hlo hhi
    have hfit := hsize z
    rw [zoneEnd] at hhi
    rcases hstart z with hzero | heq
    · rw [hzero] at hhi
      simp at hhi
      omega
    · rw [heq, hbase] at hlo hhi
      omega
  intro y z hne a hlo hhi hlo' hhi'
  have hy := hin y a hlo hhi
  have hz := hin z a hlo' hhi'
  rcases windows_apart y z hne with hle | hle <;> omega

theorem Shape.layout_iff {b : Bootinfo} {zones zones' : Zones} {size : Fin NZONE → BitVec 64}
    {below : Bool} (hs : Shape b zones size below)
    (hsame : ∀ z, SameFrames (zones z) (zones' z)) :
    Layout b zones' ↔ ((size 0).toNat ≤ 16 * 2 ^ 20 ∧ (size 1).toNat ≤ 2032 * 2 ^ 20 ∧
      (size 2).toNat ≤ 2 * 2 ^ 30 ∧ below = true ∧
      (size 0).toNat + (size 1).toNat + (size 2).toNat + (size 3).toNat ≤
        1024 * b.total.toNat) := by
  have hsize : ∀ z, (zones' z).size = size z := fun z => (hsame z).size.trans (hs.size z)
  have hstart : ∀ z, (zones' z).size = 0 ∨ (zones' z).start = zoneBase z := by
    intro z
    rw [(hsame z).size, (hsame z).start]
    exact hs.start z
  constructor
  · intro h
    have hrunning := h.running
    have hdma := h.dma
    have hnorm := h.norm
    have hhole := h.hole
    have hsum := h.sum
    rw [finRange_zones, hs.below] at hrunning
    simp only [hsize] at hdma hnorm hhole hsum
    exact ⟨hdma, hnorm, hhole, hrunning, hsum⟩
  · rintro ⟨hdma, hnorm, hhole, hbelow, hsum⟩
    have hfit : ∀ z, (windowOf z).1 + (zones' z).size.toNat ≤ (windowOf z).2 := by
      have hlt := (size 3).isLt
      simp only [hsize]
      refine forall_zone ?_ ?_ ?_ ?_
      all_goals
        simp only [windowOf]
        omega
    refine ⟨disjoint_of_windows hstart hfit, ?_, ?_, ?_, ?_, ?_⟩
    · rw [hsize]
      exact hdma
    · rw [hsize]
      exact hnorm
    · rw [hsize]
      exact hhole
    · rw [finRange_zones, hs.below]
      exact hbelow
    · simp only [hsize]
      exact hsum

theorem zonesInit_frames {b b' : Bootinfo} {zones : Zones} {e : Ret}
    (h : zonesInit b = .ok (e, zones, b')) :
    ∃ e1 zones1, Mm.Pmm.initializeZones (layoutOf b) [0, 1, 2, 3] (fun _ => Zone.zero) b.total =
      .ok (e1, zones1) ∧ ∀ z, SameFrames (zones1 z) (zones z) := by
  cases e with
  | ok =>
    rcases zonesInit_ok h with ⟨zones1, b₁, hlay, hmaps, -⟩
    have hplaced := placed_of_processMemoryMaps (sized_of_layOut hlay) hmaps
    rcases processMemoryMaps_spec (sized_of_layOut hlay) hplaced with ⟨zones2, hok, hsame, -⟩
    have heq : zones2 = zones := Except.ok.inj (hok.symm.trans hmaps)
    subst heq
    exact ⟨.ok, zones1, initializeZones_granted hlay, hsame⟩
  | err err =>
    rcases bind_ok_iff.1 h with ⟨⟨e1, zones1, b₁⟩, hlay, h⟩
    cases e1 with
    | ok =>
      rcases bind_ok_iff.1 h with ⟨zones2, -, h⟩
      simp at h
    | err err1 =>
      simp only [pure_eq_ok, Except.ok.injEq, Prod.mk.injEq] at h
      rcases h with ⟨-, rfl, -⟩
      exact ⟨.err err1, zones1, initializeZones_granted hlay, fun z => .refl _⟩

theorem toNat_KiB {x : BitVec 64} (h : x.toNat < 2 ^ 54) : (KiB x).toNat = 1024 * x.toNat := by
  rw [KiB, BitVec.toNat_mul]
  change 1024 * x.toNat % 2 ^ 64 = 1024 * x.toNat
  exact Nat.mod_eq_of_lt (by omega)

theorem layout_small {b : Bootinfo} {zones zones' : Zones} {e : Ret}
    (hsmall : b.total.toNat ≤ 2 * 2 ^ 20)
    (h : Mm.Pmm.initializeZones (layoutOf b) [0, 1, 2, 3] (fun _ => Zone.zero) b.total =
      .ok (e, zones)) (hsame : ∀ z, SameFrames (zones z) (zones' z)) : Layout b zones' := by
  have h16 : (MiB 16).toNat = 16 * 2 ^ 20 := by decide
  have h0 : (0 : BitVec 64).toNat = 0 := rfl
  by_cases hzero : b.total = 0
  · rw [(shape_none hzero h).layout_iff hsame]
    simp only [sizes, h0]
    exact ⟨by omega, by omega, by omega, trivial, by omega⟩
  · by_cases hdma : b.total.toNat ≤ 16384
    · rw [(shape_dma hzero hdma h).layout_iff hsame]
      have hkib := toNat_KiB (x := b.total) (by omega)
      simp only [sizes, h0, hkib]
      exact ⟨by omega, by omega, by omega, trivial, by omega⟩
    · rw [(shape_norm (by omega) hsmall h).layout_iff hsame]
      have hsub : (b.total - 16384).toNat = b.total.toNat - 16384 := by bv_omega
      have hkib := toNat_KiB (x := b.total - 16384) (by omega)
      rw [hsub] at hkib
      simp only [sizes, h0, hkib, h16]
      exact ⟨by omega, by omega, by omega, trivial, by omega⟩

theorem layout_large {b : Bootinfo} {zones zones' : Zones} {e : Ret}
    (hlarge : 2 * 2 ^ 20 < b.total.toNat)
    (h : Mm.Pmm.initializeZones (layoutOf b) [0, 1, 2, 3] (fun _ => Zone.zero) b.total =
      .ok (e, zones)) (hsame : ∀ z, SameFrames (zones z) (zones' z)) :
    Layout b zones' ↔ (beyond b).toNat ≤ 2 * 2 ^ 30 ∧ (beyond b).toNat / 1024 ≤ left b ∧
      ((beyond b).toNat % 1024 = 0 ∨ 2 ^ 54 ≤ left b - (beyond b).toNat / 1024) := by
  have h16 : (MiB 16).toNat = 16 * 2 ^ 20 := by decide
  have h2032 : (MiB 2032).toNat = 2032 * 2 ^ 20 := by decide
  have h0 : (0 : BitVec 64).toNat = 0 := rfl
  have hleft : left b = b.total.toNat - 2097152 := rfl
  have hsub : (b.total - 2097152).toNat = left b := by
    rw [hleft]
    bv_omega
  by_cases hgap : beyond b = 0
  · rw [(shape_gap hlarge hgap h).layout_iff hsame, hgap]
    simp only [sizes, h0, h16, h2032]
    refine iff_of_true ⟨by omega, by omega, by omega, trivial, by omega⟩ ?_
    exact ⟨by omega, by omega, .inl (by decide)⟩
  · rw [(shape_full hlarge hgap h).layout_iff hsame]
    have hdiv : (beyond b / 1024).toNat = (beyond b).toNat / 1024 := by
      rw [BitVec.toNat_udiv]
      rfl
    have hbelow : decide (afterHole b ≤ b.total - 2097152) = true ↔
        (beyond b).toNat / 1024 ≤ left b := by
      rw [decide_eq_true_eq, afterHole, ← hdiv, ← hsub]
      generalize b.total - 2097152 = m
      generalize beyond b / 1024 = d
      constructor <;> intro hle <;> bv_omega
    have hafter : (beyond b).toNat / 1024 ≤ left b →
        (afterHole b).toNat = left b - (beyond b).toNat / 1024 := by
      intro hle
      rw [afterHole, ← hdiv, ← hsub]
      rw [← hdiv, ← hsub] at hle
      generalize b.total - 2097152 = m at hle ⊢
      generalize beyond b / 1024 = d at hle ⊢
      bv_omega
    have hkib : (KiB (afterHole b)).toNat = 1024 * (afterHole b).toNat % 2 ^ 64 := by
      rw [KiB, BitVec.toNat_mul]
      rfl
    simp only [sizes, h16, h2032, hbelow, hkib]
    constructor
    · rintro ⟨-, -, hhole, hle, hsum⟩
      rw [hafter hle] at hsum
      refine ⟨hhole, hle, ?_⟩
      omega
    · rintro ⟨hhole, hle, hwhole⟩
      rw [hafter hle]
      exact ⟨by omega, by omega, hhole, hle, by omega⟩

/-- Whatever the boot information, the zones that `zones_init` leaves are laid out soundly exactly
when its two sources for the memory beyond 2 GiB agree. -/
theorem zone_layout_sound {b b' : Bootinfo} {zones : Zones} {e : Ret}
    (h : zonesInit b = .ok (e, zones, b')) : Layout b zones ↔ agrees b = true := by
  rcases zonesInit_frames h with ⟨e₁, zones₁, hinit, hsame⟩
  simp only [agrees, Bool.or_eq_true, Bool.and_eq_true, decide_eq_true_eq]
  by_cases hsmall : b.total.toNat ≤ 2 * 2 ^ 20
  · exact iff_of_true (layout_small hsmall hinit hsame) (.inl hsmall)
  · rw [layout_large (by omega) hinit hsame, and_assoc]
    exact ⟨.inr, fun hor => hor.resolve_left hsmall⟩

theorem zone_layout_sound_tiny :
    ∃ e zones b', zonesInit (tinyBoot 0xFE0000 0x1000) = .ok (e, zones, b') ∧
      (Layout (tinyBoot 0xFE0000 0x1000) zones ↔ agrees (tinyBoot 0xFE0000 0x1000) = true) ∧
      agrees (tinyBoot 0xFE0000 0x1000) = true := by
  cases h : zonesInit (tinyBoot 0xFE0000 0x1000) with
  | error f =>
    have hok : (zonesInit (tinyBoot 0xFE0000 0x1000)).isOk = true := by decide +kernel
    rw [h] at hok
    simp [Except.isOk, Except.toBool] at hok
  | ok r =>
    rcases r with ⟨e, zones, b'⟩
    exact ⟨e, zones, b', rfl, zone_layout_sound h, by decide +kernel⟩

def wideHole : MultibootInfo :=
  { memUpper := 3144704
    mmap := some [⟨0, 0x9fc00, true⟩, ⟨0x9fc00, 0x400, false⟩, ⟨0x100000, 0xBFF00000, true⟩,
      ⟨0xC0000000, 0x80000000, false⟩, ⟨0x180000000, 0xC0000000, true⟩]
    mods := some [⟨0x2000000, 0x2100000⟩]
    framebuffer := none }

def wideBoot : Bootinfo :=
  outcome (multibootInfoProcess tinyKernel wideHole) (bootinfoInit tinyKernel wideHole)

/-- The third zone is larger than its window and overlaps the last one. -/
theorem hole_overlaps_high :
    multibootInfoProcess tinyKernel wideHole = .ok wideBoot ∧
    ∃ zones b', zonesInit wideBoot = .ok (.ok, zones, b') ∧
      (zones 3).start.toNat < zoneEnd (zones 2) ∧ (zones 3).valid = true ∧
      ¬ Layout wideBoot zones := by
  refine ⟨eq_ok_outcome (by decide +kernel), ?_⟩
  have hread : (layOut wideBoot).toOption.map (fun r => (r.1, r.2.2.maps.all (placed r.2.1),
      (r.2.1 2).start, (r.2.1 2).size, (r.2.1 3).start, (r.2.1 3).valid)) =
        some (.ok, true, 0x80000000, 0xC0000000, 0x100000000, true) := by decide +kernel
  rcases ok_of_toOption hread with ⟨⟨e, zones₁, b₁⟩, hlay, hfields⟩
  simp only [Prod.mk.injEq, List.all_eq_true] at hfields
  rcases hfields with ⟨rfl, hplaced, hstart, hsize, hhigh, hvalid⟩
  rcases zonesInit_of_placed hlay hplaced with ⟨zones, hinit, hsame, -⟩
  refine ⟨zones, _, hinit, ?_, ?_, fun h => ?_⟩
  · rw [zoneEnd, (hsame 3).start, (hsame 2).start, (hsame 2).size, hstart, hsize, hhigh]
    decide
  · rw [(hsame 3).valid]
    exact hvalid
  · have hhole := h.hole
    rw [(hsame 2).size, hsize] at hhole
    exact absurd hhole (by decide)

end Zones
end Boot
end XytherOS
