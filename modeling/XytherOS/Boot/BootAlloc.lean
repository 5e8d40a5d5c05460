import XytherOS.Boot.Multiboot

/-!
# BootAlloc — the early bump allocator

`boot_alloc` hands out memory from `phyaddr` upwards, so that its regions never meet.  They keep
clear of the kernel image and of the modules only when these lie below the first `phyaddr`, and
`boot_process_modules` leaves there the end of the module that the boot loader lists last, whatever
lies above it.
-/

namespace XytherOS
namespace Boot

open Mm.Pmm Align

/-! ## Requests -/

structure Request where
  size : BitVec 64
  alignment : BitVec 64
  deriving DecidableEq

/-- A region that was handed out: its physical address, with the request. -/
structure Grant where
  addr : BitVec 64
  request : Request
  deriving DecidableEq

namespace Grant

def lo (g : Grant) : Nat := g.addr.toNat

def hi (g : Grant) : Nat := g.addr.toNat + g.request.size.toNat

end Grant

structure Pool where
  boot : Bootinfo
  grants : List Grant

def Pool.start (b : Bootinfo) : Pool := { boot := b, grants := [] }

def serve (p : Pool) (r : Request) : Except Fault Pool := do
  let (addr, b) ← bootAlloc p.boot r.size r.alignment
  return { boot := b, grants := ⟨V2LO addr, r⟩ :: p.grants }

def Apart (lo hi lo' hi' : Nat) : Prop := ∀ a, lo ≤ a → a < hi → lo' ≤ a → ¬ a < hi'

/-- What is in memory when the kernel starts: its image and the modules, also those beyond
`NMODS`. -/
def loaded (kernel : Kernel) (mbi : MultibootInfo) : List (Nat × Nat) :=
  let b := bootinfoInit kernel mbi
  ((V2LO b.kernBase).toNat, (V2LO b.kernBase).toNat + b.kernSize.toNat) ::
    (mbi.mods.getD []).map fun entry => (entry.modStart.toNat, entry.modEnd.toNat)

/-- The regions are aligned, keep clear of each other and of what is loaded. -/
structure Sound (kernel : Kernel) (mbi : MultibootInfo) (p : Pool) : Prop where
  aligned : ∀ g ∈ p.grants, g.lo % g.request.alignment.toNat = 0
  disjoint : p.grants.Pairwise fun g h => Apart g.lo g.hi h.lo h.hi
  clear : ∀ g ∈ p.grants, ∀ o ∈ loaded kernel mbi, Apart g.lo g.hi o.1 o.2

/-- What is loaded lies below `phyaddr`, or beyond the usable memory. -/
def clears (b : Bootinfo) (o : Nat × Nat) : Bool :=
  o.2 ≤ b.phyaddr.toNat || 1024 * b.usable.toNat ≤ o.1

def rounds (p : Pool) (r : Request) : Bool :=
  r.size.toNat + (r.alignment.toNat - 1) < 2 ^ 64 &&
    (p.boot.phyaddr % r.alignment = 0 ||
      p.boot.phyaddr.toNat + (r.alignment.toNat - 1) < 2 ^ 64)

variable {b : Bootinfo} {p : Pool} {r : Request}

theorem V2LO_V2HI (x : BitVec 64) : V2LO (V2HI x) = x := by
  simp [V2LO, V2HI]

theorem alignedAddr_spec {k : Nat} (ha : r.alignment.toNat = 2 ^ k) (hok : rounds p r = true) :
    p.boot.phyaddr.toNat ≤ (alignedAddr p.boot r.alignment).toNat ∧
      (alignedAddr p.boot r.alignment).toNat % r.alignment.toNat = 0 := by
  simp only [rounds, Bool.and_eq_true, Bool.or_eq_true, decide_eq_true_eq, ha] at hok
  rw [alignedAddr]
  split_ifs with hmod
  · rcases hok.2 with hzero | hfits
    · exact absurd hzero hmod
    · rw [ha]
      exact ⟨(le_roundUp ha hfits).1, roundUp_mod ha hfits⟩
  · have hnat := congrArg BitVec.toNat (not_not.1 hmod)
    rw [BitVec.toNat_umod] at hnat
    exact ⟨Nat.le_refl _, hnat⟩

theorem bootAlloc_ok {size alignment addr : BitVec 64} {b' : Bootinfo}
    (h : bootAlloc b size alignment = .ok (addr, b')) :
    (alignment ≠ 0 ∧ alignment &&& (alignment - 1) = 0) ∧
      V2LO addr = alignedAddr b alignment ∧
      ¬ alignedAddr b alignment + roundUp size alignment < alignedAddr b alignment ∧
      ¬ KiB b.usable < alignedAddr b alignment + roundUp size alignment ∧
      b'.phyaddr = alignedAddr b alignment + roundUp size alignment ∧
      b'.usable = b.usable - B2KiB (roundUp size alignment) := by
  simp only [bootAlloc, bootinfoAddMmap, assert_bind_ok_iff] at h
  rcases h with ⟨-, hvalid, hover, hlimit, -, h⟩
  rcases bind_ok_iff.1 h with ⟨b₁, hadd, h⟩
  rw [assert_bind_ok_iff] at hadd
  have hb1 := Except.ok.inj hadd.2
  simp only [pure_eq_ok, Except.ok.injEq, Prod.mk.injEq] at h
  rcases h with ⟨rfl, rfl⟩
  subst hb1
  refine ⟨by tauto, V2LO_V2HI _, hover, hlimit, rfl, rfl⟩

theorem fits_usable {start size usable : BitVec 64} (hlt : usable.toNat < 2 ^ 54)
    (hover : ¬ start + size < start) (hlimit : ¬ KiB usable < start + size) :
    (start + size).toNat = start.toNat + size.toNat ∧
      start.toNat + size.toNat ≤ 1024 * usable.toNat ∧
      (usable - B2KiB size).toNat ≤ usable.toNat := by
  have hkib : (KiB usable).toNat = 1024 * usable.toNat := by
    rw [KiB, BitVec.toNat_mul]
    change 1024 * usable.toNat % 2 ^ 64 = 1024 * usable.toNat
    exact Nat.mod_eq_of_lt (by omega)
  have hend : (start + size).toNat = start.toNat + size.toNat := by bv_omega
  have hle : start.toNat + size.toNat ≤ 1024 * usable.toNat := by
    rw [BitVec.lt_def, hkib, hend] at hlimit
    omega
  have hdiv : (B2KiB size).toNat = size.toNat / 1024 := by
    rw [B2KiB, BitVec.toNat_udiv]
    rfl
  refine ⟨hend, hle, ?_⟩
  bv_omega

theorem bootAlloc_asserted (b : Bootinfo) (size alignment : BitVec 64) :
    Safe Asserted (bootAlloc b size alignment) fun _ => True := by
  refine assert_safe.bind fun _ _ => ?_
  refine assert_safe.bind fun _ _ => ?_
  refine assert_safe.bind fun _ _ => ?_
  refine assert_safe.bind fun _ _ => ?_
  refine assert_safe.bind fun _ _ => ?_
  refine Safe.bind (P := fun _ => True) (assert_safe.bind fun _ _ => trivial) fun _ _ => trivial

/-- The regions lie between the first `phyaddr` and the present one, within the memory that was
usable at first, and in descending order. -/
structure Inv (b₀ : Bootinfo) (p : Pool) : Prop where
  usable_lt : p.boot.usable.toNat < 2 ^ 54
  usable_le : p.boot.usable.toNat ≤ b₀.usable.toNat
  phyaddr_le : b₀.phyaddr.toNat ≤ p.boot.phyaddr.toNat
  aligned : ∀ g ∈ p.grants, g.lo % g.request.alignment.toNat = 0
  lower : ∀ g ∈ p.grants, b₀.phyaddr.toNat ≤ g.lo
  upper : ∀ g ∈ p.grants, g.hi ≤ p.boot.phyaddr.toNat
  limit : ∀ g ∈ p.grants, g.hi ≤ 1024 * b₀.usable.toNat
  descending : p.grants.Pairwise fun g h => h.hi ≤ g.lo

theorem Inv.sound {kernel : Kernel} {mbi : MultibootInfo} {b₀ : Bootinfo} (h : Inv b₀ p)
    (hclear : ∀ o ∈ loaded kernel mbi, clears b₀ o = true) : Sound kernel mbi p := by
  refine ⟨h.aligned, h.descending.imp ?_, ?_⟩
  · intro g g' hle a hlo hhi hlo' hhi'
    omega
  · intro g hg o ho a hlo hhi hlo' hhi'
    have hlower := h.lower g hg
    have hlimit := h.limit g hg
    have hok := hclear o ho
    simp only [clears, Bool.or_eq_true, decide_eq_true_eq] at hok
    omega

theorem inv_start (b : Bootinfo) (hb : b.usable.toNat < 2 ^ 54) : Inv b (Pool.start b) := by
  refine ⟨hb, Nat.le_refl _, Nat.le_refl _, ?_, ?_, ?_, ?_, List.Pairwise.nil⟩
  all_goals
    intro g hg
    exact absurd hg List.not_mem_nil

/-- The step lemma. -/
theorem Inv.serve_safe {b₀ : Bootinfo} (h : Inv b₀ p) (hok : rounds p r = true) :
    Safe Asserted (serve p r) (Inv b₀) := by
  have hasserted := bootAlloc_asserted p.boot r.size r.alignment
  rw [serve]
  cases hcall : bootAlloc p.boot r.size r.alignment with
  | error e =>
    rw [hcall] at hasserted
    exact hasserted
  | ok res =>
    rcases res with ⟨addr, b'⟩
    rcases bootAlloc_ok hcall with ⟨⟨hne, hand⟩, haddr, hover, hlimit, hphy, husable⟩
    rcases exists_two_pow hne hand with ⟨k, ha⟩
    rcases alignedAddr_spec ha hok with ⟨hge, hmod⟩
    simp only [rounds, Bool.and_eq_true, decide_eq_true_eq] at hok
    have hsize : r.size.toNat ≤ (roundUp r.size r.alignment).toNat :=
      (le_roundUp ha (by rw [← ha]; exact hok.1)).1
    rcases fits_usable h.usable_lt hover hlimit with ⟨hend, hlimit', husable'⟩
    have hphy' : b'.phyaddr.toNat =
        (alignedAddr p.boot r.alignment).toNat + (roundUp r.size r.alignment).toNat := by
      rw [hphy, hend]
    have hle := h.usable_le
    have hlo := h.phyaddr_le
    rw [← husable] at husable'
    simp only [ok_bind, pure_eq_ok]
    -- the new region starts where the others have ended
    refine ⟨Nat.lt_of_le_of_lt husable' h.usable_lt, husable'.trans hle, ?_, ?_, ?_, ?_, ?_, ?_⟩
    · change b₀.phyaddr.toNat ≤ b'.phyaddr.toNat
      omega
    · refine List.forall_mem_cons.2 ⟨?_, h.aligned⟩
      simp only [Grant.lo, haddr]
      exact hmod
    · refine List.forall_mem_cons.2 ⟨?_, h.lower⟩
      simp only [Grant.lo, haddr]
      omega
    · refine List.forall_mem_cons.2 ⟨?_, fun g hg => (h.upper g hg).trans ?_⟩
      · simp only [Grant.hi, haddr]
        omega
      · change _ ≤ b'.phyaddr.toNat
        omega
    · refine List.forall_mem_cons.2 ⟨?_, h.limit⟩
      simp only [Grant.hi, haddr]
      omega
    · refine List.pairwise_cons.2 ⟨fun g hg => ?_, h.descending⟩
      simp only [Grant.lo, haddr]
      exact (h.upper g hg).trans hge

theorem multibootInfoProcess_usable {kernel : Kernel} {mbi : MultibootInfo}
    (h : multibootInfoProcess kernel mbi = .ok b) : b.usable.toNat < 2 ^ 54 := by
  rcases bind_ok_iff.1 h with ⟨b₁, -, h⟩
  rcases bind_ok_iff.1 h with ⟨b₂, hfb, h⟩
  rcases bind_ok_iff.1 h with ⟨maps, -, h⟩
  have hb := Except.ok.inj h
  have husable : b₂.usable = PGROUND b₁.usable / KiB 1 := by
    simp only [bootProcessFramebuffer] at hfb
    split at hfb
    · exact congrArg Bootinfo.usable (Except.ok.inj hfb).symm
    · rw [bootinfoAddMmap, assert_bind_ok_iff] at hfb
      exact congrArg Bootinfo.usable (Except.ok.inj hfb.2).symm
  have hdiv : b.usable = PGROUND b₁.usable / KiB 1 := by
    rw [← hb]
    exact husable
  have hlt := (PGROUND b₁.usable).isLt
  rw [hdiv, BitVec.toNat_udiv]
  change (PGROUND b₁.usable).toNat / 1024 < 2 ^ 54
  omega

/-- As long as the kernel image and the modules lie below the first `phyaddr` or beyond the usable
memory, and no size or address wraps when it is rounded, the regions of every sequence of
`boot_alloc` calls are aligned and keep clear of each other, of the kernel and of the modules. -/
theorem boot_alloc_sound {kernel : Kernel} {mbi : MultibootInfo} {b : Bootinfo}
    (hboot : multibootInfoProcess kernel mbi = .ok b)
    (hclear : ∀ o ∈ loaded kernel mbi, clears b o = true) (requests : List Request)
    (hrun : guarded serve rounds (Pool.start b) requests = true) :
    Safe Asserted (runs serve (Pool.start b) requests) (Sound kernel mbi) := by
  have hstep : ∀ (p : Pool) (r : Request), Inv b p → rounds p r = true →
      Safe Asserted (serve p r) (Inv b) := fun p r h hok => h.serve_safe hok
  have hstart := inv_start b (multibootInfoProcess_usable hboot)
  refine (Safe.runs hstep hstart hrun).mono ?_
  exact fun p h => h.sound hclear

def smallKernel : Kernel := ⟨0xFFFF800000100000, 0xFFFF800000200000⟩

def smallMachine (mods : List ModEntry) : MultibootInfo :=
  { memUpper := 0x1FC00
    mmap := some [⟨0, 0x9fc00, true⟩, ⟨0x9fc00, 0x400, false⟩, ⟨0x100000, 0x7f00000, true⟩]
    mods := some mods
    framebuffer := none }

def smallBoot (mods : List ModEntry) : Bootinfo :=
  outcome (multibootInfoProcess smallKernel (smallMachine mods))
    (bootinfoInit smallKernel (smallMachine mods))

def ascendingMods : List ModEntry := [⟨0x200000, 0x300000⟩, ⟨0x300000, 0x400000⟩]

def threeRequests : List Request := [⟨0x1000, 0x1000⟩, ⟨0x28, 0x10⟩, ⟨0x5000, 0x200000⟩]

theorem boot_alloc_sound_ascending :
    (runs serve (Pool.start (smallBoot ascendingMods)) threeRequests).isOk = true ∧
      Safe Asserted (runs serve (Pool.start (smallBoot ascendingMods)) threeRequests)
        (Sound smallKernel (smallMachine ascendingMods)) := by
  have hboot : multibootInfoProcess smallKernel (smallMachine ascendingMods) =
      .ok (smallBoot ascendingMods) := eq_ok_outcome (by decide +kernel)
  have hclear : ∀ o ∈ loaded smallKernel (smallMachine ascendingMods),
      clears (smallBoot ascendingMods) o = true := by decide +kernel
  have hrun : guarded serve rounds (Pool.start (smallBoot ascendingMods)) threeRequests = true := by
    decide +kernel
  exact ⟨by decide +kernel, boot_alloc_sound hboot hclear threeRequests hrun⟩

def descendingMods : List ModEntry := [⟨0x300000, 0x400000⟩, ⟨0x200000, 0x300000⟩]

def descendingPool : Pool :=
  outcome (runs serve (Pool.start (smallBoot descendingMods)) [⟨0x1000, 0x1000⟩])
    (Pool.start (smallBoot descendingMods))

/-- The region of the first request lies in the module that is listed first. -/
theorem boot_alloc_hits_module :
    multibootInfoProcess smallKernel (smallMachine descendingMods) =
      .ok (smallBoot descendingMods) ∧
    runs serve (Pool.start (smallBoot descendingMods)) [⟨0x1000, 0x1000⟩] = .ok descendingPool ∧
    ¬ Sound smallKernel (smallMachine descendingMods) descendingPool := by
  refine ⟨eq_ok_outcome (by decide +kernel), eq_ok_outcome (by decide +kernel), fun h => ?_⟩
  have hgrant : ⟨0x300000, ⟨0x1000, 0x1000⟩⟩ ∈ descendingPool.grants := by decide +kernel
  have hmod : (0x300000, 0x400000) ∈ loaded smallKernel (smallMachine descendingMods) := by
    decide +kernel
  have hapart := h.clear _ hgrant _ hmod
  exact hapart 0x300000 (by decide) (by decide) (by decide) (by decide)

end Boot
end XytherOS
