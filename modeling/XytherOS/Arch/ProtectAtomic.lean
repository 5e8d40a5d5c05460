import XytherOS.Lib.Align
import XytherOS.Mm.MmapFrame
import XytherOS.Mm.PmmSound
import XytherOS.Arch.MachineLedger

/-!
# ProtectAtomic — what a failed `mmap_protect` leaves behind

`mmap_protect` asks the architecture last, after it has split the region and written the new flags,
and undoes nothing then; the source marks the place as unfinished.  `x86_64_mprotect` refuses a
protection without the present bit, which reading and executing set and writing does not, and the
page at address 0.  It refuses before it has changed an entry, so that the page tables are as they
were, but the list of regions is not.
-/

namespace XytherOS
namespace Arch

open Mm.Mmap
open Mm.Pmm (NPAGE PGROUND PGSZ toNat_NPAGE)

/-! ## When the architecture refuses -/

/-- `x86_64_mprotect` refuses pages from `start` on with the permissions `prot`. -/
def archRefuses (start : BitVec 64) (prot : BitVec 32) : Bool :=
  !(has prot PROT_READ || has prot PROT_EXEC) || start < PGSZ

theorem has_pteFlags_P (prot : BitVec 32) :
    has (PGOFF (pteFlags (protFlags prot))) PTE_P = (has prot PROT_READ || has prot PROT_EXEC) := by
  simp only [pteFlags, protFlags]
  cases has prot PROT_READ <;> cases has prot PROT_WRITE <;> cases has prot PROT_EXEC <;> decide

theorem protPages_ok (flags : BitVec 64) (n : Nat) (va : BitVec 64) (mem : Mem)
    (hpos : 0 < va.toNat) (hn : va.toNat + n * 4096 ≤ 2 ^ 64) :
    (protPages flags n va mem).1 = .ok := by
  induction n generalizing va mem with
  | zero => rfl
  | succ n ih =>
    have hne : va ≠ 0 := by
      rintro rfl
      exact absurd hpos (by decide)
    rw [protPages, PageTables.getmapping, if_neg hne]
    -- the next page is not page 0 either: only the last one may end at the top
    have hnext : ∀ mem', (protPages flags n (va + PGSZ) mem').1 = .ok := by
      intro mem'
      cases n with
      | zero => rfl
      | succ n =>
        have hadd : (va + PGSZ).toNat = va.toNat + 4096 := by
          simp only [PGSZ]
          bv_omega
        exact ih (va + PGSZ) mem' (by omega) (by omega)
    by_cases hp : mem.tables.reached .pt (vpn va) = true
    · rw [if_pos hp]
      exact hnext _
    · rw [if_neg hp]
      exact hnext _

theorem mprotect_refuses (mem : Mem) {start sz : BitVec 64} (prot : BitVec 32) (hpos : sz ≠ 0)
    (hlim : start.toNat + sz.toNat ≤ 2 ^ 47) :
    (archRefuses start prot = true ∧
        mprotect mem start sz (pteFlags (protFlags prot)) = (.err .EINVAL, mem)) ∨
      (archRefuses start prot = false ∧
        (mprotect mem start sz (pteFlags (protFlags prot))).1 = .ok) := by
  rw [mprotect, archRefuses, ← has_pteFlags_P]
  by_cases hp : has (PGOFF (pteFlags (protFlags prot))) PTE_P = true
  swap
  · refine .inl ⟨by simp [hp], ?_⟩
    rw [if_neg hp]
  rw [if_pos hp, hp, Bool.not_true, Bool.false_or, decide_eq_true_iff, decide_eq_false_iff_not]
  have hround : (PGROUND start).toNat = start.toNat / 4096 * 4096 :=
    Align.toNat_roundDown (k := 12) start rfl
  have hnpage := toNat_NPAGE sz
  have hpos' : sz.toNat ≠ 0 := fun hzero => hpos (by bv_omega)
  have hPGSZ : PGSZ.toNat = 4096 := rfl
  rw [BitVec.lt_def, hPGSZ]
  by_cases hlow : start.toNat < 4096
  · -- the first page is page 0
    refine .inl ⟨hlow, ?_⟩
    have hzero : PGROUND start = 0 := by
      have htoNat : (0 : BitVec 64).toNat = 0 := rfl
      refine BitVec.eq_of_toNat_eq ?_
      rw [hround, htoNat]
      omega
    obtain ⟨n, hn⟩ : ∃ n, (NPAGE sz).toNat = n + 1 := by
      refine ⟨(NPAGE sz).toNat - 1, ?_⟩
      split_ifs at hnpage <;> omega
    rw [hzero, hn, protPages]
    rfl
  · refine .inr ⟨hlow, protPages_ok _ _ _ _ ?_ ?_⟩
    · rw [hround]
      omega
    · rw [hround]
      split_ifs at hnpage <;> omega

/-! ## Failed calls -/

def layout (s : State Mem) : List (BitVec 64 × BitVec 64 × BitVec 64 × BitVec 64) :=
  s.regions.map fun r => (r.start, r.endAddr, r.flags, r.vflags)

/-- If `mmap_protect` returns an error, the regions and the page tables are as before. -/
def ProtectAtomic (env : MachineEnv) (s : State Mem) (addr len : BitVec 64) (prot : BitVec 32) :
    Prop :=
  ∀ e s', mmapProtect env.mmapEnv s addr len prot = .ok (.err e, s') →
    layout s' = layout s ∧ s'.pt = s.pt

/-- `mmap_protect(addr, len, prot)` changes the region `r`, and then the architecture refuses. -/
def sticks (env : MachineEnv) (s : State Mem) (addr len : BitVec 64) (prot : BitVec 32)
    (r : Region) : Bool :=
  HoldsRange r addr len && Allowed r prot &&
    if len < r.size then
      SplitMemory env.mmapEnv s r addr len && archRefuses addr prot
    else
      archRefuses r.start prot &&
        (r.flags != protFlags prot || r.vflags != pteFlags (protFlags prot))

section Atomic

variable {env : MachineEnv} {s s' : State Mem} {v v₁ v₂ : View} {p : Nat} {r : Region}
  {addr len : BitVec 64} {prot : BitVec 32}

theorem layout_eq (h : Listed s v) :
    layout s = v.map fun e => (e.2.start, e.2.endAddr, e.2.flags, e.2.vflags) := by
  rw [layout, h.regions_eq, List.map_map]
  rfl

theorem layout_mended {m : State Mem} (h : Mended s m) : layout m = layout s := by
  rw [layout, layout, h.regions]

theorem layout_protect (h : Listed s (v₁ ++ (p, r) :: v₂))
    (h' : Listed s' (v₁ ++ (p, r.protect prot) :: v₂)) :
    layout s' = layout s ↔ r.flags = protFlags prot ∧ r.vflags = pteFlags (protFlags prot) := by
  rw [layout_eq h, layout_eq h']
  simp only [List.map_append, List.map_cons, List.append_cancel_left_eq, List.cons.injEq,
    Prod.mk.injEq, Region.protect, Region.withFlags, and_true, true_and]
  exact and_congr eq_comm eq_comm

theorem layout_split {left right : View} (h : Rel s (v₁ ++ (p, r) :: v₂))
    (hs : Splits r addr len prot) (hl : LeftPart r addr left)
    (hr : RightPart r (addr + len - 1) right) {r' : Region}
    (h' : Listed s' (v₁ ++ left ++ (p, r') :: (right ++ v₂))) : layout s' ≠ layout s := by
  intro heq
  have hlen := congrArg List.length heq
  rw [layout_eq h.toListed, layout_eq h'] at hlen
  simp only [List.length_map, List.length_append, List.length_cons] at hlen
  rcases hs.bounds h with ⟨hlo, hmid, hhi, -, -⟩
  have hlt := hs.2.2.2.2.2.2.2
  cases hl with
  | some hltl =>
    simp only [List.length_cons, List.length_nil] at hlen
    omega
  | none heql =>
    cases hr with
    | some hltr =>
      simp only [List.length_cons, List.length_nil] at hlen
      omega
    | none heqr =>
      -- the range would be the whole region
      simp only [Region.size, heql, heqr] at hlt
      exact absurd hlt (by bv_omega)

theorem sticks_iff (h : Rel s (v₁ ++ (p, r) :: v₂)) (hr : HoldsRange r addr len) :
    s.everyRegion (fun r => !sticks env s addr len prot r) = true ↔
      sticks env s addr len prot r = false := by
  have hmem : (p, r) ∈ v₁ ++ (p, r) :: v₂ := by simp
  rw [h.everyRegion_iff]
  simp only [Bool.not_eq_eq_eq_not, Bool.not_true]
  constructor
  · exact fun hall => hall (p, r) hmem
  · intro hno e he
    by_cases hre : HoldsRange e.2 addr len
    · rw [HoldsRange.eq_of_mem h.toListed he hmem hre hr]
      exact hno
    · simp [sticks, hre]

theorem protect_returns (h : Rel s v) :
    ∃ x, mmapProtect env.mmapEnv s addr len prot = .ok x ∧
      ProtectCases env.mmapEnv s v addr len prot x := by
  have hsafe : Safe _ (mmapProtect env.mmapEnv s addr len prot) _ := h.protect_cases
  cases heq : mmapProtect env.mmapEnv s addr len prot with
  | error e =>
    rw [heq] at hsafe
    rcases hsafe with ⟨pt, start, size, vflags, hfault⟩
    cases hfault
  | ok x =>
    rw [heq] at hsafe
    exact ⟨x, rfl, hsafe⟩

/-- In every well-formed address space and for all arguments, a failed `mmap_protect` leaves the
regions and the page tables as they were if and only if no region is changed for good before the
architecture refuses. -/
theorem protect_atomic_iff {env : MachineEnv} {s : State Mem} {v : View} {addr len : BitVec 64}
    {prot : BitVec 32} (h : Rel s v) :
    ProtectAtomic env s addr len prot ↔
      s.everyRegion (fun r => !sticks env s addr len prot r) = true := by
  obtain ⟨x, heq, hcases⟩ : ∃ x, mmapProtect env.mmapEnv s addr len prot = .ok x ∧
      ProtectCases env.mmapEnv s v addr len prot x := protect_returns h
  have hatomic : ProtectAtomic env s addr len prot ↔
      (x.1 ≠ .ok → layout x.2 = layout s ∧ x.2.pt = s.pt) := by
    rcases x with ⟨_ | e, s'⟩
    · refine iff_of_true ?_ fun hne => absurd rfl hne
      intro e' s'' hfail
      rw [heq] at hfail
      cases hfail
    · constructor
      · exact fun hall _ => hall e s' heq
      · intro hall e' s'' hfail
        rw [heq] at hfail
        cases hfail
        exact hall (by simp)
  rw [hatomic]
  cases hcases with
  | refused ret rel account stops =>
    have hkept : layout x.2 = layout s ∧ x.2.pt = s.pt :=
      ⟨by rw [layout_eq rel.toListed, layout_eq h.toListed], congrArg Account.pt account⟩
    refine iff_of_true (fun _ => hkept) (h.everyRegion_iff.2 fun e he => ?_)
    -- whatever the call had found, it stopped at the memory for a split
    by_cases hcond : HoldsRange e.2 addr len ∧ Allowed e.2 prot
    · rcases stops e he hcond.1 hcond.2 with ⟨hsize, hmemory⟩
      simp [sticks, hsize, hmemory]
    · simp only [sticks, ← Bool.decide_and, decide_eq_false hcond, Bool.false_and, Bool.not_false]
  | @same e mem holds perm state =>
    rcases List.append_of_mem mem with ⟨v₁, v₂, rfl⟩
    rw [sticks_iff h holds, state]
    refine iff_of_true (fun hne => absurd rfl hne) ?_
    have hno : ¬ Allowed e.2 prot := fun hallowed => hallowed.2.1 perm
    simp [sticks, hno]
  | @whole v₁ v₂ p r pt view holds allowed size mprotect rel account =>
    subst view
    rw [sticks_iff h holds]
    have hb := h.bounds (e := (p, r)) (by simp)
    have hsize := h.size_eq
    have hprot : Arch.mprotect s.pt r.start r.size (pteFlags (protFlags prot)) = (x.1, pt) :=
      Except.ok.inj mprotect
    have hpt : x.2.pt = pt := congrArg Account.pt account
    have hstick : sticks env s addr len prot r = (archRefuses r.start prot &&
        (r.flags != protFlags prot || r.vflags != pteFlags (protFlags prot))) := by
      simp [sticks, holds, allowed, size]
    rw [hstick]
    have hpos : r.size ≠ 0 := by bv_omega
    have hlim : r.start.toNat + r.size.toNat ≤ 2 ^ 47 := by bv_omega
    rcases mprotect_refuses s.pt prot hpos hlim with ⟨hrefuse, herr⟩ | ⟨haccept, hok⟩
    · rcases Prod.mk.inj (herr.symm.trans hprot) with ⟨hret, hpt'⟩
      rw [hrefuse, Bool.true_and, ← hret, hpt, ← hpt', layout_protect h.toListed rel.toListed]
      simp only [ne_eq, reduceCtorEq, not_false_eq_true, forall_const, and_true,
        Bool.or_eq_false_iff, bne_eq_false_iff_eq]
    · rw [hprot] at hok
      rw [haccept]
      exact iff_of_true (fun hne => absurd hok hne) rfl
  | @split v₁ v₂ p r m view splits memory done =>
    subst view
    have holds : HoldsRange r addr len :=
      ⟨splits.1, splits.2.1, splits.2.2.1, splits.2.2.2.1, splits.2.2.2.2.1, splits.2.2.2.2.2.1⟩
    have allowed : Allowed r prot := splits.2.2.2.2.2.2.1
    have size : len < r.size := splits.2.2.2.2.2.2.2
    rw [sticks_iff h holds]
    rcases splits.bounds h with ⟨hlo, hmid, hhi, hend, -⟩
    have hstick : sticks env s addr len prot r = archRefuses addr prot := by
      simp [sticks, holds, allowed, size, memory]
    rw [hstick]
    cases done with
    | intro leftPart rightPart mprotect rel tables mended same =>
      have hdiff : layout x.2 ≠ layout s := by
        rw [← layout_mended mended]
        exact layout_split h splits leftPart rightPart rel.toListed
      have hlim : addr.toNat + len.toNat ≤ 2 ^ 47 := by
        have hsize := h.size_eq
        bv_omega
      have hprot := Except.ok.inj mprotect
      rcases mprotect_refuses s.pt prot splits.1 hlim with ⟨hrefuse, herr⟩ | ⟨haccept, hok⟩
      · rcases Prod.mk.inj (herr.symm.trans hprot) with ⟨hret, -⟩
        rw [hrefuse]
        refine iff_of_false (fun hall => hdiff (hall ?_).1) (by decide)
        rw [← hret]
        simp
      · have hret : x.1 = .ok := (congrArg Prod.fst hprot).symm.trans hok
        rw [haccept]
        exact iff_of_true (fun hne => absurd hret hne) rfl

end Atomic

/-- The address space that `mmap_init` makes on the small machine. -/
def smallBoot : State Mem :=
  match mmapInit smallEnv.mmapEnv ⟨.empty, smallFrames, 0⟩ with
  | .ok (_, s) => s
  | .error _ => mmapClean ⟨.empty, smallFrames, 0⟩

def smallMapping : List Call :=
  [.mapRegion 0x1000000 0x2000 (PROT_READ ||| PROT_WRITE) (MAP_FIXED ||| MAP_PRIVATE) false]

def smallMapped : State Mem :=
  match Mm.Mmap.run smallEnv.mmapEnv smallBoot smallMapping with
  | .ok s => s
  | .error _ => smallBoot

theorem smallMapped_rel : ∃ v, Rel smallMapped v := by
  have hinit : mmapInit smallEnv.mmapEnv ⟨.empty, smallFrames, 0⟩ = .ok (.ok, smallBoot) := rfl
  have hrun : Mm.Mmap.run smallEnv.mmapEnv smallBoot smallMapping = .ok smallMapped := rfl
  rcases mmapInit_rel hinit with ⟨q, hrel, -⟩
  exact (hrel.run_safe (by decide +kernel)).of_eq_ok hrun

theorem protect_atomic_iff_denied :
    ProtectAtomic smallEnv smallMapped 0x1000000 0x1000 (PROT_WRITE ||| PROT_EXEC) := by
  rcases smallMapped_rel with ⟨v, hv⟩
  exact (protect_atomic_iff hv).2 (by decide +kernel)

/-- What `mmap_protect(0x1000000, 0x1000, PROT_NONE)` leaves. -/
def smallRefused : State Mem :=
  match mmapProtect smallEnv.mmapEnv smallMapped 0x1000000 0x1000 0 with
  | .ok (_, s) => s
  | .error _ => smallMapped

/-- The call fails, but the mapping is in two parts, and the first has lost its permissions. -/
theorem protect_not_atomic :
    (∃ v, Rel smallMapped v) ∧
    mmapProtect smallEnv.mmapEnv smallMapped 0x1000000 0x1000 0 =
      .ok (.err .EINVAL, smallRefused) ∧
    ¬ ProtectAtomic smallEnv smallMapped 0x1000000 0x1000 0 := by
  have hfail : mmapProtect smallEnv.mmapEnv smallMapped 0x1000000 0x1000 0 =
      .ok (.err .EINVAL, smallRefused) := rfl
  refine ⟨smallMapped_rel, hfail, ?_⟩
  intro hatomic
  have hlayout : layout smallRefused ≠ layout smallMapped := by decide +kernel
  exact hlayout (hatomic _ _ hfail).1

end Arch
end XytherOS
