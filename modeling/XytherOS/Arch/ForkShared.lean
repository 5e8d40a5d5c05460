import XytherOS.Arch.MachineLedger

/-!
# ForkShared — shared regions after a fork

`x86_64_lazycpy` takes the right to write from every page that is present, also from those of shared
regions.  A write to such a page faults with the page present, and for a shared region
`handle_write_fault` passes that on to `handle_writable_page_fault`, which refuses it.  So a shared
region survives a fork if none of its pages was present.
-/

namespace XytherOS
namespace Arch

open Mm.Mmap (State Region has bitIf PTE_P PTE_W mmapFind)

variable {env : MachineEnv} {held : Held} {m m' : Machine} {i r : Nat} {addr : BitVec 64}

/-- A process writes to `addr` in the address space `i`; the processor faults unless the page is
mapped and writable. -/
def write (env : MachineEnv) (held : Held) (m : Machine) (i : Nat) (addr : BitVec 64) :
    Except Fault Machine :=
  if (m.tables i).reached .pt (vpn addr) && has ((m.tables i).entry .pt (vpn addr)) PTE_W then .ok m
  else archDoPageFault env held m i addr (pfErrCode (m.tables i) addr true true)

/-- The page of `addr` is present in the address space `i`. -/
def PresentAt (m : Machine) (i : Nat) (addr : BitVec 64) : Prop :=
  (m.tables i).reached .pt (vpn addr) = true

/-- After the fork of the address space `i` of `m`, which led to `m'`, the parent and the child can
write to every page of the region `r` that was present, and then they map the same frame there. -/
def SharedSurvives (env : MachineEnv) (held : Held) (m m' : Machine) (i r : Nat) : Prop :=
  ∀ addr, mmapFind (m.space i) addr = .ok (some r) → PresentAt m i addr →
    ∃ m₁ m₂ f, write env held m' i addr = .ok m₁ ∧ write env held m₁ m.nspaces addr = .ok m₂ ∧
      m₂.Maps i (vpn addr) f ∧ m₂.Maps m.nspaces (vpn addr) f

theorem shared_write_refused (hfind : mmapFind (m.space i) addr = .ok (some r))
    (hshared : vmrShared ((m.space i).region r) = true)
    (hwrite : vmrWrite ((m.space i).region r) = true) (hp : PresentAt m i addr) (m1 : Machine) :
    archDoPageFault env held m i addr (pfErrCode (m.tables i) addr true true) ≠ .ok m1 := by
  have hP : has (pfErrCode (m.tables i) addr true true) PTE_P = true :=
    (has_pfErrCode _ _ _ _).trans hp
  have hW : has (pfErrCode (m.tables i) addr true true) PTE_W = true := by
    rw [pfErrCode, hp]
    decide
  have hrefused : handleVmrFault env held m i addr (pfErrCode (m.tables i) addr true true) =
      .ok (some (.err .EFAULT, m.kern i)) := by
    rw [handleVmrFault, hfind, ok_bind]
    simp only [defaultPgfHandler, hW, if_true, handleWriteFault, hwrite, hshared,
      handleWritablePageFault, hP]
    cases ((m.tables i).getmapping addr).toOption <;> rfl
  rw [archDoPageFault]
  by_cases hkernel : iskernelAddr addr = true
  · rw [if_pos hkernel]
    simp
  · rw [if_neg hkernel, hrefused, ok_bind]
    simp

/-- A writable shared region survives the fork of a reachable machine exactly when none of its pages
was present. -/
theorem shared_survives_fork_iff (env : MachineEnv) (fr : Frames) (ops : List Op) (m : Machine)
    (hrun : run env (.boot fr) ops = .ok m) (held : Held) (i : Nat) (hi : i < m.nspaces)
    (m' : Machine) (hfork : fork env m i = .ok (.ok, m')) (r : Nat)
    (hwrite : vmrWrite ((m.space i).region r) = true)
    (hshared : vmrShared ((m.space i).region r) = true) :
    SharedSurvives env held m m' i r ↔
      ∀ addr, mmapFind (m.space i) addr = .ok (some r) → ¬ PresentAt m i addr := by
  constructor
  · intro hsurvives addr hfind hp
    rcases hsurvives addr hfind hp with ⟨m₁, _, _, hstore, _⟩
    have hgood := run_good hrun
    rcases (fork_good hgood hi).of_eq_ok hfork with ⟨hgood', hforked⟩
    have hspace := (hforked rfl).space
    have hpage : (m.tables i).isP .pt (vpn addr) = true := by
      rw [← PageTables.reached_eq_isP (hgood.tidy i hi)]
      exact hp
    rcases cowEntry_bits ((m.tables i).entry .pt (vpn addr)) with ⟨hP, hW, -, -⟩
    rw [← (hforked rfl).readonly _ hpage] at hP hW
    have hi' : i < m'.nspaces := by
      rw [(hforked rfl).nspaces]
      omega
    have hp' : PresentAt m' i addr := by
      rw [PresentAt, PageTables.reached_eq_isP (hgood'.tidy i hi')]
      exact hP.trans hpage
    -- the regions of the parent are those it had, so that the same region is found
    have hfind' : mmapFind (m'.space i) addr = .ok (some r) := by
      rw [hspace]
      exact hfind
    have hregion : (m'.space i).region r = (m.space i).region r := by
      rw [hspace]
      rfl
    rw [write, hW, Bool.and_false, if_neg (by simp)] at hstore
    exact shared_write_refused hfind' (hregion ▸ hshared) (hregion ▸ hwrite) hp' m₁ hstore
  · intro habsent addr hfind hp
    exact absurd hp (habsent addr hfind)

def sharedUntouchedOps : List Op :=
  [.create, .call 0 (.mapRegion 0x2000000 0x1000 (Mm.Mmap.PROT_READ ||| Mm.Mmap.PROT_WRITE)
    (Mm.Mmap.MAP_FIXED ||| Mm.Mmap.MAP_SHARED) true)]

def sharedWrittenOps : List Op :=
  sharedUntouchedOps ++ [.fault 0 0x2000000 true true .none]

def forkedFrom (ops : List Op) : Machine :=
  (outcome (fork smallEnv (reachedBy ops) 0) (.ok, .boot smallFrames)).2

theorem forkedFrom_eq {ops : List Op}
    (hok : (fork smallEnv (reachedBy ops) 0).toOption.map Prod.fst = some .ok) :
    fork smallEnv (reachedBy ops) 0 = .ok (.ok, forkedFrom ops) := by
  rcases ok_of_toOption hok with ⟨⟨ret, m'⟩, hfork, rfl⟩
  rw [forkedFrom, hfork]
  rfl

theorem shared_survives_fork_untouched :
    SharedSurvives smallEnv .none (reachedBy sharedUntouchedOps) (forkedFrom sharedUntouchedOps) 0 1 ↔
      ∀ addr, mmapFind ((reachedBy sharedUntouchedOps).space 0) addr = .ok (some 1) →
        ¬ PresentAt (reachedBy sharedUntouchedOps) 0 addr :=
  shared_survives_fork_iff smallEnv smallFrames sharedUntouchedOps _
    (eq_ok_outcome (by decide +kernel)) .none 0 (by decide +kernel) _
    (forkedFrom_eq (by decide +kernel)) 1 (by decide +kernel) (by decide +kernel)

/-- The parent of a fork cannot write to the shared page any more. -/
theorem shared_page_lost_by_fork :
    ∃ m m', run smallEnv (.boot smallFrames) sharedWrittenOps = .ok m ∧
      fork smallEnv m 0 = .ok (.ok, m') ∧ vmrWrite ((m.space 0).region 1) = true ∧
      vmrShared ((m.space 0).region 1) = true ∧ ¬ SharedSurvives smallEnv .none m m' 0 1 := by
  refine ⟨reachedBy sharedWrittenOps, forkedFrom sharedWrittenOps,
    eq_ok_outcome (by decide +kernel), forkedFrom_eq (by decide +kernel), by decide +kernel,
    by decide +kernel, ?_⟩
  intro hsurvives
  have hfind : (mmapFind ((reachedBy sharedWrittenOps).space 0) 0x2000000).toOption.map id =
      some (some 1) := by
    decide +kernel
  rcases ok_of_toOption hfind with ⟨_, hok, rfl⟩
  have hp : (reachedBy sharedWrittenOps).tables 0 |>.reached .pt (vpn 0x2000000) := by
    decide +kernel
  rcases hsurvives 0x2000000 hok hp with ⟨m₁, _, _, hwrite, _⟩
  have hrefused : (write smallEnv .none (forkedFrom sharedWrittenOps) 0 0x2000000).isOk = false := by
    decide +kernel
  rw [hwrite] at hrefused
  exact absurd hrefused (by simp [Except.isOk, Except.toBool])

end Arch
end XytherOS
