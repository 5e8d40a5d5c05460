import XytherOS.Arch.FaultLedger

/-!
# FaultPages — the pages that become present

The paging code is taken through once more, for the pages alone: unmapping makes no page present,
and the handlers of a page fault make none present but the page of the fault.  New tables are zeroed
(`graft`), so that a table brings no pages with it.
-/

namespace XytherOS
namespace Arch

open Mm.Mmap (Region has PTE_P PTE_W)
open Mm.Pmm (NPAGE PGSZ)

/-- No page but `pg` is present in `t'` that is not in `t`. -/
def Brings (pg : Option Nat) (t t' : PageTables) : Prop :=
  ∀ v, pg ≠ some v → t'.isP .pt v = true → t.isP .pt v = true

section Brings

variable {t t' t'' : PageTables} {pg : Option Nat} {v : Nat} {lvl : Level} {k : Nat}
  {raw : BitVec 64}

theorem Brings.refl (pg : Option Nat) (t : PageTables) : Brings pg t t := fun _ _ hp => hp

theorem Brings.trans (h : Brings pg t t') (h' : Brings pg t' t'') : Brings pg t t'' :=
  fun v hv hp => h v hv (h' v hv hp)

theorem Brings.of_eq (h : t' = t) : Brings pg t t' := by
  rw [h]
  exact .refl pg t

theorem Brings.some (h : Brings none t t') : Brings pg t t' := fun v _ hp => h v (by simp) hp

theorem brings_set_zero : Brings none t (t.set lvl k 0) := by
  intro v _ hp
  rw [PageTables.isP_set_zero] at hp
  exact hp.1

theorem brings_set_page : Brings (.some v) t (t.set .pt v raw) := by
  intro u hu hp
  have hne : ¬ (Level.pt = .pt ∧ u = v) := fun heq => hu (by rw [heq.2])
  rwa [PageTables.isP_set_of_ne hne] at hp

theorem brings_graft (hl : lvl ≠ .pt) : Brings none t (t.graft lvl k raw) := by
  intro v _ hp
  have hne : ¬ (Level.pt = lvl ∧ v = k) := fun heq => hl heq.1.symm
  by_cases hnew : Level.above .pt = .some lvl ∧ v / 512 = k
  · rw [PageTables.isP_graft_below hnew.1 hnew.2] at hp
    exact absurd hp (by simp)
  · rwa [PageTables.isP, PageTables.entry_graft_of_ne hne hnew] at hp

end Brings

/-! ## The paging code -/

section Paging

variable {mem mem' : Mem} {v f k : Nat} {lvl : Level} {flags va sz : BitVec 64}

theorem Mem.free_tables (mem : Mem) (f : Nat) :
    Safe AnyFault (mem.free f) fun mem' => mem'.tables = mem.tables := by
  refine Safe.any ?_
  intro mem' h
  rcases bind_ok_iff.1 h with ⟨fr, -, heq⟩
  cases heq
  rfl

theorem unmap_brings (mem : Mem) (v : Nat) :
    Safe AnyFault (unmap mem v) fun mem' => Brings none mem.tables mem'.tables := by
  rw [unmap]
  by_cases hreached : mem.tables.reached .pt v = true
  · rw [if_pos hreached]
    dsimp only
    split_ifs
    · refine (Mem.free_tables _ _).mono ?_
      intro mem' htables
      rw [htables]
      exact brings_set_zero
    · exact brings_set_zero
  · rw [if_neg hreached]
    exact .refl _ _

theorem unmapPages_brings (n : Nat) (va : BitVec 64) (mem : Mem) :
    Safe AnyFault (unmapPages n va mem) fun mem' => Brings none mem.tables mem'.tables := by
  induction n generalizing va mem with
  | zero => exact .refl _ _
  | succ n ih =>
    rw [unmapPages]
    refine (unmap_brings mem (vpn va)).bind ?_
    intro mem1 h₁
    exact (ih _ _).mono fun mem2 h₂ => h₁.trans h₂

theorem unmapN_brings (mem : Mem) (va sz : BitVec 64) :
    Safe AnyFault (unmapN mem va sz) fun mem' => Brings none mem.tables mem'.tables :=
  unmapPages_brings _ va mem

theorem addTable_brings (hl : lvl ≠ .pt) {new : Option Nat}
    (h : addTable mem lvl k flags = .ok (new, mem')) : Brings none mem.tables mem'.tables := by
  rw [addTable] at h
  by_cases hp : mem.tables.isP lvl k = true
  · rw [if_pos hp, Except.ok.injEq, Prod.mk.injEq] at h
    rcases h with ⟨-, rfl⟩
    exact .refl _ _
  · rw [if_neg hp] at h
    cases hget : mem.frames.getPage with
    | error e => simp [hget] at h
    | ok res =>
      simp only [hget, Except.ok.injEq, Prod.mk.injEq] at h
      rcases h with ⟨-, rfl⟩
      exact brings_graft hl

theorem dropTable_brings (mem : Mem) (lvl : Level) (k : Nat) (new : Option Nat) :
    Safe AnyFault (dropTable mem lvl k new) fun mem' => Brings none mem.tables mem'.tables := by
  cases new with
  | none => exact .refl _ _
  | some f =>
    refine (Mem.free_tables _ _).mono ?_
    intro mem' htables
    rw [htables]
    exact brings_set_zero

theorem addTables_brings {lvls : List Level} (hpt : .pt ∉ lvls) (mem : Mem) :
    Safe AnyFault (addTables v flags lvls mem) fun x => Brings none mem.tables x.2.tables := by
  induction lvls generalizing mem with
  | nil => exact .refl _ _
  | cons lvl lvls ih =>
    have hl : lvl ≠ .pt := fun heq => hpt (by simp [heq])
    have hrest : .pt ∉ lvls := fun hmem => hpt (List.mem_cons_of_mem lvl hmem)
    rw [addTables]
    cases hadd : addTable mem lvl (lvl.index v) flags with
    | error e => exact .refl _ _
    | ok res =>
      rcases res with ⟨new, mem1⟩
      have h₁ := addTable_brings hl hadd
      refine (ih hrest mem1).bind ?_
      rintro ⟨ret, mem2⟩ h₂
      cases ret with
      | ok => exact h₁.trans h₂
      | err e =>
        refine (dropTable_brings mem2 lvl (lvl.index v) new).bind ?_
        exact fun mem3 h3 => (h₁.trans h₂).trans h3

theorem map_brings (mem : Mem) (f v : Nat) (flags : BitVec 64) :
    Safe AnyFault (map mem f v flags) fun x => Brings (some v) mem.tables x.2.tables := by
  rw [map]
  by_cases hps : has flags PTE_PS = true
  · rw [if_pos hps]
    exact .refl _ _
  · rw [if_neg hps]
    refine (addTables_brings (by decide) mem).bind ?_
    rintro ⟨ret, mem1⟩ h₁
    cases ret with
    | err e => exact h₁.some
    | ok =>
      refine h₁.some.trans ?_
      rw [installPte]
      split_ifs
      · exact brings_set_page
      · exact .refl _ _

theorem mapN_brings (mem : Mem) (va flags : BitVec 64) :
    Safe AnyFault (mapN mem va PGSZ flags) fun x =>
      Brings (some (vpn va)) mem.tables x.2.tables := by
  rw [mapN_one]
  cases mem.frames.getPage with
  | error e => exact .refl _ _
  | ok res =>
    rcases res with ⟨f, fr⟩
    exact map_brings (mem.withFrames fr) f (vpn va) _

end Paging

/-! ## The page cache leaves the tables alone -/

section Handlers

variable {env : FsEnv} {held : Held} {vmr : Region} {fault : PagefaultDesc} {k k' : Kern} {ip : Nat}
  {offset size : BitVec 64}

theorem pagePut_tables (k : Kern) (f : Nat) :
    Safe AnyFault (pagePut k f) fun k' => k'.tables = k.tables := by
  refine Safe.any ?_
  intro k' h
  rcases bind_ok_iff.1 h with ⟨⟨err, fr⟩, -, h⟩
  rcases bind_ok_iff.1 h with ⟨-, -, heq⟩
  cases heq
  rfl

theorem icacheGetpage_tables (env : FsEnv) (locked : Bool) (ip pgno : Nat) (k : Kern) :
    Safe AnyFault (icacheGetpage env locked ip pgno k) fun x => x.2.tables = k.tables := by
  rw [icacheGetpage]
  by_cases hcache : env.hasCache ip = true
  · rw [if_pos hcache]
    refine Safe.bind (P := fun _ => True) (Safe.any fun _ _ => trivial) ?_
    intro _ _
    cases k.cache ip pgno with
    | some f => rfl
    | none =>
      cases k.frames.getPage with
      | error e => rfl
      | ok res =>
        rcases res with ⟨f, fr⟩
        simp only
        cases hupdate : icacheUpdate env ip pgno f (k.withMem (k.withFrames fr)) with
        | mk ret k₁ =>
          have htables : k₁.tables = k.tables := by
            rcases icacheUpdate_cases hupdate with ⟨-, hwaited⟩ | ⟨k2, -, hwaited, rfl⟩
            · exact hwaited.tables
            · exact hwaited.tables
          cases ret with
          | ok => exact htables
          | err e =>
            refine (pagePut_tables k₁ f).bind ?_
            exact fun k2 hk2 => hk2.trans htables
  · rw [if_neg hcache]
    rfl

theorem icacheRead_tables (env : FsEnv) (ip n offset sz : Nat) (k : Kern) :
    Safe AnyFault (icacheRead env ip n offset sz k) fun x => x.2.tables = k.tables := by
  induction n generalizing offset sz k with
  | zero => rfl
  | succ n ih =>
    rw [icacheRead]
    by_cases hsz : sz = 0
    · rw [if_pos hsz]
      rfl
    · rw [if_neg hsz]
      refine (icacheGetpage_tables env true ip (offset / 4096) k).bind ?_
      rintro ⟨page, k₁⟩ hpage
      cases page with
      | error e => exact hpage
      | ok f =>
        have hcopy := memcpyPage_waited env.toEnv (min (4096 - offset % 4096) sz) k₁
        simp only
        generalize memcpyPage env.toEnv (min (4096 - offset % 4096) sz) k₁ = res at hcopy ⊢
        rcases res with ⟨err, k2⟩
        have htables : k2.tables = k.tables := hcopy.tables.trans hpage
        cases err with
        | err e => exact htables
        | ok => exact (ih _ _ k2).mono fun x hx => hx.trans htables

theorem iread_tables (env : FsEnv) (held : Held) (ip : Nat) (offset sz : BitVec 64) (k : Kern) :
    Safe AnyFault (iread env held ip offset sz k) fun x => x.2.tables = k.tables := by
  rw [iread]
  by_cases hcache : env.hasCache ip = true
  · rw [if_pos hcache]
    refine Safe.bind (P := fun _ => True) (Safe.any fun _ _ => trivial) ?_
    intro _ _
    exact icacheRead_tables env ip _ _ _ k
  · rw [if_neg hcache]
    cases env.readData k.ticks <;> rfl

/-! ## The handlers of page faults -/

theorem onMem_mapN_brings (k : Kern) (va flags : BitVec 64) :
    Safe AnyFault (onMem k (mapN k.toMem va PGSZ flags)) fun x =>
      Brings (some (vpn va)) k.tables x.2.tables :=
  (mapN_brings k.toMem va flags).bind fun _ hx => hx

theorem loadPrivate_brings (k : Kern) :
    Safe AnyFault (loadPrivate env held vmr ip fault offset size k) fun x =>
      Brings (some (vpn fault.addr)) k.tables x.2.tables := by
  rw [loadPrivate]
  refine (onMem_mapN_brings k fault.addr (privateFlags vmr)).bind ?_
  rintro ⟨ret, k₁⟩ hmap
  cases ret with
  | err e => exact hmap
  | ok =>
    refine (iread_tables env held ip _ _ k₁).bind ?_
    rintro ⟨ret, k2⟩ hread
    have hbrings : Brings (some (vpn fault.addr)) k.tables k2.tables :=
      hmap.trans (.of_eq hread)
    cases ret with
    | ok => exact hbrings
    | err e =>
      refine (unmapN_brings k2.toMem fault.addr PGSZ).bind ?_
      exact fun mem hmem => hbrings.trans hmem.some

theorem loadFile_brings (k : Kern) :
    Safe AnyFault (do ilock held ip; loadFile env held vmr ip fault offset size k) fun x =>
      Brings (some (vpn fault.addr)) k.tables x.2.tables := by
  rw [ilock, assert]
  by_cases hinode : held.inode ip = false
  · rw [if_pos hinode]
    change Safe AnyFault (loadFile env held vmr ip fault offset size k) _
    rw [loadFile]
    by_cases hshared : vmrShared vmr = true
    · rw [if_pos hshared]
      -- the lock of the cache is never held here, so that nothing is mapped
      have hlock : held.cache ip = false := by
        by_contra hne
        have hnested := held.nested ip (by simpa using hne)
        rw [hinode] at hnested
        exact absurd hnested (by simp)
      refine (loadShared_safe hlock).mono ?_
      intro x hx
      rw [hx]
      exact .refl _ _
    · rw [if_neg hshared]
      exact loadPrivate_brings k
  · rw [if_neg hinode]
    exact trivial

theorem loadPageFromFile_brings (k : Kern) :
    Safe AnyFault (loadPageFromFile env held vmr fault offset size k) fun x =>
      Brings (some (vpn fault.addr)) k.tables x.2.tables := by
  rw [loadPageFromFile]
  cases vmr.file with
  | none => exact onMem_mapN_brings k fault.addr _
  | some ip =>
    simp only
    by_cases hsize : env.igetsize ip = 0
    · rw [if_pos hsize]
      refine Safe.bind (P := fun _ => True) (Safe.any fun _ _ => trivial) ?_
      intro _ _
      exact .refl _ _
    · rw [if_neg hsize]
      exact loadFile_brings k

theorem undoCopy_brings (k : Kern) (srcpaddr : BitVec 64) (e : Errno) :
    Safe AnyFault (undoCopy fault (vpn fault.addr) srcpaddr e k) fun x =>
      Brings (some (vpn fault.addr)) k.tables x.2.tables := by
  rw [undoCopy]
  refine (unmapN_brings k.toMem fault.addr PGSZ).bind ?_
  exact fun mem hmem => hmem.some.trans brings_set_page

theorem finishCopy_brings (k : Kern) (srcpaddr : BitVec 64) :
    Safe AnyFault (finishCopy env fault (vpn fault.addr) srcpaddr k) fun x =>
      Brings (some (vpn fault.addr)) k.tables x.2.tables := by
  rw [finishCopy]
  have hcopy := memcpyPage_waited env.toEnv PGSZ.toNat k
  generalize memcpyPage env.toEnv PGSZ.toNat k = res at hcopy ⊢
  rcases res with ⟨err, k₁⟩
  have htables : k₁.tables = k.tables := hcopy.tables
  cases err with
  | err e =>
    refine (undoCopy_brings k₁ srcpaddr e).mono ?_
    intro x hx
    rwa [htables] at hx
  | ok =>
    refine Safe.bind (P := fun _ => True) (Safe.any fun _ _ => trivial) ?_
    rintro ⟨ret, fr⟩ _
    cases ret with
    | ok => exact .of_eq htables
    | err e =>
      refine (undoCopy_brings (k₁.withMem (k₁.withFrames fr)) srcpaddr e).mono ?_
      intro x hx
      have hx' : Brings (some (vpn fault.addr)) k₁.tables x.2.tables := hx
      rwa [htables] at hx'

theorem handleCowFault_brings (k : Kern) :
    Safe AnyFault (handleCowFault env vmr fault (vpn fault.addr) k) fun x =>
      Brings (some (vpn fault.addr)) k.tables x.2.tables := by
  rw [handleCowFault]
  cases k.frames.pageGetcount (frameOf (k.pte (vpn fault.addr))) with
  | error e => exact .refl _ _
  | ok pgref =>
    simp only
    by_cases hmany : 1 < pgref
    · rw [if_pos hmany, copyPageOnWrite]
      refine (onMem_mapN_brings k fault.addr _).bind ?_
      rintro ⟨ret, k₁⟩ hmap
      cases ret with
      | err e => exact hmap
      | ok => exact (finishCopy_brings k₁ _).mono fun x hx => hmap.trans hx
    · rw [if_neg hmany]
      by_cases hone : pgref = 1
      · rw [if_pos hone]
        exact brings_set_page
      · rw [if_neg hone]
        exact .refl _ _

theorem handleWritablePageFault_brings (k : Kern) :
    Safe AnyFault (handleWritablePageFault env held vmr fault offset size k) fun x =>
      Brings (some (vpn fault.addr)) k.tables x.2.tables := by
  rw [handleWritablePageFault]
  by_cases herr : has fault.errCode PTE_P = true
  · rw [if_pos herr]
    exact .refl _ _
  · rw [if_neg herr]
    cases vmr.file with
    | none => exact onMem_mapN_brings k fault.addr _
    | some ip => exact loadFile_brings k

theorem defaultPgfHandler_brings (hcow : ∀ v, fault.cow = some v → v = vpn fault.addr) (k : Kern) :
    Safe AnyFault (defaultPgfHandler env held vmr fault k) fun x =>
      Brings (some (vpn fault.addr)) k.tables x.2.tables := by
  rw [defaultPgfHandler]
  by_cases hwrite : has fault.errCode PTE_W = true
  · rw [if_pos hwrite, handleWriteFault]
    by_cases hallowed : vmrWrite vmr = true
    · rw [if_pos hallowed]
      cases hc : fault.cow with
      | none => exact handleWritablePageFault_brings k
      | some v =>
        cases vmrShared vmr with
        | true => exact handleWritablePageFault_brings k
        | false =>
          rw [hcow v hc]
          exact handleCowFault_brings k
    · rw [if_neg hallowed]
      exact .refl _ _
  · rw [if_neg hwrite, handleReadExecFault]
    by_cases hallowed : (!vmrRead vmr && !vmrExec vmr) = true
    · rw [if_pos hallowed]
      exact .refl _ _
    · rw [if_neg hallowed]
      by_cases herr : has fault.errCode PTE_P = true
      · rw [if_pos herr]
        exact .refl _ _
      · rw [if_neg herr]
        exact loadPageFromFile_brings k

end Handlers

end Arch
end XytherOS
