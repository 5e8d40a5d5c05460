import XytherOS.Arch.ForkLedger
import XytherOS.Arch.FaultLedger
import XytherOS.Mm.MmapTables

/-!
# MachineLedger — reference counts and write permissions over whole runs

The ledger of a machine has the entries of the page tables of all address spaces, their root tables
and the page caches.  Every step of the machine takes steps of the ledger, so that in every reachable
state the reference count of a mapped frame is the number of pages that map it.  A writable page has
its frame for itself unless `mmap_protect` made it writable while the frame was shared.
-/

namespace XytherOS
namespace Arch

open Mm.Mmap (State Region Call UnmapRule has bitIf PTE_P PTE_W PTE_U PTE_R PTE_X mmapLimit
  mmapFindVmrOverlap protectRange protectAllowed pteFlags protFlags mmapMapin_contents vmrAlloc_pt)
open Mm.Pmm (NPAGE PGROUND PGSZ)
open Ledger

/-! ## The ledger of a machine -/

def Machine.world (m : Machine) : World :=
  { nspaces := m.nspaces
    tables := m.tables
    root := m.root
    cache := m.cache
    hand := none
    frames := m.frames }

/-- The invariant: the page tables are tidy and the counts are right; when `strict` holds, writable
pages do not share their frames. -/
structure Machine.Good (strict : Prop) (m : Machine) : Prop where
  tidy : ∀ i, i < m.nspaces → Tidy (m.tables i) m.frames
  sound : Sound Slot.IsPage m.world.book
  isolated : strict → Isolated Slot.IsPage m.world.book

section World

variable {strict : Prop} {m m' : Machine} {i j f : Nat}

theorem Machine.world_on_mem (m : Machine) (i : Nat) : m.world.on i (m.mem i) = m.world := by
  simp only [World.on, Machine.mem, Machine.world, Function.update_eq_self]

theorem Machine.tables_store (m : Machine) (i : Nat) (s : State Mem) :
    (m.store i s).tables = Function.update m.tables i s.pt.tables := by
  funext j
  by_cases hj : j = i
  · subst hj
    simp [Machine.tables, Machine.store, State.retable]
  · simp [Machine.tables, Machine.store, hj]

theorem Machine.world_store (m : Machine) (i : Nat) (s : State Mem) :
    (m.store i s).world = m.world.on i s.pt := by
  simp only [Machine.world, Machine.tables_store, World.on]
  rfl

theorem Machine.world_storeKern (m : Machine) (i : Nat) (k : Kern) :
    (m.storeKern i k).world = m.world.onKern i k := by
  have htables : (m.storeKern i k).tables = Function.update m.tables i k.tables :=
    m.tables_store i ((m.space i).retable k.toMem)
  simp only [Machine.world, htables, World.onKern, World.on]
  rfl

theorem Machine.Good.steps (h : m.Good strict)
    (hsteps : Steps Slot.IsPage strict m.world.book m'.world.book)
    (htidy : ∀ i, i < m'.nspaces → Tidy (m'.tables i) m'.frames) : m'.Good strict := by
  refine ⟨htidy, h.sound.steps hsteps, ?_⟩
  intro hstrict
  have htrue : strict = True := eq_true hstrict
  subst htrue
  exact (h.isolated hstrict).steps h.sound hsteps

theorem Machine.Good.of_keeps {s : State Mem} (h : m.Good strict)
    (hkeeps : Keeps strict m.world i (m.mem i) s.pt) : (m.store i s).Good strict := by
  have hsound := h.sound
  have hself := m.world_on_mem i
  refine h.steps ?_ ?_
  · have hsteps := hkeeps.steps (by rwa [hself])
    rwa [hself, ← Machine.world_store] at hsteps
  · intro j hj
    rw [Machine.tables_store]
    by_cases hji : j = i
    · subst hji
      rw [Function.update_self]
      exact hkeeps.tidy
    · rw [Function.update_of_ne hji]
      exact (h.tidy j hj).congr hkeeps.zone

end World

/-! ## Calls of the region interface -/

section Calls

variable {strict : Prop} {env : MachineEnv} {m : Machine} {w : World} {i : Nat}

def Unmaps (strict : Prop) (w : World) (i : Nat) (mem mem' : Mem) : Prop :=
  Tidy mem.tables mem.frames → Keeps strict w i mem mem' ∧
    ∀ l j, mem'.tables.isP l j = true → mem.tables.isP l j = true

theorem unmaps_rule (strict : Prop) (env : MachineEnv) (hi : i < w.nspaces) :
    UnmapRule env.mmapEnv (Unmaps strict w i) where
  refl := fun _ h => ⟨.refl h, fun _ _ hp => hp⟩
  trans := by
    intro mem mem' mem'' h h' htidy
    rcases h htidy with ⟨hkeeps, hshrunk⟩
    rcases h' hkeeps.tidy with ⟨hkeeps', hshrunk'⟩
    exact ⟨hkeeps.trans hkeeps', fun l j hp => hshrunk l j (hshrunk' l j hp)⟩
  unmapN := by
    intro mem va sz
    by_cases htidy : Tidy mem.tables mem.frames
    · exact (unmapN_safe strict hi htidy).mono fun mem' h _ => h
    · exact Safe.any fun mem' _ h => absurd h htidy

theorem keeps_rule (strict : Prop) (env : MachineEnv) (hi : i < w.nspaces) :
    UnmapRule env.mmapEnv fun mem mem' => Tidy mem.tables mem.frames → Keeps strict w i mem mem' where
  refl := fun _ h => .refl h
  trans := by
    intro mem mem' mem'' h h' htidy
    exact (h htidy).trans (h' (h htidy).tidy)
  unmapN := by
    intro mem va sz
    exact ((unmaps_rule strict env hi).unmapN mem va sz).mono fun mem' h htidy => (h htidy).1

/-- The pages that the call `c` makes writable where they are present. -/
def protectedPages (s : State PageTables) (c : Call) : List Nat :=
  match c with
  | .protect addr len prot =>
    match mmapFindVmrOverlap s addr (addr + len - 1) with
    | .ok (some r) =>
      if has prot Mm.Mmap.PROT_WRITE && protectAllowed (s.region r) addr len prot then
        pagesFrom (NPAGE (protectRange (s.region r) addr len).2).toNat
          (PGROUND (protectRange (s.region r) addr len).1)
      else []
    | _ => []
  | _ => []

/-- The step `op` makes no page writable whose frame has other references: what `mmap_protect`
does not look at. -/
def Op.unshared (m : Machine) : Op → Bool
  | .call i c => decide (m.nspaces ≤ i) || (protectedPages (m.space i) c).all fun v =>
    !(m.tables i).isP .pt v || m.frames.refcnt (frameOf ((m.tables i).entry .pt v)) == 1
  | _ => true

theorem has_pteFlags_W (prot : BitVec 32)
    (h : has (PGOFF (pteFlags (protFlags prot))) PTE_W = true) :
    has prot Mm.Mmap.PROT_WRITE = true := by
  revert h
  simp only [pteFlags, protFlags]
  cases has prot Mm.Mmap.PROT_READ <;> cases has prot Mm.Mmap.PROT_WRITE <;>
    cases has prot Mm.Mmap.PROT_EXEC <;> decide

theorem unshared_of_guard {addr len : BitVec 64} {prot : BitVec 32} {r : Nat} (hi : i < m.nspaces)
    (hok : (Op.call i (.protect addr len prot)).unshared m = true)
    (hfind : mmapFindVmrOverlap (m.space i) addr (addr + len - 1) = .ok (some r))
    (hallowed : protectAllowed ((m.space i).region r) addr len prot = true)
    (hw : has (PGOFF (pteFlags (protFlags prot))) PTE_W = true) :
    Unshared (m.mem i) (pagesFrom (NPAGE (protectRange ((m.space i).region r) addr len).2).toNat
      (PGROUND (protectRange ((m.space i).region r) addr len).1)) := by
  intro v hv hp
  simp only [Op.unshared, protectedPages, hfind, has_pteFlags_W prot hw, hallowed,
    Bool.and_self, if_true, Bool.or_eq_true,
    decide_eq_true_eq, List.all_eq_true] at hok
  rcases hok with hle | hall
  · omega
  · have hpage := hall v hv
    have hp' : (m.tables i).isP .pt v = true := hp
    rw [hp'] at hpage
    have hcount : m.frames.refcnt (frameOf ((m.tables i).entry .pt v)) = 1 := by simpa using hpage
    exact hcount

theorem call_good (h : m.Good strict) (hi : i < m.nspaces) (c : Call)
    (hok : strict → (Op.call i c).unshared m = true) :
    Safe AnyFault (Mm.Mmap.call env.mmapEnv (m.active i) c) fun s => (m.store i s).Good strict := by
  have hi' : i < m.world.nspaces := hi
  refine (Mm.Mmap.call_pt (keeps_rule strict env hi') c ?_).mono ?_
  · rintro addr len prot r rfl hfind hallowed htidy
    refine mprotect_keeps hi' htidy ?_
    intro hstrict hw
    exact unshared_of_guard hi (hok hstrict) hfind hallowed hw
  · intro s hs
    exact h.of_keeps (hs (h.tidy i hi))

theorem clean_good (h : m.Good strict) (hi : i < m.nspaces) :
    Safe AnyFault (clean env m i) fun x => x.2.Good strict := by
  have hi' : i < m.world.nspaces := hi
  rw [clean]
  refine ((keeps_rule strict env hi').unmap (m.active i) 0 (mmapLimit + 1)).bind ?_
  rintro ⟨ret, s⟩ hunmap
  have hkeeps : Keeps strict m.world i (m.mem i) s.pt := hunmap (h.tidy i hi)
  cases ret with
  | err e => exact h.of_keeps hkeeps
  | ok =>
    refine (unmapFull_safe strict hi' hkeeps.tidy).bind ?_
    intro mem hmem
    exact h.of_keeps (hkeeps.trans hmem)

end Calls

/-! ## Page faults -/

section Faults

variable {strict : Prop} {env : MachineEnv} {m : Machine} {i : Nat}

theorem has_pfErrCode (t : PageTables) (addr : BitVec 64) (write user : Bool) :
    has (pfErrCode t addr write user) PTE_P = t.reached .pt (vpn addr) := by
  rw [pfErrCode]
  cases t.reached .pt (vpn addr) <;> cases write <;> cases user <;> decide

theorem vpn_lt (addr : BitVec 64) (hcan : canonical addr = true) (huser : iskernelAddr addr = false) :
    vpn addr < 2 ^ 35 := by
  rw [canonical, huser, Bool.or_false, decide_eq_true_eq, BitVec.le_def] at hcan
  have hlimit : mmapLimit.toNat = 0x7FFFFFFFFFFF := by decide
  rw [hlimit] at hcan
  rw [vpn]
  have hlt : addr.toNat / 4096 < 2 ^ 35 := by omega
  exact lt_of_le_of_lt (Nat.mod_le _ _) hlt

theorem Machine.Good.of_kern {k : Kern} (h : m.Good strict)
    (hkeeps : KernKeeps strict m.world i (m.kern i) k) : (m.storeKern i k).Good strict := by
  have hsound := h.sound
  have hself : m.world.onKern i (m.kern i) = m.world := m.world_on_mem i
  refine h.steps ?_ ?_
  · have hsteps := hkeeps.steps (by rwa [hself])
    rwa [hself, ← Machine.world_storeKern] at hsteps
  · intro j hj
    have htables : (m.storeKern i k).tables = Function.update m.tables i k.tables :=
      m.tables_store i ((m.space i).retable k.toMem)
    rw [htables]
    by_cases hji : j = i
    · subst hji
      rw [Function.update_self]
      exact hkeeps.tidy
    · rw [Function.update_of_ne hji]
      exact (h.tidy j hj).congr hkeeps.zone

theorem fault_good {held : Held} {addr : BitVec 64} {write user : Bool} (h : m.Good strict)
    (hi : i < m.nspaces) (hcan : canonical addr = true) :
    Safe AnyFault (archDoPageFault env held m i addr (pfErrCode (m.tables i) addr write user))
      fun m' => m'.Good strict := by
  have hi' : i < m.world.nspaces := hi
  rw [archDoPageFault]
  cases hkernel : iskernelAddr addr with
  | true => exact trivial
  | false =>
    rw [if_neg (by simp)]
    refine Safe.bind (P := fun x => ∀ ret k, x = some (ret, k) →
      KernKeeps strict m.world i (m.kern i) k) ?_ ?_
    · rw [handleVmrFault]
      refine Safe.bind (P := fun _ => True) (Safe.any fun _ _ => trivial) ?_
      rintro (_ | r) _
      · exact fun ret k hx => absurd hx (by simp)
      · have hr : Reported (m.kern i).tables
            ⟨addr, ((m.tables i).getmapping addr).toOption,
              pfErrCode (m.tables i) addr write user⟩ :=
          ⟨vpn_lt addr hcan hkernel, rfl, has_pfErrCode _ _ _ _⟩
        refine (defaultPgfHandler_safe strict hi' (h.tidy i hi) rfl hr).bind ?_
        intro x hx ret k heq
        cases heq
        exact hx
    · rintro (_ | ⟨ret, k⟩) hx
      · exact trivial
      · cases ret with
        | ok => exact h.of_kern (hx _ _ rfl)
        | err e => cases e <;> exact trivial

end Faults

/-! ## New address spaces -/

section Spaces

variable {strict : Prop} {env : MachineEnv} {m m' : Machine} {i f : Nat} {mem : Mem}

/-- The ledger with one more address space, which has the root table `f` and no other tables. -/
def Machine.newWorld (m : Machine) (f : Nat) (fr : Frames) : World :=
  { m.world with
    nspaces := m.nspaces + 1
    tables := Function.update m.tables m.nspaces .empty
    root := Function.update m.root m.nspaces f
    frames := fr }

theorem Machine.newWorld_entry (m : Machine) (f : Nat) (fr : Frames)
    (hempty : ∀ l k, mem.tables.isP l k = false) (l : Level) (k : Nat) :
    ((m.newWorld f fr).on m.nspaces mem).slot (.entry i l k) = m.world.slot (.entry i l k) ∧
      ((m.newWorld f fr).on m.nspaces mem).writable (.entry i l k) =
        m.world.writable (.entry i l k) := by
  by_cases hi : i = m.nspaces
  · subst hi
    refine ⟨?_, ?_⟩
    · simp [World.slot, Machine.newWorld, Machine.world, hempty]
    · cases l <;> simp [World.writable, Machine.newWorld, Machine.world, hempty]
  · have htables : ((m.newWorld f fr).on m.nspaces mem).tables i = m.world.tables i := by
      simp [World.on, Machine.newWorld, Machine.world, hi]
    have hn : ((m.newWorld f fr).on m.nspaces mem).nspaces = m.nspaces + 1 := rfl
    have hn' : m.world.nspaces = m.nspaces := rfl
    by_cases hlt : i < m.nspaces
    · have hlt' : i < m.nspaces + 1 := by omega
      refine ⟨?_, ?_⟩
      · simp only [World.slot, htables, hn, hn', hlt, hlt']
      · cases l <;> simp only [World.writable, htables, hn, hn', hlt, hlt']
    · have hlt' : ¬ i < m.nspaces + 1 := by omega
      refine ⟨?_, ?_⟩
      · simp only [World.slot, hn, hn', hlt, hlt', false_and, if_false]
      · cases l <;> simp only [World.writable, hn, hn', hlt, hlt', decide_false, Bool.false_and]

theorem Machine.book_newSpace (m : Machine) (f : Nat) (hempty : ∀ l k, mem.tables.isP l k = false)
    (hframes : mem.frames = m.frames.setRefcnt f 1) (fr : Frames) :
    ((m.newWorld f fr).on m.nspaces mem).book = m.world.book.take (.root m.nspaces) f := by
  rw [World.book, World.book, Book.take, Book.mk.injEq]
  refine ⟨?_, ?_, ?_⟩
  · funext a
    cases a with
    | entry i l k => exact (m.newWorld_entry f fr hempty l k).1
    | cache ip pgno => rfl
    | hand => rfl
    | root i =>
      by_cases hi : i = m.nspaces
      · subst hi
        simp [World.slot, Machine.newWorld, World.on]
      · by_cases hlt : i < m.nspaces
        · have hlt' : i < m.nspaces + 1 := by omega
          simp [World.slot, Machine.newWorld, World.on, Machine.world, hi, hlt, hlt']
        · have hlt' : ¬ i < m.nspaces + 1 := by omega
          simp [World.slot, Machine.newWorld, World.on, Machine.world, hi, hlt, hlt']
  · rw [World.on_frames, hframes]
    rfl
  · funext a
    cases a with
    | entry i l k => exact (m.newWorld_entry f fr hempty l k).2
    | cache ip pgno => rfl
    | hand => rfl
    | root i => rfl

theorem Machine.book_dropSpace (m : Machine) (f : Nat) (hempty : ∀ l k, mem.tables.isP l k = false)
    (fr : Frames) (ticks : Nat) :
    ({ m with frames := mem.frames.setRefcnt f (mem.frames.refcnt f - 1), ticks := ticks } :
        Machine).world.book =
      ((m.newWorld f fr).on m.nspaces mem).book.drop (.root m.nspaces) f := by
  rw [World.book, World.book, Book.drop, Book.mk.injEq]
  refine ⟨?_, rfl, ?_⟩
  · funext a
    cases a with
    | entry i l k => exact (m.newWorld_entry f fr hempty l k).1.symm
    | cache ip pgno => rfl
    | hand => rfl
    | root i =>
      by_cases hi : i = m.nspaces
      · subst hi
        simp [World.slot, Machine.world]
      · by_cases hlt : i < m.nspaces
        · have hlt' : i < m.nspaces + 1 := by omega
          simp [World.slot, Machine.newWorld, World.on, Machine.world, hi, hlt, hlt']
        · have hlt' : ¬ i < m.nspaces + 1 := by omega
          simp [World.slot, Machine.newWorld, World.on, Machine.world, hi, hlt, hlt']
  · funext a
    cases a with
    | entry i l k => exact (m.newWorld_entry f fr hempty l k).2.symm
    | cache ip pgno => rfl
    | hand => rfl
    | root i =>
      by_cases hi : i = m.nspaces
      · subst hi
        rw [Function.update_self]
        rfl
      · rw [Function.update_of_ne (by simpa using hi)]
        rfl

structure Grew (m m' : Machine) : Prop where
  nspaces : m'.nspaces = m.nspaces + 1
  space : ∀ i, i < m.nspaces → m'.space i = m.space i
  fresh : ∀ l k, (m'.tables m.nspaces).isP l k = false

structure Allocated (strict : Prop) (m : Machine) (f : Nat) (mem : Mem) : Prop where
  zone : m.frames.SameZone mem.frames
  contains : mem.frames.Contains f
  empty : ∀ l k, mem.tables.isP l k = false
  tidy : Tidy mem.tables mem.frames
  steps : Steps Slot.IsPage strict m.world.book ((m.newWorld f m.frames).on m.nspaces mem).book

theorem Allocated.free (h : Allocated strict m f mem) (hgood : m.Good strict) (ticks : Nat) :
    Safe AnyFault (mem.frames.free f) fun fr =>
      ({ m with frames := fr, ticks := ticks } : Machine).Good strict := by
  refine (Frames.free_safe h.contains).mono ?_
  rintro fr rfl
  refine hgood.steps ?_ ?_
  · rw [m.book_dropSpace f h.empty m.frames ticks]
    refine h.steps.tail (.drop _ _ ?_)
    simp [World.book, World.slot, Machine.newWorld, World.on]
  · intro i hi
    exact (hgood.tidy i hi).congr (h.zone.trans (Frames.sameZone_setRefcnt _ _ _))

theorem Machine.tables_add (m : Machine) (f : Nat) (s : State Mem) :
    (m.add f s).tables = Function.update m.tables m.nspaces s.pt.tables :=
  m.tables_store m.nspaces s

theorem Allocated.add {s : State Mem} (h : Allocated strict m f s.pt) (hgood : m.Good strict) :
    (m.add f s).Good strict ∧ Grew m (m.add f s) := by
  have hworld : (m.add f s).world = (m.newWorld f m.frames).on m.nspaces s.pt := by
    simp only [Machine.world, Machine.tables_add, World.on, Machine.newWorld, Function.update_idem]
    rfl
  refine ⟨hgood.steps ?_ ?_, rfl, ?_, ?_⟩
  · rw [hworld]
    exact h.steps
  · intro i hi
    rw [m.tables_add]
    by_cases hin : i = m.nspaces
    · subst hin
      rw [Function.update_self]
      exact h.tidy
    · rw [Function.update_of_ne hin]
      have hi' : i < m.nspaces + 1 := hi
      exact (hgood.tidy i (by omega)).congr h.zone
  · intro i hi
    exact Function.update_of_ne (Nat.ne_of_lt hi) _ _
  · intro l k
    rw [m.tables_add, Function.update_self]
    exact h.empty l k

theorem tidy_empty {t : PageTables} {fr : Frames} (h : ∀ l k, t.isP l k = false) : Tidy t fr := by
  have hnot : ∀ {l k}, ¬ t.isP l k = true := by
    intro l k hp
    rw [h] at hp
    exact absurd hp (by simp)
  exact ⟨fun _ _ _ _ hp => absurd hp hnot, fun _ _ hp => absurd hp hnot,
    fun _ hp => absurd hp hnot, fun _ hp => absurd hp hnot⟩

theorem allocated_root {ticks : Nat} {fr : Frames}
    (hget : m.frames.getPage = .ok (f, fr)) : Allocated strict m f ⟨.empty, fr, ticks⟩ := by
  rcases Frames.getPage_ok hget with ⟨hzone, hfree, rfl⟩
  have hempty : ∀ l k, PageTables.empty.isP l k = false := fun _ _ => by simp [PageTables.isP, PageTables.empty, has]
  refine ⟨Frames.sameZone_setRefcnt _ _ _, hzone, hempty, tidy_empty hempty, ?_⟩
  rw [m.book_newSpace f hempty rfl m.frames]
  refine .single (.take _ _ id ?_ hfree)
  simp [World.book, World.slot, Machine.world]

theorem mmapInitNew_good (hgood : m.Good strict) (h : Allocated strict m f mem) :
    Safe AnyFault (mmapInitNew env m f mem) fun x => x.2.Good strict ∧ (x.1 = .ok → Grew m x.2) := by
  have hi : m.nspaces < (m.newWorld f m.frames).nspaces := Nat.lt_succ_self _
  rw [mmapInitNew, Mm.Mmap.mmapInit]
  refine Safe.bind (P := fun x : Ret × State Mem => Allocated strict m f x.2.pt) ?_ ?_
  · refine ((unmaps_rule strict env hi).mapRegion (Mm.Mmap.mmapClean mem) _ _ _ _ _).bind ?_
    rintro ⟨ret, p, s⟩ hunmaps
    rcases hunmaps h.tidy with ⟨hkeeps, hshrunk⟩
    have hempty : ∀ l k, s.pt.tables.isP l k = false := by
      intro l k
      by_contra hne
      have hp := hshrunk l k (by simpa using hne)
      rw [show (Mm.Mmap.mmapClean mem).pt = mem from rfl, h.empty] at hp
      exact absurd hp (by simp)
    exact ⟨h.zone.trans hkeeps.zone, hkeeps.zone.contains.2 h.contains, hempty, hkeeps.tidy,
      h.steps.trans (hkeeps.steps (hgood.sound.steps h.steps))⟩
  · rintro ⟨ret, s⟩ hs
    cases ret with
    | ok =>
      rcases hs.add hgood with ⟨hg, hgrew⟩
      exact ⟨hg, fun _ => hgrew⟩
    | err e =>
      refine (hs.free hgood s.pt.ticks).bind ?_
      intro fr hfr
      exact ⟨hfr, fun hok => absurd hok (by simp)⟩

theorem Allocated.tick (h : Allocated strict m f mem) : Allocated strict m f mem.tick :=
  ⟨h.zone, h.contains, h.empty, h.tidy, h.steps⟩

theorem mmapAlloc_good (hgood : m.Good strict) :
    Safe AnyFault (mmapAlloc env m) fun x => x.2.Good strict ∧ (x.1 = .ok → Grew m x.2) := by
  rw [mmapAlloc]
  cases hget : m.frames.getPage with
  | error e => exact ⟨hgood, fun hok => absurd hok (by simp)⟩
  | ok res =>
    rcases res with ⟨f, fr⟩
    have halloc : Allocated strict m f (mount env.toEnv ⟨.empty, fr, m.ticks⟩).2 := by
      rw [mount_mem]
      exact (allocated_root hget).tick
    simp only
    generalize mount env.toEnv ⟨.empty, fr, m.ticks⟩ = res at halloc ⊢
    rcases res with ⟨ret, mem⟩
    cases ret with
    | err e =>
      refine (halloc.free hgood mem.ticks).bind ?_
      intro fr hfr
      exact ⟨hfr, fun hok => absurd hok (by simp)⟩
    | ok =>
      simp only
      by_cases hoom : env.mmapOom mem.ticks = true
      · rw [if_pos hoom]
        refine (halloc.free hgood (mem.ticks + 1)).bind ?_
        intro fr hfr
        exact ⟨hfr, fun hok => absurd hok (by simp)⟩
      · rw [if_neg hoom]
        exact mmapInitNew_good hgood halloc.tick

/-! ## Forking -/

theorem copyRegions_pt (env : MachineEnv) (src : State PageTables) (n : Nat) (p : Option Nat)
    (dst : State Mem) :
    Safe AnyFault (copyRegions env src n p dst) fun x => x.2.pt = dst.pt := by
  induction n generalizing p dst with
  | zero => exact trivial
  | succ n ih =>
    cases p with
    | none => exact rfl
    | some tmp =>
      rw [copyRegions]
      have hpt := vmrAlloc_pt env.mmapEnv dst (src.region tmp)
      generalize Mm.Mmap.vmrAlloc env.mmapEnv dst (src.region tmp) = res at hpt ⊢
      rcases res with ⟨vmr | vmr, dst1⟩
      · exact hpt
      · refine (mmapMapin_contents dst1 vmr).bind ?_
        rintro ⟨ret, dst2⟩ hsame
        have hpt2 : dst2.pt = dst.pt := hsame.pt.trans hpt
        cases ret with
        | err e => exact hpt2
        | ok => exact (ih _ dst2).mono fun x hx => hx.trans hpt2

theorem copySpecial_pt (src : State PageTables) (dst : State Mem) :
    Safe AnyFault (copySpecial src dst) fun s => s.pt = dst.pt := by
  rw [copySpecial]
  refine Safe.bind (P := fun _ => True) (Safe.any fun _ _ => trivial) fun arg _ => ?_
  refine Safe.bind (P := fun _ => True) (Safe.any fun _ _ => trivial) fun env _ => ?_
  refine Safe.bind (P := fun _ => True) (Safe.any fun _ _ => trivial) fun heap _ => ?_
  exact rfl

/-- What a successful `fork` of the address space `i` does there. -/
structure Forked (m : Machine) (i : Nat) (m' : Machine) : Prop where
  nspaces : m'.nspaces = m.nspaces + 1
  space : m'.space i = (m.space i).retable (m'.tables i)
  readonly : ∀ v, (m.tables i).isP .pt v = true →
    (m'.tables i).entry .pt v = (m.tables i).entry .pt v &&& ~~~PTE_W

/-- The machine after `x86_64_lazycpy` from the address space `i` to `j`. -/
def Machine.storeCopy (m : Machine) (i j : Nat) (dst : State Mem) (c : Copy) : Machine :=
  { m.store j (dst.retable c.mem) with
    space := Function.update (m.store j (dst.retable c.mem)).space i
      (((m.store j (dst.retable c.mem)).space i).retable c.src) }

section StoreCopy

variable {j : Nat} {dst : State Mem} {c : Copy}

theorem Machine.storeCopy_space (hij : i ≠ j) :
    (m.storeCopy i j dst c).space i = (m.space i).retable c.src := by
  simp [Machine.storeCopy, Machine.store, hij]

theorem Machine.storeCopy_tables (hij : i ≠ j) :
    (m.storeCopy i j dst c).tables =
      Function.update (Function.update m.tables i c.src) j c.mem.tables := by
  rw [Function.update_comm hij]
  funext l
  by_cases hl : l = i
  · subst hl
    rw [Function.update_self, Machine.tables, Machine.storeCopy_space hij]
    rfl
  · rw [Function.update_of_ne hl]
    refine Eq.trans ?_ (congrFun (m.tables_store j (dst.retable c.mem)) l)
    simp [Machine.tables, Machine.storeCopy, hl]

theorem Machine.storeCopy_world (hij : i ≠ j) :
    (m.storeCopy i j dst c).world = m.world.onCopy i j c := by
  simp only [Machine.world, Machine.storeCopy_tables hij, World.onCopy, World.withTables, World.on]
  rfl

theorem Machine.Good.of_copy (hgood : m.Good strict) (hij : i ≠ j)
    (hkeeps : CopyKeeps strict m.world i j ⟨m.tables i, m.mem j⟩ c) :
    (m.storeCopy i j dst c).Good strict := by
  have hself : m.world.onCopy i j ⟨m.tables i, m.mem j⟩ = m.world := by
    simp only [World.onCopy, World.withTables, World.on, Machine.mem, Machine.world,
      Function.update_eq_self]
  refine hgood.steps ?_ ?_
  · have hsound := hgood.sound
    rw [← hself] at hsound
    have hsteps := hkeeps.steps hsound
    rwa [hself, ← Machine.storeCopy_world hij] at hsteps
  · intro l hl
    rw [Machine.storeCopy_tables hij]
    by_cases hlj : l = j
    · subst hlj
      rw [Function.update_self]
      exact hkeeps.dst
    · rw [Function.update_of_ne hlj]
      by_cases hli : l = i
      · subst hli
        rw [Function.update_self]
        exact hkeeps.src
      · rw [Function.update_of_ne hli]
        exact (hgood.tidy l hl).congr hkeeps.zone

end StoreCopy

theorem mmapCopy_good {m1 : Machine} (hgood : m1.Good strict) (hgrew : Grew m m1)
    (hi : i < m.nspaces) :
    Safe AnyFault (mmapCopy env m1 m.nspaces i) fun x =>
      x.2.Good strict ∧ (x.1 = .ok → Forked m i x.2) := by
  have hj1 : m.nspaces < m1.world.nspaces := by
    change m.nspaces < m1.nspaces
    rw [hgrew.nspaces]
    exact Nat.lt_succ_self _
  have hi1 : i < m1.world.nspaces := lt_trans hi hj1
  have hij : i ≠ m.nspaces := Nat.ne_of_lt hi
  rw [mmapCopy]
  refine (copyRegions_pt env _ _ _ _).bind ?_
  rintro ⟨ret, dst⟩ hdst
  have hpt : dst.pt = m1.mem m.nspaces := hdst
  cases ret with
  | err e =>
    refine ⟨hgood.of_keeps ?_, fun hok => absurd hok (by simp)⟩
    rw [hpt]
    exact .refl (hgood.tidy _ hj1)
  | ok =>
    refine (copySpecial_pt (m1.space i) dst).bind ?_
    intro dst1 hdst1
    have hpt1 : dst1.pt = m1.mem m.nspaces := hdst1.trans hpt
    rw [hpt1]
    have hsrc : Tidy (⟨m1.tables i, m1.mem m.nspaces⟩ : Copy).src m1.frames := hgood.tidy i hi1
    refine (lazycpy_safe strict hi1 hj1 hij hsrc (hgood.tidy _ hj1) (hgrew.fresh .pt)).bind ?_
    rintro ⟨err, c⟩ ⟨hkeeps, hreadonly⟩
    change (m1.storeCopy i m.nspaces dst1 c).Good strict ∧
      (err = .ok → Forked m i (m1.storeCopy i m.nspaces dst1 c))
    refine ⟨hgood.of_copy hij hkeeps, fun hok => ⟨hgrew.nspaces, ?_, ?_⟩⟩
    · have htables : (m1.storeCopy i m.nspaces dst1 c).tables i = c.src := by
        rw [Machine.storeCopy_tables hij, Function.update_of_ne hij, Function.update_self]
      rw [Machine.storeCopy_space hij, hgrew.space i hi, htables]
    · intro v hp
      have hold : m1.tables i = m.tables i := congrArg (fun s => s.pt) (hgrew.space i hi)
      rw [Machine.storeCopy_tables hij, Function.update_of_ne hij, Function.update_self, ← hold]
      exact hreadonly hok v (hold.symm ▸ hp)

theorem fork_good (hgood : m.Good strict) (hi : i < m.nspaces) :
    Safe AnyFault (fork env m i) fun x => x.2.Good strict ∧ (x.1 = .ok → Forked m i x.2) := by
  rw [fork]
  refine (mmapAlloc_good hgood).bind ?_
  rintro ⟨ret, m1⟩ ⟨hgood1, hgrew⟩
  cases ret with
  | err e => exact ⟨hgood1, fun hok => absurd hok (by simp)⟩
  | ok =>
    have hj : m1.nspaces - 1 = m.nspaces := by
      rw [(hgrew rfl).nspaces]
      rfl
    simp only [hj]
    exact mmapCopy_good hgood1 (hgrew rfl) hi

/-! ## Steps and runs -/

theorem boot_good (fr : Frames) : (Machine.boot fr).Good strict := by
  have hslot : ∀ a, (Machine.boot fr).world.book.slot a = none := by
    intro a
    cases a with
    | entry i l k => simp [World.book, World.slot, Machine.world, Machine.boot]
    | root i => simp [World.book, World.slot, Machine.world, Machine.boot]
    | cache ip pgno => rfl
    | hand => rfl
  refine ⟨fun i hi => absurd hi (Nat.not_lt_zero i), ⟨?_, ?_, ?_⟩, fun _ => ⟨?_, ?_⟩⟩
  · simp [hslot]
  · intro a f ha
    simp [hslot] at ha
  · intro a _ f ha
    simp [hslot] at ha
  · intro a _ f ha
    simp [hslot] at ha
  · intro a ha
    have hw : (Machine.boot fr).world.book.writable a = false := by
      cases a with
      | entry i l k =>
        cases l <;> simp [World.book, World.writable, Machine.world, Machine.boot]
      | root i => rfl
      | cache ip pgno => rfl
      | hand => rfl
    rw [hw] at ha
    exact absurd ha (by simp)

theorem step_good (hgood : m.Good strict) (op : Op) (hok : strict → op.unshared m = true) :
    Safe AnyFault (step env m op) (Machine.Good strict) := by
  have hstepIn : ∀ {i : Nat} {x : Except Fault Machine},
      (i < m.nspaces → Safe AnyFault x (Machine.Good strict)) →
      Safe AnyFault (stepIn m i x) (Machine.Good strict) := by
    intro i x hx
    rw [stepIn]
    by_cases hi : i < m.nspaces
    · rw [if_pos hi]
      exact hx hi
    · rw [if_neg hi]
      exact hgood
  cases op with
  | create => exact (mmapAlloc_good hgood).bind fun x hx => hx.1
  | fork i => exact hstepIn fun hi => (fork_good hgood hi).bind fun x hx => hx.1
  | call i c => exact hstepIn fun hi => (call_good hgood hi c hok).bind fun s hs => hs
  | clean i => exact hstepIn fun hi => (clean_good hgood hi).bind fun x hx => hx
  | fault i addr write user held =>
    refine hstepIn fun hi => ?_
    by_cases hcan : canonical addr = true
    · rw [if_pos hcan]
      exact fault_good hgood hi hcan
    · rw [if_neg hcan]
      exact hgood

theorem run_good {fr : Frames} {ops : List Op} (hrun : run env (.boot fr) ops = .ok m) :
    m.Good False := by
  have hsafe : Safe AnyFault (run env (.boot fr) ops) (Machine.Good False) :=
    Safe.runs (fun m op hm _ => step_good hm op False.elim) (boot_good fr)
      (guarded_true (step env) _ ops)
  exact hsafe.of_eq_ok hrun

end Spaces

/-! ## Reference counts -/

section Counts

variable {strict : Prop} {env : MachineEnv} {m : Machine} {fr : Frames} {ops : List Op} {i v f : Nat}

theorem Machine.Good.maps_iff (hgood : m.Good strict) :
    m.Maps i v f ↔ m.world.book.slot (.entry i .pt v) = some f := by
  have hslot : m.world.book.slot (.entry i .pt v) =
      if i < m.nspaces ∧ (m.tables i).isP .pt v = true then
        some (frameOf ((m.tables i).entry .pt v)) else none := rfl
  rw [Machine.Maps, hslot]
  by_cases hi : i < m.nspaces
  · rw [PageTables.reached_eq_isP (hgood.tidy i hi)]
    by_cases hp : (m.tables i).isP .pt v = true
    · simp [hi, hp]
    · simp [hp]
  · simp [hi]

end Counts

instance (m : Machine) (i v f : Nat) : Decidable (m.Maps i v f) :=
  inferInstanceAs (Decidable (_ ∧ _ ∧ _))

instance (m : Machine) (i v f : Nat) : Decidable (m.MapsWritable i v f) :=
  inferInstanceAs (Decidable (_ ∧ _))

def smallFrames : Frames := ⟨0x1000, 24, fun _ => 0, by decide, by decide⟩

def smallEnv : MachineEnv :=
  { mount := fun _ => none
    igetsize := fun _ => 0
    hasCache := fun _ => true
    readData := fun _ => .ok 0
    insert := fun _ => none
    vmrOom := fun _ => false
    mmapOom := fun _ => false }

/-- A process maps a page at `0x2000000` with the permissions `prot`, faults it in and forks. -/
def forkOps (prot flags : BitVec 32) (write : Bool) : List Op :=
  [.create, .call 0 (.mapRegion 0x2000000 0x1000 prot (Mm.Mmap.MAP_FIXED ||| flags) true),
    .fault 0 0x2000000 write true .none, .fork 0]

def reachedBy (ops : List Op) : Machine :=
  outcome (run smallEnv (.boot smallFrames) ops) (.boot smallFrames)

def privateOps : List Op :=
  forkOps (Mm.Mmap.PROT_READ ||| Mm.Mmap.PROT_WRITE) Mm.Mmap.MAP_PRIVATE true

section Isolation

variable {env : MachineEnv} {m : Machine} {fr : Frames} {ops : List Op}

/-- In every run whose steps make no page writable that shares its frame, the frame of a writable
page is mapped by no other page of any address space. -/
theorem writable_pages_isolated (env : MachineEnv) (fr : Frames) (ops : List Op) (m : Machine)
    (hrun : run env (.boot fr) ops = .ok m)
    (hguard : guarded (step env) (fun m op => op.unshared m) (.boot fr) ops = true)
    (i v j u f : Nat) (hw : m.MapsWritable i v f) (hmaps : m.Maps j u f) : j = i ∧ u = v := by
  have hsafe : Safe AnyFault (run env (.boot fr) ops) (Machine.Good True) :=
    Safe.runs (fun m op hm hok => step_good hm op fun _ => hok) (boot_good fr) hguard
  have hgood : m.Good True := hsafe.of_eq_ok hrun
  rcases hw with ⟨hmaps', hbit⟩
  have hwritable : m.world.book.writable (.entry i .pt v) = true := by
    have hp : (m.tables i).isP .pt v = true := by
      rw [← PageTables.reached_eq_isP (hgood.tidy i hmaps'.1)]
      exact hmaps'.2.1
    have hlt : i < m.world.nspaces := hmaps'.1
    have hp' : (m.world.tables i).isP .pt v = true := hp
    have hbit' : has ((m.world.tables i).entry .pt v) PTE_W = true := hbit
    simp [World.book, World.writable, hlt, hp', hbit']
  by_contra hne
  have hne' : Slot.entry j .pt u ≠ .entry i .pt v := by
    intro heq
    simp only [Slot.entry.injEq, true_and] at heq
    exact hne heq
  exact (hgood.isolated trivial).alone _ hwritable f (hgood.maps_iff.1 hmaps') _ hne'
    (hgood.maps_iff.1 hmaps)

end Isolation

/-- After the fork both processes write, and each gets a page of its own. -/
def bothWriteOps : List Op :=
  privateOps ++ [.fault 1 0x2000000 true true .none, .fault 0 0x2000000 true true .none]

theorem writable_pages_isolated_both :
    (reachedBy bothWriteOps).MapsWritable 0 0x2000 0x1001 ∧
      ¬ (reachedBy bothWriteOps).Maps 1 0x2000 0x1001 :=
  have hw : (reachedBy bothWriteOps).MapsWritable 0 0x2000 0x1001 := by decide +kernel
  ⟨hw, fun hmaps => absurd (writable_pages_isolated smallEnv smallFrames bothWriteOps _
    (eq_ok_outcome (by decide +kernel)) (by decide +kernel) 0 0x2000 1 0x2000 0x1001 hw hmaps).1
    (by decide)⟩

/-- After the fork of a page that is only read, the child makes its region writable. -/
def childProtectsOps : List Op :=
  forkOps Mm.Mmap.PROT_READ Mm.Mmap.MAP_PRIVATE false ++
    [.call 1 (.protect 0x2000000 0x1000 (Mm.Mmap.PROT_READ ||| Mm.Mmap.PROT_WRITE))]

/-- The child may write to the frame that the parent still maps. -/
theorem protect_breaks_isolation :
    ∃ m, run smallEnv (.boot smallFrames) childProtectsOps = .ok m ∧
      m.MapsWritable 1 0x2000 0x1001 ∧ m.Maps 0 0x2000 0x1001 ∧
      ∃ r, Mm.Mmap.mmapFind (m.space 1) 0x2000000 = .ok (some r) ∧
        vmrShared ((m.space 1).region r) = false := by
  refine ⟨reachedBy childProtectsOps, eq_ok_outcome (by decide +kernel), by decide +kernel,
    by decide +kernel, ?_⟩
  have hfind : (Mm.Mmap.mmapFind ((reachedBy childProtectsOps).space 1) 0x2000000).toOption.map
      (fun r => r.map fun r => vmrShared (((reachedBy childProtectsOps).space 1).region r)) =
      some (some false) := by
    decide +kernel
  rcases ok_of_toOption hfind with ⟨_ | r, hok, hshared⟩
  · exact absurd hshared (by simp)
  · exact ⟨r, hok, by simpa using hshared⟩

end Arch
end XytherOS
