import XytherOS.Arch.MachineLedger
import XytherOS.Mm.MmapAccount
import XytherOS.Mm.MmapAddresses
import XytherOS.Mm.Sbrk

/-!
# Clone — what `mmap_clone` copies

`mmap_clone` makes an address space, drops the region that `mmap_init` has put there, and maps in a
copy of every region of the source; the special regions are found again by their addresses.  The
break is not copied: the new address space keeps the 0 of `mmap_clean`.  Copying the page tables
takes the write permission away in the source too, which is how copy-on-write works; the regions
and counters of the source stay as they are.
-/

namespace XytherOS
namespace Mm
namespace Mmap

open Function Links Spans

/-! ## Copies of an address space -/

/-- A well-formed address space with the regions `v`: `refs` counts them, and the special regions
are among them. -/
structure Consistent {π : Type} (s : State π) (v : View) : Prop extends Rel s v where
  refs : s.refs = v.length
  heap : ∀ p ∈ s.heap, p ∈ ids v
  arg : ∀ p ∈ s.arg, p ∈ ids v
  env : ∀ p ∈ s.env, p ∈ ids v

def State.special {π : Type} (s : State π) : Option Nat → Bool
  | none => true
  | some p => (mmapContains s p).toOption == some true

theorem Rel.special_iff {π : Type} {s : State π} {v : View} (h : Rel s v) {x : Option Nat} :
    s.special x = true ↔ ∀ p ∈ x, p ∈ ids v := by
  cases x with
  | none => simp [State.special]
  | some p => simp [State.special, h.contains_eq, Except.toOption]

theorem Rel.consistent {π : Type} {s : State π} {v : View} (h : Rel s v)
    (hrefs : s.refs = s.regions.length) (hheap : s.special s.heap = true)
    (harg : s.special s.arg = true) (henv : s.special s.env = true) : Consistent s v := by
  refine ⟨h, ?_, h.special_iff.1 hheap, h.special_iff.1 harg, h.special_iff.1 henv⟩
  rw [hrefs, h.regions_eq, List.length_map]

def Region.key (r : Region) :
    BitVec 64 × BitVec 64 × BitVec 64 × BitVec 64 × Option Nat × BitVec 64 :=
  (r.start, r.endAddr, r.flags, r.vflags, r.file, r.filePos)

/-- The region pointer `y` of `dst` is null if `x` of `src` is, and otherwise points to a region of
`dst` with the bounds of that of `src`. -/
def SameBounds {α β : Type} (src : State α) (dst : State β) : Option Nat → Option Nat → Prop
  | none, none => True
  | some x, some y =>
    mmapContains dst y = .ok true ∧ (dst.region y).start = (src.region x).start ∧
      (dst.region y).endAddr = (src.region x).endAddr
  | _, _ => False

/-- `dst` is a faithful copy of `src`, which is `src'` afterwards; `limit` and `guard` are the same
for all address spaces. -/
structure ClonedFrom {π : Type} (src src' dst : State π) : Prop where
  regions : dst.regions.map Region.key = src.regions.map Region.key
  refs : dst.refs = src.refs
  usedSpace : dst.usedSpace = (dst.regions.map Region.size).sum
  heap : SameBounds src dst src.heap dst.heap
  arg : SameBounds src dst src.arg dst.arg
  env : SameBounds src dst src.env dst.env
  brk : dst.brk = src.brk
  source : src' = src.retable src'.pt

/-- The regions of `dst` are copies of `v`, and its break is 0. -/
structure CopyOf {π : Type} (dst : State π) (w v : View) : Prop where
  listed : Listed dst w
  accounted : Accounted dst w
  regions : w.map Prod.snd = v.map Prod.snd
  brk : dst.brk = 0

section CopyOf

variable {α β : Type} {src : State α} {dst : State β} {v w : View}

theorem CopyOf.retable {γ : Type} (h : CopyOf dst w v) (pt : γ) : CopyOf (dst.retable pt) w v :=
  ⟨h.listed.retable pt, ⟨h.accounted.refs, h.accounted.usedSpace⟩, h.regions, h.brk⟩

theorem CopyOf.exists_copy (h : CopyOf dst w v) {p : Nat} {r : Region} (hp : (p, r) ∈ v) :
    ∃ q, (q, r) ∈ w := by
  have hr : r ∈ w.map Prod.snd := by
    rw [h.regions]
    exact List.mem_map_of_mem hp
  rcases List.mem_map.1 hr with ⟨⟨q, r'⟩, hq, rfl⟩
  exact ⟨q, hq⟩

theorem CopyOf.exists_source (h : CopyOf dst w v) {e : Nat × Region} (he : e ∈ w) :
    ∃ p, (p, e.2) ∈ v := by
  have hr : e.2 ∈ v.map Prod.snd := by
    rw [← h.regions]
    exact List.mem_map_of_mem he
  rcases List.mem_map.1 hr with ⟨⟨p, r⟩, hp, rfl⟩
  exact ⟨p, hp⟩

end CopyOf

end Mmap
end Mm

namespace Arch

open Function Mm.Mmap

/-! ## `mmap_clone` -/

def mmapFree (env : MachineEnv) (m : Machine) (j : Nat) : Except Fault Machine := do
  let (_, m) ← clean env m j
  if (m.space j).refs ≤ 0 then
    let frames ← m.frames.free (m.root j)
    return { m with frames := frames, nspaces := m.nspaces - 1 }
  else
    return m

def mmapClone (env : MachineEnv) (m : Machine) (i : Nat) : Except Fault (Ret × Machine) := do
  match ← mmapAlloc env m with
  | (.err e, m) => return (.err e, m)
  | (.ok, m) =>
    match ← mmapCopy env m (m.nspaces - 1) i with
    | (.err e, m) => do
        let m ← mmapFree env m (m.nspaces - 1)
        return (.err e, m)
    | (.ok, m) => return (.ok, m)

section Copy

variable {env : MachineEnv} {src : State PageTables} {v v₁ v₂ w : View} {dst : State Mem}

theorem copyRegion_spec {e : Nat × Region} (hsrc : Listed src (v₁ ++ e :: v₂))
    (h : CopyOf dst w v₁) {q : Nat} {dst1 : State Mem} (ha : Mm.Mmap.Allocated dst dst1 q e.2) :
    ∃ dst2, mmapMapin dst1 q = .ok (.ok, dst2) ∧ CopyOf dst2 (w ++ [(q, e.2)]) (v₁ ++ [e]) := by
  have hw : Listed dst1 (w ++ []) := by
    rw [List.append_nil]
    exact ha.listed h.listed
  have hb := hsrc.bounds (e := e) (by simp)
  have hq : q ∉ ids (w ++ []) := by
    rw [List.append_nil, ha.eq]
    exact h.listed.allocs_not_mem
  have hfit : Fits dst1 q e.2 w [] := by
    refine ⟨hq, ha.lt, ha.region_self, hb.1, hb.2, ?_, by simp⟩
    intro e' he'
    rcases h.exists_source he' with ⟨p, hp⟩
    have hlt := hsrc.around.2.1 (p, e'.2) hp
    exact hlt
  rcases hw.mapin_fits hfit (fun _ => rfl) (fun _ => ha.links) with ⟨dst2, hmapin, hins⟩
  have hacc1 : Accounted dst1 (w ++ []) := by
    rw [List.append_nil]
    exact h.accounted.congr ha.account
  have hbrk : dst2.brk = 0 :=
    calc
      dst2.brk = (dst1.toAccount.grown e.2).brk := by rw [hins.account]
      _ = dst1.toAccount.brk := rfl
      _ = dst.brk := by rw [ha.account]
      _ = 0 := h.brk
  refine ⟨dst2, hmapin, hins.listed, hacc1.grown hins.account, ?_, hbrk⟩
  simp [h.regions]

/-- The loop: by induction on the regions that are left. -/
theorem copyRegions_spec (hsrc : Listed src (v₁ ++ v₂)) {n : Nat} (hn : v₂.length < n)
    (h : CopyOf dst w v₁) :
    Safe AnyFault (copyRegions env src n (ids v₂).head? dst) fun x =>
      x.1 = .ok → ∃ w', CopyOf x.2 w' (v₁ ++ v₂) := by
  induction v₂ generalizing v₁ w dst n with
  | nil =>
    obtain ⟨n, rfl⟩ : ∃ k, n = k + 1 := ⟨n - 1, by omega⟩
    rw [List.append_nil]
    exact fun _ => ⟨w, h⟩
  | cons e v₂ ih =>
    obtain ⟨n, rfl⟩ : ∃ k, n = k + 1 := ⟨n - 1, by omega⟩
    have hreg : src.region e.1 = e.2 := hsrc.region e (by simp)
    have hnext : (src.mem e.1).next = (ids v₂).head? := hsrc.links_at.1
    rw [ids_cons, List.head?_cons, copyRegions, hreg, hnext]
    rcases vmrAlloc_cases env.mmapEnv dst e.2 with ⟨dst1, heq, -⟩ | ⟨q, dst1, heq, ha⟩
    · rw [heq]
      exact fun hok => absurd hok (by simp)
    · rcases copyRegion_spec hsrc h ha with ⟨dst2, hmapin, h₂⟩
      rw [heq]
      simp only [hmapin, ok_bind]
      rw [List.append_cons] at hsrc ⊢
      exact ih hsrc (by simpa using hn) h₂

theorem findCopy_spec (hsrc : Listed src v) (h : CopyOf dst w v) {x : Option Nat}
    (hx : ∀ p ∈ x, p ∈ ids v) : ∃ y, findCopy src dst x = .ok y ∧ SameBounds src dst x y := by
  cases x with
  | none => exact ⟨none, rfl, trivial⟩
  | some p =>
    rcases exists_of_mem_ids (hx p rfl) with ⟨r, hr⟩
    rcases h.exists_copy hr with ⟨q, hq⟩
    have hpr : src.region p = r := hsrc.region _ hr
    have hqr : dst.region q = r := h.listed.region _ hq
    have hb := h.listed.bounds hq
    have hmem := mem_ids_of_mem hq
    rcases List.append_of_mem hq with ⟨w₁, w₂, hw⟩
    refine ⟨some q, ?_, ?_⟩
    · have hlisted := h.listed
      rw [hw] at hlisted
      rw [findCopy, hpr]
      exact hlisted.find_at (BitVec.le_refl _) hb.1
    · exact ⟨by rw [h.listed.contains_eq, decide_eq_true hmem], by rw [hqr, hpr], by rw [hqr, hpr]⟩

theorem copySpecial_spec (hsrc : Consistent src v) (h : CopyOf dst w v) :
    Safe AnyFault (copySpecial src dst) fun dst' =>
      CopyOf dst' w v ∧ SameBounds src dst' src.heap dst'.heap ∧
        SameBounds src dst' src.arg dst'.arg ∧ SameBounds src dst' src.env dst'.env := by
  rcases findCopy_spec hsrc.toListed h hsrc.arg with ⟨arg, harg, hargs⟩
  rcases findCopy_spec hsrc.toListed h hsrc.env with ⟨envp, henv, henvs⟩
  rcases findCopy_spec hsrc.toListed h hsrc.heap with ⟨heap, hheap, hheaps⟩
  rw [copySpecial, harg, ok_bind, henv, ok_bind, hheap, ok_bind]
  have hl := h.listed
  refine ⟨⟨?_, ⟨h.accounted.refs, h.accounted.usedSpace⟩, h.regions, h.brk⟩, ?_, ?_, ?_⟩
  · exact ⟨hl.chain, hl.head, hl.tail, hl.alloc, hl.region, hl.ascending, hl.limit⟩
  · exact hheaps
  · exact hargs
  · exact henvs

end Copy

/-! ## The whole clone -/

section Clone

variable {env : MachineEnv} {m : Machine} {i : Nat} {v w : View}

structure NewSpace (m m' : Machine) : Prop where
  nspaces : m'.nspaces = m.nspaces + 1
  space : ∀ l, l < m.nspaces → m'.space l = m.space l
  consistent : ∃ q, Consistent (m'.space m.nspaces) [(q, nullRegion)]
  brk : (m'.space m.nspaces).brk = 0

theorem newSpace_of_init {f : Nat} {mem : Mem} {s : State Mem}
    (hinit : mmapInit env.mmapEnv mem = .ok (.ok, s)) : NewSpace m (m.add f s) := by
  have hspace : (m.add f s).space m.nspaces = s.retable s.pt.tables := update_self ..
  rcases mmapInit_rel hinit with ⟨q, hrel, hacc⟩
  have hrefs : s.refs = 1 := congrArg Account.refs hacc
  have hheap : s.heap = none := congrArg Account.heap hacc
  have harg : s.arg = none := congrArg Account.arg hacc
  have henv : s.env = none := congrArg Account.env hacc
  have hbrk : s.brk = 0 := congrArg Account.brk hacc
  refine ⟨rfl, fun l hl => update_of_ne (Nat.ne_of_lt hl) _ _, ⟨q, ?_⟩, ?_⟩
  · rw [hspace]
    refine ⟨hrel.retable _, hrefs, ?_, ?_, ?_⟩
    · exact fun p hp => absurd (hheap.symm.trans hp) (by simp)
    · exact fun p hp => absurd (harg.symm.trans hp) (by simp)
    · exact fun p hp => absurd (henv.symm.trans hp) (by simp)
  · rw [hspace]
    exact hbrk

theorem mmapAlloc_newSpace (env : MachineEnv) (m : Machine) :
    Safe AnyFault (mmapAlloc env m) fun x => x.1 = .ok → NewSpace m x.2 := by
  refine Safe.any ?_
  rintro ⟨ret, m1⟩ heq hok
  cases hok
  rw [mmapAlloc] at heq
  cases hget : m.frames.getPage with
  | error e =>
    rw [hget] at heq
    cases heq
  | ok res =>
    rcases res with ⟨f, fr⟩
    rw [hget] at heq
    simp only at heq
    generalize mount env.toEnv ⟨.empty, fr, m.ticks⟩ = res at heq
    rcases res with ⟨_ | e, mem⟩
    · simp only at heq
      by_cases hoom : env.mmapOom mem.ticks = true
      · rw [if_pos hoom] at heq
        rcases bind_ok_iff.1 heq with ⟨fr', -, hret⟩
        cases hret
      · rw [if_neg hoom, mmapInitNew] at heq
        rcases bind_ok_iff.1 heq with ⟨⟨ret, s⟩, hinit, hret⟩
        cases ret with
        | ok =>
          cases hret
          exact newSpace_of_init hinit
        | err e =>
          rcases bind_ok_iff.1 hret with ⟨fr', -, hret⟩
          cases hret
    · rcases bind_ok_iff.1 heq with ⟨fr', -, hret⟩
      cases hret

theorem Machine.storeCopy_space_new {j : Nat} {dst : State Mem} {c : Copy} (hij : i ≠ j) :
    (m.storeCopy i j dst c).space j = dst.retable c.mem.tables := by
  simp only [Machine.storeCopy, Machine.store, update_of_ne hij.symm,
    update_self]
  rfl

structure Cloned (src src' dst : State PageTables) : Prop where
  brk : dst.brk = 0
  faithful : dst.brk = src.brk → ClonedFrom src src' dst

theorem mmapCopy_cloned {j : Nat} (hij : i ≠ j) (hsrc : Consistent (m.space i) v)
    (hbrk : (m.space j).brk = 0) :
    Safe AnyFault (mmapCopy env m j i) fun x =>
      x.1 = .ok → Cloned (m.space i) (x.2.space i) (x.2.space j) := by
  have hempty : CopyOf (resetList (m.active j)) [] [] := by
    refine ⟨⟨trivial, rfl, rfl, ?_, ?_, Spans.ascending_nil, ?_⟩, ⟨rfl, rfl⟩, rfl, hbrk⟩
    · simp
    · simp
    · simp
  have hsrc' : Listed (m.space i) ([] ++ v) := hsrc.toListed
  have hlen : v.length < (m.space i).allocs + 1 := by
    have hle := hsrc.length_le
    simp only [ids, List.length_map] at hle
    omega
  rw [mmapCopy, hsrc.head]
  have hregions : Safe AnyFault (copyRegions env _ _ _ _) _ := copyRegions_spec hsrc' hlen hempty
  refine hregions.bind ?_
  rintro ⟨ret, dst⟩ hdst
  cases ret with
  | err e => exact fun hok => absurd hok (by simp)
  | ok =>
    rcases hdst rfl with ⟨w, hcopy⟩
    refine (copySpecial_spec hsrc hcopy).bind ?_
    rintro dst1 ⟨hcopy1, hheap, harg, henv⟩
    refine Safe.any ?_
    rintro ⟨err, m'⟩ heq -
    rcases bind_ok_iff.1 heq with ⟨⟨err', c⟩, -, hret⟩
    cases hret
    change Cloned (m.space i) ((m.storeCopy i j dst1 c).space i)
      ((m.storeCopy i j dst1 c).space j)
    rw [Machine.storeCopy_space hij, Machine.storeCopy_space_new hij]
    have hfinal := hcopy1.retable c.mem.tables
    have hregions : (dst1.retable c.mem.tables).regions = (m.space i).regions := by
      rw [hfinal.listed.regions_eq, hsrc.regions_eq]
      exact hfinal.regions
    refine ⟨hfinal.brk, fun heq => ⟨by rw [hregions], ?_, ?_, hheap, harg, henv, heq, rfl⟩⟩
    · have hlen := congrArg List.length hfinal.regions
      simp only [List.length_map] at hlen
      rw [hfinal.accounted.refs, hsrc.refs, hlen]
    · rw [hfinal.accounted.usedSpace, hfinal.listed.regions_eq, List.map_map]
      rfl

/-- If `mmap_clone` of a well-formed address space succeeds, the clone is faithful if and only if
the break of the source is 0. -/
theorem clone_faithful_iff {env : MachineEnv} {m m' : Machine} {i : Nat} {v : View}
    (hi : i < m.nspaces) (hsrc : Consistent (m.space i) v)
    (hclone : mmapClone env m i = .ok (.ok, m')) :
    ClonedFrom (m.space i) (m'.space i) (m'.space m.nspaces) ↔ (m.space i).brk = 0 := by
  rcases bind_ok_iff.1 hclone with ⟨⟨ret, m₁⟩, halloc, hrest⟩
  cases ret with
  | err e => cases hrest
  | ok =>
    have hnew := (mmapAlloc_newSpace env m).of_eq_ok halloc rfl
    have hj : m₁.nspaces - 1 = m.nspaces := by
      rw [hnew.nspaces]
      rfl
    have hij : i ≠ m.nspaces := Nat.ne_of_lt hi
    simp only [hj] at hrest
    rcases bind_ok_iff.1 hrest with ⟨⟨ret, m₂⟩, hcopy, hret⟩
    cases ret with
    | err e =>
      rcases bind_ok_iff.1 hret with ⟨m₃, -, hret⟩
      cases hret
    | ok =>
      cases hret
      rw [← hnew.space i hi] at hsrc ⊢
      have hcloned := (mmapCopy_cloned hij hsrc hnew.brk).of_eq_ok hcopy rfl
      constructor
      · exact fun h => h.brk.symm.trans hcloned.brk
      · exact fun hzero => hcloned.faithful (hcloned.brk.trans hzero.symm)

end Clone

def oneProcess : Machine := reachedBy [.create]

theorem oneProcess_new : NewSpace (.boot smallFrames) oneProcess := by
  have halloc : mmapAlloc smallEnv (.boot smallFrames) = .ok (.ok, oneProcess) := rfl
  exact (mmapAlloc_newSpace smallEnv (.boot smallFrames)).of_eq_ok halloc rfl

/-- The machine after `mmap_clone` of the first address space. -/
def cloned (m : Machine) : Machine := (outcome (mmapClone smallEnv m 0) (.ok, m)).2

theorem cloned_eq {m : Machine} (hok : (mmapClone smallEnv m 0).isOk = true)
    (hret : (outcome (mmapClone smallEnv m 0) (.ok, m)).1 = .ok) :
    mmapClone smallEnv m 0 = .ok (.ok, cloned m) :=
  calc
    mmapClone smallEnv m 0 = .ok (outcome (mmapClone smallEnv m 0) (.ok, m)) := eq_ok_outcome hok
    _ = .ok ((outcome (mmapClone smallEnv m 0) (.ok, m)).1, cloned m) := rfl
    _ = .ok (.ok, cloned m) := by rw [hret]

theorem clone_faithful_iff_new :
    mmapClone smallEnv oneProcess 0 = .ok (.ok, cloned oneProcess) ∧
    ClonedFrom (oneProcess.space 0) ((cloned oneProcess).space 0)
      ((cloned oneProcess).space oneProcess.nspaces) := by
  have hclone : mmapClone smallEnv oneProcess 0 = .ok (.ok, cloned oneProcess) :=
    cloned_eq (by decide +kernel) (by decide +kernel)
  rcases oneProcess_new.consistent with ⟨q, hq⟩
  have hi : 0 < oneProcess.nspaces := by decide
  exact ⟨hclone, (clone_faithful_iff hi hq hclone).2 oneProcess_new.brk⟩

def heapSpace : State Mem :=
  match Mm.Mmap.run smallEnv.mmapEnv (oneProcess.active 0)
      [.mapRegion 0 UHEAP_MAX PROT_RWX MAP_PRIVATE true] with
  | .ok s => s.adoptHeap 1
  | .error _ => oneProcess.active 0

def heapProcess : Machine := oneProcess.store 0 heapSpace

theorem heapProcess_consistent : ∃ v, Consistent (heapProcess.space 0) v := by
  rcases oneProcess_new.consistent with ⟨q, hq⟩
  have hrel : Rel (oneProcess.active 0) [(q, nullRegion)] := hq.toRel.retable _
  have hrun : orderlyRun smallEnv.mmapEnv (oneProcess.active 0)
      [.mapRegion 0 UHEAP_MAX PROT_RWX MAP_PRIVATE true] = true := by
    decide +kernel
  rcases (hrel.run_safe hrun).of_eq_ok rfl with ⟨v, hv⟩
  have hheap : Rel heapSpace v := hv.withAccount _
  refine ⟨v, Rel.consistent (hheap.retable _) ?_ ?_ ?_ ?_⟩ <;> decide +kernel

/-- The clone of a process with a heap has the heap, but not the break. -/
theorem clone_loses_break :
    sbrkStep smallEnv.mmapEnv (oneProcess.active 0) 0 = .ok heapSpace ∧
    (∃ v, Consistent (heapProcess.space 0) v) ∧
    mmapClone smallEnv heapProcess 0 = .ok (.ok, cloned heapProcess) ∧
    ¬ ClonedFrom (heapProcess.space 0) ((cloned heapProcess).space 0)
      ((cloned heapProcess).space heapProcess.nspaces) := by
  have hclone : mmapClone smallEnv heapProcess 0 = .ok (.ok, cloned heapProcess) :=
    cloned_eq (by decide +kernel) (by decide +kernel)
  refine ⟨rfl, heapProcess_consistent, hclone, ?_⟩
  intro h
  exact absurd h.brk (by decide +kernel)

end Arch
end XytherOS
