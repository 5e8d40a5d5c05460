import XytherOS.Arch.TableOps

/-!
# FaultLedger — page faults in the ledger

A page that is brought in gets a frame of its own, and so does a page of the cache.  A write to a
shared page drops the reference to the shared frame and takes a new one; when the copy fails, the
ledger is as before.  The branch for shared files never maps a page: `icache_getpage` asserts that
the cache is locked, and no thread that faults gets past `ilock` with that lock.
-/

namespace XytherOS
namespace Arch

open Mm.Mmap (Region has bitIf PTE_P PTE_W PTE_U PTE_R PTE_X)
open Mm.Pmm (NPAGE PGROUND PGSZ)
open Ledger

/-! ## The ledger with the page caches -/

/-- The memory and the page caches when the address space `i` is active. -/
def World.onKern (w : World) (i : Nat) (k : Kern) : World :=
  { w.on i k.toMem with cache := k.cache }

def World.withCache (w : World) (cache : Nat → Nat → Option Nat) : World := { w with cache := cache }

structure KernKeeps (strict : Prop) (w : World) (i : Nat) (k k' : Kern) : Prop where
  zone : k.frames.SameZone k'.frames
  tidy : Tidy k'.tables k'.frames
  steps : Sound Slot.IsPage (w.onKern i k).book →
    Steps Slot.IsPage strict (w.onKern i k).book (w.onKern i k').book

section KernKeeps

variable {strict : Prop} {w : World} {i : Nat} {k k' k'' : Kern} {f v : Nat}

theorem KernKeeps.refl (h : Tidy k.tables k.frames) : KernKeeps strict w i k k :=
  ⟨.refl _, h, fun _ => .refl⟩

theorem KernKeeps.trans (h : KernKeeps strict w i k k') (h' : KernKeeps strict w i k' k'') :
    KernKeeps strict w i k k'' :=
  ⟨h.zone.trans h'.zone, h'.tidy, fun hs =>
    (h.steps hs).trans (h'.steps (hs.steps (h.steps hs)))⟩

theorem KernKeeps.of_mem {mem : Mem} (h : Keeps strict (w.withCache k.cache) i k.toMem mem) :
    KernKeeps strict w i k (k.withMem mem) :=
  ⟨h.zone, h.tidy, h.steps⟩

structure Waited (k k' : Kern) : Prop where
  tables : k'.tables = k.tables
  frames : k'.frames = k.frames
  cache : k'.cache = k.cache

theorem Waited.refl (k : Kern) : Waited k k := ⟨rfl, rfl, rfl⟩

theorem Waited.trans (h : Waited k k') (h' : Waited k' k'') : Waited k k'' :=
  ⟨h'.tables.trans h.tables, h'.frames.trans h.frames, h'.cache.trans h.cache⟩

theorem Waited.tick (k : Kern) : Waited k (k.withMem k.tick) := ⟨rfl, rfl, rfl⟩

theorem Waited.onKern (h : Waited k k') : w.onKern i k' = w.onKern i k := by
  simp only [World.onKern, World.on, h.tables, h.frames, h.cache]

theorem Waited.keeps (h : Waited k k') (htidy : Tidy k.tables k.frames) :
    KernKeeps strict w i k k' := by
  refine ⟨?_, ?_, ?_⟩
  · rw [h.frames]
    exact .refl _
  · rw [h.tables, h.frames]
    exact htidy
  · intro _
    rw [h.onKern]

theorem memcpyPage_waited (env : Env) (size : Nat) (k : Kern) :
    Waited k (memcpyPage env size k).2 := by
  rw [memcpyPage]
  by_cases hsize : size = 0
  · rw [if_pos hsize]
    exact .refl k
  · rw [if_neg hsize, mount]
    cases env.mount k.ticks <;> exact .tick k

/-! ## The page cache -/

theorem pick_steps (hhand : w.hand = none) (hfree : k.frames.refcnt f = 0) :
    Steps Slot.IsPage strict (w.onKern i k).book
      ((w.withHand (some f)).onKern i (k.withMem (k.withFrames (k.frames.setRefcnt f 1)))).book := by
  have hbook : ((w.withHand (some f)).onKern i
      (k.withMem (k.withFrames (k.frames.setRefcnt f 1)))).book =
      (w.onKern i k).book.take .hand f := World.book_pick (w := w.withCache k.cache)
  rw [hbook]
  exact .single (.take _ _ id hhand hfree)

variable (strict w i k) in
theorem lose_steps :
    Steps Slot.IsPage strict (w.onKern i k).book ((w.withHand none).onKern i k).book := by
  have hbook : ((w.withHand none).onKern i k).book = (w.onKern i k).book.lose .hand :=
    World.book_lose (w := w.withCache k.cache)
  rw [hbook]
  exact .single (.lose _ id)

variable (w i k f) in
theorem World.book_putBack :
    ((w.withHand none).onKern i
      (k.withMem (k.withFrames (k.frames.setRefcnt f (k.frames.refcnt f - 1))))).book =
      (w.onKern i k).book.drop .hand f := by
  rw [World.book, World.book, Book.drop, Book.mk.injEq]
  refine ⟨?_, rfl, ?_⟩
  · funext a
    by_cases ha : a = .hand
    · subst ha
      rw [Function.update_self]
      rfl
    · rw [Function.update_of_ne ha]
      cases a <;> first | rfl | exact absurd rfl ha
  · funext a
    by_cases ha : a = .hand
    · subst ha
      rw [Function.update_self]
      rfl
    · rw [Function.update_of_ne ha]
      rfl

variable (w i k f) in
theorem World.book_cache (ip pgno : Nat) :
    ((w.withHand none).onKern i { k with
      cache := Function.update k.cache ip (Function.update (k.cache ip) pgno (some f)) }).book =
      (w.onKern i k).book.move .hand (.cache ip pgno) f false := by
  rw [World.book, World.book, Book.move, Book.mk.injEq]
  refine ⟨?_, rfl, ?_⟩
  · funext a
    cases a with
    | entry i' l j => rfl
    | root i' => rfl
    | hand => rfl
    | cache ip' pgno' =>
      by_cases hip : ip' = ip
      · subst hip
        by_cases hpg : pgno' = pgno
        · subst hpg
          simp [World.slot, World.onKern]
        · simp [World.slot, World.onKern, hpg]
      · simp [World.slot, World.onKern, hip]
  · funext a
    by_cases ha : a = .cache ip pgno
    · subst ha
      rw [Function.update_self]
      rfl
    · rw [Function.update_of_ne ha]
      rfl

variable {k₁ : Kern} {pgno : Nat}

theorem icacheUpdate_cases {env : FsEnv} {ip : Nat} {ret : Ret}
    (h : icacheUpdate env ip pgno f k = (ret, k')) :
    (ret ≠ .ok ∧ Waited k k') ∨
      ∃ k₁, ret = .ok ∧ Waited k k₁ ∧ k' = { k₁ with
        cache := Function.update k₁.cache ip (Function.update (k₁.cache ip) pgno (some f)) } := by
  rw [icacheUpdate] at h
  cases hread : env.readData k.ticks with
  | error e =>
    simp only [hread, Prod.mk.injEq] at h
    rcases h with ⟨rfl, rfl⟩
    exact .inl ⟨by simp, .tick k⟩
  | ok size =>
    simp only [hread] at h
    have hcopy := memcpyPage_waited env.toEnv size (k.withMem k.tick)
    generalize memcpyPage env.toEnv size (k.withMem k.tick) = res at h hcopy
    rcases res with ⟨err, k₁⟩
    have hwaited := (Waited.tick k).trans hcopy
    cases err with
    | err e =>
      simp only [Prod.mk.injEq] at h
      rcases h with ⟨rfl, rfl⟩
      exact .inl ⟨by simp, hwaited⟩
    | ok =>
      cases hinsert : env.insert k₁.ticks with
      | some e =>
        simp only [hinsert, Prod.mk.injEq] at h
        rcases h with ⟨rfl, rfl⟩
        exact .inl ⟨by simp, hwaited.trans (.tick k₁)⟩
      | none =>
        simp only [hinsert, Prod.mk.injEq] at h
        rcases h with ⟨rfl, rfl⟩
        exact .inr ⟨_, rfl, hwaited.trans (.tick k₁), rfl⟩

theorem icacheInsert_keeps {ip : Nat} (h : Tidy k.tables k.frames)
    (hhand : w.hand = none) (hnone : k.cache ip pgno = none) (hfree : k.frames.refcnt f = 0)
    (hwaited : Waited (k.withMem (k.withFrames (k.frames.setRefcnt f 1))) k₁) :
    KernKeeps strict w i k { k₁ with
      cache := Function.update k₁.cache ip (Function.update (k₁.cache ip) pgno (some f)) } := by
  have hsame : k.frames.SameZone k₁.frames := by
    rw [hwaited.frames]
    exact Frames.sameZone_setRefcnt _ _ _
  refine ⟨hsame, ?_, ?_⟩
  · have htables : k₁.tables = k.tables := hwaited.tables
    rw [htables]
    exact h.congr hsame
  · intro _
    have hpick : Steps Slot.IsPage strict (w.onKern i k).book
        ((w.withHand (some f)).onKern i k₁).book := by
      rw [hwaited.onKern]
      exact pick_steps hhand hfree
    have hself : (w.withHand (some f)).withHand none = w := by
      rw [World.withHand, World.withHand, ← hhand]
    have hbook := World.book_cache (w.withHand (some f)) i k₁ f ip pgno
    rw [hself] at hbook
    rw [hbook]
    have hempty : ((w.withHand (some f)).onKern i k₁).slot (.cache ip pgno) = none := by
      have hcache : k₁.cache = k.cache := hwaited.cache
      simp only [World.onKern, World.slot, hcache, hnone]
    exact hpick.tail (.move _ _ _ _ id (fun _ => rfl) rfl hempty)

variable (strict i) in
theorem icachePutBack_keeps (h : Tidy k.tables k.frames) (hhand : w.hand = none)
    (hzone : k.frames.Contains f) (hfree : k.frames.refcnt f = 0)
    (hwaited : Waited (k.withMem (k.withFrames (k.frames.setRefcnt f 1))) k₁) :
    Safe AnyFault (pagePut k₁ f) fun k' => KernKeeps strict w i k k' := by
  have hsame : k.frames.SameZone k₁.frames := by
    rw [hwaited.frames]
    exact Frames.sameZone_setRefcnt _ _ _
  rw [pagePut]
  refine (Frames.pagePut_safe (hsame.contains.2 hzone)).bind ?_
  rintro ⟨err, fr⟩ hfr
  rcases Prod.mk.inj hfr with ⟨rfl, rfl⟩
  have hsame' := hsame.trans
    (Frames.sameZone_setRefcnt k₁.frames f (k₁.frames.refcnt f - 1))
  refine ⟨hsame', ?_, ?_⟩
  · have htables : k₁.tables = k.tables := hwaited.tables
    rw [← htables] at h
    exact h.congr hsame'
  · intro _
    have hpick : Steps Slot.IsPage strict (w.onKern i k).book
        ((w.withHand (some f)).onKern i k₁).book := by
      rw [hwaited.onKern]
      exact pick_steps hhand hfree
    have hself : (w.withHand (some f)).withHand none = w := by
      rw [World.withHand, World.withHand, ← hhand]
    have hbook := World.book_putBack (w.withHand (some f)) i k₁ f
    rw [hself] at hbook
    rw [hbook]
    exact hpick.tail (.drop _ _ rfl)

variable {env : FsEnv} {held : Held} {ip : Nat}

variable (strict i) in
theorem icacheGetpage_safe {locked : Bool} (h : Tidy k.tables k.frames)
    (hhand : w.hand = none) :
    Safe AnyFault (icacheGetpage env locked ip pgno k) fun x => KernKeeps strict w i k x.2 := by
  rw [icacheGetpage]
  by_cases hcache : env.hasCache ip = true
  · rw [if_pos hcache]
    refine Safe.bind (P := fun _ => True) (Safe.any fun _ _ => trivial) ?_
    intro _ _
    cases hpage : k.cache ip pgno with
    | some f => exact .refl h
    | none =>
      cases hget : k.frames.getPage with
      | error e => exact .refl h
      | ok res =>
        rcases res with ⟨f, fr⟩
        rcases Frames.getPage_ok hget with ⟨hzone, hfree, rfl⟩
        simp only
        cases hupdate : icacheUpdate env ip pgno f
            (k.withMem (k.withFrames (k.frames.setRefcnt f 1))) with
        | mk ret k₁ =>
          rcases icacheUpdate_cases hupdate with ⟨hne, hwaited⟩ | ⟨k2, rfl, hwaited, rfl⟩
          · cases ret with
            | ok => exact absurd rfl hne
            | err e =>
              refine (icachePutBack_keeps strict i h hhand hzone hfree hwaited).bind ?_
              exact fun k' hk' => hk'
          · exact icacheInsert_keeps h hhand hpage hfree hwaited
  · rw [if_neg hcache]
    exact .refl h

theorem icacheRead_safe {n offset sz : Nat} (h : Tidy k.tables k.frames) (hhand : w.hand = none) :
    Safe AnyFault (icacheRead env ip n offset sz k) fun x => KernKeeps strict w i k x.2 := by
  induction n generalizing offset sz k with
  | zero => exact .refl h
  | succ n ih =>
    rw [icacheRead]
    by_cases hsz : sz = 0
    · rw [if_pos hsz]
      exact .refl h
    · rw [if_neg hsz]
      refine (icacheGetpage_safe strict i h hhand).bind ?_
      rintro ⟨page, k₁⟩ hpage
      cases page with
      | error e => exact hpage
      | ok f =>
        have hcopy := memcpyPage_waited env.toEnv (min (4096 - offset % 4096) sz) k₁
        simp only
        generalize memcpyPage env.toEnv (min (4096 - offset % 4096) sz) k₁ = res at hcopy ⊢
        rcases res with ⟨err, k2⟩
        have hkeeps : KernKeeps strict w i k k2 := hpage.trans (hcopy.keeps hpage.tidy)
        cases err with
        | err e => exact hkeeps
        | ok => exact (ih hkeeps.tidy).mono fun x hx => hkeeps.trans hx

variable (strict i) in
theorem iread_safe {offset sz : BitVec 64} (h : Tidy k.tables k.frames) (hhand : w.hand = none) :
    Safe AnyFault (iread env held ip offset sz k) fun x => KernKeeps strict w i k x.2 := by
  rw [iread]
  by_cases hcache : env.hasCache ip = true
  · rw [if_pos hcache]
    refine Safe.bind (P := fun _ => True) (Safe.any fun _ _ => trivial) ?_
    intro _ _
    exact icacheRead_safe h hhand
  · rw [if_neg hcache]
    cases env.readData k.ticks <;> exact (Waited.tick k).keeps h

/-! ## Bringing pages in -/

variable {vmr : Region} {fault : PagefaultDesc}

variable (strict) in
theorem onMem_mapN_safe {va flags : BitVec 64} (hi : i < w.nspaces) (h : Tidy k.tables k.frames)
    (hv : vpn va < 2 ^ 35) (hp : k.tables.isP .pt (vpn va) = false) (hhand : w.hand = none) :
    Safe AnyFault (onMem k (mapN k.toMem va PGSZ flags)) fun x => KernKeeps strict w i k x.2 := by
  have hi' : i < (w.withCache k.cache).nspaces := hi
  rw [onMem]
  refine (mapN_safe strict hi' h hv hp hhand).bind ?_
  intro x hx
  exact KernKeeps.of_mem hx

theorem loadShared_safe {offset : BitVec 64} (hlock : held.cache ip = false) :
    Safe AnyFault (loadShared env held vmr ip fault offset k) fun x => x.2 = k := by
  rw [loadShared, hlock, icacheGetpage]
  by_cases hcache : env.hasCache ip = true
  · rw [if_pos hcache]
    exact trivial
  · rw [if_neg hcache]
    rfl

theorem loadPrivate_safe {offset size : BitVec 64} (hi : i < w.nspaces)
    (h : Tidy k.tables k.frames) (hv : vpn fault.addr < 2 ^ 35)
    (hp : k.tables.isP .pt (vpn fault.addr) = false) (hhand : w.hand = none) :
    Safe AnyFault (loadPrivate env held vmr ip fault offset size k) fun x =>
      KernKeeps strict w i k x.2 := by
  rw [loadPrivate]
  refine (onMem_mapN_safe strict hi h hv hp hhand).bind ?_
  rintro ⟨ret, k₁⟩ hmap
  cases ret with
  | err e => exact hmap
  | ok =>
    refine (iread_safe strict i hmap.tidy hhand).bind ?_
    rintro ⟨ret, k2⟩ hread
    have hkeeps : KernKeeps strict w i k k2 := hmap.trans hread
    cases ret with
    | ok => exact hkeeps
    | err e =>
      have hi' : i < (w.withCache k2.cache).nspaces := hi
      refine (unmapN_safe strict hi' hkeeps.tidy).bind ?_
      rintro mem ⟨hmem, -⟩
      exact hkeeps.trans (.of_mem hmem)

theorem loadFile_safe {offset size : BitVec 64} (hi : i < w.nspaces)
    (h : Tidy k.tables k.frames) (hv : vpn fault.addr < 2 ^ 35)
    (hp : k.tables.isP .pt (vpn fault.addr) = false) (hhand : w.hand = none) :
    Safe AnyFault (do ilock held ip; loadFile env held vmr ip fault offset size k) fun x =>
      KernKeeps strict w i k x.2 := by
  rw [ilock, assert]
  by_cases hinode : held.inode ip = false
  · rw [if_pos hinode]
    change Safe AnyFault (loadFile env held vmr ip fault offset size k) _
    rw [loadFile]
    by_cases hshared : vmrShared vmr = true
    · rw [if_pos hshared]
      have hlock : held.cache ip = false := by
        by_contra hne
        have hnested := held.nested ip (by simpa using hne)
        rw [hinode] at hnested
        exact absurd hnested (by simp)
      refine (loadShared_safe hlock).mono ?_
      intro x hx
      rw [hx]
      exact .refl h
    · rw [if_neg hshared]
      exact loadPrivate_safe hi h hv hp hhand
  · rw [if_neg hinode]
    exact trivial

theorem loadPageFromFile_safe {offset size : BitVec 64} (hi : i < w.nspaces)
    (h : Tidy k.tables k.frames) (hv : vpn fault.addr < 2 ^ 35)
    (hp : k.tables.isP .pt (vpn fault.addr) = false) (hhand : w.hand = none) :
    Safe AnyFault (loadPageFromFile env held vmr fault offset size k) fun x =>
      KernKeeps strict w i k x.2 := by
  rw [loadPageFromFile]
  cases vmr.file with
  | none => exact onMem_mapN_safe strict hi h hv hp hhand
  | some ip =>
    simp only
    by_cases hsize : env.igetsize ip = 0
    · rw [if_pos hsize]
      refine Safe.bind (P := fun _ => True) (Safe.any fun _ _ => trivial) ?_
      intro _ _
      exact .refl h
    · rw [if_neg hsize]
      exact loadFile_safe hi h hv hp hhand

/-! ## Copy-on-write -/

theorem addTables_present {mem : Mem} {flags : BitVec 64} {lvls : List Level}
    (h : ∀ l ∈ lvls, mem.tables.isP l (l.index v) = true) :
    addTables v flags lvls mem = .ok (.ok, mem) := by
  induction lvls with
  | nil => rfl
  | cons l lvls ih =>
    have hrest := ih fun l' hl' => h l' (List.mem_cons_of_mem l hl')
    rw [addTables, addTable, if_pos (h l List.mem_cons_self)]
    simp only [hrest, ok_bind]
    rfl

theorem map_remap {mem : Mem} {flags : BitVec 64} (h : Tidy mem.tables mem.frames)
    (hp : mem.tables.isP .pt v = true) (hremap : has flags PTE_REMAP = true) :
    map mem f v flags = .ok (if has flags PTE_PS then (.err .ENOTSUP, mem)
      else (.ok, mem.setEntry .pt v (mkPte f flags))) := by
  rw [map]
  by_cases hps : has flags PTE_PS = true
  · rw [if_pos hps, if_pos hps]
  · rw [if_neg hps, if_neg hps, addTables_present fun l _ => h.isP_index hp l, ok_bind]
    simp [installPte, hremap]

theorem copyFlags_bits (vflags raw : BitVec 64) (hp : has raw PTE_P = true) :
    has (PTE_REMAP ||| (vflags ||| PGOFF raw &&& ~~~PTE_ALLOC) ||| PTE_ALLOC) PTE_P = true ∧
      has (PTE_REMAP ||| (vflags ||| PGOFF raw &&& ~~~PTE_ALLOC) ||| PTE_ALLOC) PTE_REMAP = true ∧
      has (PTE_REMAP ||| (vflags ||| PGOFF raw &&& ~~~PTE_ALLOC) ||| PTE_ALLOC) PTE_ALLOC = true := by
  rw [has_P] at hp
  refine ⟨?_, ?_, ?_⟩
  · rw [has_P, BitVec.getLsbD_or, BitVec.getLsbD_or, BitVec.getLsbD_or, BitVec.getLsbD_and,
      BitVec.getLsbD_not, getLsbD_PGOFF, hp, show PTE_ALLOC.getLsbD 0 = false from rfl]
    simp
  · rw [has_REMAP, BitVec.getLsbD_or, BitVec.getLsbD_or,
      show PTE_REMAP.getLsbD 10 = true from rfl, Bool.true_or, Bool.true_or]
  · rw [has_ALLOC, BitVec.getLsbD_or, show PTE_ALLOC.getLsbD 11 = true from rfl, Bool.or_true]

/-- The page `v`, which had the entry `raw`, gets the frame `f`. -/
structure Remapped (v f : Nat) (k k₁ : Kern) : Prop where
  zone : k.frames.Contains f
  free : k.frames.refcnt f = 0
  present : k.tables.isP .pt v = true
  entry : ∃ raw, k₁.tables = k.tables.set .pt v raw ∧ has raw PTE_P = true ∧
    has raw PTE_ALLOC = true ∧ frameOf raw = f
  frames : k₁.frames = k.frames.setRefcnt f 1
  cache : k₁.cache = k.cache

theorem undoCopy_safe {e : Errno} (h : Tidy k.tables k.frames)
    (hre : Remapped (vpn fault.addr) f k k₁) :
    Safe AnyFault (undoCopy fault (vpn fault.addr) (k.pte (vpn fault.addr)) e k₁) fun x =>
      x.1 ≠ .ok ∧ Waited k x.2 := by
  rcases hre.entry with ⟨raw, htables, hP, hA, hframe⟩
  have hone : (NPAGE PGSZ).toNat = 1 := by decide
  have htidy : Tidy k₁.tables k₁.frames := by
    rw [htables, hre.frames]
    exact (h.set_page (h.closed .pt .pdt _ rfl hre.present) (hframe.symm ▸ hre.zone) hA).congr
      (Frames.sameZone_setRefcnt k.frames f 1)
  have hentry : k₁.pte (vpn fault.addr) = raw := by
    rw [Mem.pte, htables, PageTables.entry_set_self]
  have hp : k₁.tables.isP .pt (vpn fault.addr) = true := by
    rw [htables, PageTables.isP_set_self, hP]
  have hcount : k₁.frames.refcnt f = 1 := by
    rw [hre.frames, Frames.refcnt_setRefcnt, Function.update_self]
  rw [undoCopy, unmapN, hone, unmapPages, unmap, PageTables.reached_eq_isP htidy, if_pos hp]
  simp only [hentry, if_pos hA, hframe, Mem.free]
  refine Safe.bind (P := fun mem => mem = (k₁.setEntry .pt (vpn fault.addr) 0).withFrames
    (k₁.frames.setRefcnt f 0)) ?_ ?_
  · refine Safe.bind (P := fun mem => mem = (k₁.setEntry .pt (vpn fault.addr) 0).withFrames
      (k₁.frames.setRefcnt f 0)) ?_ ?_
    · refine (Frames.free_safe ?_).bind ?_
      · rw [Mem.setEntry, hre.frames]
        exact hre.zone
      · intro fr hfr
        rw [hfr]
        change Mem.withFrames _ (k₁.frames.setRefcnt f (k₁.frames.refcnt f - 1)) = _
        rw [hcount]
    · intro mem hmem
      exact hmem
  · rintro mem rfl
    refine ⟨by simp, ?_, ?_, hre.cache⟩
    · -- the entry is written three times, the last time with what it was
      change ((k₁.tables.set .pt (vpn fault.addr) 0).set .pt (vpn fault.addr) _) = k.tables
      rw [htables]
      simp only [PageTables.set, Mem.pte]
      congr 1
      funext l m
      by_cases hlm : l = .pt ∧ m = vpn fault.addr
      · simp [hlm]
      · simp [hlm]
    · change k₁.frames.setRefcnt f 0 = k.frames
      rw [hre.frames]
      simp only [Frames.setRefcnt, Function.update_idem]
      congr 1
      rw [← hre.free, Function.update_eq_self]

theorem PageTables.set_set (t : PageTables) (l : Level) (m : Nat) (raw raw' : BitVec 64) :
    (t.set l m raw).set l m raw' = t.set l m raw' := by
  rw [PageTables.mk.injEq]
  funext l' m'
  by_cases hlm : l' = l ∧ m' = m
  · simp [hlm]
  · simp [PageTables.set, hlm]

variable (strict) in
theorem replace_steps {mem : Mem} {raw : BitVec 64} (hi : i < w.nspaces)
    (hp : mem.tables.isP .pt v = true) (hhand : w.hand = none) (hfree : mem.frames.refcnt f = 0)
    (hraw : has raw PTE_P = true) (hframe : frameOf raw = f)
    (hs : Sound Slot.IsPage (w.on i mem).book) :
    Steps Slot.IsPage strict (w.on i mem).book
      (w.on i ((mem.setEntry .pt v raw).withFrames ((mem.frames.setRefcnt f 1).setRefcnt
        (frameOf (mem.pte v)) (mem.frames.refcnt (frameOf (mem.pte v)) - 1)))).book := by
  have hslot := World.slot_entry_some hi hp
  have hne : frameOf (mem.pte v) ≠ f := by
    intro heq
    rw [← heq] at hfree
    exact hs.unheld hfree (.entry i .pt v) hslot
  generalize hg : frameOf (mem.pte v) = g at hne
  have hg' : frameOf (mem.tables.entry .pt v) = g := hg
  -- first the old frame is dropped
  generalize hmem1 : (mem.setEntry .pt v 0).withFrames
    (mem.frames.setRefcnt g (mem.frames.refcnt g - 1)) = mem1
  have hdrop : Step Slot.IsPage strict (w.on i mem).book (w.on i mem1).book := by
    rw [← hmem1, World.book_drop hi _ (by rw [hg']), hg']
    exact .drop _ _ (hslot.trans (by rw [hg']))
  have hfree1 : mem1.frames.refcnt f = 0 := by
    rw [← hmem1]
    change Function.update mem.frames.refcnt g _ f = 0
    rw [Function.update_of_ne hne.symm, hfree]
  have habsent : mem1.tables.isP .pt v = false := by
    rw [← hmem1]
    exact PageTables.isP_set_self
  -- then the new one is taken and put in its place
  generalize hmem2 : mem1.withFrames (mem1.frames.setRefcnt f 1) = mem2
  have hpick : Step Slot.IsPage strict (w.on i mem1).book ((w.withHand (some f)).on i mem2).book := by
    rw [← hmem2, World.book_pick]
    exact .take _ _ id hhand hfree1
  have hi' : i < (w.withHand (some f)).nspaces := hi
  have hmove : Step Slot.IsPage strict ((w.withHand (some f)).on i mem2).book
      (((w.withHand (some f)).withHand none).on i (mem2.setEntry .pt v raw)).book := by
    rw [World.book_move hi' hraw, hframe]
    refine .move _ _ _ _ id (fun hn => absurd trivial hn) rfl (World.slot_entry_none hi' ?_)
    rw [← hmem2]
    exact habsent
  have hself : (w.withHand (some f)).withHand none = w := by
    rw [World.withHand, World.withHand, ← hhand]
  have htables : (mem2.setEntry .pt v raw).tables = mem.tables.set .pt v raw := by
    rw [← hmem2, ← hmem1]
    exact PageTables.set_set mem.tables .pt v 0 raw
  have hframes : (mem2.setEntry .pt v raw).frames =
      (mem.frames.setRefcnt f 1).setRefcnt g (mem.frames.refcnt g - 1) := by
    rw [← hmem2, ← hmem1]
    simp only [Mem.withFrames, Mem.setEntry, Frames.setRefcnt]
    congr 1
    exact Function.update_comm hne _ _ _
  have hworld : w.on i (mem2.setEntry .pt v raw) = w.on i ((mem.setEntry .pt v raw).withFrames
      ((mem.frames.setRefcnt f 1).setRefcnt g (mem.frames.refcnt g - 1))) := by
    simp only [World.on, htables, hframes]
    rfl
  rw [hself, hworld] at hmove
  exact ((Relation.ReflTransGen.single hdrop).tail hpick).tail hmove

theorem Remapped.waited {k2 : Kern} (h : Remapped v f k k₁) (hw : Waited k₁ k2) :
    Remapped v f k k2 :=
  { h with
    entry := by
      rw [hw.tables]
      exact h.entry
    frames := hw.frames.trans h.frames
    cache := hw.cache.trans h.cache }

theorem finishCopy_safe (hi : i < w.nspaces) (h : Tidy k.tables k.frames)
    (hhand : w.hand = none) (hre : Remapped (vpn fault.addr) f k k₁)
    (hne : frameOf (k.pte (vpn fault.addr)) ≠ f) :
    Safe AnyFault (finishCopy env fault (vpn fault.addr) (k.pte (vpn fault.addr)) k₁) fun x =>
      KernKeeps strict w i k x.2 := by
  have hundo : ∀ {e : Errno} {k2 : Kern}, Remapped (vpn fault.addr) f k k2 →
      Safe AnyFault (undoCopy fault (vpn fault.addr) (k.pte (vpn fault.addr)) e k2) fun x =>
        KernKeeps strict w i k x.2 := by
    intro e k2 hre2
    exact (undoCopy_safe h hre2).mono fun x hx => hx.2.keeps h
  rw [finishCopy]
  have hcopy := memcpyPage_waited env.toEnv PGSZ.toNat k₁
  generalize memcpyPage env.toEnv PGSZ.toNat k₁ = res at hcopy ⊢
  rcases res with ⟨err, k2⟩
  have hre2 : Remapped (vpn fault.addr) f k k2 := hre.waited hcopy
  cases err with
  | err e => exact hundo hre2
  | ok =>
    rcases hre2.entry with ⟨raw, htables, hP, hA, hframe⟩
    generalize hg : frameOf (k.pte (vpn fault.addr)) = g at hne
    have hzone : k.frames.Contains g := hg ▸ h.zone .pt _ hre2.present
    have hzone2 : k2.frames.Contains g := by
      rw [hre2.frames]
      exact hzone
    simp only
    refine (Frames.pagePut_safe hzone2).bind ?_
    rintro ⟨err, fr⟩ hfr
    rcases Prod.mk.inj hfr with ⟨rfl, rfl⟩
    have hcount : k2.frames.refcnt g = k.frames.refcnt g := by
      rw [hre2.frames, Frames.refcnt_setRefcnt, Function.update_of_ne hne]
    have hsame : k.frames.SameZone (k2.frames.setRefcnt g (k2.frames.refcnt g - 1)) := by
      rw [hre2.frames]
      exact ⟨rfl, rfl⟩
    refine ⟨hsame, ?_, ?_⟩
    · change Tidy k2.tables (k2.frames.setRefcnt g (k2.frames.refcnt g - 1))
      rw [htables]
      exact (h.set_page (h.closed .pt .pdt _ rfl hre2.present) (hframe.symm ▸ hre2.zone) hA).congr
        hsame
    · intro hs
      have hi' : i < (w.withCache k.cache).nspaces := hi
      have hsteps := replace_steps strict hi' hre2.present hhand hre2.free hP hframe hs
      have hworld : w.onKern i (k2.withMem
          (k2.withFrames (k2.frames.setRefcnt g (k2.frames.refcnt g - 1)))) =
          (w.withCache k.cache).on i ((k.setEntry .pt (vpn fault.addr) raw).withFrames
            ((k.frames.setRefcnt f 1).setRefcnt g (k.frames.refcnt g - 1))) := by
        rw [hcount]
        simp only [World.onKern, World.on, World.withCache, Kern.withMem, Mem.withFrames,
          Mem.setEntry, htables, hre2.cache, hre2.frames]
      rw [hworld, ← hg]
      exact hsteps

theorem copyPageOnWrite_safe (hi : i < w.nspaces) (h : Tidy k.tables k.frames)
    (hhand : w.hand = none) (hp : k.tables.isP .pt (vpn fault.addr) = true)
    (hcount : k.frames.refcnt (frameOf (k.pte (vpn fault.addr))) ≠ 0) :
    Safe AnyFault (copyPageOnWrite env vmr fault (vpn fault.addr) (k.pte (vpn fault.addr)) k)
      fun x => KernKeeps strict w i k x.2 := by
  rw [copyPageOnWrite]
  rcases copyFlags_bits vmr.vflags (k.pte (vpn fault.addr)) hp with ⟨hP, hR, hA⟩
  rw [mapN_one]
  cases hget : k.frames.getPage with
  | error e => exact .refl h
  | ok res =>
    rcases res with ⟨f, fr⟩
    rcases Frames.getPage_ok hget with ⟨hzone, hfree, rfl⟩
    have hsame := Frames.sameZone_setRefcnt k.frames f 1
    have htidy : Tidy (k.withFrames (k.frames.setRefcnt f 1)).tables
        (k.withFrames (k.frames.setRefcnt f 1)).frames := h.congr hsame
    generalize PTE_REMAP ||| (vmr.vflags ||| PGOFF (k.pte (vpn fault.addr)) &&& ~~~PTE_ALLOC) |||
      PTE_ALLOC = flags at hP hR hA ⊢
    simp only
    rw [map_remap htidy hp hR]
    by_cases hps : has flags PTE_PS = true
    · -- the new frame is lost
      rw [if_pos hps]
      refine ⟨hsame, htidy, ?_⟩
      intro _
      have hself : (w.withHand (some f)).withHand none = w := by
        rw [World.withHand, World.withHand, ← hhand]
      have hlose := lose_steps strict (w.withHand (some f)) i
        (k.withMem (k.withFrames (k.frames.setRefcnt f 1)))
      rw [hself] at hlose
      exact (pick_steps hhand hfree).trans hlose
    · rw [if_neg hps]
      have hframe : frameOf (mkPte f flags) = f := frameOf_mkPte hzone.lt
      have hre : Remapped (vpn fault.addr) f k (k.withMem
          ((k.withFrames (k.frames.setRefcnt f 1)).setEntry .pt (vpn fault.addr)
            (mkPte f flags))) := by
        refine ⟨hzone, hfree, hp, ⟨mkPte f flags, rfl, ?_, ?_, hframe⟩, rfl, rfl⟩
        · rw [has_P, getLsbD_mkPte (by decide), ← has_P, hP]
        · rw [has_ALLOC, getLsbD_mkPte (by decide), ← has_ALLOC, hA]
      refine finishCopy_safe hi h hhand hre ?_
      rintro rfl
      exact hcount hfree

theorem grantEntry_bits (raw : BitVec 64) :
    has (raw ||| PTE_W) PTE_P = has raw PTE_P ∧ has (raw ||| PTE_W) PTE_ALLOC = has raw PTE_ALLOC ∧
      frameOf (raw ||| PTE_W) = frameOf raw := by
  refine ⟨?_, ?_, ?_⟩
  · rw [has_P, has_P, BitVec.getLsbD_or, show PTE_W.getLsbD 0 = false from rfl, Bool.or_false]
  · rw [has_ALLOC, has_ALLOC, BitVec.getLsbD_or, show PTE_W.getLsbD 11 = false from rfl,
      Bool.or_false]
  · apply frameOf_congr
    intro n hn
    have hbit : PTE_W.getLsbD n = false := by
      rw [show PTE_W = BitVec.twoPow 64 1 from rfl, BitVec.getLsbD_twoPow]
      simp
      omega
    rw [BitVec.getLsbD_or, hbit, Bool.or_false]

theorem handleCowFault_safe (hi : i < w.nspaces) (h : Tidy k.tables k.frames)
    (hhand : w.hand = none) (hp : k.tables.isP .pt (vpn fault.addr) = true) :
    Safe AnyFault (handleCowFault env vmr fault (vpn fault.addr) k) fun x =>
      KernKeeps strict w i k x.2 := by
  have hzone : k.frames.Contains (frameOf (k.pte (vpn fault.addr))) := h.zone .pt _ hp
  rw [handleCowFault, Frames.pageGetcount, if_pos hzone]
  simp only
  by_cases hmany : 1 < k.frames.refcnt (frameOf (k.pte (vpn fault.addr)))
  · rw [if_pos hmany]
    exact copyPageOnWrite_safe hi h hhand hp (by omega)
  · rw [if_neg hmany]
    by_cases hone : k.frames.refcnt (frameOf (k.pte (vpn fault.addr))) = 1
    · rw [if_pos hone]
      rcases grantEntry_bits (k.pte (vpn fault.addr)) with ⟨hP, hA, hframe⟩
      have hi' : i < (w.withCache k.cache).nspaces := hi
      exact KernKeeps.of_mem (setPerm_keeps hi' h hp (hP.trans hp) hframe (hA.trans (h.alloc _ hp))
        fun _ _ => hone)
    · rw [if_neg hone]
      exact .refl h

/-! ## The handlers -/

/-- What the processor and `arch_do_page_fault` report about a fault. -/
structure Reported (t : PageTables) (fault : PagefaultDesc) : Prop where
  user : vpn fault.addr < 2 ^ 35
  cow : fault.cow = (t.getmapping fault.addr).toOption
  present : has fault.errCode PTE_P = t.reached .pt (vpn fault.addr)

theorem Reported.absent (hr : Reported k.tables fault) (h : Tidy k.tables k.frames)
    (herr : ¬ has fault.errCode PTE_P = true) : k.tables.isP .pt (vpn fault.addr) = false := by
  rw [hr.present, PageTables.reached_eq_isP h] at herr
  simpa using herr

theorem Reported.cow_eq (hr : Reported k.tables fault) (h : Tidy k.tables k.frames)
    (hcow : fault.cow = some v) :
    v = vpn fault.addr ∧ k.tables.isP .pt (vpn fault.addr) = true := by
  rw [hr.cow, PageTables.getmapping, PageTables.reached_eq_isP h] at hcow
  by_cases haddr : fault.addr = 0
  · simp [haddr, Except.toOption] at hcow
  · rw [if_neg haddr] at hcow
    by_cases hp : k.tables.isP .pt (vpn fault.addr) = true
    · rw [if_pos hp] at hcow
      exact ⟨by simpa [Except.toOption] using hcow.symm, hp⟩
    · rw [if_neg hp] at hcow
      simp [Except.toOption] at hcow

theorem handleWritablePageFault_safe {offset size : BitVec 64} (hi : i < w.nspaces)
    (h : Tidy k.tables k.frames) (hhand : w.hand = none) (hr : Reported k.tables fault) :
    Safe AnyFault (handleWritablePageFault env held vmr fault offset size k) fun x =>
      KernKeeps strict w i k x.2 := by
  rw [handleWritablePageFault]
  by_cases herr : has fault.errCode PTE_P = true
  · rw [if_pos herr]
    exact .refl h
  · rw [if_neg herr]
    have hp := hr.absent h herr
    cases vmr.file with
    | none => exact onMem_mapN_safe strict hi h hr.user hp hhand
    | some ip => exact loadFile_safe hi h hr.user hp hhand

theorem handleWriteFault_safe {offset size : BitVec 64} (hi : i < w.nspaces)
    (h : Tidy k.tables k.frames) (hhand : w.hand = none) (hr : Reported k.tables fault) :
    Safe AnyFault (handleWriteFault env held vmr fault offset size k) fun x =>
      KernKeeps strict w i k x.2 := by
  rw [handleWriteFault]
  by_cases hwrite : vmrWrite vmr = true
  · rw [if_pos hwrite]
    cases hcow : fault.cow with
    | none => exact handleWritablePageFault_safe hi h hhand hr
    | some v =>
      cases vmrShared vmr with
      | true => exact handleWritablePageFault_safe hi h hhand hr
      | false =>
        rcases hr.cow_eq h hcow with ⟨rfl, hp⟩
        exact handleCowFault_safe hi h hhand hp
  · rw [if_neg hwrite]
    exact .refl h

theorem handleReadExecFault_safe {offset size : BitVec 64} (hi : i < w.nspaces)
    (h : Tidy k.tables k.frames) (hhand : w.hand = none) (hr : Reported k.tables fault) :
    Safe AnyFault (handleReadExecFault env held vmr fault offset size k) fun x =>
      KernKeeps strict w i k x.2 := by
  rw [handleReadExecFault]
  by_cases hallowed : (!vmrRead vmr && !vmrExec vmr) = true
  · rw [if_pos hallowed]
    exact .refl h
  · rw [if_neg hallowed]
    by_cases herr : has fault.errCode PTE_P = true
    · rw [if_pos herr]
      exact .refl h
    · rw [if_neg herr]
      exact loadPageFromFile_safe hi h hr.user (hr.absent h herr) hhand

variable (strict) in
theorem defaultPgfHandler_safe (hi : i < w.nspaces) (h : Tidy k.tables k.frames)
    (hhand : w.hand = none) (hr : Reported k.tables fault) :
    Safe AnyFault (defaultPgfHandler env held vmr fault k) fun x => KernKeeps strict w i k x.2 := by
  rw [defaultPgfHandler]
  by_cases hwrite : has fault.errCode PTE_W = true
  · rw [if_pos hwrite]
    exact handleWriteFault_safe hi h hhand hr
  · rw [if_neg hwrite]
    exact handleReadExecFault_safe hi h hhand hr

end KernKeeps

end Arch
end XytherOS
