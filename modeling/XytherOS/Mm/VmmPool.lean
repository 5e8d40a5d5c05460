import XytherOS.Mm.VmmRun

/-!
# VmmPool — the pool of records that `vmm_init` builds

`vmm_init` links the `NNODES = KHEAPSIZE / PGSZ` records of the pages it was given into the pool.
It clears the first word of these pages only, so the `next` field of the last record keeps what was
there before; and with `KHEAPSIZE` not a multiple of the page size there is one record too few.
The pool is safe exactly when neither happens.
-/

namespace XytherOS
namespace Mm
namespace Vmm

open Links Tiling

/-! ## Safety of the pool -/

/-- `free_node_list` is a null-terminated chain of all records, in order. -/
def PoolChain (s : State) : Prop :=
  s.freeNodeList = (List.range s.nnodes).head? ∧
    Chain (nexts s.mem) (prevs s.mem) none (List.range s.nnodes) none

/-- `free_node_get` returns a record of the pool, if any, and no `alloc` fails for want of one. -/
def PoolStep (s : State) : Prop :=
  (∀ x, (freeNodeGet s).1 = some x → x < s.nnodes) ∧
    ∀ size, (Call.alloc size).PageSized → alloc s size ≠ .error (.assertion "No vm node.")

/-- The pool that `vmm_init` builds from `pages`, and every state reached from there, is safe. -/
def PoolSafe (total : BitVec 64) (pages : Nat → Node) : Prop :=
  PoolChain (initPool total pages) ∧
    ∃ s, vmmInit total (some pages) = .ok s ∧
      ∀ cs : List Call, (∀ c ∈ cs, c.PageSized) → ∀ s', run s cs = .ok s' → PoolStep s'

def kheapBytes (total : BitVec 64) : BitVec 64 := 1024 * total * 2

/-- There is a record at all, one for each page of the heap, and the last word of the node array
is zero. -/
def PoolCondition (total : BitVec 64) (pages : Nat → Node) : Prop :=
  0 < (kheapBytes total / PGSZ).toNat ∧ PGSZ.toNat ∣ (kheapBytes total).toNat ∧
    (pages ((kheapBytes total / PGSZ).toNat - 1)).next = none

/-- The pages asked for fit in the zone that `pmman.get_pages(GFP_NORMAL, order)` takes them
from. -/
def PagesReturned (total : BitVec 64) : Prop :=
  2 ^ Nat.clog 2 (poolPages (kheapBytes total)) ≤ normZonePages

/-! ## The chain -/

theorem initPool_nnodes (total : BitVec 64) (pages : Nat → Node) :
    (initPool total pages).nnodes = (kheapBytes total / PGSZ).toNat := rfl

variable {pages : Nat → Node}

theorem initPool_next {total : BitVec 64} {j : Nat}
    (hj : j < (kheapBytes total / PGSZ).toNat) :
    ((initPool total pages).mem j).next =
      if j + 1 < (kheapBytes total / PGSZ).toNat then some (j + 1) else (pages j).next := by
  have hj' : j < (1024 * total * 2 / PGSZ).toNat := hj
  simp only [initPool, linkPool, hj', if_true, kheapBytes]
  by_cases h0 : j = 0
  · subst h0
    simp
  · simp [h0]

theorem initPool_prev {total : BitVec 64} {j : Nat}
    (hj : j < (kheapBytes total / PGSZ).toNat) :
    ((initPool total pages).mem j).prev = if 0 < j then some (j - 1) else none := by
  have hj' : j < (1024 * total * 2 / PGSZ).toNat := hj
  simp only [initPool, linkPool, hj', if_true]
  by_cases h0 : j = 0
  · subst h0
    simp
  · simp [Nat.pos_of_ne_zero h0]

theorem poolChain_iff (total : BitVec 64) (pages : Nat → Node) :
    PoolChain (initPool total pages) ↔ 0 < (kheapBytes total / PGSZ).toNat ∧
      (pages ((kheapBytes total / PGSZ).toNat - 1)).next = none := by
  rw [PoolChain, initPool_nnodes]
  generalize hn : (kheapBytes total / PGSZ).toNat = n
  constructor
  · rintro ⟨hhead, hchain⟩
    have hpos : 0 < n := by
      rcases Nat.eq_zero_or_pos n with rfl | hpos
      · simp [initPool] at hhead
      · exact hpos
    refine ⟨hpos, ?_⟩
    have hlast : List.range n = List.range (n - 1) ++ (n - 1) :: [] := by
      rw [← List.range_succ, Nat.succ_eq_add_one, Nat.sub_add_cancel hpos]
    rw [hlast] at hchain
    have hnext := hchain.mid.2
    simp only [nexts, LinkNode.next] at hnext
    rw [initPool_next (by omega), if_neg (by omega)] at hnext
    simpa using hnext
  · rintro ⟨hpos, hzero⟩
    refine ⟨?_, ?_⟩
    · rw [List.range_eq_range', ← Nat.sub_add_cancel hpos, List.range'_succ]
      rfl
    · rw [List.range_eq_range']
      refine chain_range' n 0 ?_ ?_
      · intro j _ hj
        simp only [nexts, LinkNode.next]
        rw [initPool_next (by omega), hn, Nat.zero_add]
        split_ifs with hlt
        · rfl
        · rw [← hzero]
          congr 2
          omega
      · intro j _ hj
        simp only [prevs, LinkNode.prev]
        rw [initPool_prev (by omega)]

/-! ## The state after `vmm_init` -/

theorem PagesReturned.small {total : BitVec 64} (h : PagesReturned total) :
    KHEAPBASE.toNat + (kheapBytes total).toNat ≤ 2 ^ 64 := by
  have hle : poolPages (kheapBytes total) ≤ normZonePages :=
    (Nat.le_pow_clog (by decide) _).trans h
  have hbase : KHEAPBASE.toNat = 0xFFFF800100000000 := by decide
  have hdiv : (kheapBytes total / PGSZ).toNat = (kheapBytes total).toNat / 4096 := by
    simp [BitVec.toNat_udiv, PGSZ]
  rw [poolPages, hdiv, normZonePages] at hle
  omega

theorem vmmInit_rep {total : BitVec 64} (hp : PagesReturned total)
    (hpos : 0 < (kheapBytes total / PGSZ).toNat) (hc : PoolChain (initPool total pages)) :
    ∃ s pl, vmmInit total (some pages) = .ok s ∧ s.kheapSize = kheapBytes total ∧
      Rep s [⟨0, KHEAPBASE.toNat, (kheapBytes total).toNat, false⟩] pl := by
  set s₀ := initPool total pages with hs0
  set n := (kheapBytes total / PGSZ).toNat with hn
  set t : Tile Nat := ⟨0, KHEAPBASE.toNat, (kheapBytes total).toNat, false⟩ with ht
  have hnn : s₀.nnodes = n := initPool_nnodes total pages
  have hrange : List.range n = 0 :: List.range' 1 (n - 1) := by
    rw [List.range_eq_range', ← Nat.sub_add_cancel hpos, List.range'_succ]
    simp
  have hlists : lists [] (List.range n) .pool = 0 :: List.range' 1 (n - 1) := hrange
  have h0 : Linked s₀ (lists [] (List.range n)) := by
    rcases hc with ⟨hhead, hchain⟩
    rw [hnn] at hhead hchain
    refine ⟨⟨fun w => ?_, fun v w y hv hw => ?_⟩, fun w => ?_, fun w y hy => ?_⟩
    · cases w with
      | pool => exact hchain
      | free => trivial
      | used => trivial
    · cases v <;> cases w <;> simp [lists] at hv hw ⊢
    · cases w with
      | pool => exact hhead
      | free => rfl
      | used => rfl
    · rw [hnn]
      cases w <;> simp [lists] at hy
      exact hy
  rcases freeNodeGet_spec h0 hlists with ⟨s₁, hget, h₁, hk1⟩
  have hupd : Function.update (lists [] (List.range n)) .pool (List.range' 1 (n - 1)) =
      lists ([] ++ []) (List.range' 1 (n - 1)) := by
    funext w
    cases w <;> simp [lists]
  rw [hupd] at h₁
  have hkh1 : s₁.kheapSize = kheapBytes total := hk1.kheapSize
  have hsize : 0 < (kheapBytes total).toNat := by
    have hdiv : n = (kheapBytes total).toNat / 4096 := by
      simp [hn, BitVec.toNat_udiv, PGSZ]
    omega
  set s₂ := s₁.modify 0 fun m => { m with base := KHEAPBASE, size := s₁.kheapSize } with hs2
  have hloose : Loose s₂ KHEAPBASE.toNat (KHEAPBASE.toNat + (kheapBytes total).toNat) [] t []
      (List.range' 1 (n - 1)) := by
    refine ⟨?_, ?_, ?_, ?_, ⟨rfl, hsize, rfl⟩, ?_⟩
    · apply h₁.modify <;> exact fun _ => rfl
    · intro v
      cases v <;> simp [lists, ht]
    · have hb : s₂.nnodes = s₁.nnodes := rfl
      rw [hb, hk1.nnodes, hnn]
      exact hpos
    · intro u hu
      have hu' : u = t := by simpa using hu
      subst hu'
      simp [Describes, hs2, ht, hkh1]
    · have hlt := (kheapBytes total).isLt
      omega
  rcases hloose.freevmrPut with ⟨s, l, gone, hput, hr, hs⟩
  have hkh : s.kheapSize = kheapBytes total := hs.kheapSize.trans hkh1
  have hum : s.usedMemsz = 0 := hs.usedMemsz.trans hk1.usedMemsz
  have hinit : vmmInit total (some pages) = .ok s := by
    have hfit : ¬ normZonePages < 2 ^ Nat.clog 2 (poolPages (1024 * total * 2)) :=
      Nat.not_lt.2 hp
    simp only [vmmInit, hfit, if_false, ← hs0, hget]
    exact hput
  rcases hr.lone rfl rfl with ⟨rfl, rfl⟩
  refine ⟨s, List.range' 1 (n - 1), hinit, hkh, hs.linked, hs.describes, ?_, ?_, ?_, ?_, ?_, ?_⟩
  · rw [hkh]
    exact ⟨rfl, hsize, rfl⟩
  · exact List.isChain_singleton _
  · simp [hum, usedTiles]
  · simp only [List.length_singleton, List.length_range', State.nnodes, hkh]
    omega
  · rw [hkh]
    exact hp.small
  · intro hK u hu
    have hu' : u = t := by simpa using hu
    subst hu'
    rw [hkh] at hK
    exact hK

/-! ## A heap that is no multiple of the page size -/

def Filling (l : List (Tile Nat)) (size : Nat) : Prop :=
  ∃ us f, l = us ++ [f] ∧ (∀ u ∈ us, u.used = true) ∧ f.used = false ∧ f.size = size

theorem Filling.split {us l₁ l₂ : List (Tile Nat)} {f t : Tile Nat} (hus : ∀ u ∈ us, u.used = true)
    (h : us ++ [f] = l₁ ++ t :: l₂) (ht : t.used = false) : l₁ = us ∧ t = f ∧ l₂ = [] := by
  rcases List.eq_nil_or_concat l₂ with rfl | ⟨k, v, rfl⟩
  · have hlast := List.append_inj' h rfl
    exact ⟨hlast.1.symm, by simpa using hlast.2.symm, rfl⟩
  · exfalso
    have hcat : us ++ [f] = (l₁ ++ t :: k) ++ [v] := by simpa using h
    have hus' := (List.append_inj' hcat rfl).1
    have htu := hus t (by simp [hus'])
    simp [htu] at ht

theorem Filling.carved {l l' : List (Tile Nat)} {pl pl' : List Nat} {n size : Nat}
    (hl : Filling l size) (hlt : n < size) (h : Carved n l pl l' pl') :
    ∃ x, pl = x :: pl' ∧ Filling l' (size - n) := by
  rcases hl with ⟨us, f, hl, hus, hf, hsize⟩
  cases h with
  | @split l₁ l₂ t x _ ht _ =>
    rcases Filling.split hus hl.symm ht with ⟨rfl, rfl, rfl⟩
    refine ⟨x, rfl, l₁ ++ [⟨x, t.base, n, true⟩],
      { t with base := t.base + n, size := t.size - n }, by simp [carve], ?_, hf, ?_⟩
    · intro u hu
      rcases List.mem_append.1 hu with hu | hu
      · exact hus u hu
      · have hux : u = ⟨x, t.base, n, true⟩ := by simpa using hu
        rw [hux]
    · rw [hsize]
  | @whole l₁ l₂ t _ ht hn =>
    rcases Filling.split hus hl.symm ht with ⟨rfl, rfl, rfl⟩
    omega

theorem Rep.exhausts {s : State} {l : List (Tile Nat)} {pl : List Nat} (h : Rep s l pl) {r : Nat}
    (hr : 0 < r) (hl : Filling l (4096 * (pl.length + 1) + r)) :
    ∃ k s', Vmm.run s (List.replicate k (.alloc PGSZ)) = .ok s' ∧
      Vmm.alloc s' PGSZ = .error (.assertion "No vm node.") := by
  have hpg : PGSZ.toNat = 4096 := rfl
  have hpg0 : PGSZ ≠ 0 := by decide
  have hpgd : PGSZ.toNat ∣ PGSZ.toNat := Nat.dvd_refl _
  induction pl generalizing s l with
  | nil =>
    refine ⟨0, s, rfl, ?_⟩
    rcases h.alloc hpg0 hpgd with ⟨herr, _⟩ | ⟨_, _, hno⟩ |
      ⟨addr, s', l', pl', _, _, _, hcarve, -⟩
    · exact herr
    · rcases hl with ⟨us, f, rfl, _, hf, hsize⟩
      have hlt := hno f (by simp) hf
      omega
    · rcases hl.carved (by omega) hcarve with ⟨x, hx, _⟩
      simp at hx
  | cons x pl ih =>
    rcases h.alloc hpg0 hpgd with ⟨_, hempty, _⟩ | ⟨_, _, hno⟩ |
      ⟨addr, s₁, l₁, pl1, hok, hrep, _, hcarve, -⟩
    · simp at hempty
    · rcases hl with ⟨us, f, rfl, _, hf, hsize⟩
      have hlt := hno f (by simp) hf
      omega
    · rcases hl.carved (by omega) hcarve with ⟨y, hy, hl1⟩
      have hpl : pl = pl1 := (List.cons.inj hy).2
      subst hpl
      have hsize : 4096 * ((x :: pl).length + 1) + r - PGSZ.toNat =
          4096 * (pl.length + 1) + r := by
        rw [List.length_cons]
        omega
      rw [hsize] at hl1
      rcases ih hrep hl1 with ⟨k, s', hrun, herr⟩
      refine ⟨k + 1, s', ?_, herr⟩
      rw [List.replicate_succ]
      simp [Vmm.run, Vmm.call, hok, hrun]

/-! ## When the pool is safe -/

theorem PoolSafe.condition {total : BitVec 64} (hp : PagesReturned total)
    (h : PoolSafe total pages) : PoolCondition total pages := by
  rcases h with ⟨hchain, s, hinit, hrun⟩
  rcases (poolChain_iff total pages).1 hchain with ⟨hpos, hzero⟩
  refine ⟨hpos, ?_, hzero⟩
  by_contra hK
  rcases vmmInit_rep hp hpos hchain with ⟨s', pl, hinit', hkh, hrep⟩
  have hss : s' = s := by
    rw [hinit] at hinit'
    exact (Except.ok.inj hinit').symm
  subst hss
  -- The heap is some pages and a remainder, with one record for each page.
  have hcount := hrep.counted
  have hdiv : s'.nnodes = (kheapBytes total).toNat / 4096 := by
    simp [State.nnodes, hkh, BitVec.toNat_udiv, PGSZ]
  have hrem : 0 < (kheapBytes total).toNat % 4096 := by
    rcases Nat.eq_zero_or_pos ((kheapBytes total).toNat % 4096) with hz | hpos
    · exact absurd (Nat.dvd_of_mod_eq_zero hz) hK
    · exact hpos
  have hfill : Filling [⟨0, KHEAPBASE.toNat, (kheapBytes total).toNat, false⟩]
      (4096 * (pl.length + 1) + (kheapBytes total).toNat % 4096) := by
    refine ⟨[], _, rfl, by simp, rfl, ?_⟩
    simp only [List.length_singleton] at hcount
    simp only
    omega
  rcases hrep.exhausts hrem hfill with ⟨k, s'', hrun', herr⟩
  have hpaged : ∀ c ∈ List.replicate k (Call.alloc PGSZ), c.PageSized := by
    intro c hc
    rw [List.eq_of_mem_replicate hc]
    exact ⟨by decide, by decide⟩
  exact (hrun _ hpaged s'' hrun').2 PGSZ ⟨by decide, by decide⟩ herr

theorem PoolCondition.safe {total : BitVec 64} (hp : PagesReturned total)
    (h : PoolCondition total pages) : PoolSafe total pages := by
  rcases h with ⟨hpos, hK, hzero⟩
  have hchain := (poolChain_iff total pages).2 ⟨hpos, hzero⟩
  rcases vmmInit_rep hp hpos hchain with ⟨s, pl, hinit, hkh, hrep⟩
  refine ⟨hchain, s, hinit, fun cs hcs s' hrun => ?_⟩
  rcases hrep.run hcs with ⟨s'', l', pl', hrun', hrep', hkh'⟩ | ⟨herr, _⟩ | ⟨herr, _⟩
  · have hss : s'' = s' := Except.ok.inj (hrun'.symm.trans hrun)
    subst hss
    refine ⟨fun x hx => ?_, fun size hsize herr => ?_⟩
    · cases pl' with
      | nil =>
        have hempty : s''.freeNodeList = none := hrep'.linked.head .pool
        simp [freeNodeGet, hempty] at hx
      | cons y ys =>
        rcases freeNodeGet_spec hrep'.linked rfl with ⟨s₁, hget, _⟩
        have hxy : y = x := by simpa [hget] using hx
        exact hrep'.linked.bound .pool x (by simp [lists, hxy])
    · have hcall := hrep'.call (c := .alloc size) hsize
      have herr' : Vmm.call s'' (.alloc size) = .error (.assertion "No vm node.") := by
        simp [Vmm.call, herr]
      rcases hcall with ⟨_, _, _, hok, _⟩ | ⟨_, habs⟩ | ⟨_, hno⟩
      · simp [herr'] at hok
      · simp at habs
      · rw [hkh', hkh] at hno
        exact hno hK
  · simp [herr] at hrun
  · simp [herr] at hrun

/-- The pool of records is safe, for a boot memory total whose node array can be allocated,
exactly when the heap is a positive number of whole pages and the last record's `next` word was
zero in the pages that hold the array. -/
theorem vmm_pool_safe_iff (total : BitVec 64) (pages : Nat → Node) (hp : PagesReturned total) :
    PoolSafe total pages ↔ PoolCondition total pages :=
  ⟨fun h => h.condition hp, fun h => h.safe hp⟩

theorem pagesReturned_of_le {total : BitVec 64} (h : poolPages (kheapBytes total) ≤ 2 ^ 18) :
    PagesReturned total :=
  calc 2 ^ Nat.clog 2 (poolPages (kheapBytes total))
      ≤ 2 ^ 18 := Nat.pow_le_pow_right (by decide) (Nat.clog_le_of_le_pow h)
    _ ≤ normZonePages := by decide

theorem vmm_pool_safe_128MiB :
    PagesReturned 131072 ∧ PoolSafe 131072 fun _ => Node.zero :=
  have hp : PagesReturned 131072 := pagesReturned_of_le (by decide)
  ⟨hp, (vmm_pool_safe_iff 131072 (fun _ => Node.zero) hp).2 ⟨by decide, by decide, rfl⟩⟩

/-- Stale data in the pages of a 128 MiB machine becomes the `next` link of the last record; and a
machine with an odd number of KiB runs out of records even on zeroed pages. -/
theorem vmm_pool_unsafe :
    (¬ PoolSafe 131072 fun _ => { Node.zero with next := some 131072 }) ∧
      ¬ PoolSafe 131071 fun _ => Node.zero := by
  refine ⟨fun h => ?_, fun h => ?_⟩
  · have hlast := (h.condition (pagesReturned_of_le (by decide))).2.2
    simp at hlast
  · have hdvd := (h.condition (pagesReturned_of_le (by decide))).2.1
    exact absurd hdvd (by decide)

end Vmm
end Mm
end XytherOS
