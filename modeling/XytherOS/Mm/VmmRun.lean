import XytherOS.Mm.VmmRefine

/-!
# VmmRun — whole runs of the kernel virtual-range allocator

`Rep s l pl` relates a state of the allocator to the tiling `l` of the kernel heap that its used
and free records describe.  One lemma for `alloc` and one for `free` say which tiling the next
state has; the results about runs follow by induction over the calls.
-/

namespace XytherOS
namespace Mm
namespace Vmm

open Function Links Tiling

/-! ## The representation -/

def usedTiles (l : List (Tile Nat)) : List (Tile Nat) := l.filter fun t => t.used == true

/-- The records of `s` describe the tiling `l` of the heap; `pl` are the spare records. -/
structure Rep (s : State) (l : List (Tile Nat)) (pl : List Nat) : Prop where
  linked : Linked s (lists l pl)
  describes : ∀ t ∈ l, Describes s t
  tiles : Tiles KHEAPBASE.toNat l (KHEAPBASE.toNat + s.kheapSize.toNat)
  coalesced : Coalesced l
  usedMemsz : s.usedMemsz.toNat = total (usedTiles l)
  counted : l.length + pl.length = s.nnodes
  fits : KHEAPBASE.toNat + s.kheapSize.toNat ≤ 2 ^ 64
  paged : PGSZ.toNat ∣ s.kheapSize.toNat → ∀ t ∈ l, PGSZ.toNat ∣ t.size

theorem total_usedTiles_le (l : List (Tile Nat)) : total (usedTiles l) ≤ total l := by
  induction l with
  | nil => simp [usedTiles]
  | cons t ts ih =>
    have hcons : total (usedTiles (t :: ts)) ≤ t.size + total (usedTiles ts) := by
      cases hu : t.used <;> simp [usedTiles, hu]
    rw [total_cons]
    omega

theorem Rep.total_eq {s : State} {l : List (Tile Nat)} {pl : List Nat} (h : Rep s l pl) :
    total l = s.kheapSize.toNat := by
  have := h.tiles.add_total
  omega

theorem Rep.small {s : State} {l : List (Tile Nat)} {pl : List Nat} (_ : Rep s l pl) :
    KHEAPBASE.toNat + s.kheapSize.toNat < KHEAPBASE.toNat + 2 ^ 64 := by
  have := s.kheapSize.isLt
  omega

theorem find?_slots {b : Bool} {l : List (Tile Nat)} {q : Nat → Bool} {x : Nat}
    (h : (slots b l).find? q = some x) :
    ∃ l₁ t l₂, l = l₁ ++ t :: l₂ ∧ t.used = b ∧ t.slot = x ∧ q x = true := by
  have hmem := List.mem_of_find?_eq_some h
  rcases mem_slots.1 hmem with ⟨t, ht, hb, rfl⟩
  rcases List.append_of_mem ht with ⟨l₁, l₂, hl⟩
  exact ⟨l₁, t, l₂, hl, hb, rfl, List.find?_some h⟩

theorem Linked.setUsedMemsz {s : State} {L : Which → List Nat} (h : Linked s L) (v : BitVec 64) :
    Linked { s with usedMemsz := v } L := by
  refine ⟨h.chains, fun w => ?_, h.bound⟩
  have hw := h.head w
  cases w <;> exact hw

/-! ## `alloc` -/

variable {t : Tile Nat} {l₁ l₂ : List (Tile Nat)}

theorem Loose.allocPut {s : State} {a e : Nat}
    {pl : List Nat} (h : Loose s a e l₁ t l₂ pl) (ht : t.used = true) (size : BitVec 64) :
    ∃ s', Vmm.allocPut s t.slot size = .ok (.ok, some (s.mem t.slot).base, s') ∧
      Linked s' (lists (l₁ ++ t :: l₂) pl) ∧ (∀ u ∈ l₁ ++ t :: l₂, Describes s' u) ∧
      s'.kheapSize = s.kheapSize ∧ s'.usedMemsz = s.usedMemsz + size := by
  have hw : lists (l₁ ++ l₂) pl .used = slots true l₁ ++ slots true l₂ := by simp [lists]
  have hlists : update (lists (l₁ ++ l₂) pl) .used
      (slots true l₁ ++ t.slot :: slots true l₂) = lists (l₁ ++ t :: l₂) pl := by
    funext w
    cases w <;> simp [lists, ht]
  have hdt := h.describes t (by simp)
  have hpos := (h.tiles.bounds (t := t) (by simp)).2.2
  have h₁ : ∀ y ∈ slots true l₁, ¬ (s.mem t.slot).base < (s.mem y).base := by
    intro y hy
    rcases mem_slots.1 hy with ⟨u, hu, _, rfl⟩
    have hdu := h.describes u (by simp [hu])
    have hle := h.stop_le hu
    simp only [Describes, Tile.stop] at hdt hdu hle
    rw [BitVec.lt_def]
    omega
  have h₂ : ∀ y ∈ slots true l₂, (s.mem t.slot).base < (s.mem y).base := by
    intro y hy
    rcases mem_slots.1 hy with ⟨u, hu, _, rfl⟩
    have hdu := h.describes u (by simp [hu])
    have hle := h.le_base hu
    simp only [Describes, Tile.stop] at hdt hdu hle
    rw [BitVec.lt_def]
    omega
  rcases usedvmrPut_spec h.linked h.fresh h.bound hw h₁ h₂ with ⟨s', hput, hl, hk⟩
  rw [hlists] at hl
  refine ⟨{ s' with usedMemsz := s'.usedMemsz + size }, by simp [Vmm.allocPut, hput],
    hl.setUsedMemsz _, fun u hu => ?_, hk.kheapSize, by simp [hk.usedMemsz]⟩
  have hdu : Describes s' u := (h.describes u hu).keeps hk (by simp)
  exact hdu

theorem Rep.splitFront {s s₁ : State} {x : Nat}
    {pl : List Nat} {size : BitVec 64} (h : Rep s (l₁ ++ t :: l₂) (x :: pl))
    (h₁ : Linked s₁ (lists (l₁ ++ t :: l₂) pl)) (hk1 : Keeps s s₁ [x])
    (hpos : 0 < size.toNat) (hlt : size.toNat < t.size) :
    Loose (Vmm.splitFront s₁ x t.slot size) KHEAPBASE.toNat
      (KHEAPBASE.toNat + s.kheapSize.toNat) l₁ ⟨x, t.base, size.toNat, true⟩
      ({ t with base := t.base + size.toNat, size := t.size - size.toNat } :: l₂) pl := by
  -- The spare record is none of those in use.
  have hfresh : ∀ w, x ∉ lists (l₁ ++ t :: l₂) pl w := by
    have hpool : lists (l₁ ++ t :: l₂) (x :: pl) .pool = [] ++ x :: pl := rfl
    have hnot := h.linked.chains.not_mem_remove hpool
    intro w
    have hw := hnot w
    cases w <;> simpa [lists] using hw
  have hslot : ∀ u ∈ l₁ ++ t :: l₂, u.slot ≠ x := by
    rintro u hu rfl
    rcases mem_lists_of_mem pl hu with ⟨w, hw⟩
    exact hfresh w hw
  have hxt := hslot t (by simp)
  rcases splitFront_spec h₁ hxt.symm size with ⟨h₂, hk2, hbx, hsx, hbt, hst⟩
  have hk := hk1.trans hk2
  have hd : ∀ u ∈ l₁ ++ t :: l₂, Describes s₁ u := fun u hu =>
    (h.describes u hu).keeps hk1 (by simpa using hslot u hu)
  have hdt := hd t (by simp)
  have hlists : lists (l₁ ++ { t with base := t.base + size.toNat, size := t.size - size.toNat } ::
      l₂) pl = lists (l₁ ++ t :: l₂) pl := by
    funext w
    cases w <;> simp [lists]
  refine ⟨by rw [hlists]; exact h₂, fun w => by rw [hlists]; exact hfresh w, ?_, ?_, ?_, h.small⟩
  · rw [hk.nnodes]
    exact h.linked.bound .pool x (by simp [lists])
  · intro u hu
    have hcase : u ∈ l₁ ++ l₂ ∨ u = ⟨x, t.base, size.toNat, true⟩ ∨
        u = { t with base := t.base + size.toNat, size := t.size - size.toNat } := by
      simp only [List.mem_append, List.mem_cons] at hu ⊢
      tauto
    rcases hcase with hu | rfl | rfl
    · have hu' : u ∈ l₁ ++ t :: l₂ := by
        simp only [List.mem_append, List.mem_cons] at hu ⊢
        tauto
      have hnd : ((l₁ ++ ([t] ++ l₂)).map Tile.slot).Nodup := h.linked.nodup
      have hut := slot_notMem_mid hnd hu
      refine (hd u hu').keeps hk2 ?_
      simpa [hslot u hu'] using hut
    · exact ⟨by rw [hbx]; exact hdt.1, by rw [hsx]⟩
    · have hstop := (h.tiles.bounds (t := t) (by simp)).2.1
      have hfits := h.fits
      simp only [Describes, hbt, hst, Tile.stop] at hdt hstop ⊢
      exact ⟨by bv_omega, by bv_omega⟩
  · exact h.tiles.carve x hpos hlt

theorem Rep.unlinkFree {s : State} {pl : List Nat}
    (h : Rep s (l₁ ++ t :: l₂) pl) (ht : t.used = false) :
    Loose (Vmm.unlinkFree s t.slot) KHEAPBASE.toNat (KHEAPBASE.toNat + s.kheapSize.toNat) l₁
      { t with used := true } l₂ pl := by
  have hw : lists (l₁ ++ t :: l₂) pl .free = slots false l₁ ++ t.slot :: slots false l₂ := by
    simp [lists, ht]
  have hlists : update (lists (l₁ ++ t :: l₂) pl) .free
      (slots false l₁ ++ slots false l₂) = lists (l₁ ++ l₂) pl := by
    funext w
    cases w <;> simp [lists, ht]
  rcases unlinkFree_spec h.linked hw with ⟨hl, hk⟩
  have hnot := h.linked.chains.not_mem_remove hw
  rw [hlists] at hl hnot
  refine ⟨hl, hnot, ?_, ?_, h.tiles.use true, h.small⟩
  · rw [hk.nnodes]
    exact h.linked.bound .free t.slot (by simp [hw])
  · intro u hu
    refine describes_exchange [t] h.linked.nodup h.describes hk (by simp) ?_ u hu
    exact (h.describes t (by simp)).keeps hk (by simp)

/-- `HandedOut n addr l l'`: of a free tile that starts at `addr`, the first `n` addresses are used
now, and what is left of it stays free. -/
def HandedOut (n addr : Nat) (l l' : List (Tile Nat)) : Prop :=
  ∃ l₁ t l₂ u rest, l = l₁ ++ t :: l₂ ∧ l' = l₁ ++ (u :: rest ++ l₂) ∧ t.used = false ∧
    t.base = addr ∧ u.used = true ∧ u.base = addr ∧ u.size = n ∧
    ∀ r ∈ rest, r.used = false ∧ r.base = addr + n

theorem HandedOut.usedTiles {n addr : Nat} {l l' : List (Tile Nat)} (h : HandedOut n addr l l') :
    ∃ us1 u us2, Vmm.usedTiles l = us1 ++ us2 ∧ Vmm.usedTiles l' = us1 ++ u :: us2 ∧
      u.base = addr ∧ u.size = n := by
  rcases h with ⟨l₁, t, l₂, u, rest, rfl, rfl, ht, -, hu, hbase, hsize, hrest⟩
  refine ⟨Vmm.usedTiles l₁, u, Vmm.usedTiles l₂, ?_, ?_, hbase, hsize⟩
  · simp [Vmm.usedTiles, ht]
  · simp only [Vmm.usedTiles, List.filter_append, List.filter_cons, hu]
    simpa using fun r hr => (hrest r hr).1

theorem HandedOut.dvd {n addr q : Nat} {l l' : List (Tile Nat)} (h : HandedOut n addr l l')
    (hn : q ∣ n) (hq : ∀ t ∈ l, q ∣ t.base) : q ∣ addr ∧ ∀ t ∈ l', q ∣ t.base := by
  rcases h with ⟨l₁, t, l₂, u, rest, rfl, rfl, -, rfl, -, hbase, -, hrest⟩
  have haddr : q ∣ t.base := hq t (by simp)
  refine ⟨haddr, fun v hv => ?_⟩
  simp only [List.mem_append, List.mem_cons] at hv hq
  rcases hv with hv | (rfl | hv) | hv
  · exact hq v (.inl hv)
  · exact hbase ▸ haddr
  · exact (hrest v hv).2 ▸ Nat.dvd_add haddr hn
  · exact hq v (.inr (.inr hv))

theorem Loose.allocPut_rep {s s₁ : State} {l : List (Tile Nat)}
    {pl pl' : List Nat} {size : BitVec 64} (h : Rep s l pl)
    (hloose : Loose s₁ KHEAPBASE.toNat (KHEAPBASE.toNat + s.kheapSize.toNat) l₁ t l₂ pl')
    (hkheap : s₁.kheapSize = s.kheapSize) (hmemsz : s₁.usedMemsz = s.usedMemsz)
    (ht : t.used = true) (hsize : size.toNat = t.size)
    (hc : Coalesced (l₁ ++ t :: l₂)) (hused : usedTiles (l₁ ++ l₂) = usedTiles l)
    (hcount : (l₁ ++ t :: l₂).length + pl'.length = l.length + pl.length)
    (hpaged : (∀ u ∈ l, PGSZ.toNat ∣ u.size) → ∀ u ∈ l₁ ++ t :: l₂, PGSZ.toNat ∣ u.size) :
    ∃ addr s', Vmm.allocPut s₁ t.slot size = .ok (.ok, some addr, s') ∧
      Rep s' (l₁ ++ t :: l₂) pl' ∧ s'.kheapSize = s.kheapSize ∧ addr.toNat = t.base := by
  have haddr := (hloose.describes t (by simp)).1
  rcases hloose.allocPut ht size with ⟨s', hput, hl, hd, hkh, hum⟩
  have hkh' : s'.kheapSize = s.kheapSize := hkh.trans hkheap
  have hnn : s'.nnodes = s.nnodes := by simp [State.nnodes, hkh']
  have htiles := hloose.tiles
  rw [← hkh'] at htiles
  refine ⟨_, s', hput, ⟨hl, hd, htiles, hc, ?_, ?_, ?_, ?_⟩, hkh', haddr⟩
  · -- The counter does not wrap: the used tiles fit in the heap.
    have htotal := htiles.add_total
    have hle := total_usedTiles_le (l₁ ++ t :: l₂)
    have hsplit : total (usedTiles (l₁ ++ t :: l₂)) = total (usedTiles (l₁ ++ l₂)) + t.size := by
      simp only [usedTiles, List.filter_append, List.filter_cons, ht, beq_self_eq_true, if_true,
        total_append, total_cons]
      omega
    rw [hused, ← h.usedMemsz] at hsplit
    rw [hum, hmemsz, BitVec.toNat_add, hsplit, ← hsize]
    refine Nat.mod_eq_of_lt ?_
    have hlt := s'.kheapSize.isLt
    omega
  · rw [hcount, hnn, h.counted]
  · rw [hkh']
    exact h.fits
  · rw [hkh']
    exact fun hK => hpaged (h.paged hK)

theorem Rep.alloc {s : State} {l : List (Tile Nat)} {pl : List Nat} (h : Rep s l pl)
    {size : BitVec 64} (hsize : size ≠ 0) (hpage : PGSZ.toNat ∣ size.toNat) :
    (Vmm.alloc s size = .error (.assertion "No vm node.") ∧ pl = [] ∧
        ∃ t ∈ l, size.toNat < t.size) ∨
      (∃ err, Vmm.alloc s size = .ok (err, none, s) ∧
        ∀ t ∈ l, t.used = false → t.size < size.toNat) ∨
      ∃ addr s' l' pl', Vmm.alloc s size = .ok (.ok, some addr, s') ∧ Rep s' l' pl' ∧
        s'.kheapSize = s.kheapSize ∧ Carved size.toNat l pl l' pl' ∧
        HandedOut size.toNat addr.toNat l l' ∧
        ∃ x, (slots false l).find? (fun p => decide (size ≤ (s.mem p).size)) = some x ∧
          (s.mem x).base = addr := by
  have hpos : 0 < size.toNat := by
    have hne : size.toNat ≠ 0 := fun h0 => hsize (BitVec.eq_of_toNat_eq (by simpa using h0))
    omega
  have hsum := h.total_eq
  have hused := total_usedTiles_le l
  rcases freevmrGet_spec h.linked hsize with ⟨err, hget⟩
  cases hfind : (lists l pl .free).find? fun p => decide (size ≤ (s.mem p).size) with
  | none =>
    rw [hfind] at hget
    refine Or.inr (Or.inl ⟨err, by simp [Vmm.alloc, hget], fun t ht hf => ?_⟩)
    have hno := List.find?_eq_none.1 hfind t.slot (mem_slots.2 ⟨t, ht, hf, rfl⟩)
    rw [decide_eq_true_eq, BitVec.le_def, (h.describes t ht).2] at hno
    omega
  | some x =>
    rw [hfind] at hget
    rcases find?_slots hfind with ⟨l₁, t, l₂, rfl, ht, rfl, hle⟩
    have hdt := h.describes t (by simp)
    have hle' : size.toNat ≤ t.size := by
      have hle := of_decide_eq_true hle
      rw [BitVec.le_def, hdt.2] at hle
      exact hle
    by_cases hlt : size < (s.mem t.slot).size
    · have hlt' : size.toNat < t.size := by
        rw [BitVec.lt_def, hdt.2] at hlt
        exact hlt
      cases pl with
      | nil =>
        have hempty : s.freeNodeList = none := h.linked.head .pool
        refine Or.inl ⟨?_, rfl, t, by simp, hlt'⟩
        simp [Vmm.alloc, hget, hlt, freeNodeGet, hempty]
      | cons x pl =>
        rcases freeNodeGet_spec h.linked rfl with ⟨s₁, hnode, h₁, hk1⟩
        have hlists : update (lists (l₁ ++ t :: l₂) (x :: pl)) .pool pl =
            lists (l₁ ++ t :: l₂) pl := by
          funext w
          cases w <;> simp [lists]
        rw [hlists] at h₁
        have hloose := h.splitFront h₁ hk1 hpos hlt'
        have hpaged : (∀ u ∈ l₁ ++ t :: l₂, PGSZ.toNat ∣ u.size) →
            ∀ u ∈ l₁ ++ (carve t x size.toNat ++ l₂), PGSZ.toNat ∣ u.size := by
          intro hq
          refine forall_mem_exchange [t] (carve t x size.toNat) hq ?_
          simp only [carve, List.forall_mem_cons, List.not_mem_nil, false_imp_iff,
            implies_true, and_true]
          exact ⟨hpage, Nat.dvd_sub (hq t (by simp)) hpage⟩
        rcases Loose.allocPut_rep h hloose hk1.kheapSize hk1.usedMemsz rfl rfl
          (h.coalesced.carve x size.toNat) (by simp [usedTiles, ht]) (by simp; omega) hpaged
          with ⟨addr, s', hput, hrep, hkh, haddr⟩
        have haddr : addr.toNat = t.base := haddr
        refine Or.inr (Or.inr ⟨addr, s', _, _, ?_, hrep, hkh, Carved.split ht hlt', ?_, ?_⟩)
        · simp [Vmm.alloc, hget, hlt, hnode, hput]
        · exact ⟨l₁, t, l₂, ⟨x, t.base, size.toNat, true⟩,
            [{ t with base := t.base + size.toNat, size := t.size - size.toNat }], rfl, rfl, ht,
            haddr.symm, rfl, haddr.symm, rfl, by simp [ht, haddr]⟩
        · exact ⟨t.slot, hfind, BitVec.eq_of_toNat_eq (hdt.1.trans haddr.symm)⟩
    · have heq : (s.mem t.slot).size = size := by
        refine BitVec.eq_of_toNat_eq ?_
        rw [BitVec.lt_def, hdt.2] at hlt
        rw [hdt.2]
        omega
      have hpaged : (∀ u ∈ l₁ ++ t :: l₂, PGSZ.toNat ∣ u.size) →
          ∀ u ∈ l₁ ++ { t with used := true } :: l₂, PGSZ.toNat ∣ u.size := by
        intro hq
        refine forall_mem_exchange [t] [{ t with used := true }] hq ?_
        simpa using hq t (by simp)
      have hsz : size.toNat = t.size := heq ▸ hdt.2
      rcases Loose.allocPut_rep h (h.unlinkFree ht) rfl rfl rfl hsz
        h.coalesced.use (by simp [usedTiles, ht]) (by simp) hpaged
        with ⟨addr, s', hput, hrep, hkh, haddr⟩
      have haddr : addr.toNat = t.base := haddr
      refine Or.inr (Or.inr ⟨addr, s', _, _, ?_, hrep, hkh, Carved.whole ht hsz.symm, ?_, ?_⟩)
      · simp [Vmm.alloc, hget, heq, hput]
      · exact ⟨l₁, t, l₂, _, [], rfl, rfl, ht, haddr.symm, rfl, haddr.symm, hsz.symm, by simp⟩
      · exact ⟨t.slot, hfind, BitVec.eq_of_toNat_eq (hdt.1.trans haddr.symm)⟩

/-! ## `free` -/

theorem Rep.unlinkUsed {s : State} {pl : List Nat}
    (h : Rep s (l₁ ++ t :: l₂) pl) (ht : t.used = true) (v : BitVec 64) :
    Loose { Vmm.unlinkUsed s t.slot with usedMemsz := v } KHEAPBASE.toNat
      (KHEAPBASE.toNat + s.kheapSize.toNat) l₁ t l₂ pl := by
  have hw : lists (l₁ ++ t :: l₂) pl .used = slots true l₁ ++ t.slot :: slots true l₂ := by
    simp [lists, ht]
  have hlists : update (lists (l₁ ++ t :: l₂) pl) .used
      (slots true l₁ ++ slots true l₂) = lists (l₁ ++ l₂) pl := by
    funext w
    cases w <;> simp [lists, ht]
  rcases unlinkUsed_spec h.linked hw with ⟨hl, hk⟩
  have hnot := h.linked.chains.not_mem_remove hw
  rw [hlists] at hl hnot
  refine ⟨hl.setUsedMemsz v, hnot, ?_, ?_, h.tiles, h.small⟩
  · exact h.linked.bound .used t.slot (by simp [hw])
  · intro u hu
    have hdu : Describes (Vmm.unlinkUsed s t.slot) u := (h.describes u hu).keeps hk (by simp)
    exact hdu

theorem Rep.free {s : State} {l : List (Tile Nat)} {pl : List Nat} (h : Rep s l pl)
    {addr : BitVec 64} (haddr : addr ≠ 0) :
    ∃ s' l' pl', Vmm.free s addr = .ok s' ∧ Rep s' l' pl' ∧ s'.kheapSize = s.kheapSize ∧
      usedTiles l' = ((usedTiles l).eraseP fun t => t.base == addr.toNat) ∧
      ∀ t ∈ l', ∃ u ∈ l, u.base = t.base := by
  have hne : ¬ addr = 0#64 := haddr
  rcases usedvmrFind_spec h.linked haddr with ⟨err, hget⟩
  cases hfind : (lists l pl .used).find? fun p => decide (addr = (s.mem p).base) with
  | none =>
    rw [hfind] at hget
    refine ⟨s, l, pl, by simp [Vmm.free, hne, hget], h, rfl, ?_, fun t ht => ⟨t, ht, rfl⟩⟩
    refine (List.eraseP_of_forall_not ?_).symm
    intro t ht
    rcases List.mem_filter.1 ht with ⟨ht, hu⟩
    have hno := List.find?_eq_none.1 hfind t.slot (mem_slots.2 ⟨t, ht, by simpa using hu, rfl⟩)
    have hdt := h.describes t ht
    simp only [decide_eq_true_eq] at hno
    simp only [Bool.not_eq_true, beq_eq_false_iff_ne, ← hdt.1]
    exact fun heq => hno (BitVec.eq_of_toNat_eq heq.symm)
  | some x =>
    rw [hfind] at hget
    rcases find?_slots hfind with ⟨l₁, t, l₂, rfl, ht, rfl, hbase⟩
    have hdt := h.describes t (by simp)
    have hw : lists (l₁ ++ t :: l₂) pl .used = slots true l₁ ++ t.slot :: slots true l₂ := by
      simp [lists, ht]
    have hk := (unlinkUsed_spec h.linked hw).2
    have hsz : ((Vmm.unlinkUsed s t.slot).mem t.slot).size = (s.mem t.slot).size :=
      hk.size _ (by simp)
    have hloose := h.unlinkUsed ht (s.usedMemsz - (s.mem t.slot).size)
    rcases hloose.freevmrPut with ⟨s', l', gone, hput, hr, hs⟩
    have hkh : s'.kheapSize = s.kheapSize := hs.kheapSize
    have hlen : l'.length + gone.length = (l₁ ++ t :: l₂).length := by
      simpa using hr.perm.length_eq
    have hcount := h.counted
    have haddr' : t.base = addr.toNat := by
      rw [← hdt.1, ← of_decide_eq_true hbase]
    refine ⟨s', l', gone ++ pl, ?_, ⟨hs.linked, hs.describes, ?_, hr.coalesced h.coalesced,
      ?_, ?_, ?_, ?_⟩, hkh, ?_, hr.bases⟩
    · simpa [Vmm.free, hne, hget, hsz, hk.usedMemsz] using hput
    · rw [hkh]
      exact hr.tiles h.tiles
    · -- The used tiles are the old ones without `t`.
      have hsplit : total (usedTiles (l₁ ++ t :: l₂)) = total (usedTiles l') + t.size := by
        simp only [usedTiles, hr.filter_used, List.filter_append, List.filter_cons, ht,
          beq_self_eq_true, if_true, total_append, total_cons]
        omega
      have hum := h.usedMemsz
      rw [hs.usedMemsz]
      simp only [Describes] at hdt
      bv_omega
    · simp only [State.nnodes, hkh, List.length_append] at hcount hlen ⊢
      omega
    · rw [hkh]
      exact h.fits
    · rw [hkh]
      exact fun hK => hr.dvd (h.paged hK)
    · have hbefore : ∀ u ∈ usedTiles l₁, ¬ (u.base == addr.toNat) = true := by
        intro u hu
        have hle := hloose.stop_le (List.mem_of_mem_filter hu)
        simp only [Tile.stop] at hle
        simp only [beq_iff_eq]
        omega
      have hold : usedTiles (l₁ ++ t :: l₂) = usedTiles l₁ ++ t :: usedTiles l₂ := by
        simp [usedTiles, ht]
      rw [hold, List.eraseP_append_right _ hbefore, List.eraseP_cons_of_pos (by simp [haddr'])]
      exact hr.filter_used

/-- The calls the callers make: sizes are nonzero multiples of the page size. -/
def Call.PageSized : Call → Prop
  | .alloc size => size ≠ 0 ∧ PGSZ.toNat ∣ size.toNat
  | .free _ => True

theorem Rep.pool_nonempty {s : State} {l : List (Tile Nat)} {pl : List Nat} (h : Rep s l pl)
    (hK : PGSZ.toNat ∣ s.kheapSize.toNat) {size : Nat} (hpage : PGSZ.toNat ∣ size)
    (hpos : 0 < size) (ht : t ∈ l) (hlt : size < t.size) : pl ≠ [] := by
  rintro rfl
  have hq := h.paged hK
  have hsum := h.total_eq
  have hcount := h.counted
  rcases List.append_of_mem ht with ⟨l₁, l₂, rfl⟩
  rcases tiles_append.1 h.tiles with ⟨m, h₁, _, _, h₂⟩
  have hle1 := h₁.length_mul_le (q := PGSZ.toNat) fun u hu => hq u (by simp [hu])
  have hle2 := h₂.length_mul_le (q := PGSZ.toNat) fun u hu => hq u (by simp [hu])
  have hp : PGSZ.toNat = 4096 := rfl
  have hnn : s.nnodes = s.kheapSize.toNat / 4096 := by
    simp [State.nnodes, BitVec.toNat_udiv, hp]
  rcases hpage with ⟨i, hi⟩
  rcases hq t (by simp) with ⟨j, hj⟩
  simp only [List.length_append, List.length_cons, List.length_nil, total_append, total_cons, hp]
    at hcount hsum hle1 hle2 hi hj
  omega

theorem Rep.call {s : State} {l : List (Tile Nat)} {pl : List Nat} (h : Rep s l pl) {c : Call}
    (hc : c.PageSized) :
    (∃ s' l' pl', Vmm.call s c = .ok s' ∧ Rep s' l' pl' ∧ s'.kheapSize = s.kheapSize) ∨
      (Vmm.call s c = .error (.assertion "cannot free nullptr") ∧ c = .free 0) ∨
      (Vmm.call s c = .error (.assertion "No vm node.") ∧
        ¬ PGSZ.toNat ∣ s.kheapSize.toNat) := by
  cases c with
  | alloc size =>
    rcases hc with ⟨hsize, hpage⟩
    rcases h.alloc hsize hpage with ⟨herr, hpl, t, ht, hlt⟩ | ⟨err, hok, _⟩ |
      ⟨addr, s', l', pl', hok, hrep, hkh, _⟩
    · refine Or.inr (Or.inr ⟨by simp [Vmm.call, herr], fun hK => ?_⟩)
      have hpos : 0 < size.toNat := by
        have hne : size.toNat ≠ 0 := fun h0 => hsize (BitVec.eq_of_toNat_eq (by simpa using h0))
        omega
      exact h.pool_nonempty hK hpage hpos ht hlt hpl
    · exact Or.inl ⟨s, l, pl, by simp [Vmm.call, hok], h, rfl⟩
    · exact Or.inl ⟨s', l', pl', by simp [Vmm.call, hok], hrep, hkh⟩
  | free addr =>
    by_cases haddr : addr = 0
    · subst haddr
      exact Or.inr (Or.inl ⟨by simp [Vmm.call, Vmm.free], rfl⟩)
    · rcases h.free haddr with ⟨s', l', pl', hok, hrep, hkh, _⟩
      exact Or.inl ⟨s', l', pl', hok, hrep, hkh⟩

theorem Rep.run {s : State} {l : List (Tile Nat)} {pl : List Nat} (h : Rep s l pl)
    {cs : List Call} (hcs : ∀ c ∈ cs, c.PageSized) :
    (∃ s' l' pl', Vmm.run s cs = .ok s' ∧ Rep s' l' pl' ∧ s'.kheapSize = s.kheapSize) ∨
      (Vmm.run s cs = .error (.assertion "cannot free nullptr") ∧ .free 0 ∈ cs) ∨
      (Vmm.run s cs = .error (.assertion "No vm node.") ∧
        ¬ PGSZ.toNat ∣ s.kheapSize.toNat) := by
  induction cs generalizing s l pl with
  | nil => exact Or.inl ⟨s, l, pl, rfl, h, rfl⟩
  | cons c cs ih =>
    rcases h.call (hcs c (by simp)) with ⟨s₁, l₁, pl1, hok, hrep, hkh⟩ | ⟨herr, rfl⟩ | ⟨herr, hK⟩
    · rcases ih hrep fun d hd => hcs d (by simp [hd]) with
        ⟨s', l', pl', hrun, hrep', hkh'⟩ | ⟨hrun, hmem⟩ | ⟨hrun, hK⟩
      · exact Or.inl ⟨s', l', pl', by simp [Vmm.run, hok, hrun], hrep', hkh'.trans hkh⟩
      · exact Or.inr (Or.inl ⟨by simp [Vmm.run, hok, hrun], List.mem_cons_of_mem _ hmem⟩)
      · exact Or.inr (Or.inr ⟨by simp [Vmm.run, hok, hrun], hkh ▸ hK⟩)
    · exact Or.inr (Or.inl ⟨by simp only [Vmm.run, herr, error_bind], by simp⟩)
    · exact Or.inr (Or.inr ⟨by simp [Vmm.run, herr], hK⟩)

/-! ## What a state looks like -/

/-- The records on the free list, read off the `next` links. -/
def freeList (s : State) : List Nat := collect (nexts s.mem) s.nnodes s.freevmrList

def usedList (s : State) : List Nat := collect (nexts s.mem) s.nnodes s.usedvmrList

def startOf (s : State) (x : Nat) : Nat := (s.mem x).base.toNat

def stopOf (s : State) (x : Nat) : Nat := (s.mem x).base.toNat + (s.mem x).size.toNat

/-- A list of records is linked both ways from its head pointer and sorted by base. -/
structure SortedList (s : State) (list : Option Nat) (l : List Nat) : Prop where
  head : list = l.head?
  chain : Chain (nexts s.mem) (prevs s.mem) none l none
  inverse : ∀ x ∈ l, ∀ y ∈ l, (s.mem x).next = some y ↔ (s.mem y).prev = some x
  sorted : l.Pairwise fun x y => startOf s x < startOf s y

structure WellFormed (s : State) : Prop where
  free : SortedList s s.freevmrList (freeList s)
  used : SortedList s s.usedvmrList (usedList s)
  disjoint : (freeList s ++ usedList s).Pairwise fun x y =>
    stopOf s x ≤ startOf s y ∨ stopOf s y ≤ startOf s x
  cover : ∀ a : Nat, (∃ x ∈ freeList s ++ usedList s, startOf s x ≤ a ∧ a < stopOf s x) ↔
    KHEAPBASE.toNat ≤ a ∧ a < KHEAPBASE.toNat + s.kheapSize.toNat
  nonempty : ∀ x ∈ freeList s ++ usedList s, startOf s x < stopOf s x
  coalesced : ∀ x ∈ freeList s, ∀ y ∈ freeList s, stopOf s x ≠ startOf s y
  usedMemsz : s.usedMemsz.toNat = ((usedList s).map fun x => (s.mem x).size.toNat).sum

def AllFree (s : State) : Prop :=
  usedList s = [] ∧ s.usedMemsz = 0 ∧
    ∃ x, freeList s = [x] ∧ (s.mem x).base = KHEAPBASE ∧ (s.mem x).size = s.kheapSize

section Reading

variable {s : State} {l : List (Tile Nat)} {pl : List Nat}

theorem Rep.freeList_eq (h : Rep s l pl) : freeList s = slots false l := by
  have hhead : s.freevmrList = (slots false l).head? := h.linked.head .free
  rw [freeList, hhead]
  exact collect_chain (h.linked.chains.chain .free) (h.linked.length_le .free)

theorem Rep.usedList_eq (h : Rep s l pl) : usedList s = slots true l := by
  have hhead : s.usedvmrList = (slots true l).head? := h.linked.head .used
  rw [usedList, hhead]
  exact collect_chain (h.linked.chains.chain .used) (h.linked.length_le .used)

theorem Rep.startOf_eq (h : Rep s l pl) {t : Tile Nat} (ht : t ∈ l) : startOf s t.slot = t.base :=
  (h.describes t ht).1

theorem Rep.stopOf_eq (h : Rep s l pl) {t : Tile Nat} (ht : t ∈ l) : stopOf s t.slot = t.stop := by
  rcases h.describes t ht with ⟨hb, hs⟩
  simp [stopOf, hb, hs, Tile.stop]

theorem Rep.sortedList (h : Rep s l pl) {w : Which} {b : Bool} (hw : lists l pl w = slots b l) :
    SortedList s (s.head w) (slots b l) := by
  have hchain := h.linked.chains.chain w
  rw [hw] at hchain
  refine ⟨hw ▸ h.linked.head w, hchain, fun x hx y hy => hchain.next_iff_prev hx hy, ?_⟩
  rw [slots, List.pairwise_map]
  refine (h.tiles.pairwise.filter _).imp_of_mem ?_
  intro t u ht hu htu
  have ht' := List.mem_of_mem_filter ht
  rw [h.startOf_eq ht', h.startOf_eq (List.mem_of_mem_filter hu)]
  have hpos := (h.tiles.bounds ht').2.2
  simp only [Tile.stop] at htu
  omega

theorem Rep.lists_perm (h : Rep s l pl) : (freeList s ++ usedList s).Perm (l.map Tile.slot) := by
  rw [h.freeList_eq, h.usedList_eq]
  exact List.perm_append_comm.trans (slots_perm l)

theorem Rep.wellFormed (h : Rep s l pl) : WellFormed s where
  free := by
    rw [h.freeList_eq]
    exact h.sortedList (w := .free) rfl
  used := by
    rw [h.usedList_eq]
    exact h.sortedList (w := .used) rfl
  disjoint := by
    refine (h.lists_perm.pairwise_iff fun {_ _} hxy => hxy.symm).2 ?_
    rw [List.pairwise_map]
    refine h.tiles.pairwise.imp_of_mem fun {t u} ht hu htu => Or.inl ?_
    rw [h.stopOf_eq ht, h.startOf_eq hu]
    exact htu
  cover a := by
    rw [← h.tiles.cover a]
    constructor
    · rintro ⟨x, hx, hlo, hhi⟩
      rcases List.mem_map.1 (h.lists_perm.mem_iff.1 hx) with ⟨t, ht, rfl⟩
      exact ⟨t, ht, by rwa [← h.startOf_eq ht], by rwa [← h.stopOf_eq ht]⟩
    · rintro ⟨t, ht, hlo, hhi⟩
      refine ⟨t.slot, h.lists_perm.mem_iff.2 (List.mem_map_of_mem ht), ?_, ?_⟩
      · rwa [h.startOf_eq ht]
      · rwa [h.stopOf_eq ht]
  nonempty x hx := by
    rcases List.mem_map.1 (h.lists_perm.mem_iff.1 hx) with ⟨t, ht, rfl⟩
    have hpos := (h.tiles.bounds ht).2.2
    rw [h.startOf_eq ht, h.stopOf_eq ht, Tile.stop]
    omega
  coalesced x hx y hy := by
    rw [h.freeList_eq] at hx hy
    rcases mem_slots.1 hx with ⟨t, ht, htf, rfl⟩
    rcases mem_slots.1 hy with ⟨u, hu, huf, rfl⟩
    rw [h.stopOf_eq ht, h.startOf_eq hu]
    -- Of two free tiles one ends strictly before the other starts.
    have hmem : ∀ {v : Tile Nat}, v ∈ l → v.used = false → v ∈ l.filter fun v => v.used == false :=
      fun hv hf => List.mem_filter.2 ⟨hv, by simp [hf]⟩
    by_cases htu : t = u
    · subst htu
      have hpos := (h.tiles.bounds ht).2.2
      simp only [Tile.stop]
      omega
    · have hapart : (l.filter fun v => v.used == false).Pairwise fun v w =>
          v.stop < w.base ∨ w.stop < v.base :=
        (h.tiles.free_apart h.coalesced).imp Or.inl
      have hinst : Std.Symm fun v w : Tile Nat => v.stop < w.base ∨ w.stop < v.base :=
        ⟨fun _ _ hvw => hvw.symm⟩
      have hsym := hapart.forall (hmem ht htf) (hmem hu huf) htu
      have hpos := (h.tiles.bounds hu).2.2
      simp only [Tile.stop] at hsym ⊢
      omega
  usedMemsz := by
    rw [h.usedMemsz, h.usedList_eq, total, slots, List.map_map]
    congr 1
    refine List.map_congr_left fun t ht => ?_
    exact (h.describes t (List.mem_of_mem_filter ht)).2.symm

theorem Rep.allFree (h : Rep s l pl) (hK : 0 < s.kheapSize.toNat) (hu : usedTiles l = []) :
    AllFree s := by
  have hfree : ∀ t ∈ l, t.used = false := by
    intro t ht
    have hnot := List.filter_eq_nil_iff.1 hu t ht
    simpa using hnot
  have hslots : slots true l = [] := by
    rw [slots]
    rw [usedTiles] at hu
    rw [hu, List.map_nil]
  have hsz : s.usedMemsz = 0 := BitVec.eq_of_toNat_eq (by rw [h.usedMemsz, hu]; rfl)
  refine ⟨by rw [h.usedList_eq, hslots], hsz, ?_⟩
  have htotal := h.total_eq
  cases l with
  | nil =>
    rw [total_nil] at htotal
    omega
  | cons t ts =>
    cases ts with
    | cons u us =>
      -- Two neighbours would both be free.
      have hrel := (coalesced_cons.1 h.coalesced).1 u rfl
      simp [hfree t (by simp), hfree u (by simp)] at hrel
    | nil =>
      have hdt := h.describes t (by simp)
      have hbase : t.base = KHEAPBASE.toNat := h.tiles.1
      rw [total_cons, total_nil] at htotal
      refine ⟨t.slot, by simp [h.freeList_eq, hfree t (by simp)], ?_, ?_⟩
      · exact BitVec.eq_of_toNat_eq (hdt.1.trans hbase)
      · exact BitVec.eq_of_toNat_eq (by rw [hdt.2]; omega)

end Reading

def freeAll (s : State) : List Call := (usedList s).map fun x => .free (s.mem x).base

theorem Rep.run_freeAll {s : State} {l : List (Tile Nat)} {pl : List Nat} (h : Rep s l pl)
    (us : List (Tile Nat)) (hus : usedTiles l = us) :
    ∃ s' l' pl', Vmm.run s (us.map fun t => .free (BitVec.ofNat 64 t.base)) = .ok s' ∧
      Rep s' l' pl' ∧ s'.kheapSize = s.kheapSize ∧ usedTiles l' = [] := by
  induction us generalizing s l pl with
  | nil => exact ⟨s, l, pl, rfl, h, rfl, hus⟩
  | cons t ts ih =>
    have ht : t ∈ l := List.mem_of_mem_filter (by rw [← usedTiles, hus]; simp)
    have hbounds := h.tiles.bounds ht
    have hlt : t.base < 2 ^ 64 := (h.describes t ht).1 ▸ BitVec.isLt _
    have hbase : (BitVec.ofNat 64 t.base).toNat = t.base := by
      rw [BitVec.toNat_ofNat, Nat.mod_eq_of_lt hlt]
    have haddr : BitVec.ofNat 64 t.base ≠ 0 := by
      intro h0
      have hzero : t.base = 0 := by rw [← hbase, h0]; rfl
      have hpos : 0 < KHEAPBASE.toNat := by decide
      omega
    rcases h.free haddr with ⟨s₁, l₁, pl1, hok, hrep, hkh, herase, -⟩
    have hused : usedTiles l₁ = ts := by
      rw [herase, hus, List.eraseP_cons_of_pos (by simp [hbase])]
    rcases ih hrep hused with ⟨s', l', pl', hrun, hrep', hkh', hnil⟩
    exact ⟨s', l', pl', by simp [Vmm.run, Vmm.call, hok, hrun], hrep', hkh'.trans hkh, hnil⟩

theorem Rep.freeAll {s : State} {l : List (Tile Nat)} {pl : List Nat} (h : Rep s l pl)
    (hK : 0 < s.kheapSize.toNat) :
    ∃ s', Vmm.run s (Vmm.freeAll s) = .ok s' ∧ AllFree s' ∧ s'.kheapSize = s.kheapSize := by
  rcases h.run_freeAll _ rfl with ⟨s', l', pl', hrun, hrep, hkh, hnil⟩
  refine ⟨s', ?_, hrep.allFree (hkh ▸ hK) hnil, hkh⟩
  have hcalls : Vmm.freeAll s = (usedTiles l).map fun t => .free (BitVec.ofNat 64 t.base) := by
    rw [Vmm.freeAll, h.usedList_eq, slots, List.map_map]
    refine List.map_congr_left fun t ht => ?_
    have hb := (h.describes t (List.mem_of_mem_filter ht)).1
    rw [comp_apply, ← hb, BitVec.ofNat_toNat, BitVec.setWidth_eq]
  rw [hcalls]
  exact hrun

/-! ## From the initial state -/

/-- One free record `x` covers the heap, and the pool is a chain of all the other records. -/
structure Start (s : State) (x : Nat) (pool : List Nat) : Prop where
  usedMemsz : s.usedMemsz = 0
  used : s.usedvmrList = none
  free : s.freevmrList = some x
  node : s.mem x = { prev := none, base := KHEAPBASE, size := s.kheapSize, next := none }
  poolHead : s.freeNodeList = pool.head?
  poolChain : Chain (nexts s.mem) (prevs s.mem) none pool none
  all : (x :: pool).Perm (List.range s.nnodes)
  fits : KHEAPBASE.toNat + s.kheapSize.toNat ≤ 2 ^ 64

def wholeHeap (s : State) (x : Nat) : Tile Nat := ⟨x, KHEAPBASE.toNat, s.kheapSize.toNat, false⟩

theorem Start.kheapSize_pos {s : State} {x : Nat} {pool : List Nat} (h : Start s x pool) :
    0 < s.kheapSize.toNat := by
  have hx : x < s.nnodes := by
    have hmem := h.all.mem_iff.1 (List.mem_cons_self)
    simpa using hmem
  have hnn : s.nnodes = s.kheapSize.toNat / 4096 := by
    simp [State.nnodes, BitVec.toNat_udiv, PGSZ]
  omega

theorem Start.rep {s : State} {x : Nat} {pool : List Nat} (h : Start s x pool) :
    Rep s [wholeHeap s x] pool := by
  have hnd : (x :: pool).Nodup := h.all.nodup_iff.2 List.nodup_range
  have hx : x ∉ pool := (List.nodup_cons.1 hnd).1
  have hfree : Chain (nexts s.mem) (prevs s.mem) none [x] none := by
    refine ⟨?_, ?_, trivial⟩ <;> simp [nexts, prevs, LinkNode.next, LinkNode.prev, h.node]
  have hlen := h.all.length_eq
  refine ⟨⟨⟨fun w => ?_, fun v w y hv hw => ?_⟩, fun w => ?_, fun w y hy => ?_⟩, ?_, ?_, ?_, ?_,
    ?_, h.fits, ?_⟩
  · cases w with
    | free => exact hfree
    | used => trivial
    | pool => exact h.poolChain
  · cases v <;> cases w <;> simp [lists, wholeHeap] at hv hw ⊢
    · exact hx (hv ▸ hw)
    · exact hx (hw ▸ hv)
  · cases w with
    | free => exact h.free
    | used => exact h.used
    | pool => exact h.poolHead
  · have hmem : y ∈ x :: pool := by
      cases w <;> simp [lists, wholeHeap] at hy ⊢
      · exact Or.inl hy
      · exact Or.inr hy
    have hrange := h.all.mem_iff.1 hmem
    simpa using hrange
  · intro t ht
    have ht' : t = wholeHeap s x := by simpa using ht
    subst ht'
    simp [Describes, wholeHeap, h.node]
  · exact ⟨rfl, h.kheapSize_pos, rfl⟩
  · exact List.isChain_singleton _
  · simp [h.usedMemsz, usedTiles, wholeHeap]
  · simpa [Nat.add_comm] using hlen
  · intro hK t ht
    have ht' : t = wholeHeap s x := by simpa using ht
    subst ht'
    exact hK

/-- From one free range that covers the heap and a pool of all other records, every run of `alloc`
with nonzero multiples of the page size and `free` of any address keeps the lists sorted, linked
both ways and coalesced, and their ranges tile the heap; freeing what is in use restores the one
free range.  A run ends early only at `free(NULL)`, or on an empty pool when the heap size is not
a multiple of the page size. -/
theorem vmm_lists_tile_heap {s : State} {x : Nat} {pool : List Nat} (h : Start s x pool)
    {cs : List Call} (hcs : ∀ c ∈ cs, c.PageSized) :
    (∃ s', run s cs = .ok s' ∧ WellFormed s' ∧ s'.kheapSize = s.kheapSize ∧
        ∃ s'', run s' (freeAll s') = .ok s'' ∧ AllFree s'') ∨
      (run s cs = .error (.assertion "cannot free nullptr") ∧ .free 0 ∈ cs) ∨
      (run s cs = .error (.assertion "No vm node.") ∧ ¬ PGSZ.toNat ∣ s.kheapSize.toNat) := by
  rcases h.rep.run hcs with ⟨s', l', pl', hrun, hrep, hkh⟩ | herr | herr
  · have hpos : 0 < s'.kheapSize.toNat := by
      rw [hkh]
      exact h.kheapSize_pos
    rcases hrep.freeAll hpos with ⟨s'', hrun', hfree, _⟩
    exact Or.inl ⟨s', hrun, hrep.wellFormed, hkh, s'', hrun', hfree⟩
  · exact Or.inr (Or.inl herr)
  · exact Or.inr (Or.inr herr)

/-- A heap of two pages, as `vmm_init` leaves it on zeroed pages. -/
def twoPages : State :=
  { kheapSize := 0x2000
    usedMemsz := 0
    freeNodeList := some 1
    usedvmrList := none
    freevmrList := some 0
    mem := fun i =>
      if i = 0 then { prev := none, base := KHEAPBASE, size := 0x2000, next := none }
      else Node.zero }

theorem start_twoPages : Start twoPages 0 [1] where
  usedMemsz := rfl
  used := rfl
  free := rfl
  node := rfl
  poolHead := rfl
  poolChain := ⟨rfl, rfl, trivial⟩
  all := by decide
  fits := by decide

theorem vmm_lists_tile_heap_two_pages :
    ∃ s', run twoPages [.alloc 0x1000, .free KHEAPBASE, .alloc 0x1000] = .ok s' ∧ WellFormed s' ∧
      s'.kheapSize = 0x2000 ∧ ∃ s'', run s' (freeAll s') = .ok s'' ∧ AllFree s'' := by
  have hcs : ∀ c ∈ [Call.alloc 0x1000, .free KHEAPBASE, .alloc 0x1000], c.PageSized := by
    simp only [List.forall_mem_cons, List.not_mem_nil, false_imp_iff, implies_true, and_true]
    exact ⟨⟨by decide, by decide⟩, trivial, by decide, by decide⟩
  rcases vmm_lists_tile_heap start_twoPages hcs with hok | ⟨_, hmem⟩ | ⟨_, hK⟩
  · exact hok
  · exact absurd hmem (by simp [KHEAPBASE])
  · exact absurd (by decide) hK

end Vmm
end Mm
end XytherOS
