import XytherOS.Mm.MmapFirst

/-!
# MmapHoles — the hole search of `mmap_find_hole` and `mmap_find_holeat`

Every search of a listed address space returns.  What it returns is free: it lies below the limit
and meets no region.  And `mmap_find_hole` finds nothing only if nothing is free, because each of
its two directions looks into every gap between two regions and at both ends of the address space;
`mmap_find_holeat` looks near its hint first and falls back on it.

Free ranges and gaps are brought together by two lemmas on the list of regions, `Listed.free_gap`
and `Free.gap`; the searches are then followed along the list.
-/

namespace XytherOS
namespace Mm
namespace Mmap

open Links Spans

variable {π : Type} {s : State π} {v v₁ v₂ : View} {r : Region} {size a : BitVec 64} {n : Nat}
  {e : Nat × Region}

/-! ## Free ranges -/

def NoFault (_ : Fault) : Prop := False

/-- `size` bytes from `addr` on are addresses of the address space. -/
def Within (addr size : BitVec 64) : Prop := addr.toNat + size.toNat ≤ 2 ^ 47



/-- The `size` bytes from `a` on are addresses that no region of `v` contains. -/
def Free (v : View) (a size : BitVec 64) : Prop := Within a size ∧ Cleared a size v

theorem Listed.free_gap (h : Listed s (v₁ ++ v₂)) (hbelow : ∀ e ∈ v₁, e.2.endAddr < a)
    (habove : a.toNat + size.toNat ≤ (ceiling v₂).toNat) : Free (v₁ ++ v₂) a size := by
  cases v₂ with
  | nil =>
    refine ⟨habove, ?_⟩
    intro e he
    exact .inl (hbelow e (by simpa using he))
  | cons e v₂ =>
    have hb := h.bounds (e := e) (by simp)
    simp only [ceiling, mmapLimit] at habove hb
    refine ⟨by rw [Within]; bv_omega, ?_⟩
    intro e' he'
    rcases List.mem_append.1 he' with he' | he'
    · exact .inl (hbelow e' he')
    · have hle : e.2.start ≤ e'.2.start := (ascending_append.1 h.ascending).2.1.head_le he'
      exact .inr (by bv_omega)

theorem Free.gap (h : Listed s v) (hfree : Free v a size) (hsize : size ≠ 0) :
    ∃ v₁ v₂, v = v₁ ++ v₂ ∧ (∀ e ∈ v₁, e.2.endAddr < a) ∧
      a.toNat + size.toNat ≤ (ceiling v₂).toNat := by
  rcases hfree with ⟨hwithin, hclear⟩
  rcases h.locate a with ⟨v₁, p, r, v₂, rfl, hlo, hhi⟩ | ⟨v₁, v₂, rfl, hgap⟩
  · have hmiss := hclear (p, r) (by simp)
    exact absurd hmiss (by simp only; bv_omega)
  · refine ⟨v₁, v₂, rfl, hgap.below, ?_⟩
    cases v₂ with
    | nil => exact hwithin
    | cons e v₂ =>
      have hlt : a < e.2.start := hgap.above e (by simp)
      have hb := (h.bounds (e := e) (by simp)).1
      rcases hclear e (by simp) with hmiss | hmiss
      · exact absurd hmiss (by bv_omega)
      · exact hmiss

/-! ## One hole -/

theorem Listed.getholesize_free (h : Listed s v) (a : BitVec 64) (hsize : size ≠ 0) :
    Safe NoFault (mmapGetholesize s a) fun x => size ≤ x.2 ↔ Free v a size := by
  have hzero : ¬ size ≤ 0 := by bv_omega
  by_cases hlim : mmapLimit < a
  · rw [Listed.getholesize_beyond hlim]
    refine iff_of_false hzero ?_
    rintro ⟨hwithin, -⟩
    simp only [mmapLimit, Within] at hlim hwithin
    bv_omega
  have hle : a ≤ mmapLimit := BitVec.not_lt.1 hlim
  rcases h.locate a with ⟨v₁, p, r, v₂, rfl, hlo, hhi⟩ | ⟨v₁, v₂, rfl, hgap⟩
  · rw [h.getholesize_at hlo hhi]
    refine iff_of_false hzero ?_
    rintro ⟨-, hclear⟩
    have hmiss := hclear (p, r) (by simp)
    exact absurd hmiss (by simp only; bv_omega)
  · rw [h.getholesize_gap hgap hle]
    have hceil := h.lt_ceiling hgap hle
    simp only [mmapLimit] at hceil
    constructor
    · intro hroom
      refine h.free_gap hgap.below ?_
      simp only at hroom
      bv_omega
    · rintro ⟨hwithin, hclear⟩
      cases v₂ with
      | nil =>
        simp only [ceiling, mmapLimit, Within] at hwithin ⊢
        bv_omega
      | cons e v₂ =>
        have hlt : a < e.2.start := hgap.above e (by simp)
        have hb := (h.bounds (e := e) (by simp)).1
        have hmiss := hclear e (by simp)
        simp only [ceiling]
        bv_omega

theorem Listed.upperBound_le (h : Listed s (v₁ ++ e :: v₂)) :
    e.2.upperBound ≤ ceiling v₂ := by
  have hb := h.bounds (e := e) (by simp)
  cases v₂ with
  | nil =>
    simp only [ceiling, Region.upperBound, mmapLimit] at hb ⊢
    bv_omega
  | cons e' v₂ =>
    have hlt : e.2.endAddr < e'.2.start := h.around.2.2 e' (by simp)
    simp only [ceiling, Region.upperBound, mmapLimit] at hb ⊢
    bv_omega

theorem Listed.holeAfter_eq (h : Listed s (v₁ ++ e :: v₂)) :
    holeAfter s e.1 = .ok (ceiling v₂ - e.2.upperBound) := by
  have hreg : s.region e.1 = e.2 := h.region e (by simp)
  rw [holeAfter, h.links_at.1, hreg]
  cases v₂ with
  | cons e' v₂ =>
    have hreg' : s.region e'.1 = e'.2 := h.region e' (by simp)
    simp only [ids_cons, List.head?_cons, hreg', ceiling]
    rfl
  | nil =>
    have hb := h.bounds (e := e) (by simp)
    by_cases hlim : mmapLimit < e.2.upperBound
    · -- the region reaches up to the limit
      have hlast : e.2.upperBound = mmapLimit + 1 := by
        simp only [Region.upperBound, mmapLimit] at hb hlim ⊢
        bv_omega
      simp only [ids_nil, List.head?_nil, ceiling, hlast, BitVec.sub_self]
      rfl
    · have hgap : Gap lo hi e.2.upperBound.toNat (v₁ ++ [e]) [] := by
        refine ⟨?_, by simp⟩
        intro e' he'
        have hlast : e'.2.endAddr ≤ e.2.endAddr := by
          rcases List.mem_append.1 he' with he' | he'
          · have hlt := h.around.2.1 e' he'
            have hbe := hb.1
            bv_omega
          · rw [List.mem_singleton.1 he']
            exact BitVec.le_refl _
        simp only [hi, Region.upperBound, mmapLimit] at hlim hb ⊢
        bv_omega
      have h' : Listed s (v₁ ++ [e] ++ []) := by simpa using h
      simp only [ids_nil, List.head?_nil, h'.getholesize_gap hgap (BitVec.not_lt.1 hlim)]
      rfl

theorem Listed.free_behind (h : Listed s (v₁ ++ e :: v₂)) (hle : e.2.upperBound ≤ a)
    (hroom : a.toNat + size.toNat ≤ (ceiling v₂).toNat) : Free (v₁ ++ e :: v₂) a size := by
  have hb := h.bounds (e := e) (by simp)
  rw [List.append_cons] at h ⊢
  refine h.free_gap ?_ hroom
  intro e' he'
  simp only [Region.upperBound, mmapLimit] at hb hle
  rcases List.mem_append.1 he' with he' | he'
  · rw [List.append_assoc, List.singleton_append] at h
    have hlt := h.around.2.1 e' he'
    bv_omega
  · rw [List.mem_singleton.1 he']
    bv_omega

theorem Listed.searchUp_free (h : Listed s (v₁ ++ v₂)) (hn : v₂.length ≤ n) :
    Safe NoFault (searchUp s size n (ids v₂).head?) fun x =>
      (∀ a, x = some a → Free (v₁ ++ v₂) a size) ∧
      (x = none → ∀ u1 e u2, v₂ = u1 ++ e :: u2 → ¬ size ≤ ceiling u2 - e.2.upperBound) := by
  -- induction on the regions from the starting point on
  induction v₂ generalizing v₁ n with
  | nil =>
    have hdone : searchUp s size n (ids []).head? = .ok none := by cases n <;> rfl
    rw [hdone]
    exact ⟨fun a ha => absurd ha (by simp), fun _ u1 e u2 hu => absurd hu (by simp)⟩
  | cons e v₂ ih =>
    obtain ⟨n, rfl⟩ : ∃ k, n = k + 1 := ⟨n - 1, by simp at hn; omega⟩
    have hreg : s.region e.1 = e.2 := h.region e (by simp)
    rw [ids_cons, List.head?_cons, searchUp, h.holeAfter_eq, ok_bind]
    by_cases hroom : size ≤ ceiling v₂ - e.2.upperBound
    · rw [if_pos hroom, hreg]
      refine ⟨?_, fun hnone => absurd hnone (by simp)⟩
      intro a ha
      cases ha
      refine h.free_behind (BitVec.le_refl _) ?_
      have hle := h.upperBound_le
      bv_omega
    · rw [if_neg hroom, h.links_at.1]
      have h' := h
      rw [List.append_cons] at h'
      refine (ih h' (by simpa using hn)).mono ?_
      rintro x ⟨hsound, hfull⟩
      rw [← List.append_cons] at hsound
      refine ⟨hsound, fun hnone u1 e' u2 hu => ?_⟩
      cases u1 with
      | nil =>
        rcases List.cons_eq_cons.1 hu with ⟨rfl, rfl⟩
        exact hroom
      | cons e'' u1 => exact hfull hnone u1 e' u2 (List.cons_eq_cons.1 hu).2

theorem Listed.holeBefore_free (h : Listed s (v₁ ++ e :: v₂)) {first : Bool}
    (ha : holeBefore s size first e.1 = some a) : Free (v₁ ++ e :: v₂) a size := by
  have hreg : s.region e.1 = e.2 := h.region e (by simp)
  have hb := h.bounds (e := e) (by simp)
  simp only [holeBefore, h.links_at.2, hreg] at ha
  rcases List.eq_nil_or_concat v₁ with rfl | ⟨l, e', rfl⟩
  · simp only [ids_nil, List.getLast?_nil] at ha
    split_ifs at ha with hcond
    cases ha
    simp only [Bool.and_eq_true, decide_eq_true_eq] at hcond
    refine h.free_gap (by simp) ?_
    simp only [ceiling]
    bv_omega
  · rw [List.concat_eq_append] at ha h ⊢
    have hreg' : s.region e'.1 = e'.2 := h.region e' (by simp)
    have hlt : e'.2.endAddr < e.2.start := h.around.2.1 e' (by simp)
    have hb' := h.bounds (e := e') (by simp)
    simp only [ids_append, ids_cons, ids_nil, List.getLast?_concat, hreg'] at ha
    split_ifs at ha with hroom
    cases ha
    simp only [Region.upperBound, mmapLimit] at hb' hroom
    rw [List.append_assoc, List.singleton_append] at h ⊢
    refine h.free_behind ?_ ?_
    · simp only [Region.upperBound]
      bv_omega
    · simp only [ceiling]
      bv_omega

theorem Listed.holeBefore_full (h : Listed s (v₁ ++ e :: v₂)) (hsize : 1 < size.toNat)
    (hnone : holeBefore s size true e.1 = none) (hbelow : ∀ e' ∈ v₁, e'.2.endAddr < a) :
    ¬ a.toNat + size.toNat ≤ e.2.start.toNat := by
  intro hfits
  have hreg : s.region e.1 = e.2 := h.region e (by simp)
  have hb := h.bounds (e := e) (by simp)
  simp only [mmapLimit] at hb
  simp only [holeBefore, h.links_at.2, hreg] at hnone
  rcases List.eq_nil_or_concat v₁ with rfl | ⟨l, e', rfl⟩
  · simp only [ids_nil, List.getLast?_nil] at hnone
    split_ifs at hnone with hcond
    refine hcond ?_
    have hpos : (e.2.lowerBound).toNat = e.2.start.toNat - 1 := by
      rw [Region.lowerBound]
      bv_omega
    simp only [Bool.true_and, Bool.and_eq_true, decide_eq_true_eq]
    constructor <;> bv_omega
  · rw [List.concat_eq_append] at hnone hbelow h
    have hreg' : s.region e'.1 = e'.2 := h.region e' (by simp)
    have hlt := hbelow e' (by simp)
    simp only [ids_append, ids_cons, ids_nil, List.getLast?_concat, hreg'] at hnone
    split_ifs at hnone with hroom
    refine hroom ?_
    simp only [Region.upperBound]
    bv_omega

theorem Listed.searchDown_free (h : Listed s (v₁ ++ v₂)) (first : Bool) (hn : v₁.length ≤ n) :
    Safe NoFault (searchDown s size first n (ids v₁).getLast?) fun x =>
      (∀ a, x = some a → Free (v₁ ++ v₂) a size) ∧
      (x = none → ∀ u1 e u2, v₁ = u1 ++ e :: u2 → holeBefore s size first e.1 = none) := by
  -- induction on the regions up to the starting point, from its end
  induction v₁ using List.reverseRecOn generalizing v₂ n with
  | nil =>
    have hdone : searchDown s size first n (ids []).getLast? = .ok none := by cases n <;> rfl
    rw [hdone]
    exact ⟨fun a ha => absurd ha (by simp), fun _ u1 e u2 hu => absurd hu (by simp)⟩
  | append_singleton l e ih =>
    obtain ⟨n, rfl⟩ : ∃ k, n = k + 1 := ⟨n - 1, by simp at hn; omega⟩
    rw [List.append_assoc, List.singleton_append] at h ⊢
    rw [ids_append, ids_cons, ids_nil, List.getLast?_concat, searchDown]
    cases hbefore : holeBefore s size first e.1 with
    | some a =>
      refine ⟨?_, fun hnone => absurd hnone (by simp)⟩
      intro a' ha'
      cases ha'
      exact h.holeBefore_free hbefore
    | none =>
      simp only
      rw [h.links_at.2]
      refine (ih h (by simpa using hn)).mono ?_
      rintro x ⟨hsound, hfull⟩
      refine ⟨hsound, fun hnone u1 e' u2 hu => ?_⟩
      rcases List.eq_nil_or_concat u2 with rfl | ⟨u, e'', rfl⟩
      · rcases List.append_inj' hu rfl with ⟨-, he⟩
        cases he
        exact hbefore
      · refine hfull hnone u1 e' u ?_
        rw [List.concat_eq_append, ← List.cons_append, ← List.append_assoc] at hu
        exact (List.append_inj' hu rfl).1

/-! ## The searches -/

theorem Within.size_le (h : Within a size) : size.toNat ≤ 2 ^ 47 :=
  le_trans (Nat.le_add_left _ _) h

theorem toNat_top (h : size.toNat ≤ 2 ^ 47) :
    (mmapLimit + 1 - size).toNat = 2 ^ 47 - size.toNat := by
  rw [BitVec.toNat_sub_of_le (by rw [BitVec.le_def]; exact h)]
  rfl

/-- The answer of a hole search: a free range, or `-ENOMEM` if there is none.  A single byte can
be missed. -/
def Answer (v : View) (size : BitVec 64) : Except Errno (BitVec 64) → Prop
  | .ok a => Free v a size
  | .error e => 1 < size.toNat → e = .ENOMEM ∧ ∀ a, ¬ Free v a size

theorem Listed.findHole_answer (h : Listed s v) (size : BitVec 64) (whence : Whence) :
    Safe NoFault (mmapFindHole s size whence) (Answer v size) := by
  have hlen : v.length ≤ s.allocs := by simpa [ids] using h.length_le
  unfold mmapFindHole
  by_cases hne : size = 0
  · rw [if_pos hne]
    intro hsize
    subst hne
    exact absurd hsize (by decide)
  rw [if_neg hne]
  cases whence with
  | start =>
    refine (h.getholesize_free 0 hne).bind ?_
    rintro ⟨ret, hole⟩ hhole
    by_cases hroom : size ≤ hole
    · simp only [if_pos hroom]
      exact hhole.1 hroom
    · simp only [if_neg hroom]
      rw [h.head]
      have h' : Listed s ([] ++ v) := h
      refine (h'.searchUp_free hlen).bind ?_
      rintro (_ | a) ⟨hsound, hfull⟩
      · intro hsize
        refine ⟨rfl, fun a hfree => ?_⟩
        rcases hfree.gap h hne with ⟨v₁, v₂, rfl, hbelow, habove⟩
        rcases List.eq_nil_or_concat v₁ with rfl | ⟨l, e, rfl⟩
        · -- the gap in front of the first region starts at 0
          refine hroom (hhole.2 (h.free_gap (by simp) ?_))
          bv_omega
        · rw [List.concat_eq_append] at hbelow h hfull
          have hlt := hbelow e (by simp)
          rw [List.append_assoc, List.singleton_append] at h hfull
          have hle := h.upperBound_le
          refine hfull rfl l e v₂ rfl ?_
          simp only [Region.upperBound] at hle ⊢
          bv_omega
      · exact hsound a rfl
  | last =>
    generalize hlast : mmapLimit + 1 - size = last
    refine (h.getholesize_free last hne).bind ?_
    rintro ⟨ret, hole⟩ hhole
    by_cases hroom : size ≤ hole
    · simp only [if_pos hroom]
      exact hhole.1 hroom
    · simp only [if_neg hroom]
      rw [h.tail]
      have h' : Listed s (v ++ []) := by simpa using h
      refine (h'.searchDown_free true hlen).bind ?_
      rintro (_ | a) ⟨hsound, hfull⟩
      · intro hsize
        refine ⟨rfl, fun a hfree => ?_⟩
        rcases hfree.gap h hne with ⟨v₁, v₂, rfl, hbelow, habove⟩
        cases v₂ with
        | nil =>
          -- the gap behind the last region ends at the limit
          have htop := toNat_top hfree.1.size_le
          rw [hlast] at htop
          have hceil : (ceiling []).toNat = 2 ^ 47 := rfl
          refine hroom (hhole.2 (h.free_gap ?_ (by omega)))
          intro e he
          have hlt := BitVec.lt_def.1 (hbelow e he)
          rw [BitVec.lt_def, htop]
          omega
        | cons e v₂ =>
          exact h.holeBefore_full hsize (hfull rfl v₁ e v₂ rfl) hbelow habove
      · have hfree := hsound a rfl
        rw [List.append_nil] at hfree
        exact hfree

theorem Listed.near_next (h : Listed s v) (addr : BitVec 64) :
    Safe NoFault (nearNext s addr) fun near =>
      ∃ v₁ v₂, v = v₁ ++ v₂ ∧ near.or s.head = (ids v₂).head? := by
  have hnone : ∃ v₁ v₂, v = v₁ ++ v₂ ∧ (none : Option Nat).or s.head = (ids v₂).head? :=
    ⟨[], v, rfl, h.head⟩
  rw [nearNext]
  by_cases haddr : addr = 0
  · rw [if_pos haddr]
    exact hnone
  rw [if_neg haddr]
  -- a search that ends behind the last region starts again from the first
  have hcut : ∀ v₁ v₂, v = v₁ ++ v₂ →
      ∃ w₁ w₂, v = w₁ ++ w₂ ∧ ((ids v₂).head?).or s.head = (ids w₂).head? := by
    intro v₁ v₂ hv
    cases v₂ with
    | nil => exact hnone
    | cons e v₂ => exact ⟨v₁, e :: v₂, hv, rfl⟩
  rcases h.locate addr with ⟨v₁, p, r, v₂, rfl, hlo, hhi⟩ | ⟨v₁, v₂, rfl, hgap⟩
  · rw [mmapFindVmrNext, h.find_at hlo hhi, ok_bind]
    simp only
    rw [h.links_at.1]
    exact hcut (v₁ ++ [(p, r)]) v₂ (by simp)
  · rw [h.findVmrNext_gap hgap]
    exact hcut v₁ v₂ rfl

theorem Listed.near_prev (h : Listed s v) (addr : BitVec 64) :
    Safe NoFault (nearPrev s addr) fun near =>
      ∃ v₁ v₂, v = v₁ ++ v₂ ∧ near.or s.tail = (ids v₁).getLast? := by
  have hnone : ∃ v₁ v₂, v = v₁ ++ v₂ ∧ (none : Option Nat).or s.tail = (ids v₁).getLast? :=
    ⟨v, [], by simp, h.tail⟩
  rw [nearPrev]
  by_cases haddr : addr = 0
  · rw [if_pos haddr]
    exact hnone
  rw [if_neg haddr]
  have hmem : ∀ q ∈ ids v,
      ∃ v₁ v₂, v = v₁ ++ v₂ ∧ (some q).or s.tail = (ids v₁).getLast? := by
    intro q hq
    rcases exists_of_mem_ids hq with ⟨r, hr⟩
    rcases List.append_of_mem hr with ⟨v₁, v₂, rfl⟩
    exact ⟨v₁ ++ [(q, r)], v₂, by simp, by simp⟩
  rcases h.locate addr with ⟨v₁, p, r, v₂, rfl, hlo, hhi⟩ | ⟨v₁, v₂, hv, hgap⟩
  · rw [mmapFindVmrPrev, h.find_at hlo hhi, ok_bind]
    simp only
    rw [h.links_at.2]
    cases hlast : (ids v₁).getLast? with
    | none => exact hnone
    | some q => exact hmem q (by simpa using Or.inl (List.mem_of_getLast? hlast))
  · have hback : (ids v).reverse.length ≤ s.allocs := by simpa using h.length_le
    rcases scan_chain_find (fun p => decide ((s.region p).endAddr < addr)) none h.chain.reverse
      hback with ⟨last, hscan⟩
    rw [List.head?_reverse, ← h.tail] at hscan
    have hfind : mmapFind s addr = .ok none := by
      subst hv
      exact h.find_gap hgap
    rw [mmapFindVmrPrev, hfind, ok_bind]
    simp only [forlinkedBack, hscan]
    cases hfind : (ids v).reverse.find? (fun p => decide ((s.region p).endAddr < addr)) with
    | none => exact hnone
    | some q => exact hmem q (by simpa using List.mem_of_find?_eq_some hfind)

theorem Listed.holeBeforeNear_free (h : Listed s (v₁ ++ v₂))
    (ha : holeBeforeNear s size (ids v₂).head? = some a) : Free (v₁ ++ v₂) a size := by
  cases v₂ with
  | nil => exact absurd ha (by simp [holeBeforeNear])
  | cons e v₂ =>
    have hreg : s.region e.1 = e.2 := h.region e (by simp)
    simp only [holeBeforeNear, ids_cons, List.head?_cons, h.links_at.2, hreg] at ha
    rcases List.eq_nil_or_concat v₁ with rfl | ⟨l, e', rfl⟩
    · simp at ha
    · rw [List.concat_eq_append] at ha h ⊢
      have hreg' : s.region e'.1 = e'.2 := h.region e' (by simp)
      simp only [ids_append, ids_cons, ids_nil, List.getLast?_concat, hreg'] at ha
      split_ifs at ha with hroom
      cases ha
      rw [List.append_assoc, List.singleton_append] at h ⊢
      have hle := h.upperBound_le
      refine h.free_behind (BitVec.le_refl _) ?_
      simp only [ceiling] at hle ⊢
      bv_omega

theorem Listed.holeAfterNear_free (h : Listed s (v₁ ++ v₂)) (hsize : size ≠ 0) :
    Safe NoFault (holeAfterNear s size (ids v₁).getLast?) fun x =>
      ∀ a, x = some a → Free (v₁ ++ v₂) a size := by
  rcases List.eq_nil_or_concat v₁ with rfl | ⟨l, e, rfl⟩
  · rw [ids_nil, List.getLast?_nil, holeAfterNear]
    generalize mmapLimit + 1 - size = last
    refine (h.getholesize_free last hsize).bind ?_
    rintro ⟨ret, hole⟩ hhole a ha
    split_ifs at ha with hroom
    cases ha
    exact hhole.1 hroom
  · rw [List.concat_eq_append] at h ⊢
    rw [List.append_assoc, List.singleton_append] at h ⊢
    have hreg : s.region e.1 = e.2 := h.region e (by simp)
    have hle := h.upperBound_le
    -- the end of the hole is reached from the region behind it, or from its size
    have hend : ∀ hole, hole = ceiling v₂ - e.2.upperBound → size ≤ hole →
        Free (l ++ e :: v₂) (e.2.upperBound + hole - size) size := by
      intro hole hhole hroom
      refine h.free_behind ?_ ?_ <;> bv_omega
    simp only [ids_append, ids_cons, ids_nil, List.getLast?_concat, holeAfterNear, h.links_at.1,
      hreg]
    have hafter := h.holeAfter_eq
    cases v₂ with
    | nil =>
      simp only [holeAfter, h.links_at.1, ids_nil, List.head?_nil, hreg] at hafter ⊢
      rcases bind_ok_iff.1 hafter with ⟨x, hget, heq⟩
      rw [hget, ok_bind]
      intro a ha
      split_ifs at ha with hroom
      cases ha
      exact hend _ (Except.ok.inj heq) hroom
    | cons e' v₂ =>
      have hreg' : s.region e'.1 = e'.2 := h.region e' (by simp)
      simp only [ids_cons, List.head?_cons, hreg']
      intro a ha
      split_ifs at ha with hroom
      cases ha
      have hfree := hend _ rfl hroom
      simp only [ceiling] at hfree hle
      rwa [show e.2.upperBound + (e'.2.start - e.2.upperBound) = e'.2.start by bv_omega] at hfree

theorem Listed.findHoleat_answer (h : Listed s v) (addr size : BitVec 64) (whence : Whence) :
    Safe NoFault (mmapFindHoleat s addr size whence) (Answer v size) := by
  have hlen : v.length ≤ s.allocs := by simpa [ids] using h.length_le
  unfold mmapFindHoleat
  by_cases hne : size = 0
  · rw [if_pos hne]
    intro hsize
    subst hne
    exact absurd hsize (by decide)
  rw [if_neg hne]
  cases whence with
  | start =>
    refine (h.near_next addr).bind ?_
    rintro near ⟨v₁, v₂, rfl, hnear⟩
    refine (h.getholesize_free addr hne).bind ?_
    rintro ⟨ret, hole⟩ hhole
    by_cases hroom : size ≤ hole
    · simp only [if_pos hroom]
      exact hhole.1 hroom
    simp only [if_neg hroom]
    rw [hnear]
    cases hbefore : holeBeforeNear s size (ids v₂).head? with
    | some a => exact h.holeBeforeNear_free hbefore
    | none =>
      refine (h.searchUp_free (by simp at hlen; omega)).bind ?_
      rintro (_ | a) ⟨hsound, -⟩
      · exact h.findHole_answer size .start
      · exact hsound a rfl
  | last =>
    refine (h.near_prev addr).bind ?_
    rintro near ⟨v₁, v₂, rfl, hnear⟩
    rw [hnear]
    refine (h.holeAfterNear_free hne).bind ?_
    rintro (_ | a) hsound
    · refine (h.searchDown_free false (by simp at hlen; omega)).bind ?_
      rintro (_ | a) ⟨hsound', -⟩
      · exact h.findHole_answer size .last
      · exact hsound' a rfl
    · exact hsound a rfl

theorem Listed.findHoleat_within (h : Listed s v) (addr size : BitVec 64) (whence : Whence) :
    Safe NoFault (mmapFindHoleat s addr size whence) fun x =>
      ∀ a, x = .ok a → Within a size := by
  refine (h.findHoleat_answer addr size whence).mono ?_
  rintro x hx a rfl
  exact hx.1

end Mmap
end Mm
end XytherOS
