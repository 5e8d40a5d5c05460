import Mathlib

/-!
# Tiling — an interval cut into used and free tiles

The purpose of a range allocator, without its data structures: an interval of naturals is cut into
consecutive tiles, each used or free, and no two neighbouring tiles are free.  Every tile carries
the identity `slot` of the record that describes it.

* `Tiles a l e` — the tiles of `l`, in order, cut `[a, e)`;
* `Coalesced l` — no two neighbours are free;
* `Carved` — a used tile is cut off the front of a free one, or a free tile becomes used;
* `Released` — a used tile becomes free and is merged with its free neighbours.
-/

namespace XytherOS
namespace Tiling

variable {P : Type*}

/-- A range of the interval, with the record that describes it. -/
@[ext] structure Tile (P : Type*) where
  slot : P
  base : Nat
  size : Nat
  used : Bool

def Tile.stop (t : Tile P) : Nat := t.base + t.size

/-- The tiles of `l` cut `[a, e)`, in order, none of them empty. -/
def Tiles : Nat → List (Tile P) → Nat → Prop
  | a, [], e => a = e
  | a, t :: ts, e => t.base = a ∧ 0 < t.size ∧ Tiles t.stop ts e

def Coalesced (l : List (Tile P)) : Prop :=
  l.IsChain fun s t => s.used = true ∨ t.used = true

/-- The records of the tiles of one kind, in address order. -/
def slots (used : Bool) (l : List (Tile P)) : List P :=
  (l.filter fun t => t.used == used).map Tile.slot

def total (l : List (Tile P)) : Nat := (l.map Tile.size).sum

@[simp] theorem slots_nil (b : Bool) : slots b ([] : List (Tile P)) = [] := rfl

@[simp] theorem slots_cons (b : Bool) (t : Tile P) (l : List (Tile P)) :
    slots b (t :: l) = if t.used = b then t.slot :: slots b l else slots b l := by
  by_cases h : t.used = b <;> simp [slots, h]

@[simp] theorem slots_append (b : Bool) (l₁ l₂ : List (Tile P)) :
    slots b (l₁ ++ l₂) = slots b l₁ ++ slots b l₂ := by
  simp [slots]

theorem mem_slots {b : Bool} {l : List (Tile P)} {x : P} :
    x ∈ slots b l ↔ ∃ t ∈ l, t.used = b ∧ t.slot = x := by
  simp [slots, and_assoc]

/-- Every record is on the used or on the free side. -/
theorem slots_perm (l : List (Tile P)) :
    (slots true l ++ slots false l).Perm (l.map Tile.slot) := by
  have hperm := List.filter_append_perm (fun t : Tile P => t.used == true) l
  have hneg : (fun t : Tile P => !(t.used == true)) = fun t => t.used == false := by
    funext t
    cases t.used <;> rfl
  rw [hneg] at hperm
  simpa [slots] using hperm.map Tile.slot

/-- Records in the middle are not those of the tiles around it. -/
theorem slot_notMem_mid {l₁ mid l₂ : List (Tile P)}
    (h : ((l₁ ++ (mid ++ l₂)).map Tile.slot).Nodup) {u : Tile P} (hu : u ∈ l₁ ++ l₂) :
    u.slot ∉ mid.map Tile.slot := by
  intro hmem
  simp only [List.map_append, List.nodup_append, List.mem_append] at h
  rcases h with ⟨_, ⟨_, _, h₂⟩, h₁⟩
  rcases List.mem_append.1 hu with hu | hu
  · exact h₁ _ (List.mem_map_of_mem hu) _ (Or.inl hmem) rfl
  · exact h₂ _ hmem _ (List.mem_map_of_mem hu) rfl

@[simp] theorem total_nil : total ([] : List (Tile P)) = 0 := rfl

@[simp] theorem total_cons (t : Tile P) (l : List (Tile P)) :
    total (t :: l) = t.size + total l := by
  simp [total]

@[simp] theorem total_append (l₁ l₂ : List (Tile P)) :
    total (l₁ ++ l₂) = total l₁ + total l₂ := by
  simp [total]

/-! ## Tilings -/

variable {a e : Nat}

theorem tiles_nil : Tiles a ([] : List (Tile P)) e ↔ a = e := Iff.rfl

theorem tiles_cons {t : Tile P} {l : List (Tile P)} :
    Tiles a (t :: l) e ↔ t.base = a ∧ 0 < t.size ∧ Tiles t.stop l e := Iff.rfl

/-- Cutting a tiling in two. -/
theorem tiles_append {l₁ l₂ : List (Tile P)} :
    Tiles a (l₁ ++ l₂) e ↔ ∃ m, Tiles a l₁ m ∧ Tiles m l₂ e := by
  induction l₁ generalizing a with
  | nil => simp [tiles_nil]
  | cons t ts ih =>
    simp only [List.cons_append, tiles_cons, ih]
    constructor
    · rintro ⟨hb, hs, m, h₁, h₂⟩
      exact ⟨m, ⟨hb, hs, h₁⟩, h₂⟩
    · rintro ⟨m, ⟨hb, hs, h₁⟩, h₂⟩
      exact ⟨hb, hs, m, h₁, h₂⟩

/-- The summed size of the tiles is the length of the interval. -/
theorem Tiles.add_total {l : List (Tile P)} (h : Tiles a l e) :
    a + total l = e := by
  induction l generalizing a with
  | nil => simpa [tiles_nil] using h
  | cons t ts ih =>
    rcases h with ⟨hb, _, hrest⟩
    have hsum := ih hrest
    simp only [Tile.stop] at hsum
    rw [total_cons]
    omega

theorem Tiles.le {l : List (Tile P)} (h : Tiles a l e) : a ≤ e := by
  have := h.add_total
  omega

/-- A tile lies inside the interval and is not empty. -/
theorem Tiles.bounds {l : List (Tile P)} (h : Tiles a l e) {t : Tile P}
    (ht : t ∈ l) : a ≤ t.base ∧ t.stop ≤ e ∧ 0 < t.size := by
  rcases List.append_of_mem ht with ⟨l₁, l₂, rfl⟩
  rcases tiles_append.1 h with ⟨m, h₁, hb, hs, h₂⟩
  have hle1 := h₁.le
  have hle2 := h₂.le
  exact ⟨by omega, hle2, hs⟩

/-- The tiles are in ascending order and disjoint. -/
theorem Tiles.pairwise {l : List (Tile P)} (h : Tiles a l e) :
    l.Pairwise fun s t => s.stop ≤ t.base := by
  induction l generalizing a with
  | nil => exact List.Pairwise.nil
  | cons t ts ih =>
    rcases h with ⟨_, _, hrest⟩
    refine List.Pairwise.cons ?_ (ih hrest)
    intro u hu
    exact (hrest.bounds hu).1

/-- Every address of the interval is in a tile, and no other address is. -/
theorem Tiles.cover {l : List (Tile P)} (h : Tiles a l e) (x : Nat) :
    (∃ t ∈ l, t.base ≤ x ∧ x < t.stop) ↔ a ≤ x ∧ x < e := by
  induction l generalizing a with
  | nil =>
    have hae : a = e := h
    simp only [List.not_mem_nil, false_and, exists_false, false_iff]
    omega
  | cons t ts ih =>
    rcases h with ⟨hb, hs, hrest⟩
    have hle := hrest.le
    simp only [List.mem_cons, exists_eq_or_imp, ih hrest]
    simp only [Tile.stop] at hle ⊢
    omega

/-- Of a coalesced tiling, the free tiles do not even touch. -/
theorem Tiles.free_apart {l : List (Tile P)} (h : Tiles a l e) (hc : Coalesced l) :
    (l.filter fun t => t.used == false).Pairwise fun s t => s.stop < t.base := by
  induction l generalizing a with
  | nil => exact List.Pairwise.nil
  | cons t ts ih =>
    rcases h with ⟨_, _, hrest⟩
    have htail := ih hrest (List.IsChain.tail hc)
    by_cases hu : t.used = true
    · simpa [hu] using htail
    · have hf : t.used = false := by simpa using hu
      simp only [List.filter_cons, hf, beq_self_eq_true, if_true]
      refine List.Pairwise.cons ?_ htail
      intro u hmem
      have hu' : u ∈ ts ∧ u.used = false := by simpa using hmem
      cases ts with
      | nil => simp at hu'
      | cons v vs =>
        -- The tile right behind `t` is used, so `u` comes after it.
        have hv : v.used = true := by
          have hrel := (List.isChain_cons_cons.1 hc).1
          simpa [hf] using hrel
        rcases hrest with ⟨hvb, hvs, hvrest⟩
        have huv : u ∈ vs := by
          rcases List.mem_cons.1 hu'.1 with rfl | hvs'
          · simp [hv] at hu'
          · exact hvs'
        have hub := (hvrest.bounds huv).1
        simp only [Tile.stop] at hvb hub ⊢
        omega

/-- The last tile of a tiling is free, or every free tile ends before the end. -/
theorem Tiles.last_free {l : List (Tile P)} (h : Tiles a l e) :
    (∃ k p, l = k ++ [p] ∧ p.used = false ∧ p.stop = e) ∨
      ((∀ s ∈ l.getLast?, s.used = true) ∧ ∀ s ∈ l, s.used = false → s.stop < e) := by
  rcases List.eq_nil_or_concat l with rfl | ⟨k, p, rfl⟩
  · exact Or.inr ⟨by simp, by simp⟩
  · rw [List.concat_eq_append] at h ⊢
    rcases tiles_append.1 h with ⟨m, hk, hp, hs, hpe⟩
    cases hu : p.used with
    | false => exact Or.inl ⟨k, p, rfl, hu, hpe⟩
    | true =>
      refine Or.inr ⟨by simpa using hu, ?_⟩
      intro s hmem hf
      rcases List.mem_append.1 hmem with hsk | hsp
      · have hb := (hk.bounds hsk).2.1
        simp only [Tile.stop, tiles_nil] at *
        omega
      · have hsp' : s = p := by simpa using hsp
        simp [hsp', hu] at hf

/-- The first tile of a tiling is free, or every free tile starts behind the start. -/
theorem Tiles.head_free {l : List (Tile P)} (h : Tiles a l e) :
    (∃ n k, l = n :: k ∧ n.used = false ∧ n.base = a) ∨
      ((∀ s ∈ l.head?, s.used = true) ∧ ∀ s ∈ l, s.used = false → a < s.base) := by
  cases l with
  | nil => exact Or.inr ⟨by simp, by simp⟩
  | cons n k =>
    rcases h with ⟨hb, hs, hk⟩
    cases hu : n.used with
    | false => exact Or.inl ⟨n, k, rfl, hu, hb⟩
    | true =>
      refine Or.inr ⟨by simpa using hu, ?_⟩
      intro s hmem hf
      rcases List.mem_cons.1 hmem with rfl | hsk
      · simp [hu] at hf
      · have hsb := (hk.bounds hsk).1
        simp only [Tile.stop] at hsb
        omega

/-- With every size a multiple of `q`, there are at most `(e - a) / q` tiles. -/
theorem Tiles.length_mul_le {q : Nat} {l : List (Tile P)} (h : Tiles a l e)
    (hq : ∀ t ∈ l, q ∣ t.size) : l.length * q ≤ total l := by
  induction l generalizing a with
  | nil => simp
  | cons t ts ih =>
    rcases h with ⟨_, hs, hrest⟩
    have htail := ih hrest fun u hu => hq u (List.mem_cons_of_mem _ hu)
    have hle : q ≤ t.size := Nat.le_of_dvd hs (hq t (by simp))
    calc (t :: ts).length * q = ts.length * q + q := by simp [Nat.succ_mul]
      _ ≤ total ts + t.size := Nat.add_le_add htail hle
      _ = total (t :: ts) := by rw [total_cons, Nat.add_comm]

/-! ## Edits of a tiling -/

/-- Tiles in the middle may be exchanged for others that cut the same interval. -/
theorem Tiles.exchange {l₁ l₂ : List (Tile P)} (mid mid' : List (Tile P))
    (h : Tiles a (l₁ ++ (mid ++ l₂)) e) (hmid : ∀ m m', Tiles m mid m' → Tiles m mid' m') :
    Tiles a (l₁ ++ (mid' ++ l₂)) e := by
  rcases tiles_append.1 h with ⟨m, h₁, h⟩
  rcases tiles_append.1 h with ⟨m', h, h₂⟩
  exact tiles_append.2 ⟨m, h₁, tiles_append.2 ⟨m', hmid m m' h, h₂⟩⟩

/-- What holds of all tiles still does when those in the middle are exchanged. -/
theorem forall_mem_exchange {q : Tile P → Prop} {l₁ l₂ : List (Tile P)} (mid mid' : List (Tile P))
    (h : ∀ u ∈ l₁ ++ (mid ++ l₂), q u) (hmid : ∀ u ∈ mid', q u) :
    ∀ u ∈ l₁ ++ (mid' ++ l₂), q u := by
  intro u hu
  simp only [List.mem_append] at h hu
  rcases hu with hu | hu | hu
  · exact h u (Or.inl hu)
  · exact hmid u hu
  · exact h u (Or.inr (Or.inr hu))

theorem coalesced_append {l₁ l₂ : List (Tile P)} :
    Coalesced (l₁ ++ l₂) ↔ Coalesced l₁ ∧ Coalesced l₂ ∧
      ∀ s ∈ l₁.getLast?, ∀ t ∈ l₂.head?, s.used = true ∨ t.used = true :=
  List.isChain_append

theorem coalesced_cons {t : Tile P} {l : List (Tile P)} :
    Coalesced (t :: l) ↔ (∀ u ∈ l.head?, t.used = true ∨ u.used = true) ∧ Coalesced l :=
  List.isChain_cons

/-- The front of a free tile becomes a used tile of its own. -/
def carve (t : Tile P) (x : P) (n : Nat) : List (Tile P) :=
  [⟨x, t.base, n, true⟩, { t with base := t.base + n, size := t.size - n }]

theorem Tiles.carve {n : Nat} {l₁ l₂ : List (Tile P)} {t : Tile P} (x : P)
    (h : Tiles a (l₁ ++ t :: l₂) e) (hn : 0 < n) (hlt : n < t.size) :
    Tiles a (l₁ ++ (carve t x n ++ l₂)) e := by
  refine Tiles.exchange [t] (Tiling.carve t x n) h ?_
  rintro m m' ⟨hb, _, hm⟩
  refine ⟨hb, hn, rfl, ?_, ?_⟩
  · simp only
    omega
  · simp only [Tile.stop, tiles_nil] at hm ⊢
    omega

theorem Coalesced.carve {l₁ l₂ : List (Tile P)} {t : Tile P} (x : P) (n : Nat)
    (h : Coalesced (l₁ ++ t :: l₂)) : Coalesced (l₁ ++ (carve t x n ++ l₂)) := by
  rcases coalesced_append.1 h with ⟨h₁, h₂, _⟩
  rcases coalesced_cons.1 h₂ with ⟨ht, h₂⟩
  refine coalesced_append.2 ⟨h₁, coalesced_cons.2 ⟨?_, coalesced_cons.2 ⟨ht, h₂⟩⟩, ?_⟩
  · simp
  · simp [Tiling.carve]

/-- A free tile becomes used. -/
theorem Tiles.use {l₁ l₂ : List (Tile P)} {t : Tile P}
    (h : Tiles a (l₁ ++ t :: l₂) e) (b : Bool) : Tiles a (l₁ ++ { t with used := b } :: l₂) e :=
  Tiles.exchange [t] [{ t with used := b }] h fun _ _ hm => hm

theorem Coalesced.use {l₁ l₂ : List (Tile P)} {t : Tile P} (h : Coalesced (l₁ ++ t :: l₂)) :
    Coalesced (l₁ ++ { t with used := true } :: l₂) := by
  rcases coalesced_append.1 h with ⟨h₁, h₂, _⟩
  refine coalesced_append.2 ⟨h₁, coalesced_cons.2 ⟨by simp, (coalesced_cons.1 h₂).2⟩, ?_⟩
  simp

/-- `Carved n l pool l' pool'`: `n` addresses of a free tile are handed out.  A spare record of
`pool` takes the front of a larger tile; a tile of the exact size is used as it is. -/
inductive Carved (n : Nat) : List (Tile P) → List P → List (Tile P) → List P → Prop
  | split {l₁ l₂ : List (Tile P)} {t : Tile P} {x : P} {pool : List P} (ht : t.used = false)
      (hlt : n < t.size) : Carved n (l₁ ++ t :: l₂) (x :: pool) (l₁ ++ (carve t x n ++ l₂)) pool
  | whole {l₁ l₂ : List (Tile P)} {t : Tile P} {pool : List P} (ht : t.used = false)
      (hn : t.size = n) : Carved n (l₁ ++ t :: l₂) pool (l₁ ++ { t with used := true } :: l₂) pool

/-- `Released l₁ t l₂ l gone`: the tile `t` between `l₁` and `l₂` becomes free and is merged with
its free neighbours; `gone` are the records that are no longer needed. -/
inductive Released : List (Tile P) → Tile P → List (Tile P) → List (Tile P) → List P → Prop
  | alone {l₁ l₂ : List (Tile P)} {t : Tile P} (h₁ : ∀ s ∈ l₁.getLast?, s.used = true)
      (h₂ : ∀ s ∈ l₂.head?, s.used = true) :
      Released l₁ t l₂ (l₁ ++ { t with used := false } :: l₂) []
  | next {l₁ l₂ : List (Tile P)} {t n : Tile P} (h₁ : ∀ s ∈ l₁.getLast?, s.used = true)
      (hn : n.used = false) :
      Released l₁ t (n :: l₂) (l₁ ++ { n with base := t.base, size := t.size + n.size } :: l₂)
        [t.slot]
  | prev {l₁ l₂ : List (Tile P)} {p t : Tile P} (hp : p.used = false)
      (h₂ : ∀ s ∈ l₂.head?, s.used = true) :
      Released (l₁ ++ [p]) t l₂ (l₁ ++ { p with size := p.size + t.size } :: l₂) [t.slot]
  | both {l₁ l₂ : List (Tile P)} {p t n : Tile P} (hp : p.used = false) (hn : n.used = false) :
      Released (l₁ ++ [p]) t (n :: l₂) (l₁ ++ { p with size := p.size + t.size + n.size } :: l₂)
        [t.slot, n.slot]

section Released

variable {l₁ l₂ l : List (Tile P)} {t : Tile P} {gone : List P}

theorem Released.tiles {a e : Nat} (h : Released l₁ t l₂ l gone)
    (ht : Tiles a (l₁ ++ t :: l₂) e) : Tiles a l e := by
  cases h with
  | alone h₁ h₂ => exact ht.use false
  | @next _ l₂ _ n h₁ hn =>
    refine Tiles.exchange [t, n] [{ n with base := t.base, size := t.size + n.size }] ht ?_
    rintro m m' ⟨hb, hs, hnb, hns, hm⟩
    refine ⟨hb, ?_, ?_⟩ <;> simp only [Tile.stop, tiles_nil] at * <;> omega
  | @prev l₁ _ p _ hp h₂ =>
    have ht' : Tiles a (l₁ ++ ([p, t] ++ l₂)) e := by simpa using ht
    refine Tiles.exchange [p, t] [{ p with size := p.size + t.size }] ht' ?_
    rintro m m' ⟨hb, hs, hnb, hns, hm⟩
    refine ⟨hb, ?_, ?_⟩ <;> simp only [Tile.stop, tiles_nil] at * <;> omega
  | @both l₁ l₂ p _ n hp hn =>
    have ht' : Tiles a (l₁ ++ ([p, t, n] ++ l₂)) e := by simpa using ht
    refine Tiles.exchange [p, t, n] [{ p with size := p.size + t.size + n.size }] ht' ?_
    rintro m m' ⟨hb, hs, htb, hts, hnb, hns, hm⟩
    refine ⟨hb, ?_, ?_⟩ <;> simp only [Tile.stop, tiles_nil] at * <;> omega

theorem Released.coalesced (h : Released l₁ t l₂ l gone) (hc : Coalesced (l₁ ++ t :: l₂)) :
    Coalesced l := by
  -- What is left of the list on either side of the merged tile stays coalesced.
  have hside : ∀ {k₁ k2 : List (Tile P)} {u : Tile P}, Coalesced k₁ → Coalesced k2 →
      (∀ s ∈ k₁.getLast?, s.used = true) → (∀ s ∈ k2.head?, s.used = true) →
      Coalesced (k₁ ++ u :: k2) := by
    intro k₁ k2 u hk1 hk2 hl hr
    refine coalesced_append.2 ⟨hk1, coalesced_cons.2 ⟨fun s hs => Or.inr (hr s hs), hk2⟩, ?_⟩
    intro s hs _ _
    exact Or.inl (hl s hs)
  rcases coalesced_append.1 hc with ⟨hc1, hc2, _⟩
  have hc2 := (coalesced_cons.1 hc2).2
  -- A free neighbour has used tiles on its other side.
  have hleft : ∀ {k : List (Tile P)} {p : Tile P}, Coalesced (k ++ [p]) → p.used = false →
      Coalesced k ∧ ∀ s ∈ k.getLast?, s.used = true := by
    intro k p hk hp
    rcases coalesced_append.1 hk with ⟨hk, _, hrel⟩
    refine ⟨hk, fun s hs => ?_⟩
    simpa [hp] using hrel s hs p rfl
  have hright : ∀ {k : List (Tile P)} {n : Tile P}, Coalesced (n :: k) → n.used = false →
      Coalesced k ∧ ∀ s ∈ k.head?, s.used = true := by
    intro k n hk hn
    rcases coalesced_cons.1 hk with ⟨hrel, hk⟩
    refine ⟨hk, fun s hs => ?_⟩
    simpa [hn] using hrel s hs
  cases h with
  | alone h₁ h₂ => exact hside hc1 hc2 h₁ h₂
  | next h₁ hn => exact hside hc1 (hright hc2 hn).1 h₁ (hright hc2 hn).2
  | prev hp h₂ => exact hside (hleft hc1 hp).1 hc2 (hleft hc1 hp).2 h₂
  | both hp hn => exact hside (hleft hc1 hp).1 (hright hc2 hn).1 (hleft hc1 hp).2 (hright hc2 hn).2

/-- A tile without neighbours is merged with none. -/
theorem Released.lone (h : Released l₁ t l₂ l gone) (h₁ : l₁ = []) (h₂ : l₂ = []) :
    l = [{ t with used := false }] ∧ gone = [] := by
  cases h with
  | alone _ _ => simp [h₁, h₂]
  | next _ _ => simp at h₂
  | prev _ _ => simp at h₁
  | both _ _ => simp at h₂

/-- The other used tiles are untouched. -/
theorem Released.filter_used (h : Released l₁ t l₂ l gone) :
    l.filter (fun u => u.used == true) =
      l₁.filter (fun u => u.used == true) ++ l₂.filter (fun u => u.used == true) := by
  cases h with
  | alone h₁ h₂ => simp
  | next h₁ hn => simp [hn]
  | prev hp h₂ => simp [hp]
  | both hp hn => simp [hp, hn]

/-- Every record is either still in use or gone. -/
theorem Released.perm (h : Released l₁ t l₂ l gone) :
    (l.map Tile.slot ++ gone).Perm ((l₁ ++ t :: l₂).map Tile.slot) := by
  cases h with
  | alone h₁ h₂ => simp
  | @next _ l₂ _ n h₁ hn =>
    simp only [List.map_append, List.map_cons, List.append_assoc, List.cons_append]
    refine List.Perm.append_left _ ?_
    have hmove := List.perm_append_singleton t.slot (n.slot :: l₂.map Tile.slot)
    simpa using hmove
  | @prev l₁ _ p _ hp h₂ =>
    simp only [List.map_append, List.map_cons, List.append_assoc, List.cons_append,
      List.nil_append]
    refine List.Perm.append_left _ (List.Perm.cons _ ?_)
    exact List.perm_append_singleton t.slot (l₂.map Tile.slot)
  | @both l₁ l₂ p _ n hp hn =>
    simp only [List.map_append, List.map_cons, List.append_assoc, List.cons_append,
      List.nil_append]
    refine List.Perm.append_left _ (List.Perm.cons _ ?_)
    have hmove := @List.perm_append_comm _ (l₂.map Tile.slot) [t.slot, n.slot]
    simpa using hmove

/-- Merging keeps every size a multiple of `q`. -/
theorem Released.dvd {q : Nat} (h : Released l₁ t l₂ l gone)
    (hq : ∀ u ∈ l₁ ++ t :: l₂, q ∣ u.size) : ∀ u ∈ l, q ∣ u.size := by
  have ht : q ∣ t.size := hq t (by simp)
  cases h with
  | alone h₁ h₂ =>
    refine forall_mem_exchange [t] [{ t with used := false }] hq ?_
    simpa using ht
  | @next _ l₂ _ n h₁ hn =>
    refine forall_mem_exchange [t, n] [{ n with base := t.base, size := t.size + n.size }] hq ?_
    simpa using Nat.dvd_add ht (hq n (by simp))
  | @prev l₁ _ p _ hp h₂ =>
    refine forall_mem_exchange [p, t] [{ p with size := p.size + t.size }] (by simpa using hq) ?_
    simpa using Nat.dvd_add (hq p (by simp)) ht
  | @both l₁ l₂ p _ n hp hn =>
    refine forall_mem_exchange [p, t, n] [{ p with size := p.size + t.size + n.size }]
      (by simpa using hq) ?_
    simpa using Nat.dvd_add (Nat.dvd_add (hq p (by simp)) ht) (hq n (by simp))

/-- A tile starts where one did before. -/
theorem Released.bases (h : Released l₁ t l₂ l gone) :
    ∀ u ∈ l, ∃ v ∈ l₁ ++ t :: l₂, v.base = u.base := by
  have hside : ∀ {k₁ k2 k : List (Tile P)} {w v : Tile P}, (∀ u ∈ k₁ ++ k2, u ∈ k) →
      v ∈ k → v.base = w.base → ∀ u ∈ k₁ ++ w :: k2, ∃ x ∈ k, x.base = u.base := by
    intro k₁ k2 k w v hk hv hbase u hu
    simp only [List.mem_append, List.mem_cons] at hu hk
    rcases hu with hu | rfl | hu
    · exact ⟨u, hk u (.inl hu), rfl⟩
    · exact ⟨v, hv, hbase⟩
    · exact ⟨u, hk u (.inr hu), rfl⟩
  cases h with
  | alone h₁ h₂ => exact hside (by simp; tauto) (v := t) (by simp) rfl
  | next h₁ hn => exact hside (by simp; tauto) (v := t) (by simp) rfl
  | @prev l₁ _ p _ hp h₂ => exact hside (by simp; tauto) (v := p) (by simp) rfl
  | @both l₁ _ p _ n hp hn => exact hside (by simp; tauto) (v := p) (by simp) rfl

end Released

end Tiling
end XytherOS
