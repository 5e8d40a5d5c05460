import XytherOS.Arch.TableOps

/-!
# TableView — the page tables as a walk from the root finds them

An entry below one that is not present is never read.  So what counts of the tables is which tables
a walk reaches, and the entry of each page where the walk ends; an entry without a table counts as
zero, as it will be in a new table.  The functions that add and take back tables are described by
their effect on this view and on the frames, for tables in any state.
-/

namespace XytherOS
namespace Arch

open Function

open Mm.Mmap (has PTE_P PTE_W)
open Mm.Pmm (PGSZ)

/-! ## Frames -/

namespace Frames

/-- The frames without references, in the order in which they are handed out. -/
def unused (fr : Frames) : List Nat :=
  (List.range' fr.start fr.npages).filter fun f => fr.refcnt f == 0

def take (fr : Frames) (n : Nat) : Frames :=
  { fr with refcnt := fun f => if f ∈ fr.unused.take n then 1 else fr.refcnt f }

variable {fr : Frames} {f n m : Nat}

theorem mem_unused : f ∈ fr.unused ↔ fr.Contains f ∧ fr.refcnt f = 0 := by
  rw [unused, List.mem_filter, List.mem_range'_1, beq_iff_eq, Contains]

theorem unused_nodup (fr : Frames) : fr.unused.Nodup := (List.nodup_range' ..).filter _

@[simp] theorem take_contains : (fr.take n).Contains f ↔ fr.Contains f := Iff.rfl

theorem take_zero (fr : Frames) : fr.take 0 = fr := by
  simp [take]

theorem unused_take (fr : Frames) (n : Nat) : (fr.take n).unused = fr.unused.drop n := by
  have hsplit : (fr.take n).unused = fr.unused.filter fun f => decide (f ∉ fr.unused.take n) := by
    rw [unused, unused, List.filter_filter]
    refine List.filter_congr fun f _ => ?_
    by_cases hf : f ∈ fr.unused.take n
    · have hz := (mem_unused.1 (List.mem_of_mem_take hf)).2
      simp only [take, unused] at hf ⊢
      simp [hf]
    · simp only [take, unused] at hf ⊢
      simp [hf]
  rw [hsplit]
  have happend := List.take_append_drop n fr.unused
  have hnodup := fr.unused_nodup
  generalize fr.unused.take n = a at happend ⊢
  generalize fr.unused.drop n = b at happend ⊢
  rw [← happend] at hnodup ⊢
  have hdisj := List.disjoint_of_nodup_append hnodup
  rw [List.filter_append]
  have ha : a.filter (fun f => decide (f ∉ a)) = [] := by
    rw [List.filter_eq_nil_iff]
    intro f hf
    simp [hf]
  have hb : b.filter (fun f => decide (f ∉ a)) = b := by
    rw [List.filter_eq_self]
    intro f hf
    simpa using fun hfa => hdisj hfa hf
  rw [ha, hb, List.nil_append]

theorem take_take (fr : Frames) (n m : Nat) : (fr.take n).take m = fr.take (n + m) := by
  have hmem : ∀ f, f ∈ fr.unused.take (n + m) ↔
      f ∈ fr.unused.take n ∨ f ∈ (fr.unused.drop n).take m := by
    intro f
    rw [List.take_add, List.mem_append]
  have hrefcnt : ((fr.take n).take m).refcnt = (fr.take (n + m)).refcnt := by
    funext f
    change (if f ∈ (fr.take n).unused.take m then 1 else
      if f ∈ fr.unused.take n then 1 else fr.refcnt f) =
        if f ∈ fr.unused.take (n + m) then 1 else fr.refcnt f
    rw [unused_take]
    simp only [hmem]
    by_cases h₁ : f ∈ fr.unused.take n <;> by_cases h₂ : f ∈ (fr.unused.drop n).take m <;>
      simp [h₁, h₂]
  calc
    (fr.take n).take m = { fr with refcnt := ((fr.take n).take m).refcnt } := rfl
    _ = fr.take (n + m) := by rw [hrefcnt]; rfl

theorem getPage_eq (fr : Frames) : fr.getPage = match fr.unused.head? with
    | none => .error .ENOMEM
    | some f => .ok (f, fr.take 1) := by
  rw [getPage, unused, List.head?_filter]
  cases hfind : (List.range' fr.start fr.npages).find? fun f => fr.refcnt f == 0 with
  | none => rfl
  | some f =>
    have hhead : fr.unused.head? = some f := by rw [unused, List.head?_filter, hfind]
    have htake : fr.unused.take 1 = [f] := by
      rw [List.take_one, hhead]
      rfl
    simp only [setRefcnt, take, htake, List.mem_singleton, Except.ok.injEq, Prod.mk.injEq,
      true_and, Frames.mk.injEq]
    funext g
    simp [update_apply]

theorem getPage_none (h : fr.unused.length = 0) : fr.getPage = .error .ENOMEM := by
  rw [getPage_eq, List.eq_nil_of_length_eq_zero h]
  rfl

theorem getPage_some (h : 0 < fr.unused.length) :
    ∃ f rest, fr.unused = f :: rest ∧ fr.getPage = .ok (f, fr.take 1) := by
  rw [getPage_eq]
  cases hunused : fr.unused with
  | nil => simp [hunused] at h
  | cons f rest => exact ⟨f, rest, rfl, rfl⟩

theorem free_take (h : fr.unused.head? = some f) : (fr.take 1).free f = .ok fr := by
  have htake : fr.unused.take 1 = [f] := by
    rw [List.take_one, h]
    rfl
  have hf := mem_unused.1 (List.mem_of_mem_head? h)
  have hone : (fr.take 1).refcnt f = 1 := by simp [take, htake]
  rw [free, pagePut, if_pos (take_contains.2 hf.1), assert, if_pos (by omega), ok_bind, hone]
  have hback : (fr.take 1).setRefcnt f (1 - 1) = fr := by
    have hrefcnt : update (fr.take 1).refcnt f (1 - 1) = fr.refcnt := by
      funext g
      by_cases hg : g = f
      · rw [hg, update_self, hf.2]
      · simp [take, htake, hg]
    calc
      (fr.take 1).setRefcnt f (1 - 1) =
          { fr with refcnt := update (fr.take 1).refcnt f (1 - 1) } := rfl
      _ = fr := by rw [hrefcnt]
  rw [hback]
  rfl

end Frames

/-! ## The view -/

namespace PageTables

def pteAt (t : PageTables) (v : Nat) : BitVec 64 :=
  if t.reached .pdt (v / 512) then t.entry .pt v else 0

/-- The walk reaches the tables `S` besides, and they are empty. -/
structure Adds (t t' : PageTables) (S : Finset (Level × Nat)) : Prop where
  reached : ∀ l, l ≠ .pt → ∀ k, t'.reached l k = true ↔ t.reached l k = true ∨ (l, k) ∈ S
  pteAt : ∀ v, t'.pteAt v = t.pteAt v

variable {t t' t'' : PageTables} {lvl l : Level} {k j v : Nat} {raw : BitVec 64}

theorem reached_iff : t.reached l k = true ↔
    t.isP l k = true ∧ ∀ up, l.above = some up → t.reached up (k / 512) = true := by
  cases l <;> simp [reached, Level.above, and_comm, and_assoc]

theorem reached_pt : t.reached .pt v = has (t.pteAt v) PTE_P := by
  have hstep : t.reached .pt v = (t.reached .pdt (v / 512) && t.isP .pt v) := by
    simp [reached, Bool.and_assoc]
  rw [hstep, pteAt, isP]
  cases t.reached .pdt (v / 512) with
  | false => simp [has]
  | true => simp

theorem Adds.refl (t : PageTables) : Adds t t ∅ := ⟨fun _ _ _ => by simp, fun _ => rfl⟩

theorem Adds.trans {S S' : Finset (Level × Nat)} (h : Adds t t' S) (h' : Adds t' t'' S') :
    Adds t t'' (S ∪ S') := by
  refine ⟨fun l hl k => ?_, fun v => (h'.pteAt v).trans (h.pteAt v)⟩
  rw [h'.reached l hl k, h.reached l hl k, Finset.mem_union, or_assoc]

theorem level_induction {P : Level → Nat → Prop}
    (h : ∀ l k, l ≠ .pt → (∀ up, l.above = some up → P up (k / 512)) → P l k) (hl : l ≠ .pt)
    (k : Nat) : P l k := by
  have h4 : ∀ k, P .pml4 k := fun k => h .pml4 k (by simp) (by simp [Level.above])
  have h3 : ∀ k, P .pdpt k := fun k => h .pdpt k (by simp) fun up hup => by
    rw [← Option.some.inj hup]
    exact h4 _
  have h₂ : ∀ k, P .pdt k := fun k => h .pdt k (by simp) fun up hup => by
    rw [← Option.some.inj hup]
    exact h3 _
  cases l with
  | pml4 => exact h4 k
  | pdpt => exact h3 k
  | pdt => exact h₂ k
  | pt => exact absurd rfl hl

theorem adds_graft (hl : lvl ≠ .pt) (hp : t.isP lvl k = false)
    (hup : ∀ up, lvl.above = some up → t.reached up (k / 512) = true)
    (hraw : has raw PTE_P = true) : Adds t (t.graft lvl k raw) {(lvl, k)} := by
  have hno : t.reached lvl k = false := by
    rw [← Bool.not_eq_true, reached_iff, hp]
    simp
  have hreached : ∀ l, l ≠ .pt → ∀ j, (t.graft lvl k raw).reached l j = true ↔
      t.reached l j = true ∨ (l = lvl ∧ j = k) := by
    intro l hne j
    refine level_induction (P := fun l j => (t.graft lvl k raw).reached l j = true ↔
      t.reached l j = true ∨ (l = lvl ∧ j = k)) (fun l j _ ih => ?_) hne j
    rw [reached_iff]
    by_cases hself : l = lvl ∧ j = k
    · rcases hself with ⟨rfl, rfl⟩
      have hnew : (t.graft l j raw).isP l j = true := by simpa [isP] using hraw
      simp only [hnew, true_and, and_self, or_true, iff_true]
      exact fun up habove => (ih up habove).2 (.inl (hup up habove))
    · by_cases hbelow : l.above = some lvl ∧ j / 512 = k
      · rw [isP_graft_below hbelow.1 hbelow.2]
        simp only [Bool.false_eq_true, false_and, false_iff, not_or]
        refine ⟨fun hr => ?_, hself⟩
        have hr' := (reached_iff.1 hr).2 lvl hbelow.1
        rw [hbelow.2, hno] at hr'
        exact absurd hr' (by decide)
      · -- the entry and the way to it are those of before
        have hsame : (t.graft lvl k raw).isP l j = t.isP l j := by
          simp only [isP, entry_graft_of_ne hself hbelow]
        have hway : ∀ up, l.above = some up → ((t.graft lvl k raw).reached up (j / 512) = true ↔
            t.reached up (j / 512) = true) := by
          intro up habove
          rw [ih up habove, or_iff_left]
          rintro ⟨rfl, hj⟩
          exact hbelow ⟨habove, hj⟩
        rw [hsame, or_iff_left hself, reached_iff]
        exact and_congr_right fun _ => forall₂_congr hway
  refine ⟨fun l hne j => by simpa using hreached l hne j, fun v => ?_⟩
  have hwalk := hreached .pdt (by simp) (v / 512)
  rw [pteAt, pteAt]
  by_cases hnew : Level.pdt = lvl ∧ v / 512 = k
  · rcases hnew with ⟨rfl, rfl⟩
    simp [hno, graft, Level.above]
  · have hself : ¬ (Level.pt = lvl ∧ v = k) := fun h => hl h.1.symm
    have hbelow : ¬ (Level.above .pt = some lvl ∧ v / 512 = k) := by
      rintro ⟨habove, hv⟩
      exact hnew ⟨Option.some.inj habove, hv⟩
    rw [or_iff_left hnew] at hwalk
    rw [entry_graft_of_ne hself hbelow, Bool.eq_iff_iff.2 hwalk]

theorem Adds.set_zero (h : Adds t t' {(lvl, k)}) (hl : lvl ≠ .pt) (hno : t.reached lvl k = false) :
    Adds t (t'.set lvl k 0) ∅ := by
  have hreached : ∀ l, l ≠ .pt → ∀ j, (t'.set lvl k 0).reached l j = true ↔
      t.reached l j = true := by
    intro l hne j
    refine level_induction (P := fun l j => (t'.set lvl k 0).reached l j = true ↔
      t.reached l j = true) (fun l j hne ih => ?_) hne j
    by_cases hself : l = lvl ∧ j = k
    · rcases hself with ⟨rfl, rfl⟩
      rw [reached_iff, isP_set_zero, hno]
      simp
    · have hold := h.reached l hne j
      rw [Finset.mem_singleton, Prod.mk.injEq, or_iff_left hself, reached_iff] at hold
      rw [reached_iff, isP_set_of_ne hself, ← hold]
      refine and_congr_right fun hthere => ?_
      constructor
      · intro hway up habove
        have hup := (ih up habove).1 (hway up habove)
        have hne' : up ≠ .pt := by
          rintro rfl
          cases l <;> simp [Level.above] at habove
        exact (h.reached up hne' _).2 (.inl hup)
      · intro hway up habove
        have hwalk : t.reached l j = true := hold.1 ⟨hthere, hway⟩
        exact (ih up habove).2 ((reached_iff.1 hwalk).2 up habove)
  refine ⟨fun l hne j => by simpa using hreached l hne j, fun v => ?_⟩
  have hwalk := hreached .pdt (by simp) (v / 512)
  have hself : ¬ (Level.pt = lvl ∧ v = k) := fun heq => hl heq.1.symm
  have hold := h.pteAt v
  rw [PageTables.pteAt] at hold
  rw [PageTables.pteAt, entry_set_of_ne hself, Bool.eq_iff_iff.2 hwalk]
  by_cases hr : t.reached .pdt (v / 512) = true
  · have hr' := (h.reached .pdt (by simp) (v / 512)).2 (.inl hr)
    rw [if_pos hr'] at hold
    rw [if_pos hr, hold]
  · rw [if_neg hr, PageTables.pteAt, if_neg hr]

end PageTables

/-! ## Missing tables -/

def tableLevels : List Level := [.pml4, .pdpt, .pdt]

/-- The entries of these levels that the walk to the page `v` finds absent. -/
def PageTables.needed (t : PageTables) (v : Nat) (lvls : List Level) : List (Level × Nat) :=
  (lvls.map fun l => (l, l.index v)).filter fun x => !t.reached x.1 x.2

/-- The entries above the page tables that are absent on the way to some page. -/
def PageTables.missing (t : PageTables) (pages : List Nat) : Finset (Level × Nat) :=
  pages.toFinset.biUnion fun v => (t.needed v tableLevels).toFinset

section Missing

variable {t t' : PageTables} {v w : Nat} {vs : List Nat} {l : Level} {k : Nat} {lvls : List Level}

theorem mem_tableLevels : l ∈ tableLevels ↔ l ≠ .pt := by
  cases l <;> simp [tableLevels]

theorem mem_needed {x : Level × Nat} : x ∈ t.needed v lvls ↔
    x.1 ∈ lvls ∧ x.2 = x.1.index v ∧ t.reached x.1 x.2 = false := by
  rcases x with ⟨l, k⟩
  simp only [PageTables.needed, List.mem_filter, List.mem_map, Prod.mk.injEq, Bool.not_eq_true']
  constructor
  · rintro ⟨⟨l', hl', rfl, rfl⟩, hr⟩
    exact ⟨hl', rfl, hr⟩
  · rintro ⟨hl, rfl, hr⟩
    exact ⟨⟨l, hl, rfl, rfl⟩, hr⟩

theorem needed_nodup (hlvls : lvls.Nodup) : (t.needed v lvls).Nodup :=
  (hlvls.map fun _ _ h => congrArg Prod.fst h).filter _

theorem needed_cons (l : Level) (lvls : List Level) :
    t.needed v (l :: lvls) = if t.reached l (l.index v) then t.needed v lvls
      else (l, l.index v) :: t.needed v lvls := by
  cases hr : t.reached l (l.index v) <;> simp [PageTables.needed, hr]

theorem mem_missing {x : Level × Nat} : x ∈ t.missing vs ↔
    x.1 ≠ .pt ∧ (∃ v ∈ vs, x.2 = x.1.index v) ∧ t.reached x.1 x.2 = false := by
  simp only [PageTables.missing, Finset.mem_biUnion, List.mem_toFinset, mem_needed,
    mem_tableLevels]
  constructor
  · rintro ⟨v, hv, hl, hk, hr⟩
    exact ⟨hl, ⟨v, hv, hk⟩, hr⟩
  · rintro ⟨hl, ⟨v, hv, hk⟩, hr⟩
    exact ⟨v, hv, hl, hk, hr⟩

theorem card_missing_singleton : (t.missing [v]).card = (t.needed v tableLevels).length := by
  have hnodup : (t.needed v tableLevels).Nodup := needed_nodup (by decide)
  rw [← List.toFinset_card_of_nodup hnodup]
  simp [PageTables.missing]

end Missing

/-! ## Adding tables -/

theorem has_tableFlags (f : Nat) (flags : BitVec 64) :
    has (mkPte f (flags ||| PTE_WT ||| PTE_KRW)) PTE_P = true := by
  rw [has_P, getLsbD_mkPte (by decide)]
  simp [PTE_WT, PTE_KRW, PTE_P, PTE_W]

/-- The outcome of adding tables: all that are missing with frames of their own, or none. -/
def TablesProvided (mem : Mem) (need : List (Level × Nat)) (res : Except Fault (Ret × Mem)) : Prop :=
  if need.length ≤ mem.frames.unused.length then
    ∃ t, res = .ok (.ok, { mem with tables := t, frames := mem.frames.take need.length }) ∧
      mem.tables.Adds t need.toFinset
  else
    ∃ t, res = .ok (.err .ENOMEM, { mem with tables := t }) ∧ mem.tables.Adds t ∅

theorem addTables_spec {v : Nat} {flags : BitVec 64} {lvls : List Level}
    (hchain : lvls.IsChain fun a b => b.above = some a) (hnodup : lvls.Nodup) (hpt : .pt ∉ lvls)
    (mem : Mem) (hhead : ∀ l ∈ lvls.head?, ∀ up, l.above = some up →
      mem.tables.reached up (up.index v) = true) :
    TablesProvided mem (mem.tables.needed v lvls) (addTables v flags lvls mem) := by
  -- induction on the levels, each provided below one that is there
  induction lvls generalizing mem with
  | nil =>
    have hnil : mem.tables.needed v [] = [] := rfl
    rw [hnil, TablesProvided, if_pos (by simp), List.length_nil, Frames.take_zero]
    exact ⟨mem.tables, rfl, .refl _⟩
  | cons lvl lvls ih =>
    rw [List.nodup_cons] at hnodup
    rw [List.mem_cons, not_or] at hpt
    have hl : lvl ≠ .pt := Ne.symm hpt.1
    have hup : ∀ up, lvl.above = some up →
        mem.tables.reached up (lvl.index v / 512) = true := by
      intro up habove
      rw [← Level.index_above habove]
      exact hhead lvl (by simp) up habove
    have hisP : mem.tables.reached lvl (lvl.index v) = mem.tables.isP lvl (lvl.index v) := by
      rw [Bool.eq_iff_iff, PageTables.reached_iff, and_iff_left hup]
    have hnext : ∀ t : PageTables, t.reached lvl (lvl.index v) = true →
        ∀ l ∈ lvls.head?, ∀ up, l.above = some up → t.reached up (up.index v) = true := by
      intro t ht l hmem up habove
      cases lvls with
      | nil => simp at hmem
      | cons l' lvls =>
        have hll' : l = l' := by simpa using hmem.symm
        rw [List.isChain_cons_cons] at hchain
        rw [hll', hchain.1, Option.some.injEq] at habove
        rwa [← habove]
    have hrest : lvls.IsChain fun a b => b.above = some a := hchain.tail
    rw [addTables, addTable, needed_cons, hisP]
    cases hp : mem.tables.isP lvl (lvl.index v) with
    | true =>
      simp only [↓reduceIte]
      have htail := ih hrest hnodup.2 hpt.2 mem (hnext _ (hisP.trans hp))
      unfold TablesProvided at htail ⊢
      split_ifs at htail ⊢
      · rcases htail with ⟨t, hok, hadds⟩
        exact ⟨t, by rw [hok]; rfl, hadds⟩
      · rcases htail with ⟨t, hok, hadds⟩
        exact ⟨t, by rw [hok]; rfl, hadds⟩
    | false =>
      simp only [Bool.false_eq_true, ↓reduceIte]
      by_cases hnone : mem.frames.unused.length = 0
      · rw [Frames.getPage_none hnone, TablesProvided, if_neg (by simp [hnone])]
        exact ⟨mem.tables, rfl, .refl _⟩
      · rcases Frames.getPage_some (Nat.pos_of_ne_zero hnone) with ⟨f, rest, hunused, hget⟩
        rw [hget]
        simp only
        have hgraft := PageTables.adds_graft hl hp hup (has_tableFlags f flags)
        generalize hraw : mkPte f (flags ||| PTE_WT ||| PTE_KRW) = raw at hgraft
        have hthere : (mem.tables.graft lvl (lvl.index v) raw).reached lvl (lvl.index v) = true :=
          (hgraft.reached lvl hl _).2 (.inr (Finset.mem_singleton_self _))
        have hneed : (mem.tables.graft lvl (lvl.index v) raw).needed v lvls =
            mem.tables.needed v lvls := by
          refine List.filter_congr fun x hx => ?_
          rcases List.mem_map.1 hx with ⟨l, hmem, rfl⟩
          have hlpt : l ≠ .pt := fun heq => hpt.2 (heq ▸ hmem)
          have hne : (l, l.index v) ∉ ({(lvl, lvl.index v)} : Finset (Level × Nat)) := by
            rw [Finset.mem_singleton, Prod.mk.injEq]
            rintro ⟨rfl, -⟩
            exact hnodup.1 hmem
          have hsame := hgraft.reached l hlpt (l.index v)
          rw [or_iff_left hne] at hsame
          simp only [Bool.eq_iff_iff.2 hsame]
        have htail := ih hrest hnodup.2 hpt.2
          { mem with
            frames := mem.frames.take 1
            tables := mem.tables.graft lvl (lvl.index v) raw } (hnext _ hthere)
        unfold TablesProvided at htail ⊢
        simp only [hneed, Frames.unused_take, hunused, List.length_drop, List.length_cons]
          at htail ⊢
        by_cases henough : (mem.tables.needed v lvls).length ≤ rest.length
        · rw [if_pos (by omega)] at htail
          rw [if_pos (by omega)]
          rcases htail with ⟨t, hok, hadds⟩
          refine ⟨t, ?_, ?_⟩
          · rw [hok]
            simp only [ok_bind, Frames.take_take, Nat.add_comm 1]
            rfl
          · rw [List.toFinset_cons, Finset.insert_eq]
            exact hgraft.trans hadds
        · rw [if_neg (by omega)] at htail
          rw [if_neg (by omega)]
          rcases htail with ⟨t, hok, hadds⟩
          -- the table is taken back, and its frame with it
          have hno : mem.tables.reached lvl (lvl.index v) = false := hisP.trans hp
          have hboth := hgraft.trans hadds
          rw [Finset.union_empty] at hboth
          refine ⟨t.set lvl (lvl.index v) 0, ?_, hboth.set_zero hl hno⟩
          have hfree : (mem.frames.take 1).free f = .ok mem.frames :=
            Frames.free_take (by rw [hunused]; rfl)
          rw [hok]
          simp only [ok_bind, dropTable, Mem.setEntry, Mem.free, hfree]
          rfl

/-! ## One page -/

section Page

variable {mem mem' : Mem} {v w f : Nat} {flags raw : BitVec 64}

def installed (pte : BitVec 64) (f : Nat) (flags : BitVec 64) : BitVec 64 :=
  if !has pte PTE_P || has flags PTE_REMAP then mkPte f flags else pte

theorem PageTables.pteAt_set_self {t : PageTables} (hr : t.reached .pdt (v / 512) = true) :
    (t.set .pt v raw).pteAt v = raw := by
  have hwalk : (t.set .pt v raw).reached .pdt (v / 512) = t.reached .pdt (v / 512) := by
    simp [PageTables.reached, PageTables.isP, PageTables.set]
  rw [PageTables.pteAt, hwalk, if_pos hr, PageTables.entry_set_self]

theorem PageTables.pteAt_set_of_ne {t : PageTables} (hne : w ≠ v) :
    (t.set .pt v raw).pteAt w = t.pteAt w := by
  have hwalk : (t.set .pt v raw).reached .pdt (w / 512) = t.reached .pdt (w / 512) := by
    simp [PageTables.reached, PageTables.isP, PageTables.set]
  rw [PageTables.pteAt, PageTables.pteAt, hwalk,
    PageTables.entry_set_of_ne fun h => hne h.2]

theorem PageTables.reached_set_page {t : PageTables} {l : Level} (hl : l ≠ .pt) (k : Nat) :
    (t.set .pt v raw).reached l k = t.reached l k := by
  cases l with
  | pt => exact absurd rfl hl
  | _ => simp [PageTables.reached, PageTables.isP, PageTables.set]

/-- The page `v` is mapped: the tables on the way to it are added, and its entry is installed. -/
structure PageMapped (flags : BitVec 64) (mem : Mem) (v f : Nat) (mem' : Mem) : Prop where
  reached : ∀ l, l ≠ .pt → ∀ k, mem'.tables.reached l k = true ↔
    mem.tables.reached l k = true ∨ (l, k) ∈ mem.tables.missing [v]
  frames : mem'.frames = mem.frames.take (mem.tables.missing [v]).card
  pteAt : mem'.tables.pteAt v = installed (mem.tables.pteAt v) f flags
  others : ∀ w, w ≠ v → mem'.tables.pteAt w = mem.tables.pteAt w

theorem map_refused (hps : has flags PTE_PS = true) (mem : Mem) (f v : Nat) :
    map mem f v flags = .ok (.err .ENOTSUP, mem) := by
  rw [map, if_pos hps]

theorem addTables_all (flags : BitVec 64) (mem : Mem) (v : Nat) :
    TablesProvided mem (mem.tables.needed v tableLevels) (addTables v flags [.pml4, .pdpt, .pdt] mem) :=
  addTables_spec (by simp [tableLevels, Level.above]) (by decide) (by decide) mem
    (by simp [tableLevels, Level.above])

theorem missing_singleton_eq (t : PageTables) (v : Nat) :
    t.missing [v] = (t.needed v tableLevels).toFinset := by
  simp [PageTables.missing]

theorem map_mapped (hps : has flags PTE_PS = false)
    (henough : (mem.tables.missing [v]).card ≤ mem.frames.unused.length) (f : Nat) :
    ∃ mem', map mem f v flags = .ok (.ok, mem') ∧ PageMapped flags mem v f mem' := by
  have hspec := addTables_all flags mem v
  rw [TablesProvided, ← card_missing_singleton, if_pos henough, ← missing_singleton_eq] at hspec
  rcases hspec with ⟨t, hok, hadds⟩
  have hthere : t.reached .pdt (v / 512) = true := by
    rw [hadds.reached .pdt (by simp)]
    by_cases hr : mem.tables.reached .pdt (v / 512) = true
    · exact .inl hr
    · exact .inr (mem_missing.2 ⟨by simp, ⟨v, List.mem_singleton.2 rfl, rfl⟩, by simpa using hr⟩)
  have hisP : t.isP .pt v = has (mem.tables.pteAt v) PTE_P := by
    rw [← hadds.pteAt v, PageTables.pteAt, if_pos hthere, PageTables.isP]
  rw [map, if_neg (by simp [hps]), hok]
  refine ⟨_, rfl, ?_⟩
  simp only [installPte, hisP]
  by_cases hinstall : (!has (mem.tables.pteAt v) PTE_P || has flags PTE_REMAP) = true
  · rw [if_pos hinstall]
    refine ⟨fun l hl k => ?_, rfl, ?_, fun w hw => ?_⟩
    · rw [← hadds.reached l hl k]
      exact Bool.eq_iff_iff.1 (PageTables.reached_set_page hl k)
    · rw [installed, if_pos hinstall]
      exact PageTables.pteAt_set_self hthere
    · exact (PageTables.pteAt_set_of_ne hw).trans (hadds.pteAt w)
  · rw [if_neg hinstall]
    refine ⟨hadds.reached, rfl, ?_, fun w _ => hadds.pteAt w⟩
    rw [installed, if_neg hinstall]
    exact hadds.pteAt v

theorem map_exhausted (hps : has flags PTE_PS = false)
    (hshort : mem.frames.unused.length < (mem.tables.missing [v]).card) (f : Nat) :
    ∃ t, map mem f v flags = .ok (.err .ENOMEM, { mem with tables := t }) ∧
      mem.tables.Adds t ∅ := by
  have hspec := addTables_all flags mem v
  rw [TablesProvided, ← card_missing_singleton, if_neg (Nat.not_le.2 hshort)] at hspec
  rcases hspec with ⟨t, hok, hadds⟩
  refine ⟨t, ?_, hadds⟩
  rw [map, if_neg (by simp [hps]), hok]
  rfl

/-- The frame that goes with a page-table entry when its page is unmapped. -/
def freedWith (pte : BitVec 64) : Option Nat :=
  if has pte PTE_P && has pte PTE_ALLOC then some (frameOf pte) else none

theorem unmap_eq (mem : Mem) (v : Nat) : unmap mem v =
    (match freedWith (mem.tables.pteAt v) with
      | none => .ok mem.frames
      | some f => mem.frames.free f) >>= fun frames =>
      .ok { mem with
        tables := if has (mem.tables.pteAt v) PTE_P then mem.tables.set .pt v 0 else mem.tables
        frames := frames } := by
  rw [unmap, PageTables.reached_pt, freedWith]
  cases hp : has (mem.tables.pteAt v) PTE_P with
  | false => rfl
  | true =>
    have hthere : mem.tables.reached .pdt (v / 512) = true := by
      by_contra hr
      rw [PageTables.pteAt, if_neg hr] at hp
      simp [has] at hp
    have hpte : mem.pte v = mem.tables.pteAt v := by
      rw [PageTables.pteAt, if_pos hthere, Mem.pte]
    simp only [↓reduceIte, hpte, Bool.true_and]
    cases hasp : has (mem.tables.pteAt v) PTE_ALLOC with
    | false => rfl
    | true => rfl

end Page

end Arch
end XytherOS
