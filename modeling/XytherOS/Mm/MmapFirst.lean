import XytherOS.Mm.MmapOps

/-!
# MmapFirst — a region that is mapped in ahead of the first one

`mmap_mapin` leaves the old first region without a link back to the new one.  The list can still be
walked forward; `mend` stores the missing link.  Whatever only walks forward, or only writes to the
new first region, does the same before and after `mend`, and `mmap_remove` of the new first region
does not read the missing link but stores to it.
-/

namespace XytherOS
namespace Mm
namespace Mmap

open Function Links Spans

variable {π : Type} {env : Env π} {s s' m : State π} {v v₁ v₂ : View} {p q : Nat} {r : Region}

def State.mend (s : State π) (q p : Nat) : State π :=
  s.withMem (storePrev s.mem (some q) (some p))

/-- `p` is the first region of `s`, and the region `q` behind it has no link back. -/
structure Slip (s : State π) (p q : Nat) : Prop where
  ne : p ≠ q
  head : s.head = some p
  next : (s.mem p).next = some q
  prev : (s.mem p).prev = none
  back : (s.mem q).prev = none

/-- `m` is `s`, or `s` with the link back to its first region `p` stored. -/
inductive Near (s : State π) (p : Nat) : State π → Prop
  | same : Near s p s
  | slip {q : Nat} (slip : Slip s p q) : Near s p (s.mend q p)

inductive Mended (s : State π) : State π → Prop
  | same : Mended s s
  | link (q p : Nat) : Mended s (s.mend q p)

namespace State

@[simp] theorem mend_toAccount (s : State π) : (s.mend q p).toAccount = s.toAccount := rfl

@[simp] theorem mend_head (s : State π) : (s.mend q p).head = s.head := rfl

@[simp] theorem mend_tail (s : State π) : (s.mend q p).tail = s.tail := rfl

@[simp] theorem mend_allocs (s : State π) : (s.mend q p).allocs = s.allocs := rfl

@[simp] theorem mend_nexts (s : State π) : nexts (s.mend q p).mem = nexts s.mem :=
  nexts_storePrev s.mem (some q) (some p)

@[simp] theorem mend_next (s : State π) (x : Nat) : ((s.mend q p).mem x).next = (s.mem x).next :=
  congrFun s.mend_nexts x

@[simp] theorem mend_region (s : State π) (x : Nat) : (s.mend q p).region x = s.region x :=
  storePrev_region s.mem (some q) (some p) x

@[simp] theorem mend_mapped (s : State π) (x : Nat) :
    ((s.mend q p).mem x).mapped = (s.mem x).mapped :=
  storePrev_mapped s.mem (some q) (some p) x

theorem mend_mem_of_ne (s : State π) {x : Nat} (hx : x ≠ q) : (s.mend q p).mem x = s.mem x := by
  have hne : some q ≠ some x := by simpa using hx.symm
  exact storePrev_of_ne s.mem hne (some p)

end State

theorem Near.account (hnear : Near s p m) : m.toAccount = s.toAccount := by
  cases hnear <;> rfl

theorem Near.region (hnear : Near s p m) (x : Nat) : m.region x = s.region x := by
  cases hnear with
  | same => rfl
  | slip hslip => exact s.mend_region x

/-! ## Mapping in -/

theorem Listed.mapinAhead {e : Nat × Region} (h : Listed s (e :: v₂))
    (hfit : Fits s p r [] (e :: v₂)) :
    Inserted s ((Mmap.mapinBefore s p e.1).mend e.1 p) p r [] (e :: v₂) ∧
      Slip (Mmap.mapinBefore s p e.1) p e.1 := by
  have h' : Listed s ([] ++ e :: v₂) := h
  have hprev : (s.mem e.1).prev = none := h'.links_at.2
  have hne : p ≠ e.1 := by
    have hfresh := hfit.fresh
    simp only [List.nil_append, ids_cons, List.mem_cons, not_or] at hfresh
    exact hfresh.1
  have heq : Mmap.mapinBefore s p e.1 = adopt
      { (s.withMem (storePrev (storeNext s.mem (some p) (some e.1)) (some p) none)).modify p
        (·.addRefs 2) with head := some p } p := by
    rw [Mmap.mapinBefore, hprev]
  have hnexts : nexts (Mmap.mapinBefore s p e.1).mem =
      setLink (nexts s.mem) (some p) (some e.1) := by
    rw [heq, adopt_nexts, addRefs_nexts]
    simp [State.withMem]
  have hprevs : prevs (Mmap.mapinBefore s p e.1).mem = setLink (prevs s.mem) (some p) none := by
    rw [heq, adopt_prevs, addRefs_prevs]
    simp [State.withMem]
  have hreg : ∀ x, (Mmap.mapinBefore s p e.1).region x = s.region x := by
    intro x
    rw [heq, adopt_region]
    refine (addRefs_region _ p 2 x).trans ?_
    simp [State.region, State.withMem]
  have hslip : Slip (Mmap.mapinBefore s p e.1) p e.1 := by
    refine ⟨hne, by rw [heq]; rfl, ?_, ?_, ?_⟩
    · exact (congrFun hnexts p).trans (by simp [setLink])
    · exact (congrFun hprevs p).trans (by simp [setLink])
    · refine (congrFun hprevs e.1).trans ?_
      rw [setLink_apply, if_neg (by simpa using hne)]
      exact hprev
  refine ⟨⟨?_, ?_, ?_, ?_, ?_⟩, hslip⟩
  · refine h'.insert hfit ?_ ?_ hslip.head ?_ ?_ ?_
    · rw [State.mend_nexts, hnexts]
      rfl
    · rw [State.mend, State.withMem, prevs_storePrev, hprevs]
      rfl
    · rw [State.mend_tail, heq]
      change s.tail = _
      rw [h.tail]
      simp [List.getLast?_cons_cons]
    · rw [State.mend_allocs, heq]
      rfl
    · exact fun x => (State.mend_region _ x).trans (hreg x)
  · rw [State.mend_toAccount, heq, adopt_account]
    change s.toAccount.grown _ = _
    rw [← hfit.region]
    exact congrArg _ ((addRefs_region _ p 2 p).trans (by simp [State.region, State.withMem]))
  · rw [State.mend_allocs, heq]
    rfl
  · exact fun x => (State.mend_region _ x).trans (hreg x)
  · intro x
    rw [State.mend_mapped, heq, adopt_mapped]
    simp only [addRefs_mapped]
    simp [State.withMem]

theorem Listed.mapin_ahead_eq {e : Nat × Region} (h : Listed s (e :: v₂))
    (hfit : Fits s p r [] (e :: v₂)) :
    mmapMapin s p = .ok (.ok, Mmap.mapinBefore s p e.1) := by
  have h' : Listed s ([] ++ e :: v₂) := h
  have hcond : ¬ (r.size = 0 ∨ mmapLimit < r.endAddr) := by
    rintro (hsize | hlt)
    · exact hfit.size_ne_zero hsize
    · exact absurd hlt (BitVec.not_lt.2 hfit.limit)
  have hlt : (s.region p).start < (s.region e.1).start := by
    have hab := hfit.above e (by simp)
    have hle := hfit.le
    rw [h.region e (by simp), hfit.region]
    bv_omega
  have hscan := h.forlinked_eq fun x => decide ((s.region p).start < (s.region x).start)
  rw [ids_cons, List.find?_cons_of_pos (by simpa using hlt)] at hscan
  have hhead : s.head = some e.1 := h.head
  have hins : Mmap.mapinInsert s p = .ok (Mmap.mapinBefore s p e.1) := by
    rw [Mmap.mapinInsert, if_neg (by simp [hhead]), hscan, ok_bind]
    rfl
  rw [mmapMapin, h.contains_eq, ok_bind, hfit.region, if_neg (by simpa using hfit.fresh),
    if_neg hcond, h'.mapinLoop_fits hfit, ok_bind]
  simp only
  rw [hins]
  rfl

/-! ## Walking forward -/

theorem mmapFind_mend (s : State π) (a : BitVec 64) : mmapFind (s.mend q p) a = mmapFind s a := by
  simp [mmapFind, forlinked]

theorem mmapGetholesize_mend (s : State π) (a : BitVec 64) :
    mmapGetholesize (s.mend q p) a = mmapGetholesize s a := by
  simp [mmapGetholesize, mmapFindVmrNext, mmapFind_mend, forlinked]

theorem mmapContains_mend (s : State π) (x : Nat) :
    mmapContains (s.mend q p) x = mmapContains s x := by
  simp [mmapContains, forlinked]

theorem Slip.setRegion (hs : Slip s p q) (r' : Region) : Slip (s.setRegion p r') p q where
  ne := hs.ne
  head := hs.head
  next := (s.modify_field Vmr.next p (f := (·.setRegion r')) (fun _ => rfl) p).trans hs.next
  prev := (s.modify_field Vmr.prev p (f := (·.setRegion r')) (fun _ => rfl) p).trans hs.prev
  back := (s.modify_field Vmr.prev p (f := (·.setRegion r')) (fun _ => rfl) q).trans hs.back

/-! ## Mapping in behind the missing link -/

theorem State.modify_mend (s : State π) (x : Nat) {f : Vmr → Vmr}
    (hf : ∀ v k, f (LinkNode.setPrev v k) = LinkNode.setPrev (f v) k) :
    (s.mend q p).modify x f = (s.modify x f).mend q p := by
  simp only [State.modify, State.mend, State.withMem, storePrev]
  by_cases hx : x = q
  · subst hx
    simp [hf]
  · simp only [update_of_ne hx, update_of_ne (Ne.symm hx),
      update_comm hx]

theorem setRegion_mend (s : State π) (x : Nat) (r' : Region) :
    (s.mend q p).setRegion x r' = (s.setRegion x r').mend q p :=
  s.modify_mend x fun _ _ => rfl

theorem storeNext_mend (m : Nat → Vmr) (x k : Option Nat) :
    storeNext (storePrev m (some q) (some p)) x k = storePrev (storeNext m x k) (some q) (some p) := by
  cases x with
  | none => rfl
  | some x =>
    simp only [storeNext, storePrev]
    by_cases hx : x = q
    · subst hx
      simp [LinkNode.setNext, LinkNode.setPrev]
    · simp only [update_of_ne hx, update_of_ne (Ne.symm hx),
        update_comm hx]

theorem storePrev_mend (m : Nat → Vmr) {x : Option Nat} (hx : x ≠ some q) (k : Option Nat) :
    storePrev (storePrev m (some q) (some p)) x k = storePrev (storePrev m x k) (some q) (some p) := by
  cases x with
  | none => rfl
  | some x =>
    have hx' : x ≠ q := fun heq => hx (congrArg some heq)
    simp only [storePrev, update_of_ne hx', update_of_ne hx'.symm,
      update_comm hx']

theorem adopt_mend (s : State π) (x : Nat) : adopt (s.mend q p) x = (adopt s x).mend q p := by
  have hmod := s.modify_mend (q := q) (p := p) x (f := (·.setMapped true)) fun _ _ => rfl
  simp only [adopt, hmod, State.mend_region]
  rfl

theorem mapinBefore_mend (s : State π) {x node : Nat} (hx : x ≠ q) (hnode : node ≠ q) :
    mapinBefore (s.mend q p) x node = (mapinBefore s x node).mend q p := by
  have hx' : some x ≠ some q := fun heq => hx (Option.some.inj heq)
  have hnode' : some node ≠ some q := fun heq => hnode (Option.some.inj heq)
  have hadd : ∀ u : State π, (u.mend q p).modify x (·.addRefs 2) =
      (u.modify x (·.addRefs 2)).mend q p := fun u => u.modify_mend x fun _ _ => rfl
  have hmem : (s.mend q p).mem = storePrev s.mem (some q) (some p) := rfl
  have hwith : ∀ m, (s.mend q p).withMem (storePrev m (some q) (some p)) =
      (s.withMem m).mend q p := fun _ => rfl
  simp only [mapinBefore, s.mend_mem_of_ne hnode, hmem, storeNext_mend, storePrev_mend _ hx']
  cases (s.mem node).prev with
  | none =>
    simp only [hwith, hadd]
    generalize (s.withMem _).modify x _ = u
    exact adopt_mend { u with head := some x } x
  | some prev =>
    simp only [storeNext_mend, storePrev_mend _ hnode', hwith, hadd, adopt_mend]

theorem mapinLast_mend (s : State π) {x : Nat} (hx : x ≠ q) :
    mapinLast (s.mend q p) x = (mapinLast s x).mend q p := by
  have hx' : some x ≠ some q := fun heq => hx (Option.some.inj heq)
  have hadd : ∀ u : State π, (u.mend q p).modify x (·.addRefs 2) =
      (u.modify x (·.addRefs 2)).mend q p := fun u => u.modify_mend x fun _ _ => rfl
  have hmem : (s.mend q p).mem = storePrev s.mem (some q) (some p) := rfl
  have hwith : ∀ m, (s.mend q p).withMem (storePrev m (some q) (some p)) =
      (s.withMem m).mend q p := fun _ => rfl
  simp only [mapinLast, hmem, storeNext_mend, storePrev_mend _ hx', hwith, hadd,
    State.mend_head, State.mend_tail]
  generalize (s.withMem _).modify x _ = u
  exact adopt_mend { u with head := if s.tail = none then some x else s.head, tail := some x } x

theorem mapinLoop_mend (s : State π) (endAddr : BitVec 64) (n : Nat) (a : BitVec 64) :
    mapinLoop (s.mend q p) endAddr n a = mapinLoop s endAddr n a := by
  induction n generalizing a with
  | zero => rfl
  | succ n ih => simp only [mapinLoop, mmapFind_mend, mmapGetholesize_mend, ih]

theorem Listed.mapin_mend {x : Nat} (h : Listed (s.mend q p) v) (hx : x ≠ q)
    (hhead : s.head ≠ none) (hbehind : (s.region q).start ≤ (s.region x).start) :
    mmapMapin (s.mend q p) x = (do
      let y ← mmapMapin s x
      return (y.1, y.2.mend q p)) := by
  have hscan : ∀ stop, forlinked (s.mend q p) stop = forlinked s stop := by
    intro stop
    simp [forlinked]
  have hins : Mmap.mapinInsert (s.mend q p) x = (do
      let y ← Mmap.mapinInsert s x
      return y.mend q p) := by
    have hfind := h.forlinked_eq fun node => decide ((s.region x).start < (s.region node).start)
    rw [hscan] at hfind
    simp only [Mmap.mapinInsert, State.mend_head, State.mend_region, if_neg hhead, hscan, hfind, ok_bind]
    cases hnode : (ids v).find? fun node => decide ((s.region x).start < (s.region node).start) with
    | none => simp only [mapinLast_mend s hx, pure_eq_ok, ok_bind]
    | some node =>
      -- the new region starts behind `q`, so the one found is not `q`
      have hlt := List.find?_some hnode
      have hne : node ≠ q := by
        rintro rfl
        simp only [decide_eq_true_eq] at hlt
        bv_omega
      simp only [mapinBefore_mend s hx hne, pure_eq_ok, ok_bind]
  simp only [mmapMapin, mmapContains_mend, State.mend_region, State.mend_allocs, mapinLoop_mend,
    hins]
  cases mmapContains s x with
  | error e => rfl
  | ok listed =>
    simp only [ok_bind]
    split_ifs
    · rfl
    · rfl
    · cases mapinLoop s (s.region x).endAddr (s.allocs + 2) (s.region x).start with
      | error e => rfl
      | ok ret =>
        cases ret with
        | err e => rfl
        | ok =>
          simp only [ok_bind]
          cases Mmap.mapinInsert s x <;> rfl

/-! ## Removing and resizing the new first region -/

theorem Slip.unlinkVmr_mend (hs : Slip s p q) : unlinkVmr (s.mend q p) p = unlinkVmr s p := by
  have hmem : (s.mend q p).mem p = s.mem p := s.mend_mem_of_ne hs.ne
  have hstore : storePrev (s.mend q p).mem (some q) none = storePrev s.mem (some q) none := by
    simp [State.mend, State.withMem, storePrev, LinkNode.setPrev]
  have heq : unlinkNeighbours (s.mend q p) p = unlinkNeighbours s p := by
    simp only [unlinkNeighbours, hmem, hs.prev, hs.next, storeNext, hstore]
    rfl
  simp only [unlinkVmr, heq]

theorem Slip.remove_mend (hs : Slip s p q) (hmem : mmapContains s p = .ok true) :
    mmapRemove env (s.mend q p) p = mmapRemove env s p := by
  simp only [mmapRemove, mmapContains_mend, hmem, ok_bind, if_true, hs.unlinkVmr_mend]

/-- Two computations do the same, or return states that differ in the missing link only and have
the counters `a`. -/
def SameUpToLink (p q : Nat) (a : Account π) (x y : Except Fault (Ret × State π)) : Prop :=
  x = y ∨ ∃ ret s, x = .ok (ret, s) ∧ Slip s p q ∧ s.toAccount = a ∧ y = .ok (ret, s.mend q p)

theorem Slip.same (hs : Slip s p q) (ret : Ret) :
    SameUpToLink p q s.toAccount (.ok (ret, s)) (.ok (ret, s.mend q p)) :=
  .inr ⟨ret, s, rfl, hs, rfl, rfl⟩

theorem Slip.same_setRegion (hs : Slip s p q) (r' : Region) :
    SameUpToLink p q s.toAccount (.ok (.ok, s.setRegion p r'))
      (.ok (.ok, (s.mend q p).setRegion p r')) :=
  .inr ⟨.ok, _, rfl, hs.setRegion r', rfl, by rw [setRegion_mend]⟩

theorem Slip.expandUp (hs : Slip s p q) (hmem : mmapContains s p = .ok true) (incr : BitVec 64) :
    SameUpToLink p q s.toAccount (expandUp env s p incr) (expandUp env (s.mend q p) p incr) := by
  simp only [Mmap.expandUp, State.mend_region, mmapGetholesize_mend, hs.remove_mend hmem]
  cases mmapGetholesize s (s.region p).upperBound with
  | error e =>
    simp only [error_bind, pure_eq_ok]
    split_ifs
    exacts [.inl rfl, hs.same _, .inl rfl, hs.same_setRegion _]
  | ok y =>
    rcases y with ⟨_ | e, hole⟩
    · simp only [ok_bind, pure_eq_ok]
      split_ifs
      exacts [hs.same_setRegion _, hs.same _, hs.same _, .inl rfl, hs.same_setRegion _]
    · simp only [ok_bind, pure_eq_ok]
      split_ifs
      exacts [hs.same _, hs.same _, .inl rfl, hs.same_setRegion _]

theorem Slip.expandDown (hs : Slip s p q) (hmem : mmapContains s p = .ok true)
    (incr : BitVec 64) :
    SameUpToLink p q s.toAccount (expandDown env s p incr) (expandDown env (s.mend q p) p incr) := by
  simp only [Mmap.expandDown, State.mend_region, mmapGetholesize_mend, hs.remove_mend hmem]
  cases mmapGetholesize s ((s.region p).start - incr) with
  | error e =>
    simp only [error_bind, pure_eq_ok]
    split_ifs
    exacts [.inl rfl, hs.same _, .inl rfl, hs.same_setRegion _]
  | ok y =>
    rcases y with ⟨_ | e, hole⟩
    · simp only [ok_bind, pure_eq_ok]
      split_ifs
      exacts [hs.same_setRegion _, hs.same _, hs.same _, .inl rfl, hs.same_setRegion _]
    · simp only [ok_bind, pure_eq_ok]
      split_ifs
      exacts [hs.same _, hs.same _, .inl rfl, hs.same_setRegion _]

theorem Slip.expand (hs : Slip s p q) (hmem : mmapContains s p = .ok true) (incr : BitVec 64) :
    SameUpToLink p q s.toAccount (mmapVmrExpand env s p incr)
      (mmapVmrExpand env (s.mend q p) p incr) := by
  simp only [mmapVmrExpand, State.mend_region, pure_eq_ok]
  split_ifs
  exacts [hs.same _, hs.same _, hs.expandDown hmem incr, hs.expandUp hmem incr]

end Mmap
end Mm
end XytherOS
