import XytherOS.Ds.HashMapInto

/-!
# HashMapComplete — iterators over a map, and its clones

An iterator takes the data of all entries into a queue, a clone copies them into another map.  Both
may fail at any entry, and below the root of the bucket tree the error is lost: what is returned
with 0 need not be complete.

* `Stored.iterComplete_iff` — when an iterator that is returned holds the datum of every entry;
* `Stored.cloneComplete_iff` — when a clone that is returned holds the pairs of the map.
-/

namespace XytherOS
namespace Ds
namespace HashMap

open Btree SearchTree

variable {E P H K V A X : Type}

section Functions

variable [Fintype E] [Fintype P]

/-- What the allocations for the copy of each entry find: memory for the entry, what `copy` returns
for the key, and a tree node. -/
structure CloneMem (E P : Type) where
  place : E → Option E
  copy : E → Ret
  node : E → Option P

def hashMapDuplicateEntry [DecidableEq E] (dst : HMap E P H K V) (entry : HashEntry E K V)
    (place : Option E) (copy : Ret) : Ret × Option E × HMap E P H K V :=
  hashEntryAlloc dst entry.key entry.value place copy

variable [DecidableEq E] [DecidableEq P] [LinearOrder H] (ctx : HashMapContext H K)

def hashMapCloneIter (mem : CloneMem E P) (src dst : HMap E P H K V) (entry : E) :
    Except Fault (Ret × HMap E P H K V) := do
  match hashMapDuplicateEntry dst (← src.read entry) (mem.place entry) (mem.copy entry) with
  | (err, none, dst) => return (err, dst)
  | (_, some e, dst) =>
    let (err, dst) ← hashMapInsertEntry ctx dst e (mem.node entry)
    if err = .ok then return (.ok, dst) else return (err, hashEntryDestroy dst e)

/-- `hashMap_clone`, with the memory that `hashMap_alloc` finds; the map that is freed after an
error is left out. -/
def hashMapClone (mem : CloneMem E P) (src : HMap E P H K V) (room : Option (HMap E P H K V)) :
    Except Fault (Ret × Option (HMap E P H K V)) :=
  match room with
  | none => .ok (.err .ENOMEM, none)
  | some memory => do
      let (err, dst) ← hashMapIntoIter src (hashMapCloneIter ctx mem src)
        (hashMapInit memory.entry memory.bucketTree.node)
      if err ≠ .ok then return (err, none) else return (.ok, some dst)

end Functions

/-! ## Iterators -/

section Iterators

variable [DecidableEq X] {s : HMap E P H K V} {g : BinaryTree (Item P H E)}
  {datum : E → HashEntry E K V → X} {mem : Nat → Bool} {it : Iter X}

theorem enqueueAll_ok_iff {data : List X} (hnd : it.queue.Nodup) :
    (enqueueAll mem data it).1 = .ok ↔
      (it.queue ++ data).Nodup ∧ ∀ n < data.length, mem (it.allocs + n) = true := by
  constructor
  · intro h
    rcases enqueueAll_done h hnd with ⟨hfull, hnd'⟩
    rw [hfull.2] at hnd'
    exact ⟨hnd', hfull.1⟩
  · rintro ⟨hnd', hmem⟩
    by_contra hfail
    rcases (enqueueAll_lost hfail hnd').1 with ⟨n, hn, hno⟩
    rw [hmem n hn] at hno
    cases hno

theorem enqueueAll_count (data : List X) (it : Iter X) :
    ((enqueueAll mem data it).1 = .ok →
        (enqueueAll mem data it).2.queue.length = it.queue.length + data.length) ∧
      ((enqueueAll mem data it).1 ≠ .ok →
        (enqueueAll mem data it).2.queue.length < it.queue.length + data.length) := by
  induction data generalizing it with
  | nil => exact ⟨fun _ => rfl, fun h => absurd rfl h⟩
  | cons d data ih =>
    by_cases hd : (it.enqueue mem d).1 = .ok
    · have hnext := ih (it.enqueue mem d).2
      have hlen : (it.enqueue mem d).2.queue.length + data.length =
          it.queue.length + (d :: data).length := by
        rw [(enqueue_done hd).2.2, Iter.more, List.length_append, List.length_singleton,
          List.length_cons]
        omega
      rw [enqueueAll_cons_done hd, ← hlen]
      exact hnext
    · rw [enqueueAll_cons_fail hd]
      refine ⟨fun h => absurd h hd, fun _ => ?_⟩
      rw [List.length_cons]
      exact Nat.succ_pos _

variable [LinearOrder H] {ctx : HashMapContext H K} {l : List (HItem E K V)}

theorem sweep_nodes_done {is : List (Item P H E)}
    (h : (sweep .ok (nodeEnqueue ctx.hash s datum mem l) is it).1 = .ok) (hnd : it.queue.Nodup) :
    Full mem it ((is.flatMap fun i => bucket ctx.hash l i.key).map (dataOf s datum))
        (sweep .ok (nodeEnqueue ctx.hash s datum mem l) is it).2 ∧
      (sweep .ok (nodeEnqueue ctx.hash s datum mem l) is it).2.queue.Nodup := by
  induction is generalizing it with
  | nil => exact ⟨Full.nil mem it, hnd⟩
  | cons i is ih =>
    by_cases hi : (nodeEnqueue ctx.hash s datum mem l i it).1 = .ok
    · rw [sweep_cons_done hi] at h ⊢
      rcases enqueueAll_done hi hnd with ⟨hfull, hnd'⟩
      rcases ih h hnd' with ⟨hrest, hndrest⟩
      rw [List.flatMap_cons, List.map_append]
      exact ⟨hfull.append hrest, hndrest⟩
    · rw [sweep_cons_fail hi] at h
      exact absurd h hi

theorem nodeEnqueue_nodup (g : BinaryTree (Item P H E)) (it : Iter X) (hnd : it.queue.Nodup) :
    (visit .ok (nodeEnqueue ctx.hash s datum mem l) g it).queue.Nodup := by
  refine visit_keeps (M := fun it : Iter X => it.queue.Nodup) (fun i it hnd => ?_) g hnd
  by_cases hi : (nodeEnqueue ctx.hash s datum mem l i it).1 = .ok
  · exact (enqueueAll_done hi hnd).2
  · have hflushed : (nodeEnqueue ctx.hash s datum mem l i it).2.queue = [] := by
      rw [nodeEnqueue, enqueueAll] at hi ⊢
      split at hi
      · exact absurd ‹_› hi
      · rw [if_neg ‹_›]
    rw [hflushed]
    exact List.nodup_nil

/-- The queue that the walk over the subtree on the left leaves refuses an item of the chain at the
root: it holds the item already, or there is no memory. -/
def RefusedAtRoot (hash : K → H) (s : HMap E P H K V) (datum : E → HashEntry E K V → X)
    (mem : Nat → Bool) (l : List (HItem E K V)) : BinaryTree (Item P H E) → Prop
  | .nil => False
  | .node i lt _ =>
    let it := visit .ok (nodeEnqueue hash s datum mem l) lt ⟨[], 0⟩
    let data := (bucket hash l i.key).map (dataOf s datum)
    ¬ ((it.queue ++ data).Nodup ∧ ∀ n < data.length, mem (it.allocs + n) = true)

theorem refusedAtRoot_iff (g : BinaryTree (Item P H E)) :
    atRoot .ok (nodeEnqueue ctx.hash s datum mem l) g ⟨[], 0⟩ ≠ .ok ↔
      RefusedAtRoot ctx.hash s datum mem l g := by
  cases g with
  | nil => exact ⟨fun h => absurd rfl h, False.elim⟩
  | node i lt rt =>
    have hnd : (visit .ok (nodeEnqueue ctx.hash s datum mem l) lt ⟨[], 0⟩).queue.Nodup :=
      nodeEnqueue_nodup lt ⟨[], 0⟩ List.nodup_nil
    exact not_congr (enqueueAll_ok_iff hnd)

def IterComplete (s : HMap E P H K V) (datum : E → HashEntry E K V → X)
    (l : List (HItem E K V)) (run : Except Fault (Ret × Iter X)) : Prop :=
  ∃ ret it, run = .ok (ret, it) ∧ (ret = .ok → it.queue.Perm (l.map (dataOf s datum)))

/-- All the data are different and there is memory for each of them, or one is refused in the chain
at the root of the tree, where the error is returned. -/
def IterFits (ctx : HashMapContext H K) (s : HMap E P H K V) (g : BinaryTree (Item P H E))
    (l : List (HItem E K V)) (datum : E → HashEntry E K V → X) (mem : Nat → Bool) : Prop :=
  ((l.map (dataOf s datum)).Nodup ∧ ∀ i < l.length, mem i = true) ∨
    RefusedAtRoot ctx.hash s datum mem l g

variable [Fintype E] [Fintype P]

theorem Stored.iterComplete_iff (h : Stored ctx s g l) (datum : E → HashEntry E K V → X)
    (mem : Nat → Bool) :
    IterComplete s datum l (hashMapIterInitImpl s datum mem) ↔ IterFits ctx s g l datum mem := by
  constructor
  · rintro ⟨ret, it, hrun, hfull⟩
    rw [h.iterInit_eq] at hrun
    cases hrun
    by_cases hroot : atRoot .ok (nodeEnqueue ctx.hash s datum mem l) g ⟨[], 0⟩ = .ok
    · have hunbroken : Unbroken .ok (nodeEnqueue ctx.hash s datum mem l) g ⟨[], 0⟩ := by
        by_cases hl : l = []
        · rw [Unbroken, h.nil_iff.2 hl]
          rfl
        · -- otherwise too few data have come in
          by_contra hbroken
          have hperm := hfull (by rw [if_neg hl, hroot])
          have hlt := (visit_count (fun it : Iter X => it.queue.length)
            (fun i => (bucket ctx.hash l i.key).length)
            (fun i it hi => by
              have hcount := (enqueueAll_count _ it).1 hi
              rwa [List.length_map] at hcount)
            (fun i it hi => by
              have hcount := (enqueueAll_count _ it).2 hi
              rwa [List.length_map] at hcount) g ⟨[], 0⟩).2 hbroken
          rw [hperm.length_eq, List.length_map, h.walk_length] at hlt
          exact absurd hlt (by simp)
      rcases sweep_nodes_done hunbroken List.nodup_nil with ⟨hdata, hnd⟩
      have hwalk : (walk ctx.hash g l).map (dataOf s datum) |>.Perm (l.map (dataOf s datum)) :=
        h.walk_perm.map _
      refine Or.inl ⟨?_, fun i hi => ?_⟩
      · rw [← hwalk.nodup_iff]
        rw [hdata.2] at hnd
        simpa [Iter.more, walk] using hnd
      · have hi' : i < ((walk ctx.hash g l).map (dataOf s datum)).length := by
          rw [hwalk.length_eq, List.length_map]
          exact hi
        simpa using hdata.1 i hi'
    · exact Or.inr ((refusedAtRoot_iff g).1 hroot)
  · rintro (⟨hnd, hmem⟩ | hroot)
    · rcases h.iterInit datum hnd mem with ⟨ret, it, hrun, ⟨-, -, rfl⟩ | ⟨⟨i, hi, hno⟩, -⟩⟩
      · refine ⟨ret, _, hrun, fun _ => ?_⟩
        simpa [Iter.more] using h.walk_perm.map (dataOf s datum)
      · rw [List.length_map, h.walk_perm.length_eq] at hi
        rw [Nat.zero_add, hmem i hi] at hno
        cases hno
    · refine ⟨_, _, h.iterInit_eq datum mem, fun hok => ?_⟩
      by_cases hl : l = []
      · rw [if_pos hl] at hok
        cases hok
      · rw [if_neg hl] at hok
        exact absurd hok ((refusedAtRoot_iff g).2 hroot)

end Iterators

/-! ## Clones -/

section Clones

variable [DecidableEq E] [DecidableEq P] [LinearOrder H] {ctx : HashMapContext H K}
  {s : HMap E P H K V} {g : BinaryTree (Item P H E)} {l : List (HItem E K V)}
  {mem : CloneMem E P} {m : MapState E P H K V}

omit [DecidableEq E] [DecidableEq P] [LinearOrder H] in
def HItem.pair (x : HItem E K V) : K × Option V := (x.key, x.value)

omit [LinearOrder H] in
/-- What `hashMap_clone_iter` does to the map that it inserts into. -/
def copyEntry [DecidableEq H] (hash : K → H) (mem : CloneMem E P)
    (x : HItem E K V) (m : MapState E P H K V) : Ret × MapState E P H K V :=
  mapInsert hash m x.key x.value (mem.place x.addr) (mem.copy x.addr) (mem.node x.addr)

theorem copyEntry_entries (x : HItem E K V) (m : MapState E P H K V) :
    ((copyEntry ctx.hash mem x m).1 = 0 →
        (copyEntry ctx.hash mem x m).2.entries.map HItem.pair =
          m.entries.map HItem.pair ++ [x.pair]) ∧
      ((copyEntry ctx.hash mem x m).1 ≠ 0 →
        (copyEntry ctx.hash mem x m).2.entries = m.entries) := by
  rcases mapInsert_entries ctx.hash m x.key x.value (mem.place x.addr) (mem.copy x.addr)
      (mem.node x.addr) with ⟨hok, p, -, -, hentries⟩ | ⟨hfail, hentries⟩
  · refine ⟨fun _ => ?_, fun h => absurd hok h⟩
    rw [copyEntry, hentries, List.map_append]
    rfl
  · exact ⟨fun h => absurd h hfail, fun _ => hentries⟩

theorem copies_done {es : List (HItem E K V)}
    (h : (sweep 0 (copyEntry ctx.hash mem) es m).1 = 0) :
    (sweep 0 (copyEntry ctx.hash mem) es m).2.entries.map HItem.pair =
      m.entries.map HItem.pair ++ es.map HItem.pair := by
  induction es generalizing m with
  | nil => simp
  | cons x es ih =>
    by_cases hx : (copyEntry ctx.hash mem x m).1 = 0
    · rw [sweep_cons_done hx] at h ⊢
      rw [ih h, (copyEntry_entries x m).1 hx, List.append_assoc]
      rfl
    · rw [sweep_cons_fail hx] at h
      exact absurd h hx

theorem copies_count (m : MapState E P H K V)
    (h : ¬ Unbroken 0 (chainSweep ctx.hash l (copyEntry ctx.hash mem)) g m) :
    (visit 0 (chainSweep ctx.hash l (copyEntry ctx.hash mem)) g m).entries.length <
      m.entries.length + ((inorder g).map fun i => (bucket ctx.hash l i.key).length).sum := by
  let entryCount := fun m : MapState E P H K V => m.entries.length
  have hchain := fun (i : Item P H E) (m : MapState E P H K V) =>
    sweep_count (f := copyEntry ctx.hash mem) entryCount (fun _ => 1)
      (fun x m hx => by
        have hlen := congrArg List.length ((copyEntry_entries x m).1 hx)
        simpa using hlen)
      (fun x m hx => by
        have hlen := congrArg List.length ((copyEntry_entries x m).2 hx)
        exact Nat.lt_succ_of_le (Nat.le_of_eq hlen)) (bucket ctx.hash l i.key) m
  refine (visit_count entryCount (fun i => (bucket ctx.hash l i.key).length) (fun i m hi => ?_)
    (fun i m hi => ?_) g m).2 h
  · simpa [chainSweep] using (hchain i m).1 hi
  · simpa [chainSweep] using (hchain i m).2 hi

variable [Fintype E] [Fintype P]

theorem Stored.cloneIter_eq (h : Stored ctx s g l) {x : HItem E K V} (hx : x ∈ l)
    (mem : CloneMem E P) (dst : HMap E P H K V) :
    hashMapCloneIter ctx mem s dst x.addr =
      hashMapInsert ctx dst x.key x.value (mem.place x.addr) (mem.copy x.addr)
        (mem.node x.addr) := by
  rcases h.toLinked.stored hx with ⟨hlive, hkey, hvalue⟩
  rw [hashMapCloneIter, HMap.read, if_pos hlive, ok_bind, hashMapDuplicateEntry, hkey, hvalue]
  rfl

theorem Stored.clone_some (h : Stored ctx s g l) (mem : CloneMem E P)
    (memory : HMap E P H K V) :
    ∃ dst g', Keeps ctx dst g'
        (visit 0 (chainSweep ctx.hash l (copyEntry ctx.hash mem)) g ⟨[], []⟩) ∧
      (atRoot 0 (chainSweep ctx.hash l (copyEntry ctx.hash mem)) g ⟨[], []⟩ = 0 →
        hashMapClone ctx mem s (some memory) = .ok (.ok, some dst)) ∧
      (atRoot 0 (chainSweep ctx.hash l (copyEntry ctx.hash mem)) g ⟨[], []⟩ ≠ 0 →
        hashMapClone ctx mem s (some memory) =
          .ok (atRoot 0 (chainSweep ctx.hash l (copyEntry ctx.hash mem)) g ⟨[], []⟩, none)) := by
  have hcb : ∀ x ∈ l, ∀ (dst : HMap E P H K V) (m : MapState E P H K V),
      (∃ g', Keeps ctx dst g' m) →
        ∃ dst', hashMapCloneIter ctx mem s dst x.addr = .ok ((copyEntry ctx.hash mem x m).1, dst') ∧
          ∃ g', Keeps ctx dst' g' (copyEntry ctx.hash mem x m).2 := by
    rintro x hx dst m ⟨g', hkeeps⟩
    rcases hkeeps.insert x.key x.value (mem.place x.addr) (mem.copy x.addr) (mem.node x.addr) with
      ⟨dst', g'', hrun, hkeeps'⟩
    exact ⟨dst', (h.cloneIter_eq hx mem dst).trans hrun, g'', hkeeps'⟩
  have hinit : ∃ g', Keeps ctx (hashMapInit memory.entry memory.bucketTree.node) g' ⟨[], []⟩ :=
    ⟨.nil, (holds_init _ _).toStored, by simp [nodesOf]⟩
  rcases h.intoIter (hashMapCloneIter ctx mem s) (copyEntry ctx.hash mem) hcb hinit with
    ⟨dst, hrun, g', hkeeps⟩
  refine ⟨dst, g', hkeeps, fun hroot => ?_, fun hroot => ?_⟩
  · simp only [hashMapClone, hrun, ok_bind]
    exact if_neg (not_not.2 hroot)
  · simp only [hashMapClone, hrun, ok_bind]
    exact if_pos hroot

def CloneComplete (ctx : HashMapContext H K) (l : List (HItem E K V))
    (run : Except Fault (Ret × Option (HMap E P H K V))) : Prop :=
  ∃ ret out, run = .ok (ret, out) ∧ (ret = .ok → ∃ dst g' l', out = some dst ∧
    Stored ctx dst g' l' ∧ (l'.map HItem.pair).Perm (l.map HItem.pair))

/-- There is no memory for the map, all the copies succeed, or one fails in the chain at the
root. -/
def CloneFits (ctx : HashMapContext H K) (g : BinaryTree (Item P H E)) (l : List (HItem E K V))
    (mem : CloneMem E P) (room : Option (HMap E P H K V)) : Prop :=
  room = none ∨ (sweep 0 (copyEntry ctx.hash mem) (walk ctx.hash g l) ⟨[], []⟩).1 = 0 ∨
    atRoot 0 (chainSweep ctx.hash l (copyEntry ctx.hash mem)) g ⟨[], []⟩ ≠ 0

theorem Stored.cloneComplete_iff (h : Stored ctx s g l) (mem : CloneMem E P)
    (room : Option (HMap E P H K V)) :
    CloneComplete ctx l (hashMapClone ctx mem s room) ↔ CloneFits ctx g l mem room := by
  cases room with
  | none =>
    refine ⟨fun _ => .inl rfl, fun _ => ⟨.err .ENOMEM, none, rfl, fun hok => ?_⟩⟩
    cases hok
  | some memory =>
    rcases h.clone_some mem memory with ⟨dst, g', hkeeps, hok, hfails⟩
    by_cases hroot : atRoot 0 (chainSweep ctx.hash l (copyEntry ctx.hash mem)) g ⟨[], []⟩ = 0
    · have hrun := hok hroot
      constructor
      · rintro ⟨ret, out, hrun', hall⟩
        rw [hrun] at hrun'
        cases hrun'
        rcases hall rfl with ⟨dst', g'', l', hdst, hstored, hpairs⟩
        cases hdst
        refine .inr (.inl (unbroken_iff_sweep.1 ?_))
        by_contra hbroken
        -- the sizes tell the clone from a full one
        have hlt := copies_count ⟨[], []⟩ hbroken
        have hlen := hpairs.length_eq
        rw [List.length_map, List.length_map, ← hstored.size, hkeeps.stored.size] at hlen
        rw [hlen, h.walk_length] at hlt
        exact absurd hlt (by simp)
      · rintro (hnone | hdone | hfail)
        · cases hnone
        · have hunbroken := unbroken_iff_sweep.2 hdone
          rw [visit_eq_sweep hunbroken] at hkeeps
          refine ⟨.ok, some dst, hrun, fun _ => ⟨dst, g', _, rfl, hkeeps.stored, ?_⟩⟩
          rw [copies_done hdone]
          exact h.walk_perm.map _
        · exact absurd hroot hfail
    · exact ⟨fun _ => .inr (.inr hroot),
        fun _ => ⟨_, none, hfails hroot, fun hok => absurd hok hroot⟩⟩

end Clones

/-! ## What the functions return -/

section Complete

variable [DecidableEq E] [DecidableEq P] [DecidableEq V] [LinearOrder H] [Fintype E] [Fintype P]
  {ctx : HashMapContext H K} {s : HMap E P H K V} {g : BinaryTree (Item P H E)}
  {l : List (HItem E K V)}

/-- When iterators are complete, when an iteration stops where the callback says, and when a clone
is complete. -/
theorem iteration_complete_iff (h : Stored ctx s g l) :
    (∀ mem, IterComplete s (fun e _ => e) l (hashMapIterInit s mem) ↔
        IterFits ctx s g l (fun e _ => e) mem) ∧
      (∀ mem, IterComplete s (fun _ n => n.value) l (hashMapIterValueInit s mem) ↔
        IterFits ctx s g l (fun _ n => n.value) mem) ∧
      (∀ {A ρ : Type} [Zero ρ] [DecidableEq ρ] (cb : A → E → ρ × A) (a : A),
        IntoStops s l cb a ↔ StopsAtRoot ctx g l cb a) ∧
      ∀ (mem : CloneMem E P) (room : Option (HMap E P H K V)),
        CloneComplete ctx l (hashMapClone ctx mem s room) ↔ CloneFits ctx g l mem room :=
  ⟨h.iterComplete_iff _, h.iterComplete_iff _, h.intoStops_iff, h.cloneComplete_iff⟩

end Complete

theorem iteration_complete_chain :
    let ctx : HashMapContext Nat Nat := ⟨fun k => k % 2, fun a b => decide (a = b)⟩
    let nodes : Fin 1 → BtreeNode (Fin 1) Unit Nat (Fin 2) :=
      fun _ => ⟨0, 0, none, none, none, none⟩
    let s₀ : HMap (Fin 2) (Fin 1) Nat Nat Bool := hashMapInit (fun _ => ⟨0, none, none⟩) nodes
    ∃ s₁ s₂, hashMapInsert ctx s₀ 1 (some true) (some 0) .ok (some 0) = .ok (.ok, s₁) ∧
      hashMapInsert ctx s₁ 3 (some true) (some 1) .ok none = .ok (.ok, s₂) ∧
      IterComplete s₂ (fun e _ => e) [⟨0, 1, some true⟩, ⟨1, 3, some true⟩]
        (hashMapIterInit s₂ fun n => decide (n < 2)) := by
  intro ctx nodes s₀
  have hkeeps : Keeps ctx s₀ .nil ⟨[], []⟩ := ⟨(holds_init _ _).toStored, by simp [nodesOf]⟩
  rcases hkeeps.insert 1 (some true) (some 0) .ok (some 0) with ⟨s₁, g₁, hrun₁, hkeeps₁⟩
  rcases hkeeps₁.insert 3 (some true) (some 1) .ok none with ⟨s₂, g₂, hrun₂, hkeeps₂⟩
  refine ⟨s₁, s₂, hrun₁, hrun₂, ?_⟩
  have hnd : ([0, 1] : List (Fin 2)).Nodup := by decide
  exact ((iteration_complete_iff hkeeps₂.stored).1 _).2
    (.inl ⟨hnd, fun i hi => decide_eq_true hi⟩)

/-- Keys of two hashes with one value: the value of the second one is refused below the root, and
the iterator comes back empty, with 0. -/
theorem iter_value_init_lost :
    let ctx : HashMapContext Nat Nat := ⟨fun k => k, fun a b => decide (a = b)⟩
    let nodes : Fin 2 → BtreeNode (Fin 2) Unit Nat (Fin 2) :=
      fun _ => ⟨0, 0, none, none, none, none⟩
    let s₀ : HMap (Fin 2) (Fin 2) Nat Nat Bool := hashMapInit (fun _ => ⟨0, none, none⟩) nodes
    ∃ s₁ s₂, hashMapInsert ctx s₀ 1 (some true) (some 0) .ok (some 0) = .ok (.ok, s₁) ∧
      hashMapInsert ctx s₁ 2 (some true) (some 1) .ok (some 1) = .ok (.ok, s₂) ∧
      ¬ IterComplete s₂ (fun _ n => n.value) [⟨0, 1, some true⟩, ⟨1, 2, some true⟩]
        (hashMapIterValueInit s₂ fun _ => true) := by
  intro ctx nodes s₀
  have hkeeps : Keeps ctx s₀ .nil ⟨[], []⟩ := ⟨(holds_init _ _).toStored, by simp [nodesOf]⟩
  rcases hkeeps.insert 1 (some true) (some 0) .ok (some 0) with ⟨s₁, g₁, hrun₁, hkeeps₁⟩
  rcases hkeeps₁.insert 2 (some true) (some 1) .ok (some 1) with ⟨s₂, g₂, hrun₂, -⟩
  refine ⟨s₁, s₂, hrun₁, hrun₂, ?_⟩
  have hrun : (do
      let first ← hashMapInsert ctx s₀ 1 (some true) (some 0) .ok (some 0)
      let second ← hashMapInsert ctx first.2 2 (some true) (some 1) .ok (some 1)
      let done ← hashMapIterValueInit second.2 fun _ => true
      return (done.1, done.2.queue)) =
        (.ok (.ok, []) : Except Fault (Ret × List (Option Bool))) := by
    decide +kernel
  rw [hrun₁, ok_bind] at hrun
  dsimp only at hrun
  rw [hrun₂, ok_bind] at hrun
  dsimp only at hrun
  rintro ⟨ret, it, hiter, hall⟩
  rw [hiter] at hrun
  rcases Prod.mk.inj (Except.ok.inj hrun) with ⟨hret, hqueue⟩
  have hempty := (hall hret).length_eq
  rw [show it.queue = [] from hqueue] at hempty
  cases hempty

end HashMap
end Ds
end XytherOS
