import XytherOS.Ds.HashMapIter
import XytherOS.Lib.TreeVisit

/-!
# HashMapInto — iterating over a map with a callback

`hashMap_into_iter` goes over the bucket tree in order and through the chain at each node.  What the
callback returns ends the loop over its chain, and the walk over the subtree; only from the root of
the tree does it reach the caller.

* `Stored.intoIter` — the iteration does what the callback does to the entries, along the walk;
* `Stored.intoStops_iff` — when it stops at the first call that does not return 0.
-/

namespace XytherOS
namespace Ds
namespace HashMap

open Btree SearchTree

variable {E P H K V A B ρ : Type} [Zero ρ] [DecidableEq ρ]

instance : Zero Ret := ⟨.ok⟩

section Functions

/-- The loop over one chain in `hashMap_into_iter_internal`: `view` is the map, `cb` the callback
with its argument. -/
def chainInto {S : Type} (view : S → HMap E P H K V) (cb : S → E → Except Fault (ρ × S)) :
    Nat → S → Option E → Except Fault (ρ × S)
  | _, s, none => .ok (0, s)
  | 0, _, some _ => throw .hang
  | n + 1, s, some e => do
      let next := (← (view s).read e).next
      let (err, s) ← cb s e
      if err ≠ 0 then return (err, s) else chainInto view cb n s next

def treeInto [Fintype E] {S : Type} (view : S → HMap E P H K V)
    (cb : S → E → Except Fault (ρ × S)) : Nat → S → Option P → Except Fault (ρ × S)
  | _, s, none => .ok (0, s)
  | 0, _, some _ => throw .hang
  | fuel + 1, s, some p => do
      match (← (view s).bucketTree.read p).btree with
      | none => throw (.assertion "No Btree")
      | some _ =>
        let (_, s) ← treeInto view cb fuel s (← (view s).bucketTree.read p).left
        let node ← (view s).bucketTree.read p
        let (err, s) ← chainInto view cb (Fintype.card E) s (some node.data)
        if err ≠ 0 then return (err, s)
        let (_, s) ← treeInto view cb fuel s node.right
        return (0, s)

variable [Fintype E] [Fintype P]

def hashMapIntoIter (s : HMap E P H K V) (cb : A → E → Except Fault (ρ × A)) (arg : A) :
    Except Fault (ρ × A) :=
  treeInto (fun _ => s) cb (Fintype.card P) arg (s.bucketTree.root ())

end Functions

/-! ## Walks over the tree -/

section Walks

variable [LinearOrder H] {ctx : HashMapContext H K} {s : HMap E P H K V}
  {g : BinaryTree (Item P H E)} {l : List (HItem E K V)}

omit [LinearOrder H] in
theorem chainInto_sweep {R : A → B → Prop} {cb : A → E → Except Fault (ρ × A)}
    {f : HItem E K V → B → ρ × B} {es : List (HItem E K V)} (hchain : Chained s es none)
    (hcb : ∀ x ∈ es, ∀ a b, R a b → ∃ a', cb a x.addr = .ok ((f x b).1, a') ∧ R a' (f x b).2)
    {n : Nat} (hn : es.length ≤ n) {a : A} {b : B} (hab : R a b) :
    ∃ a', chainInto (fun _ => s) cb n a (first es) = .ok ((sweep 0 f es b).1, a') ∧
      R a' (sweep 0 f es b).2 := by
  induction es generalizing a b n with
  | nil =>
    refine ⟨a, ?_, hab⟩
    cases n <;> rfl
  | cons x es ih =>
    rcases hchain with ⟨hlive, hentry, hrest⟩
    cases n with
    | zero => simp at hn
    | succ n =>
      have hnext : (s.entry x.addr).next = first es := by rw [hentry, Option.or_none]
      rcases hcb x (by simp) a b hab with ⟨a1, hrun1, h₁⟩
      rw [show first (x :: es) = some x.addr from rfl]
      by_cases hx : (f x b).1 = 0
      · rcases ih hrest (fun y hy => hcb y (by simp [hy])) (Nat.le_of_succ_le_succ hn) h₁ with
          ⟨a', hrun, h'⟩
        rw [sweep_cons_done hx]
        refine ⟨a', ?_, h'⟩
        simp only [chainInto, HMap.read, hlive, if_true, ok_bind, hrun1, ne_eq, hx, not_true,
          if_false, hnext, hrun]
      · rw [sweep_cons_fail hx]
        refine ⟨a1, ?_, h₁⟩
        simp only [chainInto, HMap.read, hlive, if_true, ok_bind, hrun1, ne_eq, hx,
          not_false_eq_true]
        rfl

def chainSweep (hash : K → H) (l : List (HItem E K V)) (f : HItem E K V → B → ρ × B)
    (i : Item P H E) (b : B) : ρ × B := sweep 0 f (bucket hash l i.key) b

theorem treeInto_visit [Fintype E] {R : A → B → Prop} {cb : A → E → Except Fault (ρ × A)}
    {f : HItem E K V → B → ρ × B}
    (hcb : ∀ x ∈ l, ∀ a b, R a b → ∃ a', cb a x.addr = .ok ((f x b).1, a') ∧ R a' (f x b).2)
    (hchains : ∀ k, Chained s (bucket ctx.hash l k) none)
    (hlen : ∀ k, (bucket ctx.hash l k).length ≤ Fintype.card E)
    (hheads : ∀ i ∈ inorder g, some i.data = first (bucket ctx.hash l i.key))
    {parent : Option P} (hshape : Shape s.bucketTree () parent g) {n : Nat}
    (hn : (inorder g).length ≤ n) {a : A} {b : B} (hab : R a b) :
    ∃ a', treeInto (fun _ => s) cb n a (top g) =
        .ok (atRoot 0 (chainSweep ctx.hash l f) g b, a') ∧
      R a' (visit 0 (chainSweep ctx.hash l f) g b) := by
  induction g generalizing parent n a b with
  | nil =>
    refine ⟨a, ?_, hab⟩
    cases n <;> rfl
  | node i lt rt ihl ihr =>
    cases n with
    | zero => simp at hn
    | succ n =>
      rcases hshape with ⟨hstored, hl, hr⟩
      have hlen' : (inorder lt).length + (inorder rt).length ≤ n := by
        simp only [inorder_node, List.length_append, List.length_cons] at hn
        omega
      rcases ihl (fun j hj => hheads j (by simp [hj])) hl (n := n) (by omega) hab with
        ⟨a1, hrun1, h₁⟩
      have hcb' : ∀ x ∈ bucket ctx.hash l i.key, ∀ a b, R a b →
          ∃ a', cb a x.addr = .ok ((f x b).1, a') ∧ R a' (f x b).2 :=
        fun x hx => hcb x (mem_bucket.1 hx).1
      rcases chainInto_sweep (hchains i.key) hcb' (hlen i.key) h₁ with ⟨a2, hrun2, h₂⟩
      rw [← hheads i (by simp)] at hrun2
      by_cases hroot : (chainSweep ctx.hash l f i
          (visit 0 (chainSweep ctx.hash l f) lt b)).1 = 0
      · rcases ihr (fun j hj => hheads j (by simp [hj])) hr (n := n) (by omega) h₂ with
          ⟨a3, hrun3, h3⟩
        rw [visit_node_done hroot, atRoot, hroot]
        refine ⟨a3, ?_, h3⟩
        rw [chainSweep] at hroot
        simp only [top_node, treeInto, read_stored hstored, ok_bind, hrun1, hrun2, ne_eq,
          hroot, not_true, if_false, hrun3]
        rfl
      · rw [visit_node_fail hroot, atRoot]
        refine ⟨a2, ?_, h₂⟩
        rw [chainSweep] at hroot ⊢
        simp only [top_node, treeInto, read_stored hstored, ok_bind, hrun1, hrun2, ne_eq,
          hroot, not_false_eq_true, if_true]
        rfl

theorem Stored.intoIter [Fintype E] [Fintype P] (h : Stored ctx s g l) {R : A → B → Prop}
    (cb : A → E → Except Fault (ρ × A)) (f : HItem E K V → B → ρ × B)
    (hcb : ∀ x ∈ l, ∀ a b, R a b → ∃ a', cb a x.addr = .ok ((f x b).1, a') ∧ R a' (f x b).2)
    {a : A} {b : B} (hab : R a b) :
    ∃ a', hashMapIntoIter s cb a = .ok (atRoot 0 (chainSweep ctx.hash l f) g b, a') ∧
      R a' (visit 0 (chainSweep ctx.hash l f) g b) := by
  have hroot : s.bucketTree.root () = top g := h.tree.tree.root
  rw [hashMapIntoIter, hroot]
  exact treeInto_visit hcb h.chains h.toLinked.bucket_length_le h.heads h.tree.tree.shape
    (h.tree.tree.length_le h.tree.ordered) hab

theorem unbroken_iff_sweep {f : HItem E K V → B → ρ × B} {b : B} :
    Unbroken 0 (chainSweep ctx.hash l f) g b ↔ (sweep 0 f (walk ctx.hash g l) b).1 = 0 := by
  rw [Unbroken, walk, ← sweep_flatMap]
  rfl

theorem visit_eq_sweep {f : HItem E K V → B → ρ × B} {b : B}
    (h : Unbroken 0 (chainSweep ctx.hash l f) g b) :
    visit 0 (chainSweep ctx.hash l f) g b = (sweep 0 f (walk ctx.hash g l) b).2 := by
  rw [visit_of_unbroken h, walk, ← sweep_flatMap]
  rfl

theorem Stored.walk_length (h : Stored ctx s g l) :
    ((inorder g).map fun i => (bucket ctx.hash l i.key).length).sum = l.length := by
  rw [← h.walk_perm.length_eq, walk, List.length_flatMap]

end Walks

/-! ## Callbacks -/

section Callbacks

/-- The callback of a caller that keeps a record: the entries that it was called for, with what it
returned. -/
def recorded (cb : A → E → ρ × A) (arg : A × List (E × ρ)) (e : E) : ρ × A × List (E × ρ) :=
  ((cb arg.1 e).1, (cb arg.1 e).2, arg.2 ++ [(e, (cb arg.1 e).1)])

/-- Each entry is called once, up to the first call that does not return 0; what that returns is the
result. -/
structure StopsAtFirst (entries : List E) (calls : List (E × ρ)) (ret : ρ) : Prop where
  once : (calls.map Prod.fst).Subperm entries
  stops : ∀ front c rest, calls = front ++ c :: rest → c.2 ≠ 0 → rest = [] ∧ ret = c.2
  goes : (∀ c ∈ calls, c.2 = 0) → ret = 0 ∧ (calls.map Prod.fst).Perm entries

omit [DecidableEq ρ] in
theorem StopsAtFirst.perm {entries entries' : List E} {calls : List (E × ρ)} {ret : ρ}
    (h : StopsAtFirst entries calls ret) (hperm : entries.Perm entries') :
    StopsAtFirst entries' calls ret :=
  ⟨hperm.subperm_left.1 h.once, h.stops, fun hall => ⟨(h.goes hall).1, (h.goes hall).2.trans hperm⟩⟩

def record (cb : A → E → ρ × A) (x : HItem E K V) (arg : A × List (E × ρ)) :
    ρ × A × List (E × ρ) := recorded cb arg x.addr

variable (cb : A → E → ρ × A) {es : List (HItem E K V)} {arg : A × List (E × ρ)} {a : A}

theorem sweep_record (es : List (HItem E K V)) (arg : A × List (E × ρ)) :
    ∃ new, (sweep 0 (record cb) es arg).2.2 = arg.2 ++ new ∧
      ((sweep 0 (record cb) es arg).1 = 0 → new = es.map fun x => (x.addr, 0)) ∧
      ((sweep 0 (record cb) es arg).1 ≠ 0 → ∃ es1 x es2, es = es1 ++ x :: es2 ∧
        new = es1.map (fun x => (x.addr, 0)) ++
          [(x.addr, (sweep 0 (record cb) es arg).1)]) := by
  induction es generalizing arg with
  | nil => exact ⟨[], by simp, fun _ => rfl, fun h => absurd rfl h⟩
  | cons x es ih =>
    by_cases hx : (record cb x arg).1 = 0
    · rcases ih (record cb x arg).2 with ⟨new, hnew, hok, hfail⟩
      have hcall : (record cb x arg).2.2 = arg.2 ++ [(x.addr, 0)] := by
        rw [← hx]
        rfl
      rw [sweep_cons_done hx]
      refine ⟨(x.addr, 0) :: new, ?_, fun h => ?_, fun h => ?_⟩
      · rw [hnew, hcall, List.append_assoc, List.singleton_append]
      · rw [hok h, List.map_cons]
      · rcases hfail h with ⟨es1, y, es2, rfl, rfl⟩
        exact ⟨x :: es1, y, es2, rfl, by simp⟩
    · rw [sweep_cons_fail hx]
      exact ⟨[(x.addr, (record cb x arg).1)], rfl, fun h => absurd h hx,
        fun _ => ⟨[], x, es, rfl, rfl⟩⟩

theorem sweep_record_failed (h : (sweep 0 (record cb) es arg).1 ≠ 0) :
    ∃ x ∈ es, (x.addr, (sweep 0 (record cb) es arg).1) ∈ (sweep 0 (record cb) es arg).2.2 := by
  rcases sweep_record cb es arg with ⟨new, hnew, -, hfail⟩
  rcases hfail h with ⟨es1, x, es2, hes, hcalls⟩
  refine ⟨x, by simp [hes], ?_⟩
  rw [hnew, hcalls]
  exact List.mem_append_right _ (List.mem_append_right _ (List.mem_singleton_self _))

theorem sweep_record_mem {c : E × ρ} (hc : c ∈ (sweep 0 (record cb) es arg).2.2) (hc0 : c.2 ≠ 0) :
    c ∈ arg.2 ∨ (sweep 0 (record cb) es arg).1 ≠ 0 ∧ c.1 ∈ es.map HItem.addr := by
  rcases sweep_record cb es arg with ⟨new, hnew, hok, hfail⟩
  rw [hnew] at hc
  rcases List.mem_append.1 hc with hc | hc
  · exact .inl hc
  · by_cases h : (sweep 0 (record cb) es arg).1 = 0
    · rw [hok h] at hc
      rcases List.mem_map.1 hc with ⟨x, -, rfl⟩
      exact absurd rfl hc0
    · rcases hfail h with ⟨es1, x, es2, rfl, rfl⟩
      refine .inr ⟨h, ?_⟩
      rcases List.mem_append.1 hc with hc | hc
      · rcases List.mem_map.1 hc with ⟨y, -, rfl⟩
        exact absurd rfl hc0
      · rw [List.mem_singleton.1 hc]
        simp

theorem stops_of_sweep (es : List (HItem E K V)) (a : A) :
    StopsAtFirst (es.map HItem.addr) (sweep 0 (record cb) es (a, [])).2.2
      (sweep 0 (record cb) es (a, [])).1 := by
  rcases sweep_record cb es (a, []) with ⟨new, hnew, hok, hfail⟩
  rw [List.nil_append] at hnew
  rw [hnew]
  by_cases h : (sweep 0 (record cb) es (a, [])).1 = 0
  · have hentries : new.map Prod.fst = es.map HItem.addr := by
      rw [hok h, List.map_map]
      rfl
    refine ⟨hentries ▸ List.Subperm.refl _, ?_, fun _ => ⟨h, hentries ▸ List.Perm.refl _⟩⟩
    intro front c rest hsplit hc
    have hmem : c ∈ new := by
      rw [hsplit]
      simp
    rw [hok h] at hmem
    rcases List.mem_map.1 hmem with ⟨x, -, rfl⟩
    exact absurd rfl hc
  · rcases hfail h with ⟨es1, x, es2, hes, rfl⟩
    refine ⟨?_, ?_, ?_⟩
    · refine List.Sublist.subperm ?_
      rw [hes]
      simp [List.map_append, Function.comp_def]
    · intro front c rest hsplit hc
      rcases List.eq_nil_or_concat rest with rfl | ⟨rest', d, rfl⟩
      · have hlast := congrArg List.getLast? hsplit
        have hcx : c = (x.addr, (sweep 0 (record cb) es (a, [])).1) := by simpa using hlast.symm
        exact ⟨rfl, by rw [hcx]⟩
      · -- an earlier call has returned 0
        have hinit := congrArg List.dropLast hsplit
        have hsnoc : front ++ c :: (rest'.concat d) = (front ++ c :: rest') ++ [d] := by simp
        rw [hsnoc, List.dropLast_concat, List.dropLast_concat] at hinit
        have hmem : c ∈ es1.map fun x => (x.addr, (0 : ρ)) := by
          rw [hinit]
          simp
        rcases List.mem_map.1 hmem with ⟨y, -, rfl⟩
        exact absurd rfl hc
    · intro hall
      have hlast := hall _ (List.mem_append_right _ (List.mem_singleton_self _))
      exact absurd hlast h

def Failed (arg : A × List (E × ρ)) : Prop := ∃ c ∈ arg.2, c.2 ≠ 0

def Overrun (arg : A × List (E × ρ)) : Prop :=
  ∃ front c rest, arg.2 = front ++ c :: rest ∧ c.2 ≠ 0 ∧ rest ≠ []

omit [DecidableEq ρ] in
theorem Failed.overrun {arg' : A × List (E × ρ)} (h : Failed arg) {new : List (E × ρ)}
    (hnew : new ≠ []) (harg : arg'.2 = arg.2 ++ new) : Overrun arg' := by
  rcases h with ⟨c, hc, hc0⟩
  rcases List.append_of_mem hc with ⟨front, rest, hsplit⟩
  refine ⟨front, c, rest ++ new, ?_, hc0, by simp [hnew]⟩
  rw [harg, hsplit, List.append_assoc, List.cons_append]

omit [DecidableEq ρ] in
theorem Overrun.more {arg' : A × List (E × ρ)} (h : Overrun arg) {new : List (E × ρ)}
    (harg : arg'.2 = arg.2 ++ new) : Overrun arg' := by
  rcases h with ⟨front, c, rest, hsplit, hc0, hrest⟩
  refine ⟨front, c, rest ++ new, ?_, hc0, by simp [hrest]⟩
  rw [harg, hsplit, List.append_assoc, List.cons_append]

omit [DecidableEq ρ] in
theorem StopsAtFirst.not_overrun {entries : List E} {ret : ρ}
    (h : StopsAtFirst entries arg.2 ret) : ¬ Overrun arg := by
  rintro ⟨front, c, rest, hsplit, hc0, hrest⟩
  exact hrest (h.stops front c rest hsplit hc0).1

omit [DecidableEq ρ] in
theorem StopsAtFirst.not_failed {entries : List E} (h : StopsAtFirst entries arg.2 (0 : ρ)) :
    ¬ Failed arg := by
  rintro ⟨c, hc, hc0⟩
  rcases List.append_of_mem hc with ⟨front, rest, hsplit⟩
  exact hc0 (h.stops front c rest hsplit hc0).2.symm

/-! ### In the tree -/

variable [LinearOrder H] {ctx : HashMapContext H K} {s : HMap E P H K V} {l : List (HItem E K V)}
  {i : Item P H E} {g lt rt : BinaryTree (Item P H E)}

omit [LinearOrder H] in
def rootChain [DecidableEq H] (hash : K → H) (g : BinaryTree (Item P H E))
    (l : List (HItem E K V)) : List (HItem E K V) :=
  match g with
  | .nil => []
  | .node i _ _ => bucket hash l i.key

omit [Zero ρ] [DecidableEq ρ] in
theorem walk_node (hash : K → H) (l : List (HItem E K V)) :
    walk hash (.node i lt rt) l = walk hash lt l ++ (bucket hash l i.key ++ walk hash rt l) := by
  simp [walk]

section Sweeps

variable {f : HItem E K V → B → ρ × B} {b : B}

theorem sweep_left (h : ¬ Unbroken 0 (chainSweep ctx.hash l f) lt b) :
    sweep 0 f (walk ctx.hash (.node i lt rt) l) b = sweep 0 f (walk ctx.hash lt l) b := by
  rw [walk_node, sweep_append_fail]
  exact fun h' => h (unbroken_iff_sweep.2 h')

theorem sweep_root (hl : Unbroken 0 (chainSweep ctx.hash l f) lt b)
    (h : (chainSweep ctx.hash l f i (visit 0 (chainSweep ctx.hash l f) lt b)).1 ≠ 0) :
    sweep 0 f (walk ctx.hash (.node i lt rt) l) b =
      chainSweep ctx.hash l f i (visit 0 (chainSweep ctx.hash l f) lt b) := by
  rw [visit_eq_sweep hl] at h ⊢
  rw [walk_node, sweep_append_done (unbroken_iff_sweep.1 hl)]
  exact sweep_append_fail h

theorem sweep_right (hl : Unbroken 0 (chainSweep ctx.hash l f) lt b)
    (h : (chainSweep ctx.hash l f i (visit 0 (chainSweep ctx.hash l f) lt b)).1 = 0) :
    sweep 0 f (walk ctx.hash (.node i lt rt) l) b =
      sweep 0 f (walk ctx.hash rt l)
        (chainSweep ctx.hash l f i (visit 0 (chainSweep ctx.hash l f) lt b)).2 := by
  rw [visit_eq_sweep hl] at h ⊢
  rw [walk_node, sweep_append_done (unbroken_iff_sweep.1 hl)]
  exact sweep_append_done h

end Sweeps

theorem chainSweep_record (hash : K → H) (l : List (HItem E K V)) (i : Item P H E)
    (arg : A × List (E × ρ)) :
    ∃ new, (chainSweep hash l (record cb) i arg).2.2 = arg.2 ++ new ∧
      (bucket hash l i.key ≠ [] → new ≠ []) := by
  rcases sweep_record cb (bucket hash l i.key) arg with ⟨new, hnew, hok, hfail⟩
  refine ⟨new, hnew, fun hne hnil => ?_⟩
  by_cases h : (sweep 0 (record cb) (bucket hash l i.key) arg).1 = 0
  · rw [hok h, List.map_eq_nil_iff] at hnil
    exact hne hnil
  · rcases hfail h with ⟨es1, x, es2, -, hcalls⟩
    rw [hnil] at hcalls
    simp at hcalls

theorem failed_of_broken
    (h : ¬ Unbroken 0 (chainSweep ctx.hash l (record cb)) g arg) :
    Failed (visit 0 (chainSweep ctx.hash l (record cb)) g arg) := by
  refine visit_marked ?_ ?_ h
  · rintro i arg ⟨c, hc, hc0⟩
    rcases chainSweep_record cb ctx.hash l i arg with ⟨new, hnew, -⟩
    refine ⟨c, ?_, hc0⟩
    rw [hnew]
    exact List.mem_append_left _ hc
  · intro i arg hi
    rcases sweep_record_failed cb hi with ⟨x, -, hx⟩
    exact ⟨_, hx, hi⟩

theorem overrun_stays (h : Overrun arg) :
    Overrun (visit 0 (chainSweep ctx.hash l (record cb)) g arg) := by
  refine visit_keeps ?_ g h
  intro i arg hover
  rcases chainSweep_record cb ctx.hash l i arg with ⟨new, hnew, -⟩
  exact hover.more hnew

/-- The entries for which the callback does not return 0, up to the first one, are in the chain at
the root. -/
def StopsAtRoot (ctx : HashMapContext H K) (g : BinaryTree (Item P H E)) (l : List (HItem E K V))
    (cb : A → E → ρ × A) (a : A) : Prop :=
  ∀ c ∈ (sweep 0 (record cb) (walk ctx.hash g l) (a, [])).2.2, c.2 ≠ 0 →
    c.1 ∈ (rootChain ctx.hash g l).map HItem.addr

theorem stopsAtRoot_of_stops (hne : ∀ i ∈ inorder g, bucket ctx.hash l i.key ≠ [])
    {entries : List E}
    (h : StopsAtFirst entries (visit 0 (chainSweep ctx.hash l (record cb)) g (a, [])).2
      (atRoot 0 (chainSweep ctx.hash l (record cb)) g (a, []))) : StopsAtRoot ctx g l cb a := by
  intro c hc hc0
  cases g with
  | nil =>
    have hcalls := sweep_record_mem cb hc hc0
    simp [walk] at hcalls
  | node i lt rt =>
    by_cases hl : Unbroken 0 (chainSweep ctx.hash l (record cb)) lt (a, [])
    · by_cases hroot : (chainSweep ctx.hash l (record cb) i
          (visit 0 (chainSweep ctx.hash l (record cb)) lt (a, []))).1 = 0
      · rw [visit_node_done hroot, atRoot, hroot] at h
        rw [sweep_right hl hroot] at hc
        by_cases hr : Unbroken 0 (chainSweep ctx.hash l (record cb)) rt
            (chainSweep ctx.hash l (record cb) i
              (visit 0 (chainSweep ctx.hash l (record cb)) lt (a, []))).2
        · -- no call has failed at all
          rw [← visit_eq_sweep hr] at hc
          exact absurd ⟨c, hc, hc0⟩ h.not_failed
        · exact absurd (failed_of_broken cb hr) h.not_failed
      · rw [sweep_root hl hroot, visit_eq_sweep hl] at hc
        rcases sweep_record_mem cb hc hc0 with hleft | ⟨-, hmem⟩
        · rcases sweep_record_mem cb hleft hc0 with hnil | ⟨hfail, -⟩
          · simp at hnil
          · exact absurd (unbroken_iff_sweep.1 hl) hfail
        · exact hmem
    · -- the chain at the root is called after a call that failed
      rcases chainSweep_record cb ctx.hash l i
        (visit 0 (chainSweep ctx.hash l (record cb)) lt (a, [])) with ⟨new, hnew, hnonempty⟩
      have hover : Overrun (chainSweep ctx.hash l (record cb) i
          (visit 0 (chainSweep ctx.hash l (record cb)) lt (a, []))).2 :=
        (failed_of_broken cb hl).overrun (hnonempty (hne i (by simp))) hnew
      refine absurd ?_ h.not_overrun
      by_cases hroot : (chainSweep ctx.hash l (record cb) i
          (visit 0 (chainSweep ctx.hash l (record cb)) lt (a, []))).1 = 0
      · rw [visit_node_done hroot]
        exact overrun_stays cb hover
      · rw [visit_node_fail hroot]
        exact hover

theorem Stored.not_rootChain (h : Stored ctx s (.node i lt rt) l) {g' : BinaryTree (Item P H E)}
    (hg' : ∀ j ∈ inorder g', j.key ≠ i.key) {x : HItem E K V} (hx : x ∈ walk ctx.hash g' l) :
    x.addr ∉ (rootChain ctx.hash (.node i lt rt) l).map HItem.addr := by
  intro hroot
  rcases List.mem_map.1 hroot with ⟨y, hy, hyx⟩
  rcases List.mem_flatMap.1 hx with ⟨j, hj, hxj⟩
  have hy' := mem_bucket.1 hy
  have hx' := mem_bucket.1 hxj
  have hsame := h.toLinked.eq_of_addr hy'.1 hx'.1 hyx
  refine hg' j hj ?_
  rw [← hx'.2, ← hy'.2, hsame]

theorem Stored.below_ne (h : Stored ctx s (.node i lt rt) l) {j : Item P H E}
    (hj : j ∈ inorder lt ∨ j ∈ inorder rt) : j.key ≠ i.key := by
  have hord := h.tree.ordered
  rw [Ordered, inorder_node, List.pairwise_append, List.pairwise_cons] at hord
  rcases hord with ⟨-, ⟨hright, -⟩, hleft⟩
  rcases hj with hj | hj
  · exact (hleft j hj i (by simp)).ne
  · exact (hright j hj).ne'

theorem Stored.sweep_of_stopsAtRoot (h : Stored ctx s g l) (hstop : StopsAtRoot ctx g l cb a) :
    sweep 0 (record cb) (walk ctx.hash g l) (a, []) =
      (atRoot 0 (chainSweep ctx.hash l (record cb)) g (a, []),
        visit 0 (chainSweep ctx.hash l (record cb)) g (a, [])) := by
  by_cases hunbroken : Unbroken 0 (chainSweep ctx.hash l (record cb)) g (a, [])
  · rw [visit_eq_sweep hunbroken, atRoot_of_unbroken hunbroken]
    exact Prod.ext (unbroken_iff_sweep.1 hunbroken) rfl
  · cases g with
    | nil => exact absurd rfl hunbroken
    | node i lt rt =>
      by_cases hl : Unbroken 0 (chainSweep ctx.hash l (record cb)) lt (a, [])
      · by_cases hroot : (chainSweep ctx.hash l (record cb) i
            (visit 0 (chainSweep ctx.hash l (record cb)) lt (a, []))).1 = 0
        · have hr : ¬ Unbroken 0 (chainSweep ctx.hash l (record cb)) rt
              (chainSweep ctx.hash l (record cb) i
                (visit 0 (chainSweep ctx.hash l (record cb)) lt (a, []))).2 :=
            fun hr => hunbroken (unbroken_node.2 ⟨hl, hroot, hr⟩)
          rw [StopsAtRoot, sweep_right hl hroot] at hstop
          have hfail := fun h0 => hr (unbroken_iff_sweep.2 h0)
          rcases sweep_record_failed cb hfail with ⟨x, hx, hcall⟩
          exact absurd (hstop _ hcall hfail)
            (h.not_rootChain (fun j hj => h.below_ne (.inr hj)) hx)
        · rw [sweep_root hl hroot, visit_node_fail hroot]
          rfl
      · rw [StopsAtRoot, sweep_left hl] at hstop
        have hfail := fun h0 => hl (unbroken_iff_sweep.2 h0)
        rcases sweep_record_failed cb hfail with ⟨x, hx, hcall⟩
        exact absurd (hstop _ hcall hfail)
          (h.not_rootChain (fun j hj => h.below_ne (.inl hj)) hx)

variable [Fintype E] [Fintype P]

theorem Stored.intoIter_recorded (h : Stored ctx s g l) (cb : A → E → ρ × A) (a : A) :
    hashMapIntoIter s (fun arg e => .ok (recorded cb arg e)) (a, []) =
      .ok (atRoot 0 (chainSweep ctx.hash l (record cb)) g (a, []),
        visit 0 (chainSweep ctx.hash l (record cb)) g (a, [])) := by
  have hcb : ∀ x ∈ l, ∀ arg arg' : A × List (E × ρ), arg = arg' →
      ∃ out, (.ok (recorded cb arg x.addr) : Except Fault _) = .ok ((record cb x arg').1, out) ∧
        out = (record cb x arg').2 := by
    rintro x - arg _ rfl
    exact ⟨_, rfl, rfl⟩
  rcases h.intoIter (fun arg e => .ok (recorded cb arg e)) (record cb) hcb (Eq.refl (a, [])) with
    ⟨out, hrun, rfl⟩
  exact hrun

/-- The iteration calls the callback for each entry, up to the first one for which it does not
return 0, and returns what that call returned. -/
def IntoStops (s : HMap E P H K V) (l : List (HItem E K V)) (cb : A → E → ρ × A) (a : A) : Prop :=
  ∃ ret arg, hashMapIntoIter s (fun arg e => .ok (recorded cb arg e)) (a, []) = .ok (ret, arg) ∧
    StopsAtFirst (l.map HItem.addr) arg.2 ret

theorem Stored.intoStops_iff (h : Stored ctx s g l) (cb : A → E → ρ × A) (a : A) :
    IntoStops s l cb a ↔ StopsAtRoot ctx g l cb a := by
  constructor
  · rintro ⟨ret, arg, hrun, hstops⟩
    rw [h.intoIter_recorded] at hrun
    cases hrun
    refine stopsAtRoot_of_stops cb (fun i hi => ?_) hstops
    exact (h.buckets i.key).1 (List.mem_map_of_mem hi)
  · intro hstop
    have hsweep := h.sweep_of_stopsAtRoot cb hstop
    refine ⟨_, _, h.intoIter_recorded cb a, ?_⟩
    have hstops := stops_of_sweep cb (walk ctx.hash g l) a
    rw [hsweep] at hstops
    exact hstops.perm (h.walk_perm.map _)

end Callbacks

end HashMap
end Ds
end XytherOS
