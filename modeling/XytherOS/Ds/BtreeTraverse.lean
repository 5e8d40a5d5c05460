import XytherOS.Ds.BtreeRefine
import XytherOS.Ds.DataQueueRefine

/-!
# BtreeTraverse — the traversal of `ds/btree/btree.c`

`btree_traverse` enqueues the data of a tree in the order of its keys.  The queue refuses a datum
that it holds already and one for which there is no memory; `btree_node_traverse` returns such an
error to its caller, which drops it unless it is `btree_traverse` itself.
-/

namespace XytherOS
namespace Ds
namespace Btree

open SearchTree DataQueue

variable {P T K D N : Type}

/-- What `kmalloc` returns in the calls of `enqueue` during a traversal, by the tree node that is
visited: it gives no memory out twice. -/
structure Grants (P N : Type) where
  node : P → Option N
  once : ∀ {p p' n}, node p = some n → node p' = some n → p = p'

section Functions

variable [DecidableEq N] [DecidableEq D] [Fintype N] (s : Btrees P T K D) (grants : Grants P N)

def btreeNodeTraverse : Nat → Option P → DQueue N D → Except Fault (Ret × DQueue N D)
  | _, none, queue => .ok (.ok, queue)
  | 0, some _, _ => throw .hang
  | fuel + 1, some node, queue => do
      match (← s.read node).btree with
      | none => throw (.assertion "No Btree")
      | some _ =>
        let (_, queue) ← btreeNodeTraverse fuel (← s.read node).left queue
        let (reply, queue) ←
          enqueue queue (← s.read node).data .unique (grants.node node)
        if reply.ret ≠ .ok then return (reply.ret, queue)
        let (_, queue) ← btreeNodeTraverse fuel (← s.read node).right queue
        return (.ok, queue)

def btreeTraverse [Fintype P] (t : T) (queue : DQueue N D) : Except Fault (Ret × DQueue N D) := do
  let (err, queue) ← btreeNodeTraverse s grants (Fintype.card P) (s.root t) queue
  if err ≠ .ok then
    let (_, queue) ← queueFlush queue
    return (err, queue)
  return (err, queue)

end Functions

/-! ## What comes into the queue -/

section Gather

variable [DecidableEq D] (grants : Grants P N)

/-- The datum of a tree node is refused by a queue that holds `queue`. -/
def Refused (queue : List D) (i : Item P K D) : Prop :=
  i.data ∈ queue ∨ grants.node i.addr = none

instance (queue : List D) (i : Item P K D) : Decidable (Refused grants queue i) :=
  inferInstanceAs (Decidable (_ ∨ _))

/-- The data in the queue behind a walk over a tree: where a datum is refused, the nodes to the
right of it are left out. -/
def gather : BinaryTree (Item P K D) → List D → List D
  | .nil, queue => queue
  | .node i l r, queue =>
    let queue := gather l queue
    if Refused grants queue i then queue else gather r (queue ++ [i.data])

variable {grants} {g : BinaryTree (Item P K D)} {queue : List D}

theorem gather_append (g : BinaryTree (Item P K D)) (queue : List D) :
    ∃ ds, gather grants g queue = queue ++ ds ∧ ds.Sublist ((inorder g).map Item.data) := by
  induction g generalizing queue with
  | nil => exact ⟨[], by simp [gather], by simp⟩
  | node i l r ihl ihr =>
    rcases ihl queue with ⟨ds, hds, hsub⟩
    rw [gather, hds, inorder_node, List.map_append, List.map_cons]
    by_cases href : Refused grants (queue ++ ds) i
    · rw [if_pos href]
      exact ⟨ds, rfl, hsub.trans (List.sublist_append_left _ _)⟩
    · rw [if_neg href]
      rcases ihr (queue ++ ds ++ [i.data]) with ⟨ds', hds', hsub'⟩
      refine ⟨ds ++ i.data :: ds', ?_, hsub.append (hsub'.cons_cons i.data)⟩
      rw [hds', List.append_assoc, List.append_assoc, List.singleton_append]

theorem nodup_gather (hq : queue.Nodup) : (gather grants g queue).Nodup := by
  induction g generalizing queue with
  | nil => exact hq
  | node i l r ihl ihr =>
    rw [gather]
    by_cases href : Refused grants (gather grants l queue) i
    · rw [if_pos href]
      exact ihl hq
    · rw [if_neg href]
      refine ihr (List.nodup_append.2 ⟨ihl hq, by simp, ?_⟩)
      rintro a ha b hb rfl
      rw [List.mem_singleton] at hb
      exact href (.inl (hb ▸ ha))

theorem granted_of_gather (h : gather grants g queue = queue ++ (inorder g).map Item.data) :
    ∀ i ∈ inorder g, grants.node i.addr ≠ none := by
  induction g generalizing queue with
  | nil => simp
  | node i l r ihl ihr =>
    rcases gather_append l queue with ⟨ds, hds, hsub⟩
    rw [gather, inorder_node, List.map_append, List.map_cons] at h
    by_cases href : Refused grants (gather grants l queue) i
    · -- too few data have come in
      rw [if_pos href, hds] at h
      have hlen := congrArg List.length (List.append_cancel_left h)
      have hle := hsub.length_le
      simp only [List.length_append, List.length_cons] at hlen
      omega
    · rw [if_neg href] at h
      rcases gather_append r (gather grants l queue ++ [i.data]) with ⟨ds', hds', hsub'⟩
      have hsplit : ds ++ i.data :: ds' =
          (inorder l).map Item.data ++ i.data :: (inorder r).map Item.data := by
        rw [hds', hds, List.append_assoc, List.append_assoc, List.singleton_append] at h
        exact List.append_cancel_left h
      have hlen := congrArg List.length hsplit
      have hle := hsub.length_le
      have hle' := hsub'.length_le
      simp only [List.length_append, List.length_cons] at hlen
      have hl := hsub.eq_of_length (by omega)
      have hr := hsub'.eq_of_length (by omega)
      have hmem : grants.node i.addr ≠ none := fun hnone => href (.inr hnone)
      rw [hl] at hds
      rw [hr] at hds'
      intro j hj
      rw [inorder_node, List.mem_append, List.mem_cons] at hj
      rcases hj with hj | rfl | hj
      · exact ihl hds j hj
      · exact hmem
      · exact ihr hds' j hj

theorem gather_of_granted (hmem : ∀ i ∈ inorder g, grants.node i.addr ≠ none)
    (hnd : (queue ++ (inorder g).map Item.data).Nodup) :
    gather grants g queue = queue ++ (inorder g).map Item.data := by
  induction g generalizing queue with
  | nil => simp [gather]
  | node i l r ihl ihr =>
    rw [inorder_node, List.map_append, List.map_cons, ← List.append_assoc] at hnd ⊢
    have hnd' : (queue ++ (inorder l).map Item.data ++ [i.data] ++
        (inorder r).map Item.data).Nodup := by
      rw [List.append_assoc, List.singleton_append]
      exact hnd
    have hl := ihl (fun j hj => hmem j (by simp [hj])) (List.nodup_append.1 hnd).1
    have hr := ihr (fun j hj => hmem j (by simp [hj])) hnd'
    have hgrant : ¬ Refused grants (queue ++ (inorder l).map Item.data) i := by
      rintro (hin | hnone)
      · exact (List.nodup_append.1 hnd).2.2 _ hin _ (by simp) rfl
      · exact hmem i (by simp) hnone
    rw [gather, hl, if_neg hgrant, hr, List.append_assoc, List.singleton_append]

def RootRefused (grants : Grants P N) : BinaryTree (Item P K D) → List D → Prop
  | .nil, _ => False
  | .node i l _, queue => Refused grants (gather grants l queue) i

end Gather

/-! ## The walk over a tree -/

section Walk

variable [DecidableEq N] [DecidableEq D] [Fintype N] {s : Btrees P T K D} {t : T}
  {grants : Grants P N} {g : BinaryTree (Item P K D)} {i : Item P K D} {queue : DQueue N D}
  {l : List (N × D)}

theorem enqueue_refused (h : DataQueue.Holds queue l)
    (href : Refused grants (l.map Prod.snd) i) :
    ∃ reply queue', enqueue queue i.data .unique (grants.node i.addr) = .ok (reply, queue') ∧
      reply.ret ≠ .ok ∧ DataQueue.Holds queue' l := by
  rcases DataQueue.enqueueWhence_refines h i.data .unique .tail (grants.node i.addr) with
    ⟨queue', hrun, hholds⟩
  by_cases hin : i.data ∈ l.map Prod.snd
  · rw [DataQueue.listEnqueue, if_pos ⟨rfl, hin⟩] at hrun hholds
    exact ⟨_, queue', hrun, by simp [Reply.code], hholds⟩
  · have hnone : grants.node i.addr = none := href.resolve_left hin
    rw [DataQueue.listEnqueue, if_neg (fun h => hin h.2), hnone] at hrun hholds
    rw [hnone]
    exact ⟨_, queue', hrun, by simp [Reply.code], hholds⟩

theorem enqueue_admitted (h : DataQueue.Holds queue l)
    (hfresh : ∀ e ∈ l, grants.node i.addr ≠ some e.1)
    (hgrant : ¬ Refused grants (l.map Prod.snd) i) :
    ∃ p reply queue', grants.node i.addr = some p ∧
      enqueue queue i.data .unique (grants.node i.addr) = .ok (reply, queue') ∧
      reply.ret = .ok ∧ DataQueue.Holds queue' (l ++ [(p, i.data)]) := by
  rcases DataQueue.enqueueWhence_refines h i.data .unique .tail (grants.node i.addr) with
    ⟨queue', hrun, hholds⟩
  have hin : i.data ∉ l.map Prod.snd := fun hin => hgrant (.inl hin)
  cases hnode : grants.node i.addr with
  | none => exact absurd (.inr hnode) hgrant
  | some p =>
    have hp : p ∉ l.map Prod.fst := by
      intro hp
      rcases List.mem_map.1 hp with ⟨e, he, rfl⟩
      exact hfresh e he hnode
    have hfilter : (some p).filter (fun p => decide (p ∉ l.map Prod.fst)) = some p := by
      rw [Option.filter_some, if_pos (decide_eq_true hp)]
    rw [DataQueue.listEnqueue, if_neg (fun h => hin h.2), hnode, hfilter] at hrun hholds
    exact ⟨p, _, queue', rfl, hrun, rfl, hholds⟩

theorem btreeNodeTraverse_spec {parent : Option P} (hshape : Shape s t parent g)
    (hapart : Apart (inorder g)) (h : DataQueue.Holds queue l)
    (hfresh : ∀ i ∈ inorder g, ∀ e ∈ l, grants.node i.addr ≠ some e.1) {n : Nat}
    (hn : (inorder g).length ≤ n) :
    ∃ ret queue' l', btreeNodeTraverse s grants n (top g) queue = .ok (ret, queue') ∧
      DataQueue.Holds queue' l' ∧ l'.map Prod.snd = gather grants g (l.map Prod.snd) ∧
      (∀ e ∈ l', e ∈ l ∨ ∃ i ∈ inorder g, grants.node i.addr = some e.1) ∧
      (ret = .ok ↔ ¬ RootRefused grants g (l.map Prod.snd)) := by
  induction g generalizing parent queue l n with
  | nil =>
    refine ⟨.ok, queue, l, ?_, h, rfl, fun e he => .inl he, iff_of_true rfl id⟩
    cases n <;> rfl
  | node i lt rt ihl ihr =>
    cases n with
    | zero => simp at hn
    | succ n =>
      rcases hshape with ⟨hstored, hl, hr⟩
      have hlen : (inorder lt).length + (inorder rt).length ≤ n := by
        simp only [inorder_node, List.length_append, List.length_cons] at hn
        omega
      rw [inorder_node] at hapart
      rcases List.pairwise_append.1 hapart with ⟨hapl, hapr, hleft⟩
      rcases List.pairwise_cons.1 hapr with ⟨hright, hapr⟩
      -- the left subtree
      rcases ihl hl hapl h (fun j hj => hfresh j (by simp [hj])) (n := n) (by omega) with
        ⟨ret1, q1, l₁, hrun1, h₁, hdata1, hmem1, -⟩
      have hfresh1 : ∀ j, (∀ j' ∈ inorder lt, j'.addr ≠ j.addr) →
          j ∈ inorder (BinaryTree.node i lt rt) → ∀ e ∈ l₁, grants.node j.addr ≠ some e.1 := by
        intro j hne hj e he hnode
        rcases hmem1 e he with he | ⟨j', hj', hnode'⟩
        · exact hfresh j hj e he hnode
        · exact hne j' hj' (grants.once hnode' hnode)
      by_cases href : Refused grants (l₁.map Prod.snd) i
      · -- its root is refused: the walk ends here
        rcases enqueue_refused h₁ href with ⟨reply, q2, hrun2, hret, h₂⟩
        refine ⟨reply.ret, q2, l₁, ?_, h₂, ?_, ?_, ?_⟩
        · simp only [top_node, btreeNodeTraverse, read_stored hstored, ok_bind, hrun1, hrun2]
          simp only [ne_eq, hret, not_false_eq_true, if_true]
          rfl
        · rw [gather, ← hdata1, if_pos href]
        · intro e he
          refine (hmem1 e he).imp_right ?_
          rintro ⟨j, hj, hnode⟩
          exact ⟨j, by simp [hj], hnode⟩
        · rw [RootRefused, ← hdata1]
          exact iff_of_false hret (fun hno => hno href)
      · have hi : ∀ j' ∈ inorder lt, j'.addr ≠ i.addr :=
          fun j' hj' => hleft j' hj' i (by simp)
        rcases enqueue_admitted h₁ (hfresh1 i hi (by simp)) href with
          ⟨p, reply, q2, hp, hrun2, hret, h₂⟩
        have hfresh2 : ∀ j ∈ inorder rt, ∀ e ∈ l₁ ++ [(p, i.data)],
            grants.node j.addr ≠ some e.1 := by
          intro j hj e he hnode
          rcases List.mem_append.1 he with he | he
          · exact hfresh1 j (fun j' hj' => hleft j' hj' j (by simp [hj])) (by simp [hj]) e he
              hnode
          · rw [List.mem_singleton.1 he] at hnode
            exact hright j hj (grants.once hp hnode)
        -- the right subtree
        rcases ihr hr hapr h₂ hfresh2 (n := n) (by omega) with
          ⟨ret3, q3, l3, hrun3, h3, hdata3, hmem3, -⟩
        refine ⟨.ok, q3, l3, ?_, h3, ?_, ?_, ?_⟩
        · simp only [top_node, btreeNodeTraverse, read_stored hstored, ok_bind, hrun1, hrun2]
          simp only [ne_eq, hret, not_true, if_false, hrun3]
          rfl
        · rw [gather, ← hdata1, if_neg href, hdata3, List.map_append, List.map_singleton]
        · intro e he
          rcases hmem3 e he with he | ⟨j, hj, hnode⟩
          · rcases List.mem_append.1 he with he | he
            · refine (hmem1 e he).imp_right ?_
              rintro ⟨j, hj, hnode⟩
              exact ⟨j, by simp [hj], hnode⟩
            · rw [List.mem_singleton.1 he]
              exact .inr ⟨i, by simp, hp⟩
          · exact .inr ⟨j, by simp [hj], hnode⟩
        · rw [RootRefused, ← hdata1]
          exact iff_of_true rfl href

end Walk

section Guarantee

variable [LinearOrder K] [DecidableEq N] [DecidableEq D] [Fintype N] [Fintype P]
  {s : Btrees P T K D} {t : T} {grants : Grants P N} {g : BinaryTree (Item P K D)}
  {entries : List (Item P K D)} {queue : DQueue N D}

omit [DecidableEq N] [DecidableEq D] [Fintype N] [Fintype P] [LinearOrder K] in
/-- What a traversal into an empty queue is for: on 0 the queue holds the data of all nodes in the
order of the keys, on an error nothing. -/
def Lists (g : BinaryTree (Item P K D)) (run : Except Fault (Ret × DQueue N D)) : Prop :=
  ∃ ret queue l, run = .ok (ret, queue) ∧ DataQueue.Holds queue l ∧
    (ret = .ok → l.map Prod.snd = (inorder g).map Item.data) ∧ (ret ≠ .ok → l = [])

/-- A traversal does what it is for exactly when no datum of the tree is refused, or that of the
root is. -/
theorem lists_iff (h : Holds s t g entries) (hq : DataQueue.Holds queue []) :
    Lists g (btreeTraverse s grants t queue) ↔
      ((∀ i ∈ inorder g, grants.node i.addr ≠ none) ∧ ((inorder g).map Item.data).Nodup) ∨
        RootRefused grants g [] := by
  have hall : gather grants g [] = (inorder g).map Item.data ↔
      (∀ i ∈ inorder g, grants.node i.addr ≠ none) ∧ ((inorder g).map Item.data).Nodup := by
    constructor
    · intro heq
      exact ⟨granted_of_gather heq, heq ▸ nodup_gather List.nodup_nil⟩
    · rintro ⟨hmem, hnd⟩
      exact gather_of_granted hmem hnd
  rcases btreeNodeTraverse_spec h.tree.shape (h.tree.apart h.ordered) hq (by simp)
    (h.tree.length_le h.ordered) with ⟨ret, queue', l, hrun, hholds, hdata, -, hret⟩
  rw [← h.tree.root] at hrun
  rw [List.map_nil] at hdata hret
  rw [btreeTraverse, hrun, ok_bind]
  by_cases hroot : RootRefused grants g []
  · -- the error is returned, and the queue flushed
    have herr : ret ≠ .ok := fun hok => hret.1 hok hroot
    rcases DataQueue.call_refines hholds .flush trivial with ⟨queue'', hflush, hempty⟩
    have hflush' : queueFlush queue' = .ok (.code .ok, queue'') := hflush
    refine iff_of_true ⟨ret, queue'', [], ?_, hempty, fun hok => absurd hok herr, fun _ => rfl⟩
      (.inr hroot)
    simp only [ne_eq, herr, not_false_eq_true, if_true, hflush', ok_bind]
    rfl
  · obtain rfl : ret = .ok := hret.2 hroot
    rw [or_iff_left hroot, ← hall, ← hdata]
    constructor
    · rintro ⟨ret, queue'', l', hrun', hholds', hok, -⟩
      cases hrun'
      rw [← hholds.dataSequence_eq, hholds'.dataSequence_eq]
      exact hok rfl
    · intro heq
      exact ⟨.ok, queue', l, rfl, hholds, fun _ => heq, fun hno => absurd rfl hno⟩

end Guarantee

/-! ## A root and its left child -/

/-- A root with the key `2` and the datum `true`, and the key `1` with `false` to its left. -/
def pairTree : Btrees (Fin 2) Unit Nat Bool where
  node p :=
    if p = 0 then ⟨2, true, some 1, none, none, some ()⟩
    else ⟨1, false, none, some 0, none, some ()⟩
  live _ := true
  root _ := some 0
  nrNodes _ := 2

def pairShape : BinaryTree (Item (Fin 2) Nat Bool) :=
  .node ⟨0, 2, true⟩ (.node ⟨1, 1, false⟩ .nil .nil) .nil

theorem holds_pairTree : Holds pairTree () pairShape (inorder pairShape) where
  tree := ⟨rfl, ⟨rfl, rfl⟩, ⟨⟨rfl, rfl⟩, trivial, trivial⟩, trivial⟩
  ordered := List.pairwise_pair.2 (by decide)
  count := rfl
  live := by decide
  entries := List.Perm.refl _

def grantsUpTo (n : Nat) : Grants (Fin 2) (Fin 2) where
  node p := if p.val < n then some p else none
  once := by
    intro p p' q hp hp'
    split_ifs at hp hp'
    rw [Option.some.inj hp, Option.some.inj hp']

theorem lists_pairTree :
    Lists pairShape
      (btreeTraverse pairTree (grantsUpTo 2) () (queueInit fun _ : Fin 2 => ⟨none, true, none⟩)) :=
  (lists_iff holds_pairTree (DataQueue.holds_init _)).2 (.inl (by decide))

/-- Without memory for the left child, 0 is returned all the same, with the datum of the root. -/
theorem traverse_left_lost :
    (btreeTraverse pairTree (grantsUpTo 1) () (queueInit fun _ : Fin 2 => ⟨none, true, none⟩)).map
        (fun r => (r.1, dataSequence r.2)) = .ok (.ok, [true]) ∧
      ¬ Lists pairShape
        (btreeTraverse pairTree (grantsUpTo 1) ()
          (queueInit fun _ : Fin 2 => ⟨none, true, none⟩)) := by
  have hpart : (btreeTraverse pairTree (grantsUpTo 1) ()
      (queueInit fun _ : Fin 2 => ⟨none, true, none⟩)).map
        (fun r => (r.1, dataSequence r.2)) = .ok (.ok, [true]) := by
    decide +kernel
  refine ⟨hpart, ?_⟩
  rintro ⟨ret, queue, l, hrun, hholds, hok, -⟩
  rw [hrun] at hpart
  have hboth := Except.ok.inj hpart
  have hret : ret = .ok := congrArg Prod.fst hboth
  have hdata : dataSequence queue = [true] := congrArg Prod.snd hboth
  rw [hholds.dataSequence_eq, hok hret] at hdata
  exact absurd hdata (by decide)

end Btree
end Ds
end XytherOS
