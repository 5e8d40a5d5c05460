import XytherOS.Ds.HashMapRefine
import XytherOS.Lib.TreeVisit

/-!
# HashMapIter — the iterators of `ds/hashMap.c`

An iterator is filled in advance: the in-order walk over the bucket tree goes through every chain
and enqueues each entry, or its value.  The queue of the iterator refuses a datum that it holds
already; it is taken here as the list of its data, which is what data queues are.  `mem i` says
whether the `i`-th allocation of a queue node finds memory.
-/

namespace XytherOS
namespace Ds

namespace Btree

variable {P H D A : Type}

def btreeTraverseInorder (s : Btrees P Unit H D) (cb : D → A → Except Fault (Ret × A)) :
    Nat → Option P → A → Except Fault (Ret × A)
  | _, none, a => .ok (.err .EINVAL, a)
  | 0, some _, _ => throw .hang
  | fuel + 1, some node, a => do
      match (← s.read node).btree with
      | none => throw (.assertion "No Btree")
      | some _ =>
        let (_, a) ← btreeTraverseInorder s cb fuel (← s.read node).left a
        let (err, a) ← cb (← s.read node).data a
        if err ≠ .ok then return (err, a)
        let (_, a) ← btreeTraverseInorder s cb fuel (← s.read node).right a
        return (.ok, a)

end Btree

namespace HashMap

open Btree SearchTree

variable {E P H K V X : Type} [DecidableEq X]

/-- An `iter_t`: the data in its queue, and how many queue nodes were asked for. -/
structure Iter (X : Type) where
  queue : List X
  allocs : Nat

def Iter.enqueue (mem : Nat → Bool) (it : Iter X) (data : X) : Ret × Iter X :=
  if data ∈ it.queue then (.err .EEXIST, it)
  else if mem it.allocs then (.ok, ⟨it.queue ++ [data], it.allocs + 1⟩)
  else (.err .ENOMEM, ⟨it.queue, it.allocs + 1⟩)

/-- The loop of `hashMap_iter_common_internal`: `datum` is what is enqueued for an entry. -/
def iterChain (s : HMap E P H K V) (datum : E → HashEntry E K V → X) (mem : Nat → Bool) :
    Nat → Option E → Iter X → Except Fault (Ret × Iter X)
  | _, none, it => .ok (.ok, it)
  | 0, some _, _ => throw .hang
  | n + 1, some e, it => do
      let entry ← s.read e
      match it.enqueue mem (datum e entry) with
      | (.ok, it) => iterChain s datum mem n entry.next it
      | (err, it) => return (err, ⟨[], it.allocs⟩)

section Init

variable [Fintype E] [Fintype P]

def hashMapIterCommonInternal (s : HMap E P H K V) (datum : E → HashEntry E K V → X)
    (mem : Nat → Bool) (head : E) (it : Iter X) : Except Fault (Ret × Iter X) :=
  iterChain s datum mem (Fintype.card E) (some head) it

def hashMapIterInitImpl (s : HMap E P H K V) (datum : E → HashEntry E K V → X)
    (mem : Nat → Bool) : Except Fault (Ret × Iter X) :=
  btreeTraverseInorder s.bucketTree (hashMapIterCommonInternal s datum mem) (Fintype.card P)
    (s.bucketTree.root ()) ⟨[], 0⟩

def hashMapIterInit [DecidableEq E] (s : HMap E P H K V) (mem : Nat → Bool) :
    Except Fault (Ret × Iter E) :=
  hashMapIterInitImpl s (fun e _ => e) mem

def hashMapIterValueInit [DecidableEq V] (s : HMap E P H K V) (mem : Nat → Bool) :
    Except Fault (Ret × Iter (Option V)) :=
  hashMapIterInitImpl s (fun _ entry => entry.value) mem

end Init

/-! ## What an iterator holds -/

variable {s : HMap E P H K V} {datum : E → HashEntry E K V → X} {mem : Nat → Bool}

def dataOf (s : HMap E P H K V) (datum : E → HashEntry E K V → X) (e : HItem E K V) : X :=
  datum e.addr (s.entry e.addr)

def Iter.more (it : Iter X) (data : List X) : Iter X :=
  ⟨it.queue ++ data, it.allocs + data.length⟩

omit [DecidableEq X] in
theorem Iter.more_append (it : Iter X) (as bs : List X) :
    it.more (as ++ bs) = (it.more as).more bs := by
  simp [Iter.more, Nat.add_assoc]

def Full (mem : Nat → Bool) (it : Iter X) (data : List X) (it' : Iter X) : Prop :=
  (∀ i < data.length, mem (it.allocs + i) = true) ∧ it' = it.more data

/-- The queue node for one of `data` was missing: what was enqueued up to it is gone. -/
def Lost (mem : Nat → Bool) (it : Iter X) (data : List X) (it' : Iter X) : Prop :=
  (∃ i < data.length, mem (it.allocs + i) = false) ∧
    ∃ front rest, it.queue ++ data = front ++ rest ∧ front ≠ [] ∧ it'.queue.Sublist rest

section Outcomes

variable {it it' it'' : Iter X} {as bs : List X}

omit [DecidableEq X] in
theorem Full.nil (mem : Nat → Bool) (it : Iter X) : Full mem it [] it :=
  ⟨by simp, by simp [Iter.more]⟩

omit [DecidableEq X] in
theorem Full.append (h : Full mem it as it') (h' : Full mem it' bs it'') :
    Full mem it (as ++ bs) it'' := by
  rcases h with ⟨hmem, rfl⟩
  rcases h' with ⟨hmem', rfl⟩
  refine ⟨fun i hi => ?_, (it.more_append as bs).symm⟩
  rcases Nat.lt_or_ge i as.length with hlt | hge
  · exact hmem i hlt
  · have hnext := hmem' (i - as.length) (by rw [List.length_append] at hi; omega)
    rwa [Iter.more, Nat.add_assoc, Nat.add_sub_cancel' hge] at hnext

omit [DecidableEq X] in
theorem Full.append_lost (h : Full mem it as it') (h' : Lost mem it' bs it'') :
    Lost mem it (as ++ bs) it'' := by
  rcases h with ⟨hmem, rfl⟩
  rcases h' with ⟨⟨i, hi, hno⟩, front, rest, hsplit, hfront, hsub⟩
  refine ⟨⟨as.length + i, by simpa using hi, by rwa [← Nat.add_assoc]⟩,
    front, rest, ?_, hfront, hsub⟩
  rw [← hsplit, Iter.more, List.append_assoc]

omit [DecidableEq X] in
theorem Lost.extend (h : Lost mem it as it') (bs : List X) : Lost mem it (as ++ bs) it' := by
  rcases h with ⟨⟨i, hi, hno⟩, front, rest, hsplit, hfront, hsub⟩
  refine ⟨⟨i, by rw [List.length_append]; omega, hno⟩, front, rest ++ bs, ?_, hfront,
    hsub.trans (List.sublist_append_left _ _)⟩
  rw [← List.append_assoc, hsplit, List.append_assoc]

omit [DecidableEq X] in
theorem Lost.append (h : Lost mem it as it') (h' : Full mem it' bs it'' ∨ Lost mem it' bs it'') :
    Lost mem it (as ++ bs) it'' := by
  rcases h.extend bs with ⟨hno, -⟩
  rcases h with ⟨-, front, rest, hsplit, hfront, hsub⟩
  have hsplit' : it.queue ++ (as ++ bs) = front ++ (rest ++ bs) := by
    rw [← List.append_assoc, hsplit, List.append_assoc]
  refine ⟨hno, front, rest ++ bs, hsplit', hfront, ?_⟩
  rcases h' with ⟨-, rfl⟩ | ⟨-, front', rest', hsplit', -, hsub'⟩
  · exact hsub.append (List.Sublist.refl bs)
  · have hrest : rest'.Sublist (it'.queue ++ bs) := by
      rw [hsplit']
      exact List.sublist_append_right _ _
    exact (hsub'.trans hrest).trans (hsub.append (List.Sublist.refl bs))

omit [DecidableEq X] in
theorem nodup_of_outcome (h : Full mem it as it' ∨ Lost mem it as it')
    (hnd : (it.queue ++ (as ++ bs)).Nodup) : (it'.queue ++ bs).Nodup := by
  rw [← List.append_assoc] at hnd
  refine hnd.sublist ?_
  rcases h with ⟨-, rfl⟩ | ⟨-, front, rest, hsplit, -, hsub⟩
  · exact List.Sublist.refl _
  · rw [hsplit, List.append_assoc]
    exact (hsub.append (List.Sublist.refl bs)).trans (List.sublist_append_right _ _)

end Outcomes

/-! ## The walk -/

omit [DecidableEq X] in
theorem traverse_visit {A : Type} {g : BinaryTree (Item P H E)} {tree : Btrees P Unit H E}
    {cb : E → A → Except Fault (Ret × A)} {f : Item P H E → A → Ret × A}
    (hcb : ∀ i ∈ inorder g, ∀ a, cb i.data a = .ok (f i a)) {parent : Option P} (hshape : Shape tree () parent g) {n : Nat}
    (hn : (inorder g).length ≤ n) (a : A) :
    btreeTraverseInorder tree cb n (top g) a =
      .ok (if inorder g = [] then .err .EINVAL else atRoot .ok f g a, visit .ok f g a) := by
  induction g generalizing parent n a with
  | nil => cases n <;> rfl
  | node i lt rt ihl ihr =>
    cases n with
    | zero => simp at hn
    | succ n =>
      rcases hshape with ⟨hstored, hl, hr⟩
      have hlen : (inorder lt).length + (inorder rt).length ≤ n := by
        simp only [inorder_node, List.length_append, List.length_cons] at hn
        omega
      have hrun1 := ihl (fun j hj => hcb j (by simp [hj])) hl (n := n) (by omega) a
      have hrun2 := hcb i (by simp) (visit .ok f lt a)
      have hne : inorder (BinaryTree.node i lt rt) ≠ [] := by simp
      rw [if_neg hne]
      by_cases hroot : (f i (visit .ok f lt a)).1 = .ok
      · have hrun3 := ihr (fun j hj => hcb j (by simp [hj])) hr (n := n) (by omega)
          (f i (visit .ok f lt a)).2
        simp only [top_node, btreeTraverseInorder, read_stored hstored, ok_bind, hrun1, hrun2,
          ne_eq, hroot, not_true, if_false, hrun3, visit_node_done hroot, atRoot]
        rfl
      · simp only [top_node, btreeTraverseInorder, read_stored hstored, ok_bind, hrun1, hrun2,
          ne_eq, hroot, not_false_eq_true, if_true, visit_node_fail hroot, atRoot]
        rfl

section Enqueued

variable {it : Iter X}

/-- What `hashMap_iter_common_internal` does with the data of a chain: one that is refused empties
the queue. -/
def enqueueAll (mem : Nat → Bool) (data : List X) (it : Iter X) : Ret × Iter X :=
  let out := sweep .ok (fun d (it : Iter X) => it.enqueue mem d) data it
  if out.1 = .ok then out else (out.1, ⟨[], out.2.allocs⟩)

theorem enqueueAll_cons_done {d : X} {data : List X} (h : (it.enqueue mem d).1 = .ok) :
    enqueueAll mem (d :: data) it = enqueueAll mem data (it.enqueue mem d).2 := by
  rw [enqueueAll, sweep_cons_done (f := fun d (it : Iter X) => it.enqueue mem d) h, enqueueAll]

theorem enqueueAll_cons_fail {d : X} {data : List X} (h : (it.enqueue mem d).1 ≠ .ok) :
    enqueueAll mem (d :: data) it =
      ((it.enqueue mem d).1, ⟨[], (it.enqueue mem d).2.allocs⟩) := by
  rw [enqueueAll, sweep_cons_fail (f := fun d (it : Iter X) => it.enqueue mem d) h]
  exact if_neg h

theorem iterChain_eq {es : List (HItem E K V)} (h : Chained s es none) {n : Nat}
    (hn : es.length ≤ n) (it : Iter X) :
    iterChain s datum mem n (first es) it =
      .ok (enqueueAll mem (es.map (dataOf s datum)) it) := by
  induction es generalizing it n with
  | nil => cases n <;> rfl
  | cons e es ih =>
    rcases h with ⟨hlive, hentry, hrest⟩
    cases n with
    | zero => simp at hn
    | succ n =>
      have hnext : (s.entry e.addr).next = first es := by rw [hentry, Option.or_none]
      rw [show first (e :: es) = some e.addr from rfl, List.map_cons, iterChain]
      simp only [HMap.read, hlive, if_true, ok_bind]
      cases hout : it.enqueue mem (dataOf s datum e) with
      | mk ret it' =>
        have hout' : it.enqueue mem (datum e.addr (s.entry e.addr)) = (ret, it') := hout
        rw [hout']
        cases ret with
        | ok =>
          rw [enqueueAll_cons_done (by rw [hout]), hout, hnext]
          exact ih hrest (Nat.le_of_succ_le_succ hn) it'
        | err e =>
          rw [enqueueAll_cons_fail (by simp [hout]), hout]
          rfl

theorem enqueue_done {d : X} (h : (it.enqueue mem d).1 = .ok) :
    d ∉ it.queue ∧ Full mem it [d] (it.enqueue mem d).2 := by
  rw [Iter.enqueue] at h ⊢
  by_cases hd : d ∈ it.queue
  · rw [if_pos hd] at h
    cases h
  · by_cases hmem : mem it.allocs = true
    · rw [if_neg hd, if_pos hmem]
      exact ⟨hd, fun i hi => by simpa [Nat.lt_one_iff.1 hi] using hmem, rfl⟩
    · rw [if_neg hd, if_neg hmem] at h
      cases h

theorem enqueueAll_done {data : List X} (h : (enqueueAll mem data it).1 = .ok)
    (hnd : it.queue.Nodup) :
    Full mem it data (enqueueAll mem data it).2 ∧ (enqueueAll mem data it).2.queue.Nodup := by
  induction data generalizing it with
  | nil => exact ⟨Full.nil mem it, hnd⟩
  | cons d data ih =>
    by_cases hd : (it.enqueue mem d).1 = .ok
    · rcases enqueue_done hd with ⟨hnew, hfull⟩
      rw [enqueueAll_cons_done hd] at h ⊢
      have hnd' : (it.enqueue mem d).2.queue.Nodup := by
        rw [hfull.2, Iter.more]
        refine List.nodup_append.2 ⟨hnd, by simp, ?_⟩
        rintro a ha b hb rfl
        exact hnew (List.mem_singleton.1 hb ▸ ha)
      rcases ih h hnd' with ⟨hrest, hndrest⟩
      exact ⟨hfull.append hrest, hndrest⟩
    · rw [enqueueAll_cons_fail hd] at h
      exact absurd h hd

theorem enqueueAll_lost {data : List X} (h : (enqueueAll mem data it).1 ≠ .ok)
    (hnd : (it.queue ++ data).Nodup) : Lost mem it data (enqueueAll mem data it).2 := by
  induction data generalizing it with
  | nil => exact absurd rfl h
  | cons d data ih =>
    by_cases hd : (it.enqueue mem d).1 = .ok
    · rcases enqueue_done hd with ⟨-, hfull⟩
      rw [enqueueAll_cons_done hd] at h ⊢
      exact hfull.append_lost (ih h (nodup_of_outcome (.inl hfull) hnd))
    · have hnew : d ∉ it.queue := fun hin =>
        (List.nodup_append.1 hnd).2.2 d hin d (by simp) rfl
      have hno : mem it.allocs = false := by
        rw [Iter.enqueue, if_neg hnew] at hd
        by_contra hmem
        exact hd (by rw [if_pos (Bool.eq_true_of_not_eq_false hmem)])
      rw [enqueueAll_cons_fail hd]
      exact ⟨⟨0, Nat.succ_pos _, hno⟩, it.queue ++ d :: data, [], by simp, by simp,
        List.Sublist.refl _⟩

end Enqueued

def walk [DecidableEq H] (hash : K → H) (g : BinaryTree (Item P H E)) (l : List (HItem E K V)) :
    List (HItem E K V) :=
  (inorder g).flatMap fun i => bucket hash l i.key

theorem flatMap_bucket_perm [DecidableEq H] (hash : K → H) {ks : List H} (hnd : ks.Nodup)
    (l : List (HItem E K V)) :
    (ks.flatMap fun k => bucket hash l k).Perm (l.filter fun e => decide (hash e.key ∈ ks)) := by
  induction ks with
  | nil => simp
  | cons k ks ih =>
    rcases List.nodup_cons.1 hnd with ⟨hk, hks⟩
    have hown : (l.filter fun e => decide (hash e.key ∈ k :: ks)).filter
        (fun e => decide (hash e.key = k)) = bucket hash l k := by
      rw [List.filter_filter, bucket]
      refine List.filter_congr fun e _ => ?_
      by_cases he : hash e.key = k <;> simp [he]
    have hrest : (l.filter fun e => decide (hash e.key ∈ k :: ks)).filter
        (fun e => !decide (hash e.key = k)) = l.filter fun e => decide (hash e.key ∈ ks) := by
      rw [List.filter_filter]
      refine List.filter_congr fun e _ => ?_
      by_cases he : hash e.key = k
      · simp [he, hk]
      · simp [he]
    have hsplit := List.filter_append_perm (fun e : HItem E K V => decide (hash e.key = k))
      (l.filter fun e => decide (hash e.key ∈ k :: ks))
    rw [hown, hrest] at hsplit
    rw [List.flatMap_cons]
    exact ((ih hks).append_left (bucket hash l k)).trans hsplit

theorem Stored.walk_perm [LinearOrder H] {ctx : HashMapContext H K} {g : BinaryTree (Item P H E)}
    {l : List (HItem E K V)} (h : Stored ctx s g l) : (walk ctx.hash g l).Perm l := by
  have hkeys : ((inorder g).map Item.key).Nodup :=
    (List.pairwise_map.2 h.tree.ordered).imp fun hlt => ne_of_lt hlt
  have hall : l.filter (fun e => decide (ctx.hash e.key ∈ (inorder g).map Item.key)) = l := by
    refine List.filter_eq_self.2 fun e he => decide_eq_true ?_
    exact (h.buckets _).2 (List.ne_nil_of_mem (mem_bucket.2 ⟨he, rfl⟩))
  have hflat := flatMap_bucket_perm ctx.hash hkeys l
  rwa [hall, List.flatMap_map] at hflat

theorem Stored.nil_iff [LinearOrder H] {ctx : HashMapContext H K} {g : BinaryTree (Item P H E)}
    {l : List (HItem E K V)} (h : Stored ctx s g l) : inorder g = [] ↔ l = [] := by
  constructor
  · intro hg
    have hwalk : walk ctx.hash g l = [] := by simp [walk, hg]
    exact (hwalk ▸ h.walk_perm).nil_eq.symm
  · intro hl
    refine List.eq_nil_iff_forall_not_mem.2 fun i hi => ?_
    exact (h.buckets i.key).1 (List.mem_map_of_mem hi) (by simp [hl, bucket])

section Walk

variable [LinearOrder H] {ctx : HashMapContext H K} {g : BinaryTree (Item P H E)}
  {l : List (HItem E K V)}

def nodeEnqueue (hash : K → H) (s : HMap E P H K V) (datum : E → HashEntry E K V → X)
    (mem : Nat → Bool) (l : List (HItem E K V)) (i : Item P H E) (it : Iter X) : Ret × Iter X :=
  enqueueAll mem ((bucket hash l i.key).map (dataOf s datum)) it

theorem visit_outcome (g : BinaryTree (Item P H E)) (it : Iter X)
    (hnd : (it.queue ++ (walk ctx.hash g l).map (dataOf s datum)).Nodup) :
    atRoot .ok (nodeEnqueue ctx.hash s datum mem l) g it = .ok ∧
        Full mem it ((walk ctx.hash g l).map (dataOf s datum))
          (visit .ok (nodeEnqueue ctx.hash s datum mem l) g it) ∨
      Lost mem it ((walk ctx.hash g l).map (dataOf s datum))
        (visit .ok (nodeEnqueue ctx.hash s datum mem l) g it) := by
  induction g generalizing it with
  | nil => exact .inl ⟨rfl, Full.nil mem it⟩
  | node i lt rt ihl ihr =>
    have hwalk : (walk ctx.hash (.node i lt rt) l).map (dataOf s datum) =
        (walk ctx.hash lt l).map (dataOf s datum) ++
          ((bucket ctx.hash l i.key).map (dataOf s datum) ++
            (walk ctx.hash rt l).map (dataOf s datum)) := by
      simp [walk]
    rw [hwalk] at hnd ⊢
    rw [atRoot]
    -- the left subtree, the chain of the node, and the right subtree
    have hleft := (ihl it (hnd.sublist
      ((List.Sublist.refl _).append (List.sublist_append_left _ _)))).imp_left And.right
    have hnd' := nodup_of_outcome hleft hnd
    have hndroot := hnd'.sublist ((List.Sublist.refl _).append (List.sublist_append_left _ _))
    by_cases hroot : (nodeEnqueue ctx.hash s datum mem l i
        (visit .ok (nodeEnqueue ctx.hash s datum mem l) lt it)).1 = .ok
    · have hchain := (enqueueAll_done hroot (List.nodup_append.1 hndroot).1).1
      have hright := (ihr _ (nodup_of_outcome (.inl hchain) hnd')).imp_left And.right
      rw [visit_node_done hroot]
      rcases hleft with hleft | hleft
      · rcases hright with hright | hright
        · exact .inl ⟨hroot, hleft.append (hchain.append hright)⟩
        · exact .inr (hleft.append_lost (hchain.append_lost hright))
      · rw [← List.append_assoc]
        exact .inr ((hleft.append (.inl hchain)).append hright)
    · have hchain := enqueueAll_lost hroot hndroot
      rw [visit_node_fail hroot, ← List.append_assoc]
      refine .inr (Lost.extend ?_ _)
      rcases hleft with hleft | hleft
      · exact hleft.append_lost hchain
      · exact hleft.append (.inr hchain)

variable [Fintype E] [Fintype P]

theorem Stored.iterInit_eq (h : Stored ctx s g l) (datum : E → HashEntry E K V → X)
    (mem : Nat → Bool) :
    hashMapIterInitImpl s datum mem =
      .ok (if l = [] then .err .EINVAL
          else atRoot .ok (nodeEnqueue ctx.hash s datum mem l) g ⟨[], 0⟩,
        visit .ok (nodeEnqueue ctx.hash s datum mem l) g ⟨[], 0⟩) := by
  have hroot : s.bucketTree.root () = top g := h.tree.tree.root
  have hcb : ∀ i ∈ inorder g, ∀ it : Iter X, hashMapIterCommonInternal s datum mem i.data it =
      .ok (nodeEnqueue ctx.hash s datum mem l i it) := by
    intro i hi it
    rw [hashMapIterCommonInternal, h.heads i hi]
    exact iterChain_eq (h.chains i.key) (h.toLinked.bucket_length_le i.key) it
  rw [hashMapIterInitImpl, hroot, traverse_visit hcb h.tree.tree.shape
    (h.tree.tree.length_le h.tree.ordered)]
  simp only [h.nil_iff]

theorem Stored.iterInit (h : Stored ctx s g l) (datum : E → HashEntry E K V → X)
    (hnd : (l.map (dataOf s datum)).Nodup) (mem : Nat → Bool) :
    ∃ ret it, hashMapIterInitImpl s datum mem = .ok (ret, it) ∧
        (ret = (if l = [] then .err .EINVAL else .ok) ∧
            Full mem ⟨[], 0⟩ ((walk ctx.hash g l).map (dataOf s datum)) it ∨
          Lost mem ⟨[], 0⟩ ((walk ctx.hash g l).map (dataOf s datum)) it) := by
  have hnd' : (([] : List X) ++ (walk ctx.hash g l).map (dataOf s datum)).Nodup :=
    (h.walk_perm.map _).nodup_iff.2 hnd
  refine ⟨_, _, h.iterInit_eq datum mem, ?_⟩
  rcases visit_outcome g ⟨[], 0⟩ hnd' with ⟨hroot, hfull⟩ | hlost
  · exact .inl ⟨by rw [hroot], hfull⟩
  · exact .inr hlost

end Walk

end HashMap
end Ds
end XytherOS
