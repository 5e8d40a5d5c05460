import Mathlib.Data.List.Find
import XytherOS.Ds.DataQueue

/-!
# DataQueueRefine — data queues are lists

The purpose of a data queue is to be a list of data.  `listCall` says what each call does to the
list; an entry of the list is the node that carries a datum, and the datum.  `Holds s l` relates the
memory to the list: the nodes of `l` are one null-terminated chain, they carry the data of `l`, and
they are exactly the nodes in use.
-/

namespace XytherOS
namespace Ds
namespace DataQueue

open Function Links

variable {N D : Type}

/-! ## The abstract queue -/

section Lists

variable [DecidableEq N] [DecidableEq D]

def listPut (l : List (N × D)) (e : N × D) : Whence → List (N × D)
  | .head => e :: l
  | .tail => l ++ [e]

def listReplace (data0 data1 : D) : List (N × D) → List (N × D)
  | [] => []
  | e :: l => if e.2 = data0 then (e.1, data1) :: l else e :: listReplace data0 data1 l

def listEnqueue (l : List (N × D)) (data : D) (u : Uniqueness) (w : Whence) (place : Option N) :
    Reply N D × List (N × D) :=
  if u = .unique ∧ data ∈ l.map Prod.snd then (.code (.err .EEXIST), l)
  else
    match place.filter fun p => decide (p ∉ l.map Prod.fst) with
    | none => (.code (.err .ENOMEM), l)
    | some p => (⟨.ok, none, some p⟩, listPut l (p, data) w)

def listRemove (l : List (N × D)) (test : N × D → Bool) : Reply N D × List (N × D) :=
  match l.find? test with
  | none => (.code (.err .ENOENT), l)
  | some _ => (.code .ok, l.eraseP test)

def listRelocate (l : List (N × D)) (test : N × D → Bool) (w : Whence) :
    Reply N D × List (N × D) :=
  match l.find? test with
  | none => (.code (.err .ENOENT), l)
  | some e => (.code .ok, listPut (l.eraseP test) e w)

def listCall (l : List (N × D)) : DCall N D → Reply N D × List (N × D)
  | .enqueue data u place => listEnqueue l data u .tail place
  | .enqueueHead data u place => listEnqueue l data u .head place
  | .dequeue =>
    match l.head? with
    | none => (.code (.err .ENOENT), l)
    | some e => (⟨.ok, some e.2, none⟩, l.tail)
  | .dequeueTail =>
    match l.getLast? with
    | none => (.code (.err .ENOENT), l)
    | some e => (⟨.ok, some e.2, none⟩, l.dropLast)
  | .remove data => listRemove l fun e => decide (e.2 = data)
  | .removeNode node => listRemove l fun e => decide (e.1 = node)
  | .rellocate data w => listRelocate l (fun e => decide (e.2 = data)) w
  | .rellocateNode node w => listRelocate l (fun e => decide (e.1 = node)) w
  | .replace data0 data1 =>
    if data0 = data1 then (.code (.err .EINVAL), l)
    else if data0 ∈ l.map Prod.snd then (.code .ok, listReplace data0 data1 l)
    else (.code (.err .ENOENT), l)
  | .flush => (.code .ok, [])

def listRun (l : List (N × D)) : List (DCall N D) → List (Reply N D) × List (N × D)
  | [] => ([], l)
  | c :: cs =>
    ((listCall l c).1 :: (listRun (listCall l c).2 cs).1, (listRun (listCall l c).2 cs).2)

/-- Only `queue_rellocate_node` asks something of its caller: the node is a member. -/
def Allowed (l : List (N × D)) : DCall N D → Prop
  | .rellocateNode node _ => node ∈ l.map Prod.fst
  | _ => True

def AllowedRun (l : List (N × D)) : List (DCall N D) → Prop
  | [] => True
  | c :: cs => Allowed l c ∧ AllowedRun (listCall l c).2 cs

instance (l : List (N × D)) : (c : DCall N D) → Decidable (Allowed l c)
  | .rellocateNode node _ => inferInstanceAs (Decidable (node ∈ l.map Prod.fst))
  | .enqueue _ _ _ => isTrue trivial
  | .enqueueHead _ _ _ => isTrue trivial
  | .dequeue => isTrue trivial
  | .dequeueTail => isTrue trivial
  | .remove _ => isTrue trivial
  | .removeNode _ => isTrue trivial
  | .rellocate _ _ => isTrue trivial
  | .replace _ _ => isTrue trivial
  | .flush => isTrue trivial

instance decidableAllowedRun :
    (l : List (N × D)) → (cs : List (DCall N D)) → Decidable (AllowedRun l cs)
  | _, [] => isTrue trivial
  | l, c :: cs =>
    have := decidableAllowedRun (listCall l c).2 cs
    inferInstanceAs (Decidable (Allowed l c ∧ AllowedRun (listCall l c).2 cs))

theorem listReplace_append {data0 data1 : D} {l₁ l₂ : List (N × D)} {e : N × D}
    (h₁ : ∀ a ∈ l₁, a.2 ≠ data0) (he : e.2 = data0) :
    listReplace data0 data1 (l₁ ++ e :: l₂) = l₁ ++ (e.1, data1) :: l₂ := by
  induction l₁ with
  | nil => simp [listReplace, he]
  | cons a l₁ ih =>
    have ha : a.2 ≠ data0 := h₁ a (by simp)
    have hrest := ih fun b hb => h₁ b (List.mem_cons_of_mem _ hb)
    simp [listReplace, ha, hrest]

end Lists

/-- The nodes of `l` are the chain of the queue, they are in use, and they carry the data of `l`. -/
structure Linked (s : DQueue N D) (l : List (N × D)) : Prop where
  chain : Chain (nexts s.node) (prevs s.node) none (l.map Prod.fst) none
  head : s.head = (l.map Prod.fst).head?
  tail : s.tail = (l.map Prod.fst).getLast?
  data : ∀ e ∈ l, (s.node e.1).data = e.2
  live : ∀ e ∈ l, s.live e.1 = true

/-- The queue holds the list: its count is right, and no other node is in use. -/
structure Holds (s : DQueue N D) (l : List (N × D)) : Prop where
  linked : Linked s l
  count : s.qCount = l.length
  used : ∀ p, s.live p = true → p ∈ l.map Prod.fst

theorem holds_init (memory : N → DataNode N D) : Holds (queueInit memory) [] where
  linked := ⟨trivial, rfl, rfl, by simp, by simp⟩
  count := rfl
  used p hp := by simp [queueInit] at hp

variable {l l₁ l₂ : List (N × D)} {e : N × D}

theorem Holds.live_iff {s : DQueue N D} (h : Holds s l) (p : N) :
    s.live p = true ↔ p ∈ l.map Prod.fst := by
  refine ⟨h.used p, ?_⟩
  intro hp
  rcases List.mem_map.1 hp with ⟨e, he, rfl⟩
  exact h.linked.live e he

theorem Linked.nodup {s : DQueue N D} (h : Linked s l) :
    (l.map Prod.fst).Nodup :=
  h.chain.nodup

theorem Linked.length_le [Fintype N] {s : DQueue N D} (h : Linked s l) :
    (l.map Prod.fst).length ≤ Fintype.card N :=
  h.nodup.length_le_card

theorem Linked.reach {s : DQueue N D} (h : Linked s l) {p : Option N}
    (hp : ∀ q, p = some q → q ∈ l.map Prod.fst) : s.reach p = .ok () := by
  cases p with
  | none => rfl
  | some q =>
    rcases List.mem_map.1 (hp q rfl) with ⟨e, he, rfl⟩
    simp [DQueue.reach, h.live e he]

theorem Linked.mid {s : DQueue N D}
    (h : Linked s (l₁ ++ e :: l₂)) :
    (s.node e.1).prev = (l₁.map Prod.fst).getLast? ∧
      (s.node e.1).next = (l₂.map Prod.fst).head? := by
  have hchain := h.chain
  rw [List.map_append, List.map_cons] at hchain
  have hmid := hchain.mid
  simp only [Option.or_none] at hmid
  exact hmid

theorem Linked.search [Fintype N] {s : DQueue N D} (h : Linked s l)
    (test : N → Bool) (test' : N × D → Bool) (htest : ∀ e ∈ l, test e.1 = test' e) :
    s.search test = .ok ((l.find? test').map Prod.fst) := by
  rcases scan_chain_find (fun p => !s.live p || test p) none h.chain h.length_le with
    ⟨last, hscan⟩
  have hfind : (l.map Prod.fst).find? (fun p => !s.live p || test p) =
      (l.find? test').map Prod.fst := by
    rw [List.find?_map]
    exact congrArg _ (List.find?_congr fun e he => by simp [h.live e he, htest e he])
  rw [hfind] at hscan
  rw [DQueue.search, h.head, hscan]
  cases hf : l.find? test' with
  | none => rfl
  | some e => simp [h.live e (List.mem_of_find?_eq_some hf)]

variable [DecidableEq N]

/-! ## Specifications of the link edits -/

theorem Linked.congr {s s' : DQueue N D} (h : Linked s l)
    (hhead : s'.head = s.head) (htail : s'.tail = s.tail)
    (hnode : ∀ e ∈ l, s'.node e.1 = s.node e.1) (hlive : ∀ e ∈ l, s'.live e.1 = s.live e.1) :
    Linked s' l := by
  refine ⟨h.chain.congr ?_, hhead.trans h.head, htail.trans h.tail, ?_, ?_⟩
  · intro p hp
    rcases List.mem_map.1 hp with ⟨e, he, rfl⟩
    simp [nexts, prevs, hnode e he]
  · intro e he
    rw [hnode e he, h.data e he]
  · intro e he
    rw [hlive e he, h.live e he]

theorem storeNext_data (m : N → DataNode N D) (p v : Option N) (q : N) :
    (storeNext m p v q).data = (m q).data :=
  storeNext_field DataNode.data (fun _ _ => rfl) m p v q

theorem storePrev_data (m : N → DataNode N D) (p v : Option N) (q : N) :
    (storePrev m p v q).data = (m q).data :=
  storePrev_field DataNode.data (fun _ _ => rfl) m p v q

theorem Linked.unlink {s : DQueue N D}
    (h : Linked s (l₁ ++ e :: l₂)) :
    ∃ s', s.unlink e.1 = .ok s' ∧ Linked s' (l₁ ++ l₂) ∧ s'.live = s.live ∧
      s'.qCount = s.qCount ∧ ∀ p, (s'.node p).data = (s.node p).data := by
  rcases h.mid with ⟨hprev, hnext⟩
  have hnd := h.nodup
  have hchain := h.chain
  have hhead := h.head
  have htail := h.tail
  rw [List.map_append, List.map_cons] at hnd hchain hhead htail
  -- The three nodes that are touched belong to the queue.
  have hself : s.reach (some e.1) = .ok () := h.reach fun q hq => by simp_all
  have hbefore : s.reach (l₁.map Prod.fst).getLast? = .ok () := by
    refine h.reach ?_
    intro q hq
    rw [List.map_append]
    exact List.mem_append_left _ (List.mem_of_getLast? hq)
  have hafter : s.reach (l₂.map Prod.fst).head? = .ok () := by
    refine h.reach ?_
    intro q hq
    rw [List.map_append, List.map_cons]
    exact List.mem_append_right _ (List.mem_cons_of_mem _ (List.mem_of_head? hq))
  refine ⟨_, by simp only [DQueue.unlink, hself, hprev, hnext, hbefore, hafter, ok_bind]; rfl,
    ⟨?_, ?_, ?_, ?_, ?_⟩, ?_, ?_, ?_⟩
  · rw [List.map_append]
    refine hchain.remove ?_ ?_
    · intro y _
      simp
    · intro y _
      simp
  · rw [List.map_append]
    simpa [hhead] using head?_unlink hnd
  · rw [List.map_append]
    simpa [htail] using getLast?_unlink hnd
  · intro a ha
    have hmem : a ∈ l₁ ++ e :: l₂ := by
      rcases List.mem_append.1 ha with ha | ha <;> simp [ha]
    simp only [storePrev_data, storeNext_data]
    exact h.data a hmem
  · intro a ha
    refine h.live a ?_
    rcases List.mem_append.1 ha with ha | ha <;> simp [ha]
  · rfl
  · rfl
  · intro p
    simp only [storePrev_data, storeNext_data]

theorem Linked.link {s : DQueue N D} (h : Linked s l) {p : N}
    (hp : p ∉ l.map Prod.fst) (hprev : (s.node p).prev = none) (hnext : (s.node p).next = none)
    (hlive : s.live p = true) (w : Whence) :
    ∃ s', s.link p w = .ok s' ∧ Linked s' (listPut l (p, (s.node p).data) w) ∧
      s'.live = s.live ∧ s'.qCount = s.qCount := by
  have hn : setLink (nexts s.node) (some p) none = nexts s.node :=
    setLink_self fun q hq => Option.some.inj hq ▸ hnext
  have hb : setLink (prevs s.node) (some p) none = prevs s.node :=
    setLink_self fun q hq => Option.some.inj hq ▸ hprev
  have hputlive : ∀ e ∈ listPut l (p, (s.node p).data) w, s.live e.1 = true := by
    intro e he
    have he' : e = (p, (s.node p).data) ∨ e ∈ l := by
      cases w <;> simpa [listPut, or_comm] using he
    rcases he' with rfl | he'
    · exact hlive
    · exact h.live e he'
  have hputdata : ∀ e ∈ listPut l (p, (s.node p).data) w, (s.node e.1).data = e.2 := by
    intro e he
    have he' : e = (p, (s.node p).data) ∨ e ∈ l := by
      cases w <;> simpa [listPut, or_comm] using he
    rcases he' with rfl | he'
    · rfl
    · exact h.data e he'
  cases w with
  | tail =>
    have hchain : Chain (nexts s.node) (prevs s.node) none (l.map Prod.fst ++ []) none := by
      simpa using h.chain
    rcases List.eq_nil_or_concat l with rfl | ⟨ys, y, rfl⟩
    · -- The first node becomes both ends.
      have hhead : s.head = none := h.head
      refine ⟨_, by simp only [DQueue.link, hhead]; rfl, ⟨?_, ?_, ?_, ?_, ?_⟩, ?_, ?_⟩
      · refine hchain.insert (by simp) ?_ ?_
        · simpa using hn.symm
        · simpa using hb.symm
      · simp [listPut]
      · simp [listPut]
      · exact hputdata
      · exact hputlive
      · rfl
      · rfl
    · simp only [List.concat_eq_append] at *
      have hhead : ∃ z, s.head = some z := by
        rw [h.head]
        cases ys with
        | nil => exact ⟨y.1, by simp⟩
        | cons z zs => exact ⟨z.1, by simp⟩
      rcases hhead with ⟨z, hz⟩
      have htail : s.tail = some y.1 := by simp [h.tail]
      have hlast : s.reach (some y.1) = .ok () := h.reach fun q hq => by simp_all
      have hyp : some p ≠ some y.1 := by
        intro hyp
        exact hp (by simp [Option.some.inj hyp])
      refine ⟨_, by simp only [DQueue.link, hz, htail, hlast, ok_bind]; rfl,
        ⟨?_, ?_, ?_, ?_, ?_⟩, ?_, ?_⟩
      · rw [listPut, List.map_append]
        refine hchain.insert (by simpa using hp) ?_ ?_
        · simp [hn]
        · simp
      · simp only [listPut, ← hz, h.head]
        simp [List.head?_append]
      · simp [listPut]
      · intro e he
        simp only [storePrev_data, storeNext_data]
        exact hputdata e he
      · exact hputlive
      · rfl
      · rfl
  | head =>
    have hchain : Chain (nexts s.node) (prevs s.node) none ([] ++ l.map Prod.fst) none := by
      simpa using h.chain
    cases l with
    | nil =>
      have hhead : s.head = none := h.head
      refine ⟨_, by simp only [DQueue.link, hhead]; rfl, ⟨?_, ?_, ?_, ?_, ?_⟩, ?_, ?_⟩
      · refine hchain.insert (by simp) ?_ ?_
        · simpa using hn.symm
        · simpa using hb.symm
      · simp [listPut]
      · simp [listPut]
      · exact hputdata
      · exact hputlive
      · rfl
      · rfl
    | cons y ys =>
      have hhead : s.head = some y.1 := h.head
      have hfirst : s.reach (some y.1) = .ok () := h.reach fun q hq => by simp_all
      refine ⟨_, by simp only [DQueue.link, hhead, hfirst, ok_bind]; rfl,
        ⟨?_, ?_, ?_, ?_, ?_⟩, ?_, ?_⟩
      · refine hchain.insert (by simpa using hp) ?_ ?_
        · simp
        · simp [hb]
      · simp [listPut]
      · simp [listPut, h.tail]
      · intro e he
        simp only [storePrev_data, storeNext_data]
        exact hputdata e he
      · exact hputlive
      · rfl
      · rfl

/-! ## Each call refines its list operation -/

theorem find?_split {α : Type} {l : List α} {test : α → Bool} {e : α} (h : l.find? test = some e) :
    ∃ l₁ l₂, l = l₁ ++ e :: l₂ ∧ l.eraseP test = l₁ ++ l₂ ∧ test e = true ∧
      ∀ a ∈ l₁, test a = false := by
  rcases List.find?_eq_some_iff_append.1 h with ⟨he, l₁, l₂, rfl, h₁⟩
  have hfail : ∀ a ∈ l₁, test a = false := by
    intro a ha
    simpa using h₁ a ha
  refine ⟨l₁, l₂, rfl, ?_, he, hfail⟩
  rw [List.eraseP_append_right _ (by simpa using hfail), List.eraseP_cons_of_pos he]

theorem Holds.release {s : DQueue N D}
    (h : Holds s (l₁ ++ e :: l₂)) : ∃ s', s.release e.1 = .ok s' ∧ Holds s' (l₁ ++ l₂) := by
  rcases h.linked.unlink with ⟨s', hrun, hlinked, hlive, hcount, -⟩
  have hnd := h.linked.nodup
  rw [List.map_append, List.map_cons] at hnd
  have hgone := (List.nodup_middle.1 hnd).notMem
  refine ⟨_, by simp only [DQueue.release, hrun, ok_bind]; rfl, ⟨?_, ?_, ?_⟩⟩
  · refine hlinked.congr ?_ ?_ ?_ ?_
    · rfl
    · rfl
    · intro a _
      rfl
    · intro a ha
      have hae : a.1 ≠ e.1 := by
        intro hae
        refine hgone ?_
        rw [← List.map_append]
        exact List.mem_map.2 ⟨a, ha, hae⟩
      simp [hae]
  · simp [hcount, h.count]
  · intro p hp
    by_cases hpe : p = e.1
    · simp [hpe] at hp
    · have hmem := h.used p (by simpa [hpe, hlive] using hp)
      simpa [hpe] using hmem

variable [DecidableEq D] [Fintype N]

theorem Holds.contains {s : DQueue N D} (h : Holds s l) (data : D) :
    queueContains s data =
      .ok ((l.find? fun e => decide (e.2 = data)).map Prod.fst) := by
  refine h.linked.search _ _ ?_
  intro e he
  rw [h.linked.data e he]

theorem enqueueWhence_refines {s : DQueue N D} (h : Holds s l) (data : D)
    (u : Uniqueness) (w : Whence) (place : Option N) :
    ∃ s', enqueueWhence s data u w place = .ok ((listEnqueue l data u w place).1, s') ∧
      Holds s' (listEnqueue l data u w place).2 := by
  have hcontains := h.contains data
  have hfound : (l.find? fun e => decide (e.2 = data)).isSome = true ↔ data ∈ l.map Prod.snd := by
    simp [List.find?_isSome]
  have hkmalloc : s.kmalloc place = place.filter fun p => decide (p ∉ l.map Prod.fst) := by
    cases place with
    | none => rfl
    | some p =>
      by_cases hp : p ∈ l.map Prod.fst
      · simp [DQueue.kmalloc, Option.filter, (h.live_iff p).2 hp, hp]
      · have hfree : s.live p = false := by
          simpa using fun hp' => hp ((h.live_iff p).1 hp')
        simp [DQueue.kmalloc, Option.filter, hfree, hp]
  by_cases hdup : u = .unique ∧ data ∈ l.map Prod.snd
  · -- A present datum is not inserted again.
    have hfind := hfound.2 hdup.2
    refine ⟨s, ?_, ?_⟩
    · simp [enqueueWhence, hdup.1, hcontains, hfind, listEnqueue, hdup]
    · simpa [listEnqueue, hdup] using h
  · have hpass : u = .unique → (l.find? fun e => decide (e.2 = data)).isSome = false := by
      intro hu
      have hno : ¬ data ∈ l.map Prod.snd := fun hd => hdup ⟨hu, hd⟩
      exact Bool.eq_false_iff.2 fun hf => hno (hfound.1 hf)
    have hhead : enqueueWhence s data u w place =
        (match s.kmalloc place with
        | none => .ok (.code (.err .ENOMEM), s)
        | some node => do
            let s := { s with
              node := update s.node node ⟨none, data, none⟩
              live := update s.live node true }
            let s ← s.link node w
            return (⟨.ok, none, some node⟩, { s with qCount := s.qCount + 1 })) := by
      rw [enqueueWhence]
      by_cases hu : u = .unique
      · simp only [hu, if_true, hcontains, ok_bind, Option.isSome_map, hpass hu]
        rfl
      · simp only [hu, if_false]
        rfl
    simp only [listEnqueue, if_neg hdup]
    rw [hhead, hkmalloc]
    cases hplace : place.filter fun p => decide (p ∉ l.map Prod.fst) with
    | none => exact ⟨s, rfl, h⟩
    | some p =>
      have hp : p ∉ l.map Prod.fst := by
        have := (Option.filter_eq_some_iff.1 hplace).2
        simpa using this
      have hne : ∀ e ∈ l, e.1 ≠ p := fun e he hep => hp (List.mem_map.2 ⟨e, he, hep⟩)
      -- The fresh node is filled in before it is linked.
      have hlinked : Linked { s with
          node := update s.node p ⟨none, data, none⟩
          live := update s.live p true } l := by
        refine h.linked.congr rfl rfl ?_ ?_
        · intro e he
          simp [hne e he]
        · intro e he
          simp [hne e he]
      rcases hlinked.link hp (by simp) (by simp) (by simp) w with
        ⟨s', hrun, hput, hlive, hcount⟩
      simp only [update_self] at hput
      refine ⟨_, by simp only [hrun, ok_bind]; rfl, ⟨?_, ?_, ?_⟩⟩
      · exact hput.congr rfl rfl (fun _ _ => rfl) (fun _ _ => rfl)
      · cases w <;> simp [hcount, h.count, listPut]
      · intro q hq
        have hmem : q = p ∨ q ∈ l.map Prod.fst := by
          by_cases hqp : q = p
          · exact .inl hqp
          · exact .inr (h.used q (by simpa [hlive, hqp] using hq))
        rcases hmem with rfl | hmem
        · cases w <;> simp [listPut]
        · cases w <;> simp [listPut] <;> simp at hmem <;> simp [hmem]

theorem removeFirst_refines {s : DQueue N D} (h : Holds s l) (test : N → Bool)
    (test' : N × D → Bool) (htest : ∀ e ∈ l, test e.1 = test' e) :
    ∃ s', removeFirst s test = .ok ((listRemove l test').1, s') ∧
      Holds s' (listRemove l test').2 := by
  have hsearch := h.linked.search test test' htest
  cases hf : l.find? test' with
  | none =>
    refine ⟨s, ?_, ?_⟩
    · simp [removeFirst, hsearch, hf, listRemove]
    · simpa [listRemove, hf] using h
  | some e =>
    rcases find?_split hf with ⟨l₁, l₂, hl, herase, -, -⟩
    rcases Holds.release (hl ▸ h) with ⟨s', hrun, hholds⟩
    refine ⟨s', ?_, ?_⟩
    · simp [removeFirst, hsearch, hf, hrun, listRemove]
    · simpa [listRemove, hf, herase] using hholds

theorem Holds.rellocateNode {s : DQueue N D}
    (h : Holds s (l₁ ++ e :: l₂)) (w : Whence) :
    ∃ s', queueRellocateNode s e.1 w = .ok (.code .ok, s') ∧
      Holds s' (listPut (l₁ ++ l₂) e w) := by
  rcases h.linked.unlink with ⟨s₁, hrun, hlinked, hlive, hcount, hdata⟩
  have hnd := h.linked.nodup
  rw [List.map_append, List.map_cons] at hnd
  have hgone : e.1 ∉ (l₁ ++ l₂).map Prod.fst := by
    rw [List.map_append]
    exact (List.nodup_middle.1 hnd).notMem
  have hne : ∀ a ∈ l₁ ++ l₂, some e.1 ≠ some a.1 := by
    intro a ha hea
    exact hgone (List.mem_map.2 ⟨a, ha, (Option.some.inj hea).symm⟩)
  -- Its links are cleared in between.
  have hcleared : Linked { s₁ with
      node := storePrev (storeNext s₁.node (some e.1) none) (some e.1) none } (l₁ ++ l₂) := by
    refine hlinked.congr rfl rfl ?_ ?_
    · intro a ha
      simp only
      rw [storePrev_of_ne _ (hne a ha), storeNext_of_ne _ (hne a ha)]
    · intro a _
      rfl
  have hlive1 : s₁.live e.1 = true := by
    rw [hlive]
    exact h.linked.live e (by simp)
  have hedata : (s₁.node e.1).data = e.2 := by
    rw [hdata]
    exact h.linked.data e (by simp)
  rcases hcleared.link hgone (by simp [storePrev, LinkNode.setPrev])
    (by simp [storePrev, storeNext, LinkNode.setPrev, LinkNode.setNext]) hlive1 w with
    ⟨s', hlink, hput, hlive', hcount'⟩
  simp only [storePrev_data, storeNext_data, hedata] at hput
  refine ⟨s', by simp only [queueRellocateNode, hrun, hlink, ok_bind]; rfl, hput, ?_, ?_⟩
  · have hlen : (listPut (l₁ ++ l₂) e w).length = (l₁ ++ e :: l₂).length := by
      cases w <;> simp [listPut, Nat.add_assoc]
    rw [hlen, hcount', ← h.count]
    exact hcount
  · intro p hp
    have hmem := h.used p (by simpa [hlive', hlive] using hp)
    have hmem' : p ∈ (l₁.map Prod.fst) ∨ p = e.1 ∨ p ∈ l₂.map Prod.fst := by
      simpa only [List.map_append, List.map_cons, List.mem_append, List.mem_cons] using hmem
    cases w with
    | head =>
      simp only [listPut, List.map_append, List.map_cons, List.mem_append, List.mem_cons]
      tauto
    | tail =>
      simp only [listPut, List.map_append, List.map_cons, List.map_nil, List.mem_append,
        List.mem_singleton]
      tauto

theorem replace_refines {s : DQueue N D} (h : Holds s l) (data0 data1 : D) :
    ∃ s', call s (.replace data0 data1) = .ok ((listCall l (.replace data0 data1)).1, s') ∧
      Holds s' (listCall l (.replace data0 data1)).2 := by
  have hsearch := h.contains data0
  by_cases hsame : data0 = data1
  · refine ⟨s, ?_, ?_⟩
    · simp [call, queueReplace, listCall, hsame]
    · simpa [listCall, hsame] using h
  · cases hf : l.find? fun e => decide (e.2 = data0) with
    | none =>
      have hno : data0 ∉ l.map Prod.snd := by
        intro hmem
        rcases List.mem_map.1 hmem with ⟨a, ha, hdata⟩
        exact absurd (List.find?_eq_none.1 hf a ha) (by simp [hdata])
      rw [queueContains, hf] at hsearch
      refine ⟨s, ?_, ?_⟩
      · simp [call, queueReplace, hsame, hsearch, listCall, hno]
      · simpa only [listCall, if_neg hsame, if_neg hno] using h
    | some e =>
      rcases find?_split hf with ⟨l₁, l₂, hl, -, he, h₁⟩
      have he' : e.2 = data0 := by simpa using he
      have hmem : data0 ∈ l.map Prod.snd :=
        List.mem_map.2 ⟨e, List.mem_of_find?_eq_some hf, he'⟩
      have hrep : listReplace data0 data1 l = l₁ ++ (e.1, data1) :: l₂ := by
        rw [hl]
        exact listReplace_append (fun a ha => by simpa using h₁ a ha) he'
      have hfst : (l₁ ++ (e.1, data1) :: l₂).map Prod.fst = l.map Prod.fst := by simp [hl]
      rw [queueContains, hf] at hsearch
      refine ⟨_, by
        simp only [call, queueReplace, if_neg hsame, hsearch, ok_bind, Option.map_some,
          listCall, if_pos hmem]
        rfl, ?_⟩
      simp only [listCall, if_neg hsame, if_pos hmem, hrep]
      have hnd := h.linked.nodup
      rw [hl, List.map_append, List.map_cons] at hnd
      have hgone := (List.nodup_middle.1 hnd).notMem
      refine ⟨⟨?_, ?_, ?_, ?_, ?_⟩, ?_, ?_⟩
      · -- Only the datum of the node changes, not its links.
        rw [hfst]
        refine h.linked.chain.congr ?_
        intro p _
        by_cases hp : p = e.1 <;> simp [nexts, prevs, LinkNode.next, LinkNode.prev, hp]
      · rw [hfst]
        exact h.linked.head
      · rw [hfst]
        exact h.linked.tail
      · intro a ha
        rcases List.mem_append.1 ha with ha | ha
        · have hae : a.1 ≠ e.1 := fun hae =>
            hgone (List.mem_append_left _ (List.mem_map.2 ⟨a, ha, hae⟩))
          simpa [hae] using h.linked.data a (by simp [hl, ha])
        · rcases List.mem_cons.1 ha with rfl | ha
          · simp
          · have hae : a.1 ≠ e.1 := fun hae =>
              hgone (List.mem_append_right _ (List.mem_map.2 ⟨a, ha, hae⟩))
            simpa [hae] using h.linked.data a (by simp [hl, ha])
      · intro a ha
        have hfsta : a.1 ∈ l.map Prod.fst := by
          rw [← hfst]
          exact List.mem_map_of_mem ha
        exact (h.live_iff a.1).2 hfsta
      · simp [h.count, hl]
      · intro p hp
        rw [hfst]
        exact h.used p hp

theorem flushLoop_spec :
    ∀ {s : DQueue N D} {n : Nat}, Holds s l → l.length ≤ n →
      ∃ s', flushLoop n s (l.map Prod.fst).head? = .ok s' ∧ Holds s' [] := by
  induction l with
  | nil =>
    intro s n h _
    refine ⟨s, ?_, h⟩
    cases n <;> rfl
  | cons e l ih =>
    intro s n h hn
    cases n with
    | zero => simp at hn
    | succ n =>
      have he : Holds s ([] ++ e :: l) := h
      have hreach : s.reach (some e.1) = .ok () :=
        h.linked.reach fun q hq => by simp_all
      rcases he.release with ⟨s₁, hrelease, hrest⟩
      have hnext : (s.node e.1).next = (l.map Prod.fst).head? := he.linked.mid.2
      rcases ih (s := s₁) hrest (by simpa using hn) with ⟨s', hloop, hempty⟩
      refine ⟨s', ?_, hempty⟩
      rw [List.map_cons, List.head?_cons, flushLoop, hreach, ok_bind, hrelease, ok_bind, hnext,
        hloop]

theorem call_refines {s : DQueue N D} (h : Holds s l) (c : DCall N D)
    (hc : Allowed l c) :
    ∃ s', call s c = .ok ((listCall l c).1, s') ∧ Holds s' (listCall l c).2 := by
  cases c with
  | enqueue data u place => exact enqueueWhence_refines h data u .tail place
  | enqueueHead data u place => exact enqueueWhence_refines h data u .head place
  | dequeue =>
    have hhead := h.linked.head
    cases l with
    | nil =>
      have hnone : s.head = none := hhead
      exact ⟨s, by simp [call, dequeue, dequeueWhence, hnone, listCall], h⟩
    | cons e l =>
      have hsome : s.head = some e.1 := hhead
      have he : Holds s ([] ++ e :: l) := h
      rcases he.release with ⟨s', hrun, hrest⟩
      have hdata := h.linked.data e (by simp)
      exact ⟨s', by simp [call, dequeue, dequeueWhence, hsome, hrun, hdata, listCall], hrest⟩
  | dequeueTail =>
    have htail := h.linked.tail
    rcases List.eq_nil_or_concat l with rfl | ⟨ys, e, rfl⟩
    · have hnone : s.tail = none := htail
      exact ⟨s, by simp [call, dequeueTail, dequeueWhence, hnone, listCall], h⟩
    · rw [List.concat_eq_append] at h htail ⊢
      have hsome : s.tail = some e.1 := by simpa using htail
      rcases h.release with ⟨s', hrun, hrest⟩
      have hdata := h.linked.data e (by simp)
      refine ⟨s', ?_, ?_⟩
      · simp [call, dequeueTail, dequeueWhence, hsome, hrun, hdata, listCall]
      · simpa [listCall] using hrest
  | remove data =>
    refine removeFirst_refines h _ _ ?_
    intro e he
    rw [h.linked.data e he]
  | removeNode node =>
    refine removeFirst_refines h _ _ ?_
    intro e _
    rfl
  | rellocate data w =>
    have hcontains := h.contains data
    cases hf : l.find? fun e => decide (e.2 = data) with
    | none =>
      refine ⟨s, ?_, ?_⟩
      · simp [call, queueRellocate, hcontains, hf, listCall, listRelocate]
      · simpa [listCall, listRelocate, hf] using h
    | some e =>
      rcases find?_split hf with ⟨l₁, l₂, hl, herase, -, -⟩
      rcases Holds.rellocateNode (hl ▸ h) w with ⟨s', hrun, hholds⟩
      refine ⟨s', ?_, ?_⟩
      · simp [call, queueRellocate, hcontains, hf, hrun, listCall, listRelocate]
      · simpa [listCall, listRelocate, hf, herase] using hholds
  | rellocateNode node w =>
    -- The node is a member, so the list operation finds it.
    cases hf : l.find? fun e => decide (e.1 = node) with
    | none =>
      rcases List.mem_map.1 (show node ∈ l.map Prod.fst from hc) with ⟨e, he, hnode⟩
      exact absurd (List.find?_eq_none.1 hf e he) (by simp [hnode])
    | some e =>
      rcases find?_split hf with ⟨l₁, l₂, hl, herase, he, -⟩
      rcases Holds.rellocateNode (hl ▸ h) w with ⟨s', hrun, hholds⟩
      have hnode : e.1 = node := by simpa using he
      refine ⟨s', ?_, ?_⟩
      · simp [call, ← hnode, hrun, listCall, listRelocate, hnode ▸ hf]
      · simpa [listCall, listRelocate, hf, herase] using hholds
  | replace data0 data1 => exact replace_refines h data0 data1
  | flush =>
    have hlen : l.length ≤ Fintype.card N := by simpa using h.linked.length_le
    rcases flushLoop_spec h hlen with ⟨s', hloop, hempty⟩
    rw [← h.linked.head] at hloop
    refine ⟨_, by simp only [call, queueFlush, hloop, ok_bind]; rfl, ⟨?_, ?_, ?_⟩⟩
    · exact hempty.linked.congr hempty.linked.head.symm hempty.linked.tail.symm
        (fun _ _ => rfl) (fun _ _ => rfl)
    · exact hempty.count
    · exact hempty.used

theorem run_refines {s : DQueue N D} (h : Holds s l) {cs : List (DCall N D)}
    (hcs : AllowedRun l cs) :
    ∃ s', run s cs = .ok ((listRun l cs).1, s') ∧ Holds s' (listRun l cs).2 := by
  induction cs generalizing s l with
  | nil => exact ⟨s, rfl, h⟩
  | cons c cs ih =>
    rcases call_refines h c hcs.1 with ⟨s₁, hcall, h₁⟩
    rcases ih h₁ hcs.2 with ⟨s₂, hrun, h₂⟩
    refine ⟨s₂, ?_, h₂⟩
    simp [run, hcall, hrun, listRun]

def nodeSequence (s : DQueue N D) : List N := collect (nexts s.node) (Fintype.card N) s.head

def dataSequence (s : DQueue N D) : List D := (nodeSequence s).map fun p => (s.node p).data

theorem Holds.nodeSequence_eq {s : DQueue N D} (h : Holds s l) :
    nodeSequence s = l.map Prod.fst := by
  rw [nodeSequence, h.linked.head]
  exact collect_chain h.linked.chain h.linked.length_le

theorem Holds.dataSequence_eq {s : DQueue N D} (h : Holds s l) :
    dataSequence s = l.map Prod.snd := by
  rw [dataSequence, h.nodeSequence_eq, List.map_map]
  exact List.map_congr_left h.linked.data

/-- Whatever is in memory, every allowed sequence of calls on an initialised queue returns the
replies of the list operations.  It leaves a doubly linked list with the right count and the data of
the list, and the nodes in use are the nodes of the queue. -/
theorem data_queue_refines_list (memory : N → DataNode N D) (cs : List (DCall N D))
    (hcs : AllowedRun [] cs) :
    ∃ s, run (queueInit memory) cs = .ok ((listRun [] cs).1, s) ∧
      DoublyLinked (nexts s.node) (prevs s.node) s.head s.tail (nodeSequence s) ∧
      s.qCount = (nodeSequence s).length ∧
      nodeSequence s = (listRun [] cs).2.map Prod.fst ∧
      dataSequence s = (listRun [] cs).2.map Prod.snd ∧
      ∀ p, s.live p = true ↔ p ∈ nodeSequence s := by
  rcases run_refines (holds_init memory) hcs with ⟨s, hrun, h⟩
  have hseq := h.nodeSequence_eq
  refine ⟨s, hrun, ?_, ?_, hseq, h.dataSequence_eq, ?_⟩
  · rw [hseq]
    exact h.linked.chain.doublyLinked h.linked.head h.linked.tail
  · rw [hseq, h.count, List.length_map]
  · intro p
    rw [hseq, h.live_iff]

theorem data_queue_refines_list_moves :
    let cs : List (DCall (Fin 3) Bool) :=
      [.enqueue true .unique (some 0), .enqueue true .unique (some 1),
        .enqueue true .duplicates none, .enqueueHead false .unique (some 2),
        .rellocate true .head, .rellocateNode 2 .head, .replace true false, .remove false,
        .dequeueTail, .flush]
    ∃ s, run (queueInit fun _ => ⟨some 1, true, some 2⟩) cs =
        .ok
          ([⟨.ok, none, some 0⟩, .code (.err .EEXIST), .code (.err .ENOMEM), ⟨.ok, none, some 2⟩,
            .code .ok, .code .ok, .code .ok, .code .ok, ⟨.ok, some false, none⟩, .code .ok], s) ∧
      nodeSequence s = [] := by
  intro cs
  have hcs : AllowedRun [] cs := by decide
  rcases data_queue_refines_list (fun _ => ⟨some 1, true, some 2⟩) cs hcs with
    ⟨s, hrun, _, _, hnodes, _, _⟩
  refine ⟨s, ?_, ?_⟩
  · rw [hrun]
    rfl
  · rw [hnodes]
    rfl

end DataQueue
end Ds
end XytherOS
