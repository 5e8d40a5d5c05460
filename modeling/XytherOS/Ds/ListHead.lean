import Mathlib.Data.BitVec
import XytherOS.Core.Status
import XytherOS.Lib.Loop
import XytherOS.Lib.Rings

/-!
# ListHead — slices and ranges of circular lists

`list_slice` reads `end->prev` after it has overwritten it, so that the slice and what is left of
the list stay linked to each other.  `list_merge` is right.  `list_migrate_range` looks for a position
from the tail with a counter that is turned round once too often, and it answers 0 for an empty list
and an empty range.
-/

namespace XytherOS
namespace Ds
namespace ListHead

open Function Rings

abbrev Ptr := BitVec 64

structure Heads where
  next : Ptr → Ptr
  prev : Ptr → Ptr

namespace Heads

def setNext (s : Heads) (p v : Ptr) : Heads := { s with next := update s.next p v }

def setPrev (s : Heads) (p v : Ptr) : Heads := { s with prev := update s.prev p v }

end Heads

def initListHead (s : Heads) (list : Ptr) : Heads := (s.setPrev list list).setNext list list

def listEmpty (s : Heads) (head : Ptr) : Bool := s.next head == head

def listSlice (slice : Ptr) (s : Heads) (head start stop : Ptr) : Ptr × Heads :=
  let s := initListHead s slice
  if start = stop ∨ listEmpty s head then (slice, s)
  else
    let s := s.setNext (s.prev start) stop
    let s := s.setPrev stop (s.prev start)
    let s := s.setNext slice start
    let s := s.setPrev slice (s.prev stop)
    let s := s.setPrev start slice
    (slice, s.setNext (s.prev stop) slice)

def listMerge (s : Heads) (list1 list2 : Ptr) : Heads :=
  if listEmpty s list2 then s
  else
    let s := s.setNext (s.prev list1) (s.next list2)
    let s := s.setPrev (s.next list2) (s.prev list1)
    let s := s.setNext (s.prev list2) list1
    let s := s.setPrev list1 (s.prev list2)
    initListHead s list2

def listLength (n : Nat) (s : Heads) (head : Ptr) : Option (BitVec 64) :=
  Loop.run (fun (node, length) =>
    if node = head then .inr length else .inl (s.next node, length + 1)) n (s.next head, 0)

inductive ListRelloc
  | head
  | tail
  | other
  deriving DecidableEq

/-- The loops of `list_migrate_range` that look for the first node: `link` is `next` or `prev`, and
`count` is `pos++` or `pos--`. -/
def findStart (link : Ptr → Ptr) (count : BitVec 64 → BitVec 64) (src : Ptr)
    (startPos : BitVec 64) : Ptr × Ptr × BitVec 64 → Ptr × Ptr × BitVec 64 ⊕ Option Ptr :=
  fun (node, ahead, pos) =>
    if node = src then .inr none
    else if pos = startPos then .inr (some node)
    else .inl (ahead, link ahead, count pos)

def findEnd (s : Heads) (src : Ptr) (numNodes : BitVec 64) :
    Ptr × BitVec 64 → Ptr × BitVec 64 ⊕ Ptr :=
  fun (node, i) =>
    if i < numNodes - 1 then
      if s.next node = src then .inr node else .inl (s.next node, i + 1)
    else .inr node

def relink (s : Heads) (dst start stop : Ptr) : Heads :=
  let s := s.setNext (s.prev start) (s.next stop)
  let s := s.setPrev (s.next stop) (s.prev start)
  let s := s.setPrev start (s.prev dst)
  let s := s.setNext stop dst
  let s := s.setNext (s.prev dst) start
  s.setPrev dst stop

def listMigrateRange (n : Nat) (s : Heads) (dst src : Ptr) (startPos numNodes : BitVec 64)
    (whence : ListRelloc) : Option (Ret × Heads) :=
  if listEmpty s src ∨ numNodes = 0 then some (.ok, s)
  else
    let migrate : Option Ptr → Option (Ret × Heads)
      | none => some (.err .EINVAL, s)
      | some start => do
        let stop ← Loop.run (findEnd s src numNodes) n (start, 0)
        return (.ok, relink s dst start stop)
    match whence with
    | .head => do
      let first := s.next src
      migrate (← Loop.run (findStart s.next (· + 1) src startPos) n (first, s.next first, 0))
    | .tail => do
      let listLen ← listLength n s src
      if listLen ≤ startPos then some (.err .EINVAL, s)
      else
        let first := s.prev src
        migrate (← Loop.run (findStart s.prev (· - 1) src startPos) n
          (first, s.prev first, listLen - 1 - startPos))
    | .other => some (.err .EINVAL, s)

structure Lists (s : Heads) (h₁ : Ptr) (l₁ : List Ptr) (h₂ : Ptr) (l₂ : List Ptr) : Prop where
  ring₁ : Ring s.next s.prev h₁ l₁
  ring₂ : Ring s.next s.prev h₂ l₂
  disjoint : (h₁ :: l₁).Disjoint (h₂ :: l₂)

/-- A call on the lists of `h₁` and `h₂`: a slice of `h₁`, for which `h₂` is the static list head,
or the nodes of `h₂`, or a range of them, go to `h₁`. -/
inductive Call
  | slice (start stop : Ptr)
  | merge
  | migrateRange (startPos numNodes : BitVec 64) (whence : ListRelloc)

/-- The place of the node `startPos` places from the head or the tail of `len` nodes. -/
def position (len startPos : Nat) : ListRelloc → Option Nat
  | .head => if startPos < len then some startPos else none
  | .tail => if startPos < len then some (len - 1 - startPos) else none
  | .other => none

def Before (l : List Ptr) (start stop : Ptr) : Prop :=
  ∃ a m b, l = a ++ start :: m ++ stop :: b

/-- What `list_migrate_range` should do when the run begins at the place `k`, or nowhere. -/
def Migrated (s : Heads) (h₁ : Ptr) (l₁ : List Ptr) (h₂ : Ptr) (l₂ : List Ptr) (numNodes : Nat)
    (ret : Ret) (s' : Heads) : Option Nat → Prop
  | some k => ret = .ok ∧ Ring s'.next s'.prev h₁ (l₁ ++ (l₂.drop k).take numNodes) ∧
      Ring s'.next s'.prev h₂ (l₂.take k ++ l₂.drop (k + numNodes))
  | none => ret = .err .EINVAL ∧ s' = s

def Right (s : Heads) (h₁ : Ptr) (l₁ : List Ptr) (h₂ : Ptr) (l₂ : List Ptr) : Call → Prop
  | .slice start stop => ∀ a m b, l₁ = a ++ start :: m ++ stop :: b →
      ∃ slice s', listSlice h₂ s h₁ start stop = (slice, s') ∧
        Ring s'.next s'.prev slice (start :: m) ∧ Ring s'.next s'.prev h₁ (a ++ stop :: b)
  | .merge => ∃ s', listMerge s h₁ h₂ = s' ∧
      Ring s'.next s'.prev h₁ (l₁ ++ l₂) ∧ Ring s'.next s'.prev h₂ []
  | .migrateRange startPos numNodes whence => ∃ ret s',
      Loop.Returns (fun n => listMigrateRange n s h₁ h₂ startPos numNodes whence) (ret, s') ∧
      Migrated s h₁ l₁ h₂ l₂ numNodes.toNat ret s' (position l₂.length startPos.toNat whence)

def Fine (l₁ l₂ : List Ptr) : Call → Prop
  | .slice start stop => ¬ Before l₁ start stop
  | .merge => True
  | .migrateRange startPos numNodes whence =>
      l₂ ≠ [] ∧ (numNodes = 0 → position l₂.length startPos.toNat whence ≠ none) ∧
        (whence = .tail → numNodes ≠ 0 → startPos.toNat < l₂.length →
          BitVec.ofNat 64 l₂.length - 1 - startPos = 2 * startPos)

/-! ## Slices and merges -/

variable {s : Heads} {h₁ h₂ : Ptr} {l₁ l₂ : List Ptr}

variable {l : List Ptr} {h : Ptr} {k : Nat}

theorem listEmpty_iff (hr : Ring s.next s.prev h l) :
    listEmpty s h = true ↔ l = [] := by
  have hjoint := (Ring.joint (a := []) hr).1
  rw [listEmpty, beq_iff_eq]
  cases l with
  | nil => simpa using hjoint
  | cons x l =>
    have hne : h ≠ x := fun heq => (List.nodup_cons.1 hr.nodup).1 (by simp [heq])
    simp only [List.getLastD_nil, List.headD_cons] at hjoint
    simp [hjoint, hne.symm]

theorem slice_wrong (h : Lists s h₁ l₁ h₂ l₂) {start stop : Ptr} (hbefore : Before l₁ start stop) :
    ¬ Right s h₁ l₁ h₂ l₂ (.slice start stop) := by
  intro hright
  rcases hbefore with ⟨a, m, b, rfl⟩
  rcases hright a m b rfl with ⟨slice, s', heq, -, hrest⟩
  have hnd := h.ring₁.nodup
  have hmem : ∀ x ∈ h₁ :: (a ++ start :: m ++ stop :: b), x ≠ h₂ := fun x hx hx2 =>
    h.disjoint hx (by simp [hx2])
  have hlast : a.getLastD h₁ ∈ h₁ :: a := List.getLastD_mem_cons
  have hp := (Ring.joint (a := a) (b := start :: (m ++ stop :: b)) (by simpa using h.ring₁)).2
  rw [List.headD_cons] at hp
  have hjoint := (hrest.joint).1
  rw [List.headD_cons] at hjoint
  have hstart : start ≠ h₂ := hmem _ (by simp)
  have hstop : stop ≠ h₂ := hmem _ (by simp)
  have hhead : h₁ ≠ h₂ := hmem _ (by simp)
  have hlast2 : a.getLastD h₁ ≠ h₂ := hmem _ (by grind)
  have hne : start ≠ stop := by grind
  have hempty : listEmpty (initListHead s h₂) h₁ = false := by
    have hfull : listEmpty s h₁ = false := by
      rw [← Bool.not_eq_true, listEmpty_iff h.ring₁]
      simp
    simpa [listEmpty, initListHead, Heads.setNext, Heads.setPrev, hhead] using hfull
  have hs' : s'.next (a.getLastD h₁) = h₂ := by
    have hsnd : s' = (listSlice h₂ s h₁ start stop).2 := by rw [heq]
    rw [hsnd, listSlice, if_neg (by simp [hne, hempty])]
    simp [initListHead, Heads.setNext, Heads.setPrev, hp, hstart, hstop, hne.symm]
  exact hstop (hjoint.symm.trans hs')

theorem relink_spliced {p n x y q d : Ptr} (hp : s.prev x = p) (hn : s.next y = n)
    (hq : s.prev d = q) (hpq : p ≠ q) (hpy : p ≠ y) (hqy : q ≠ y) (hnx : n ≠ x) (hnd : n ≠ d)
    (hxd : x ≠ d) :
    Spliced s.next s.prev (relink s d x y).next (relink s d x y).prev p n x y q d := by
  subst hp hn hq
  constructor
  all_goals simp only [Adj, relink, Heads.setNext, Heads.setPrev, update_apply]
  all_goals grind

theorem merge_right (h : Lists s h₁ l₁ h₂ l₂) : Right s h₁ l₁ h₂ l₂ .merge := by
  refine ⟨_, rfl, ?_⟩
  cases l₂ with
  | nil =>
    rw [listMerge, if_pos ((listEmpty_iff h.ring₂).2 rfl), List.append_nil]
    exact ⟨h.ring₁, h.ring₂⟩
  | cons x t =>
    rw [listMerge, if_neg (by simp [listEmpty_iff h.ring₂])]
    have hfirst := Ring.joint (a := []) h.ring₂
    have hlast := Ring.joint (b := [])
      (by simpa using h.ring₂ : Ring s.next s.prev h₂ ((x :: t) ++ []))
    have htail := Ring.joint (b := []) (by simpa using h.ring₁ : Ring s.next s.prev h₁ (l₁ ++ []))
    have hq : l₁.getLastD h₁ ∈ h₁ :: l₁ := List.getLastD_mem_cons
    have hy : t.getLastD x ∈ x :: t := List.getLastD_mem_cons
    have hnd := h.ring₂.nodup
    have hdis : ∀ u ∈ h₁ :: l₁, ∀ v ∈ h₂ :: x :: t, u ≠ v := fun u hu v hv heq =>
      h.disjoint hu (heq ▸ hv)
    rw [List.getLastD_cons] at hlast
    simp only [List.getLastD_nil, List.headD_cons, List.headD_nil] at hfirst hlast htail
    refine Ring.splice (a := []) (b := []) (by simpa using h.ring₂) h.ring₁
      (by simpa using h.disjoint) ?_
    have h12 : h₁ ≠ h₂ := hdis _ (by simp) _ (by simp)
    have h1x : h₁ ≠ x := hdis _ (by simp) _ (by simp)
    have hq2 : l₁.getLastD h₁ ≠ h₂ := hdis _ hq _ (by simp)
    have hqx : l₁.getLastD h₁ ≠ x := hdis _ hq _ (by simp)
    have hqy : l₁.getLastD h₁ ≠ t.getLastD x := hdis _ hq _ (List.mem_cons_of_mem _ hy)
    have hxh : x ≠ h₂ := by grind
    have hyh : t.getLastD x ≠ h₂ := by grind
    simp only [List.getLastD_nil, List.headD_nil]
    constructor
    all_goals simp only [Adj, initListHead, Heads.setNext, Heads.setPrev, update_apply]
    all_goals grind

/-! ## Ranges -/

theorem listLength_eq (hr : Ring s.next s.prev h l) :
    Loop.Returns (fun n => listLength n s h) (BitVec.ofNat 64 l.length) := by
  refine Loop.Returns.of_steps (fun i => (s.next^[i + 1] h, BitVec.ofNat 64 i)) l.length ?_ ?_
  · intro i hi
    have hne : l[i] ≠ h := fun heq => (List.nodup_cons.1 hr.nodup).1 (heq ▸ List.getElem_mem hi)
    simp only [hr.iterate hi, hne, if_false, iterate_succ_apply' s.next (i + 1)]
    rw [BitVec.ofNat_add]
    rfl
  · simp only [hr.iterate_length, if_true]

theorem findStart_eq {link back : Ptr → Ptr} (hr : Ring link back h l)
    (count : BitVec 64 → BitVec 64) (pos startPos : BitVec 64) (hk : k ≤ l.length)
    (hother : ∀ j < k, count^[j] pos ≠ startPos)
    (hfound : k < l.length → count^[k] pos = startPos) :
    Loop.Returns (fun n => Loop.run (findStart link count h startPos) n
      (link h, link (link h), pos)) l[k]? := by
  refine Loop.Returns.of_steps (fun i => (link^[i + 1] h, link^[i + 2] h, count^[i] pos)) k ?_ ?_
  · intro i hi
    have hlt : i < l.length := by omega
    have hne : l[i] ≠ h := fun heq => (List.nodup_cons.1 hr.nodup).1 (heq ▸ List.getElem_mem hlt)
    simp only [findStart, hr.iterate hlt, hne, if_false, hother i hi,
      iterate_succ_apply' link (i + 2), iterate_succ_apply' count i]
  · rcases hk.lt_or_eq with hlt | rfl
    · have hne : l[k] ≠ h := fun heq => (List.nodup_cons.1 hr.nodup).1 (heq ▸ List.getElem_mem hlt)
      simp only [findStart, hr.iterate hlt, hne, if_false, hfound hlt, if_true,
        List.getElem?_eq_getElem hlt]
    · simp only [findStart, hr.iterate_length, if_true, List.getElem?_eq_none le_rfl]

theorem findEnd_eq (hr : Ring s.next s.prev h l) (numNodes : BitVec 64)
    {c : Nat} (hc : k + c < l.length) (hnum : c < numNodes.toNat)
    (hstop : c + 1 = numNodes.toNat ∨ k + c + 1 = l.length) :
    Loop.Returns (fun n => Loop.run (findEnd s h numNodes) n (s.next^[k + 1] h, 0))
      (s.next^[k + c + 1] h) := by
  refine Loop.Returns.of_steps (fun i => (s.next^[k + i + 1] h, BitVec.ofNat 64 i)) c ?_ ?_
  · intro i hi
    have hlt : k + (i + 1) < l.length := by omega
    have hne : l[k + (i + 1)] ≠ h := fun heq =>
      (List.nodup_cons.1 hr.nodup).1 (heq ▸ List.getElem_mem hlt)
    have hmore : BitVec.ofNat 64 i < numNodes - 1 := by bv_omega
    have hnext : s.next (s.next^[k + i + 1] h) = s.next^[k + (i + 1) + 1] h :=
      (iterate_succ_apply' s.next (k + i + 1) h).symm
    simp only [findEnd, hmore, if_true, hnext, hr.iterate hlt, hne, if_false]
    rw [BitVec.ofNat_add]
    rfl
  · have hnext : s.next (s.next^[k + c + 1] h) = s.next^[k + c + 1 + 1] h :=
      (iterate_succ_apply' s.next (k + c + 1) h).symm
    by_cases hmore : BitVec.ofNat 64 c < numNodes - 1
    · have hend : k + c + 1 = l.length := by
        rcases hstop with hlast | hend
        · bv_omega
        · exact hend
      have hback : s.next (s.next^[k + c + 1] h) = h := by rw [hnext, hend, hr.iterate_length]
      simp only [findEnd, hmore, if_true, hback]
    · simp only [findEnd, hmore, if_false]

theorem migrate_at (h : Lists s h₁ l₁ h₂ l₂) (hk : k < l₂.length) {numNodes : BitVec 64}
    (hnum : numNodes ≠ 0) : ∃ stop,
      Loop.Returns (fun n => Loop.run (findEnd s h₂ numNodes) n (l₂[k], 0)) stop ∧
      Ring (relink s h₁ l₂[k] stop).next (relink s h₁ l₂[k] stop).prev h₁
        (l₁ ++ (l₂.drop k).take numNodes.toNat) ∧
      Ring (relink s h₁ l₂[k] stop).next (relink s h₁ l₂[k] stop).prev h₂
        (l₂.take k ++ l₂.drop (k + numNodes.toNat)) := by
  obtain ⟨m, hm⟩ : ∃ m, numNodes.toNat = m + 1 := ⟨numNodes.toNat - 1, by bv_omega⟩
  obtain ⟨c, hc⟩ : ∃ c, c = min m (l₂.length - 1 - k) := ⟨_, rfl⟩
  have hlt : k + c < l₂.length := by omega
  have hstop := findEnd_eq h.ring₂ numNodes hlt (by omega) (by omega)
  rw [h.ring₂.iterate hk, h.ring₂.iterate hlt] at hstop
  refine ⟨_, hstop, ?_⟩
  -- the list in three parts
  obtain ⟨a, ha⟩ : ∃ a, a = l₂.take k := ⟨_, rfl⟩
  obtain ⟨t, ht⟩ : ∃ t, t = (l₂.drop (k + 1)).take c := ⟨_, rfl⟩
  obtain ⟨b, hb⟩ : ∃ b, b = l₂.drop (k + 1 + c) := ⟨_, rfl⟩
  have hdrop : t ++ b = l₂.drop (k + 1) := by
    have hlater : b = (l₂.drop (k + 1)).drop c := by rw [hb, List.drop_drop]
    rw [ht, hlater, List.take_append_drop]
  have hsplit : l₂ = a ++ l₂[k] :: t ++ b := by
    rw [ha, List.append_assoc, List.cons_append, hdrop, ← List.drop_eq_getElem_cons hk,
      List.take_append_drop]
  have hrun : (l₂.drop k).take numNodes.toNat = l₂[k] :: t := by
    rw [hm, List.drop_eq_getElem_cons hk, List.take_succ_cons, ht]
    refine congrArg _ (List.take_eq_take_iff.2 ?_)
    rw [List.length_drop]
    omega
  have hrest : l₂.drop (k + numNodes.toNat) = b := by
    rw [hm, hb]
    rcases Nat.lt_or_ge m (l₂.length - 1 - k) with hlt | hge
    · rw [hc, min_eq_left hlt.le]
      congr 1
      omega
    · rw [List.drop_eq_nil_of_le (by omega), List.drop_eq_nil_of_le (by omega)]
  have hlast : t.getLastD l₂[k] = l₂[k + c] := by
    have htake : l₂[k] :: t = (l₂.drop k).take (c + 1) := by
      rw [List.drop_eq_getElem_cons hk, List.take_succ_cons, ht]
    have hlen : (min (c + 1) (l₂.length - k)) - 1 = c := by omega
    rw [← Option.some.injEq, List.getLastD_eq_getLast?, ← List.getLast?_cons, htake,
      List.getLast?_eq_getElem?, List.length_take, List.length_drop, hlen]
    simp [hlt]
  rw [hrun, hrest, ← ha, ← hlast]
  have hring : Ring s.next s.prev h₂ (a ++ l₂[k] :: t ++ b) := hsplit ▸ h.ring₂
  have hdis : ∀ u ∈ h₁ :: l₁, ∀ v ∈ h₂ :: (a ++ l₂[k] :: t ++ b), u ≠ v := fun u hu v hv heq =>
    h.disjoint hu (hsplit ▸ heq ▸ hv)
  have hfirst := (Ring.joint (a := a) (b := l₂[k] :: (t ++ b)) (by simpa using hring)).2
  have hnext := hring.joint.1
  have hend : (a ++ l₂[k] :: t).getLastD h₂ = t.getLastD l₂[k] := by
    simp [List.getLastD_eq_getLast?, List.getLast?_append, List.getLast?_cons]
  have htail := (Ring.joint (b := []) (by simpa using h.ring₁ : Ring s.next s.prev h₁ (l₁ ++ []))).2
  rw [List.headD_cons] at hfirst
  rw [hend] at hnext
  rw [List.headD_nil] at htail
  have hp : a.getLastD h₂ ∈ h₂ :: a := List.getLastD_mem_cons
  have hq : l₁.getLastD h₁ ∈ h₁ :: l₁ := List.getLastD_mem_cons
  have hy : t.getLastD l₂[k] ∈ l₂[k] :: t := List.getLastD_mem_cons
  have hn : b.headD h₂ ∈ b ++ [h₂] := by cases b <;> simp
  have hnd := hring.nodup
  refine hring.splice h.ring₁ (hsplit ▸ h.disjoint)
    (relink_spliced hfirst hnext htail ?_ ?_ ?_ ?_ ?_ ?_)
  · exact (hdis _ hq _ (by grind)).symm
  · grind
  · exact hdis _ hq _ (by grind)
  · grind
  · exact (hdis _ (by simp) _ (by grind)).symm
  · exact (hdis _ (by simp) _ (by grind)).symm

theorem iterate_sub_one (pos : BitVec 64) (j : Nat) :
    (fun x : BitVec 64 => x - 1)^[j] pos = pos - BitVec.ofNat 64 j := by
  induction j with
  | zero => simp
  | succ j ih =>
    rw [iterate_succ_apply', ih, BitVec.ofNat_add]
    exact BitVec.sub_sub _ _ _

theorem iterate_add_one (j : Nat) : (fun x : BitVec 64 => x + 1)^[j] 0 = BitVec.ofNat 64 j := by
  induction j with
  | zero => rfl
  | succ j ih =>
    rw [iterate_succ_apply', ih, BitVec.ofNat_add]
    rfl

theorem length_lt (hr : Ring s.next s.prev h l) : l.length < 2 ^ 64 := by
  have hsub : ((h :: l).map BitVec.toNat).Subperm (List.range (2 ^ 64)) := by
    refine List.subperm_of_subset (hr.nodup.map fun x y hxy => BitVec.eq_of_toNat_eq hxy) ?_
    intro n hn
    rcases List.mem_map.1 hn with ⟨x, -, rfl⟩
    exact List.mem_range.2 x.isLt
  have hle := hsub.length_le
  rw [List.length_map, List.length_range, List.length_cons] at hle
  omega

theorem place_unique (hnd : l.Nodup) {k' n : Nat} (hn : 0 < n) (hk : k < l.length)
    (hlt : k < k') : l.take k ++ l.drop (k + n) ≠ l.take k' ++ l.drop (k' + n) := by
  intro heq
  have hmem : l[k] ∈ l.take k' ++ l.drop (k' + n) :=
    List.mem_append_left _ (List.mem_take_iff_getElem.2 ⟨k, by omega, rfl⟩)
  rw [← heq, List.mem_append, List.mem_take_iff_getElem, List.mem_drop_iff_getElem] at hmem
  rcases hmem with ⟨i, hi, hsame⟩ | ⟨i, hi, hsame⟩
  · have hik := (hnd.getElem_inj_iff).1 hsame
    omega
  · have hik := (hnd.getElem_inj_iff).1 hsame
    omega

section Migrate

variable {startPos numNodes : BitVec 64} {whence : ListRelloc}

theorem right_iff {ret : Ret} {s' : Heads}
    (hret : Loop.Returns (fun n => listMigrateRange n s h₁ h₂ startPos numNodes whence) (ret, s')) :
    Right s h₁ l₁ h₂ l₂ (.migrateRange startPos numNodes whence) ↔
      Migrated s h₁ l₁ h₂ l₂ numNodes.toNat ret s'
        (position l₂.length startPos.toNat whence) := by
  constructor
  · rintro ⟨ret', s'', hret', hlaw⟩
    cases hret.unique hret'
    exact hlaw
  · exact fun hlaw => ⟨ret, s', hret, hlaw⟩

theorem migrate_nothing (h : Lists s h₁ l₁ h₂ l₂) (hnone : l₂ = [] ∨ numNodes = 0) :
    Right s h₁ l₁ h₂ l₂ (.migrateRange startPos numNodes whence) ↔
      Fine l₁ l₂ (.migrateRange startPos numNodes whence) := by
  have hret : ∀ n, listMigrateRange n s h₁ h₂ startPos numNodes whence = some (.ok, s) := by
    intro n
    rw [listMigrateRange, if_pos]
    rwa [listEmpty_iff h.ring₂]
  have hcall : Loop.Returns
      (fun n => listMigrateRange n s h₁ h₂ startPos numNodes whence) (.ok, s) := by
    simpa only [hret] using Loop.returns_some _
  rw [right_iff hcall, Fine]
  by_cases hempty : l₂ = []
  · subst hempty
    cases whence <;> simp [position, Migrated]
  · have hzero := hnone.resolve_left hempty
    subst hzero
    cases hpos : position l₂.length startPos.toNat whence with
    | none => simp [Migrated]
    | some k => simp [Migrated, hempty, h.ring₁, h.ring₂]

theorem migrate_found (h : Lists s h₁ l₁ h₂ l₂) (hnum : numNodes ≠ 0) (o : Option Nat)
    (ho : ∀ k ∈ o, k < l₂.length) {f : Nat → Option (Option Ptr)}
    (hf : Loop.Returns f (o.bind (l₂[·]?))) : ∃ ret s',
      Loop.Returns (fun n => f n >>= fun node => match node with
        | none => some (.err .EINVAL, s)
        | some start => do
          let stop ← Loop.run (findEnd s h₂ numNodes) n (start, 0)
          return (Ret.ok, relink s h₁ start stop)) (ret, s') ∧
      Migrated s h₁ l₁ h₂ l₂ numNodes.toNat ret s' o := by
  cases o with
  | none => exact ⟨_, _, hf.bind (Loop.returns_some _), rfl, rfl⟩
  | some k =>
    have hk := ho k rfl
    rcases migrate_at h hk hnum with ⟨stop, hstop, hring1, hring2⟩
    simp only [Option.bind_some, List.getElem?_eq_getElem hk] at hf
    exact ⟨_, _, hf.bind (hstop.bind (Loop.returns_some _)), rfl, hring1, hring2⟩

theorem head_right (h : Lists s h₁ l₁ h₂ l₂) (hfull : l₂ ≠ []) (hnum : numNodes ≠ 0) :
    Right s h₁ l₁ h₂ l₂ (.migrateRange startPos numNodes .head) := by
  have hlen := length_lt h.ring₂
  have hsearch : Loop.Returns (fun n => Loop.run (findStart s.next (· + 1) h₂ startPos) n
      (s.next h₂, s.next (s.next h₂), 0))
        ((position l₂.length startPos.toNat .head).bind (l₂[·]?)) := by
    by_cases hlt : startPos.toNat < l₂.length
    · simp only [position, if_pos hlt, Option.bind_some]
      refine findStart_eq h.ring₂ _ _ _ hlt.le (fun j hj => ?_) fun _ => ?_
      · rw [iterate_add_one]
        bv_omega
      · rw [iterate_add_one, BitVec.ofNat_toNat, BitVec.setWidth_eq]
    · simp only [position, if_neg hlt, Option.bind_none]
      have hnone := findStart_eq h.ring₂ (· + 1) 0 startPos le_rfl
        (fun j hj => by rw [iterate_add_one]; bv_omega) (fun hlt => absurd hlt (lt_irrefl _))
      rwa [List.getElem?_eq_none le_rfl] at hnone
  have hplace : ∀ k ∈ position l₂.length startPos.toNat .head, k < l₂.length := by
    intro k hk
    simp only [position, Option.mem_def, Option.ite_none_right_eq_some, Option.some.injEq] at hk
    omega
  have hwork : ¬ (listEmpty s h₂ = true ∨ numNodes = 0) := by
    rw [listEmpty_iff h.ring₂]
    exact not_or.2 ⟨hfull, hnum⟩
  rcases migrate_found h hnum _ hplace hsearch with ⟨ret, s', hret, hlaw⟩
  refine ⟨ret, s', ?_, hlaw⟩
  simp only [listMigrateRange, if_neg hwork]
  exact hret

theorem tail_right_iff (h : Lists s h₁ l₁ h₂ l₂) (hfull : l₂ ≠ []) (hnum : numNodes ≠ 0) :
    Right s h₁ l₁ h₂ l₂ (.migrateRange startPos numNodes .tail) ↔
      (startPos.toNat < l₂.length →
        BitVec.ofNat 64 l₂.length - 1 - startPos = 2 * startPos) := by
  have hlen := length_lt h.ring₂
  have hword : (BitVec.ofNat 64 l₂.length).toNat = l₂.length := by
    rw [BitVec.toNat_ofNat, Nat.mod_eq_of_lt hlen]
  have hwork : ¬ (listEmpty s h₂ = true ∨ numNodes = 0) := by
    rw [listEmpty_iff h.ring₂]
    exact not_or.2 ⟨hfull, hnum⟩
  by_cases hlt : startPos.toNat < l₂.length
  swap
  · -- refused, as it should be
    have hle : BitVec.ofNat 64 l₂.length ≤ startPos := by
      rw [BitVec.le_def, hword]
      omega
    refine iff_of_true ⟨.err .EINVAL, s, ?_, by simp [position, hlt, Migrated]⟩
      fun hin => absurd hin hlt
    simp only [listMigrateRange, if_neg hwork]
    refine (listLength_eq h.ring₂).bind ?_
    simpa only [if_pos hle] using Loop.returns_some _
  obtain ⟨k, hk⟩ : ∃ k, k = (BitVec.ofNat 64 l₂.length - 1 - startPos - startPos).toNat := ⟨_, rfl⟩
  have hnle : ¬ BitVec.ofNat 64 l₂.length ≤ startPos := by
    rw [BitVec.le_def, hword]
    omega
  have hsearch : Loop.Returns (fun n => Loop.run (findStart s.prev (· - 1) h₂ startPos) n
      (s.prev h₂, s.prev (s.prev h₂), BitVec.ofNat 64 l₂.length - 1 - startPos))
        ((if k < l₂.length then some (l₂.length - 1 - k) else none).bind (l₂[·]?)) := by
    by_cases hin : k < l₂.length
    · have hfound := findStart_eq h.ring₂.reverse (· - 1) (BitVec.ofNat 64 l₂.length - 1 - startPos)
        startPos (by simpa using hin.le : k ≤ _) (fun j hj => by rw [iterate_sub_one]; bv_omega)
        (fun _ => by rw [iterate_sub_one]; bv_omega)
      simpa only [if_pos hin, Option.bind_some, List.getElem?_reverse hin] using hfound
    · have hnone := findStart_eq h.ring₂.reverse (· - 1) (BitVec.ofNat 64 l₂.length - 1 - startPos)
        startPos le_rfl
        (fun j hj => by rw [iterate_sub_one]; rw [List.length_reverse] at hj; bv_omega)
        (fun hlt => absurd hlt (lt_irrefl _))
      rw [List.getElem?_eq_none le_rfl] at hnone
      simpa only [if_neg hin, Option.bind_none] using hnone
  have hplace : ∀ i ∈ (if k < l₂.length then some (l₂.length - 1 - k) else none),
      i < l₂.length := by
    intro i hi
    simp only [Option.mem_def, Option.ite_none_right_eq_some, Option.some.injEq] at hi
    omega
  rcases migrate_found h hnum _ hplace hsearch with ⟨ret, s', hret, hlaw⟩
  have hcall : Loop.Returns
      (fun n => listMigrateRange n s h₁ h₂ startPos numNodes .tail) (ret, s') := by
    simp only [listMigrateRange, if_neg hwork]
    refine (listLength_eq h.ring₂).bind ?_
    simp only [if_neg hnle]
    exact hret
  rw [right_iff hcall]
  simp only [position, forall_const, hlt]
  have hsame : k = startPos.toNat ↔ BitVec.ofNat 64 l₂.length - 1 - startPos = 2 * startPos := by
    bv_omega
  rw [← hsame]
  by_cases hin : k < l₂.length
  · rw [if_pos hin] at hlaw
    constructor
    · -- the run that was moved tells where it began
      intro hwanted
      have hrest := hlaw.2.2.unique hwanted.2.2
      by_contra hne
      have hpos : 0 < numNodes.toNat := by bv_omega
      rcases Nat.lt_or_gt_of_ne hne with hless | hmore
      · exact place_unique h.ring₂.nodup.of_cons hpos (by omega) (by omega) hrest.symm
      · exact place_unique h.ring₂.nodup.of_cons hpos (by omega) (by omega) hrest
    · intro heq
      rwa [heq] at hlaw
  · rw [if_neg hin] at hlaw
    refine iff_of_false (fun hwanted => ?_) (by omega)
    rw [hlaw.1] at hwanted
    exact absurd hwanted.1 (by decide)

theorem other_right (h : Lists s h₁ l₁ h₂ l₂) (hfull : l₂ ≠ []) (hnum : numNodes ≠ 0) :
    Right s h₁ l₁ h₂ l₂ (.migrateRange startPos numNodes .other) := by
  have hwork : ¬ (listEmpty s h₂ = true ∨ numNodes = 0) := by
    rw [listEmpty_iff h.ring₂]
    exact not_or.2 ⟨hfull, hnum⟩
  refine ⟨.err .EINVAL, s, ?_, rfl, rfl⟩
  simpa only [listMigrateRange, if_neg hwork] using Loop.returns_some _

end Migrate

/-- No slice is right; a merge is; a migration of nothing answers 0, and one from the tail is right
where the counter meets the position at the node it stands for. -/
theorem list_call_right_iff (h : Lists s h₁ l₁ h₂ l₂) (call : Call) :
    Right s h₁ l₁ h₂ l₂ call ↔ Fine l₁ l₂ call := by
  cases call with
  | slice start stop =>
    refine ⟨fun hright hbefore => slice_wrong h hbefore hright, fun hnone a m b heq => ?_⟩
    exact absurd ⟨a, m, b, heq⟩ hnone
  | merge => exact iff_of_true (merge_right h) trivial
  | migrateRange startPos numNodes whence =>
    by_cases hnone : l₂ = [] ∨ numNodes = 0
    · exact migrate_nothing h hnone
    obtain ⟨hfull, hnum⟩ := not_or.1 hnone
    have hfine : Fine l₁ l₂ (.migrateRange startPos numNodes whence) ↔
        (whence = .tail → startPos.toNat < l₂.length →
          BitVec.ofNat 64 l₂.length - 1 - startPos = 2 * startPos) := by
      simp only [Fine, ne_eq, hfull, hnum, not_false_eq_true, true_and, forall_const, false_implies]
    rw [hfine]
    cases whence with
    | head => exact iff_of_true (head_right h hfull hnum) nofun
    | tail => simpa using tail_right_iff h hfull hnum
    | other => exact iff_of_true (other_right h hfull hnum) nofun

def twoNodes : Heads where
  next p := if p = 1 then 2 else if p = 2 then 3 else if p = 3 then 1 else p
  prev p := if p = 1 then 3 else if p = 2 then 1 else if p = 3 then 2 else p

theorem twoNodes_lists : Lists twoNodes 1 [2, 3] 4 [] where
  ring₁ := ⟨by decide, by simp [Adj, twoNodes]⟩
  ring₂ := ⟨by decide, by simp [Adj, twoNodes]⟩
  disjoint := by simp

theorem list_call_right_iff_merge :
    Lists twoNodes 1 [2, 3] 4 [] ∧ (Right twoNodes 1 [2, 3] 4 [] .merge ↔ True) :=
  ⟨twoNodes_lists, list_call_right_iff twoNodes_lists .merge⟩

/-- The slice from 2 up to 3 is not taken out of the list. -/
theorem slice_stays_linked :
    ¬ ∀ s h₁ l₁ h₂ l₂ call, Lists s h₁ l₁ h₂ l₂ → Right s h₁ l₁ h₂ l₂ call := fun hall =>
  slice_wrong twoNodes_lists ⟨[], [], [], rfl⟩ (hall _ _ _ _ _ (.slice 2 3) twoNodes_lists)

end ListHead
end Ds
end XytherOS
