import Mathlib.Data.List.GetD
import XytherOS.Lib.Loop
import XytherOS.Str.Memory

/-!
# Chars — strings in memory

`Reads m p s`: at `p` there is the string `s`, with a zero behind it.  A loop that moves a pointer
as long as a test fails is `firstOf` with a budget.
-/

namespace XytherOS
namespace Str

open Loop

def Reads (m : Mem) (p : Nat) (s : List Byte) : Prop :=
  0 ∉ s ∧ ∀ i ≤ s.length, m (p + i) = s.getD i 0

def hits (m : Mem) (c : Byte) (a : Nat) : Bool := m a == c

theorem hits_iff {m : Mem} {c : Byte} {a : Nat} : hits m c a ↔ m a = c := beq_iff_eq

theorem hits_eq_false {m : Mem} {c : Byte} {a : Nat} : hits m c a = false ↔ m a ≠ c :=
  beq_eq_false_iff_ne

variable {m m' : Mem} {p k : Nat} {c : Byte} {s w r : List Byte} {test : Nat → Bool}

theorem Reads.head (h : Reads m p s) : m p = s.headD 0 := by
  have hzero := h.2 0 (Nat.zero_le _)
  rw [Nat.add_zero] at hzero
  rw [hzero]
  cases s <;> rfl

theorem Reads.last (h : Reads m p s) : m (p + s.length) = 0 := by
  rw [h.2 _ le_rfl, List.getD_eq_default _ _ le_rfl]

theorem Reads.get (h : Reads m p s) {i : Nat} (hi : i < s.length) : m (p + i) = s[i] := by
  rw [h.2 i hi.le, List.getD_eq_getElem _ _ hi]

theorem Reads.ne_zero (h : Reads m p s) {i : Nat} (hi : i < s.length) : m (p + i) ≠ 0 := by
  rw [h.get hi]
  exact fun heq => h.1 (heq ▸ List.getElem_mem hi)

theorem Reads.drop (h : Reads m p (w ++ r)) : Reads m (p + w.length) r := by
  refine ⟨fun hmem => h.1 (List.mem_append_right w hmem), fun i hi => ?_⟩
  rw [Nat.add_assoc, h.2 _ (by rw [List.length_append]; omega),
    List.getD_append_right _ _ _ _ (Nat.le_add_right _ _), Nat.add_sub_cancel_left]

theorem Reads.dropN (h : Reads m p s) (hk : k ≤ s.length) : Reads m (p + k) (s.drop k) := by
  have hdrop := Reads.drop (w := s.take k) (r := s.drop k) (by rwa [List.take_append_drop])
  rwa [List.length_take_of_le hk] at hdrop

theorem Reads.tail (h : Reads m p (c :: s)) : Reads m (p + 1) s := Reads.drop (w := [c]) h

theorem Reads.shift (h : Reads m p s) {q : Nat} (heq : ∀ i ≤ s.length, m' (q + i) = m (p + i)) :
    Reads m' q s := ⟨h.1, fun i hi => by rw [heq i hi, h.2 i hi]⟩

theorem Reads.congr (h : Reads m p s) (heq : ∀ i ≤ s.length, m' (p + i) = m (p + i)) :
    Reads m' p s := h.shift heq

theorem Reads.cut (h : Reads m p (w ++ r)) (hzero : m' (p + w.length) = 0)
    (heq : ∀ i < w.length, m' (p + i) = m (p + i)) : Reads m' p w := by
  refine ⟨fun hmem => h.1 (List.mem_append_left r hmem), fun i hi => ?_⟩
  rcases Nat.lt_or_eq_of_le hi with hlt | rfl
  · rw [heq i hlt, h.2 i (by rw [List.length_append]; omega), List.getD_append _ _ _ _ hlt]
  · rw [hzero, List.getD_eq_default _ _ le_rfl]

/-! ## Scanning -/

theorem firstOf_one (test : Nat → Bool) (i : Nat) :
    firstOf test i 1 = if test i then some i else none := by
  cases htest : test i <;> simp [firstOf, htest]

theorem firstOf_eq_none {n : Nat} : firstOf test p n = none ↔ ∀ i < n, test (p + i) = false := by
  simp [firstOf]

theorem firstOf_some {n : Nat} (h : firstOf test p n = some k) : test k ∧ p ≤ k ∧ k < p + n := by
  have hmem := List.mem_of_find?_eq_some h
  simp only [List.mem_map, List.mem_range] at hmem
  rcases hmem with ⟨j, hj, rfl⟩
  exact ⟨List.find?_some h, by omega, by omega⟩

theorem firstOf_eq {n : Nat} (htest : test (p + k)) (hlt : ∀ i < k, test (p + i) = false)
    (hk : k < n) : firstOf test p n = some (p + k) := by
  obtain ⟨d, rfl⟩ : ∃ d, n = k + 1 + d := ⟨n - (k + 1), by omega⟩
  rw [firstOf_add, firstOf_add, firstOf_eq_none.2 hlt, firstOf_one, if_pos htest]
  rfl

theorem firstOf_returns (htest : test (p + k)) (hlt : ∀ i < k, test (p + i) = false) :
    Returns (firstOf test p) (p + k) :=
  (Filter.eventually_gt_atTop k).mono fun _ hk => firstOf_eq htest hlt hk

theorem exists_first (test : Nat → Bool) (h : test (p + k)) : ∃ q ≤ k, test (p + q) ∧
    (∀ i < q, test (p + i) = false) ∧ Returns (firstOf test p) (p + q) := by
  have hex : ∃ i, test (p + i) := ⟨k, h⟩
  have hbefore : ∀ i < Nat.find hex, test (p + i) = false :=
    fun i hi => Bool.eq_false_iff.2 (Nat.find_min hex hi)
  exact ⟨_, Nat.find_min' hex h, Nat.find_spec hex, hbefore,
    firstOf_returns (Nat.find_spec hex) hbefore⟩

theorem Reads.scan (h : Reads m p (w ++ r)) (stop : Byte → Bool) (hw : ∀ c ∈ w, stop c = false)
    (hr : stop (r.headD 0)) : Returns (firstOf (fun i => stop (m i)) p) (p + w.length) := by
  refine firstOf_returns ?_ fun i hi => ?_
  · rw [h.drop.head]
    exact hr
  · rw [h.get (by rw [List.length_append]; omega), List.getElem_append_left hi]
    exact hw _ (List.getElem_mem hi)

theorem Reads.firstOf_zero (h : Reads m p s) {n : Nat} :
    firstOf (hits m 0) p n = if s.length < n then some (p + s.length) else none := by
  have hne : ∀ i < s.length, hits m 0 (p + i) = false :=
    fun i hi => hits_eq_false.2 (h.ne_zero hi)
  split_ifs with hlt
  · exact firstOf_eq (hits_iff.2 h.last) hne hlt
  · exact firstOf_eq_none.2 fun i hi => hne i (by omega)

theorem Reads.end (h : Reads m p s) : Returns (firstOf (hits m 0) p) (p + s.length) :=
  (Filter.eventually_gt_atTop s.length).mono fun _ hn => by rw [h.firstOf_zero, if_pos hn]

theorem exists_split (stop : Byte → Bool) (s : List Byte) :
    ∃ w r, s = w ++ r ∧ (∀ c ∈ w, stop c = false) ∧ ∀ c ∈ r.head?, stop c := by
  induction s with
  | nil => exact ⟨[], [], rfl, by simp, by simp⟩
  | cons c s ih =>
    cases hc : stop c with
    | true => exact ⟨[], c :: s, rfl, by simp, by simpa using hc⟩
    | false =>
      rcases ih with ⟨w, r, rfl, hw, hr⟩
      exact ⟨c :: w, r, rfl, by simpa [hc] using hw, hr⟩

def runs (delim : Byte → Bool) (s : List Byte) : List (List Byte) :=
  (s.splitOnP delim).filter (· ≠ [])

variable {delim : Byte → Bool}

@[simp]
theorem runs_nil : runs delim [] = [] := by simp [runs]

theorem runs_cons (hc : delim c) : runs delim (c :: s) = runs delim s := by
  rw [runs, List.splitOnP_cons_eq_if_modifyHead, if_pos hc, List.filter_cons_of_neg (by simp)]
  rfl

theorem runs_skip (hw : ∀ c ∈ w, delim c) : runs delim (w ++ r) = runs delim r := by
  induction w with
  | nil => rfl
  | cons c w ih =>
    rw [List.cons_append, runs_cons (hw c List.mem_cons_self)]
    exact ih fun d hd => hw d (List.mem_cons_of_mem c hd)

theorem runs_concat (hc : delim c) : runs delim (s ++ [c]) = runs delim s := by
  simp [runs, List.splitOnP_append_cons s [] hc]

theorem runs_append (hw : ∀ c ∈ w, delim c = false) (hne : w ≠ []) (hr : ∀ c ∈ r.head?, delim c) :
    runs delim (w ++ r) = w :: runs delim r := by
  cases r with
  | nil => simp [runs, List.splitOnP_eq_singleton hw, hne]
  | cons c r =>
    have hc : delim c := hr c rfl
    rw [runs_cons hc, runs, List.splitOnP_append_cons_of_forall_mem hw c hc,
      List.filter_cons_of_pos (by simpa using hne)]
    rfl

theorem length_runs_cons : (runs delim (c :: s)).length =
    (runs delim s).length + if !delim c && s.head?.all delim then 1 else 0 := by
  cases hc : delim c with
  | true =>
    rw [runs_cons hc, Bool.not_true, Bool.false_and, if_neg Bool.false_ne_true, Nat.add_zero]
  | false =>
    have hone : ∀ d ∈ [c], delim d = false := by simpa using hc
    rcases s with _ | ⟨d, s⟩
    · simp [runs, List.splitOnP_eq_singleton hone]
    · cases hd : delim d with
      | true =>
        rw [show c :: d :: s = [c] ++ d :: s from rfl,
          runs_append hone (List.cons_ne_nil c []) (by simpa using hd)]
        simp [hd]
      | false =>
        rcases hsplit : s.splitOnP delim with _ | ⟨w, ws⟩
        · exact absurd hsplit (List.splitOnP_ne_nil delim s)
        · simp [runs, List.splitOnP_cons_eq_if_modifyHead, hc, hd, hsplit]

end Str
end XytherOS
