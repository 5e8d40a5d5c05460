import Mathlib
import XytherOS.Ds.EmbeddedMove

/-!
# EmbeddedMigrate — the range check of the two migrations

`embedded_queue_migrate` and `queue_node_migrate` move `n` nodes from the position `pos` on; both
numbers are 64-bit words.  They are checked by `pos + n > q_count`, and this sum wraps around: a
position inside the queue passes the check with a number of nodes close to `2 ^ 64`.  The loop that
looks for the last node then leaves the queue at its end.

`queue_node_migrate` works on the nodes of data queues, and does not read their data.
-/

namespace XytherOS
namespace Ds

open Links

variable {Q N : Type} [DecidableEq Q] [DecidableEq N]

/-- The check of both functions; `count` is `src->q_count`. -/
def rangeRefused (count : Nat) (pos n : BitVec 64) : Bool :=
  decide (count ≤ pos.toNat) || decide (n = 0) || decide (count < (pos + n).toNat)

/-- `embedded_queue_migrate`, with arguments of the type that it has. -/
def embeddedQueueMigrateWord (s : Queues Q N) (dst src : Q) (pos n : BitVec 64) (whence : Whence) :
    Except Fault (Ret × Queues Q N) :=
  if rangeRefused (s.queue src).qCount pos n then
    .ok (.err .EINVAL, s)
  else
    match walk (nexts s.node) pos.toNat (s.queue src).head with
    | none => .ok (.err .ENOENT, s)
    | some first =>
      match walk (nexts s.node) (n.toNat - 1) (some first) with
      | none => .error .nullDeref
      | some last =>
        let s := detachSlice s src first last n.toNat
        .ok (.ok, attachSlice s dst first last n.toNat whence)

/-- `queue_node_migrate`; between the two halves it walks over the nodes that it moves. -/
def queueNodeMigrate [Fintype N] (s : Queues Q N) (dstq srcq : Q) (startPos numNodes : BitVec 64)
    (whence : Whence) : Except Fault (Ret × Queues Q N) :=
  if rangeRefused (s.queue srcq).qCount startPos numNodes then
    .ok (.err .EINVAL, s)
  else
    match walk (nexts s.node) startPos.toNat (s.queue srcq).head with
    | none => .ok (.err .ENOENT, s)
    | some firstNode =>
      match walk (nexts s.node) (numNodes.toNat - 1) (some firstNode) with
      | none => .error .nullDeref
      | some lastNode =>
        let s := detachSlice s srcq firstNode lastNode numNodes.toNat
        match scan (nexts s.node) (fun _ => false) (Fintype.card N) none (some firstNode) with
        | none => .error .hang
        | some _ =>
          .ok (.ok, attachSlice s dstq firstNode lastNode numNodes.toNat whence)

/-- What a migration is for: it succeeds where the slice lies inside the source, and moves it, and
otherwise changes nothing. -/
def Migrates (s : Queues Q N) (a : Q → List N) (dst src : Q) (pos n : Nat) (whence : Whence)
    (run : Except Fault (Ret × Queues Q N)) : Prop :=
  ∃ ret s', run = .ok (ret, s') ∧ (ret = .ok ↔ 0 < n ∧ pos + n ≤ (a src).length) ∧
    (ret = .ok → Inv s' (listMigrate a dst src pos n whence)) ∧ (ret ≠ .ok → s' = s)

variable {s : Queues Q N} {a : Q → List N} {dst src : Q} {pos n : BitVec 64} {w : Whence}

theorem Migrates.refused (hout : ¬ (0 < n.toNat ∧ pos.toNat + n.toNat ≤ (a src).length))
    (e : Errno) :
    Migrates s a dst src pos.toNat n.toNat w (.ok (.err e, s)) :=
  ⟨.err e, s, rfl, iff_of_false (by simp) hout, fun hok => absurd hok (by simp), fun _ => rfl⟩

theorem not_migrates_error (e : Fault) (pos n : Nat) (w : Whence) :
    ¬ Migrates s a dst src pos n w (.error e) := by
  rintro ⟨ret, s', hrun, -⟩
  exact absurd hrun (by simp)

theorem rangeRefused_iff {count : Nat} (hsum : pos.toNat + n.toNat < 2 ^ 64) :
    rangeRefused count pos n = true ↔ ¬ (0 < n.toNat ∧ pos.toNat + n.toNat ≤ count) := by
  have hadd : (pos + n).toNat = pos.toNat + n.toNat := by
    rw [BitVec.toNat_add, Nat.mod_eq_of_lt hsum]
  have hzero : n = 0 ↔ n.toNat = 0 := by
    rw [← BitVec.toNat_inj]
    rfl
  simp only [rangeRefused, hadd, hzero, Bool.or_eq_true, decide_eq_true_eq]
  omega

/-! ## Both functions -/

theorem migrateWord_eq (hsum : pos.toNat + n.toNat < 2 ^ 64) :
    embeddedQueueMigrateWord s dst src pos n w =
      embeddedQueueMigrate s dst src pos.toNat n.toNat w := by
  have hrefused : rangeRefused (s.queue src).qCount pos n = true ↔
      ¬ (0 < n.toNat ∧ pos.toNat + n.toNat ≤ (s.queue src).qCount) := rangeRefused_iff hsum
  rw [embeddedQueueMigrateWord, embeddedQueueMigrate]
  by_cases hr : rangeRefused (s.queue src).qCount pos n = true
  · have hout := hrefused.1 hr
    rw [if_pos hr, if_pos (by omega)]
  · have hin : 0 < n.toNat ∧ pos.toNat + n.toNat ≤ (s.queue src).qCount := by
      rw [hrefused] at hr
      exact Classical.not_not.1 hr
    exact (if_neg hr).trans (if_neg (by omega)).symm

theorem migrateWord_wrapped {l : List N} (h : Holds s src l) (hlen : l.length < 2 ^ 64)
    (hpos : pos.toNat < l.length) (hsum : 2 ^ 64 ≤ pos.toNat + n.toNat) :
    rangeRefused (s.queue src).qCount pos n = false ∧
      ∃ first, walk (nexts s.node) pos.toNat (s.queue src).head = some first ∧
        walk (nexts s.node) (n.toNat - 1) (some first) = none := by
  have hadd : (pos + n).toNat = pos.toNat + n.toNat - 2 ^ 64 := by
    have hn := n.isLt
    rw [BitVec.toNat_add, Nat.mod_eq_sub_mod hsum, Nat.mod_eq_of_lt (by omega)]
  refine ⟨?_, ?_⟩
  · have hzero : n ≠ 0 := by
      rintro rfl
      simp at hsum
      omega
    simp only [rangeRefused, hadd, h.count, Bool.or_eq_false_iff, decide_eq_false_iff_not]
    have hn := n.isLt
    refine ⟨⟨by omega, hzero⟩, by omega⟩
  · -- the queue is `l₁ ++ l₂`, and the walk starts at the head of `l₂`
    have hsplit := (List.take_append_drop pos.toNat l).symm
    have hne : l.drop pos.toNat ≠ [] := by
      simpa using hpos
    have hchain := h.chain
    rw [hsplit] at hchain
    rcases List.exists_cons_of_ne_nil hne with ⟨first, rest, hcons⟩
    have hfirst : (l.drop pos.toNat).head? = some first := by
      rw [hcons]
      rfl
    refine ⟨first, ?_, ?_⟩
    · have hlen1 : (l.take pos.toNat).length = pos.toNat := by
        rw [List.length_take]
        omega
      have hwalk := walk_chain hchain hlen1 hne
      rw [← hsplit, hfirst] at hwalk
      rw [h.head]
      exact hwalk
    · rw [← hfirst]
      refine walk_chain_end (chain_append.1 hchain).2 ?_
      rw [List.length_drop]
      omega

section Node

variable [Fintype N]

theorem scan_slice {l₁ m l₂ : List N} {first last : N} (h : Holds s src (l₁ ++ (m ++ l₂)))
    (hfirst : m.head? = some first) (hlast : m.getLast? = some last) :
    ∃ x, scan (nexts (detachSlice s src first last m.length).node) (fun _ => false)
      (Fintype.card N) none (some first) = some x := by
  rcases holds_detachSlice h hfirst hlast with ⟨-, hiso, -⟩
  rw [← hfirst]
  exact ⟨_, scan_chain (fun _ => false) hiso hiso.nodup.length_le_card⟩

theorem queueNodeMigrate_eq {l : List N} (h : Holds s src l) (hlen : l.length < 2 ^ 64) :
    queueNodeMigrate s dst src pos n w = embeddedQueueMigrateWord s dst src pos n w := by
  rw [queueNodeMigrate, embeddedQueueMigrateWord]
  by_cases hr : rangeRefused (s.queue src).qCount pos n = true
  · rw [if_pos hr, if_pos hr]
  rw [if_neg hr, if_neg hr]
  by_cases hsum : pos.toNat + n.toNat < 2 ^ 64
  · have hin : 0 < n.toNat ∧ pos.toNat + n.toNat ≤ l.length := by
      rw [rangeRefused_iff hsum, h.count] at hr
      exact Classical.not_not.1 hr
    rcases h.slice hin.1 hin.2 with ⟨first, last, hfirst, hlast, hwalk, hwalk'⟩
    have hm : ((l.drop pos.toNat).take n.toNat).length = n.toNat := by
      rw [List.length_take, List.length_drop]
      omega
    rcases scan_slice (slice_split (l := l) pos.toNat n.toNat ▸ h) hfirst hlast with ⟨x, hscan⟩
    rw [hm] at hscan
    simp only [hwalk, hwalk', hscan]
  · have hpos : pos.toNat < l.length := by
      simp only [rangeRefused, h.count, Bool.or_eq_true, decide_eq_true_eq, not_or] at hr
      omega
    rcases migrateWord_wrapped h hlen hpos (Nat.le_of_not_lt hsum) with ⟨-, first, hwalk, hwalk'⟩
    simp only [hwalk, hwalk']

/-- The two migrations do what they are for exactly when the sum of their arguments does not wrap
around for a position inside the source, whose `q_count` is a 64-bit number. -/
theorem migrates_iff (hinv : Inv s a) (hne : dst ≠ src) (hlen : (a src).length < 2 ^ 64)
    (pos n : BitVec 64) (w : Whence) :
    (Migrates s a dst src pos.toNat n.toNat w (embeddedQueueMigrateWord s dst src pos n w) ↔
      ¬ (pos.toNat < (a src).length ∧ 2 ^ 64 ≤ pos.toNat + n.toNat)) ∧
    (Migrates s a dst src pos.toNat n.toNat w (queueNodeMigrate s dst src pos n w) ↔
      ¬ (pos.toNat < (a src).length ∧ 2 ^ 64 ≤ pos.toNat + n.toNat)) := by
  have hholds := hinv.holds src
  rw [queueNodeMigrate_eq hholds hlen, and_self]
  by_cases hsum : pos.toNat + n.toNat < 2 ^ 64
  · refine iff_of_true ?_ (by omega)
    by_cases hin : 0 < n.toNat ∧ pos.toNat + n.toNat ≤ (a src).length
    · rcases migrate_refines hinv hne hin.1 hin.2 w with ⟨s', hrun, hinv'⟩
      rw [migrateWord_eq hsum]
      exact ⟨.ok, s', hrun, iff_of_true rfl hin, fun _ => hinv', fun hno => absurd rfl hno⟩
    · have hr : rangeRefused (s.queue src).qCount pos n = true := by
        rw [rangeRefused_iff hsum, hholds.count]
        exact hin
      rw [embeddedQueueMigrateWord, if_pos hr]
      exact Migrates.refused hin .EINVAL
  · by_cases hpos : pos.toNat < (a src).length
    · refine iff_of_false ?_ (by omega)
      rcases migrateWord_wrapped hholds hlen hpos (Nat.le_of_not_lt hsum) with
        ⟨hr, first, hwalk, hwalk'⟩
      rw [embeddedQueueMigrateWord, hr]
      simp only [Bool.false_eq_true, if_false, hwalk, hwalk']
      exact not_migrates_error _ _ _ _
    · refine iff_of_true ?_ (by omega)
      have hr : rangeRefused (s.queue src).qCount pos n = true := by
        simp only [rangeRefused, hholds.count, Bool.or_eq_true, decide_eq_true_eq]
        omega
      rw [embeddedQueueMigrateWord, if_pos hr]
      exact Migrates.refused (by omega) .EINVAL

end Node

/-! ## A queue of three nodes -/

/-- An empty queue, and one with the nodes `0`, `1` and `2`. -/
def threeNodes : Queues Bool (Fin 3) where
  node p :=
    if p = 0 then { prev := none, next := some 1 }
    else if p = 1 then { prev := some 0, next := some 2 }
    else { prev := some 1, next := none }
  queue q :=
    if q then { head := some 0, tail := some 2, qCount := 3 }
    else { head := none, tail := none, qCount := 0 }

def threeLists (q : Bool) : List (Fin 3) := if q then [0, 1, 2] else []

theorem inv_threeNodes : Inv threeNodes threeLists := by
  refine ⟨fun q => ?_, fun q q' x hx hx' => ?_⟩
  · cases q with
    | false => exact ⟨trivial, rfl, rfl, rfl⟩
    | true =>
      refine ⟨?_, rfl, rfl, rfl⟩
      simp [threeLists, Chain, nexts, prevs, LinkNode.next, LinkNode.prev, threeNodes]
  · cases q with
    | false => simp [threeLists] at hx
    | true =>
      cases q' with
      | false => simp [threeLists] at hx'
      | true => rfl

theorem migrates_two :
    Migrates threeNodes threeLists false true 1 2 .tail
        (embeddedQueueMigrateWord threeNodes false true 1 2 .tail) ∧
      Migrates threeNodes threeLists false true 1 2 .tail
        (queueNodeMigrate threeNodes false true 1 2 .tail) := by
  have hne : false ≠ true := by decide
  have hboth := migrates_iff inv_threeNodes hne (by decide) 1 2 .tail
  exact ⟨hboth.1.2 (by decide), hboth.2.2 (by decide)⟩

/-- `1 + (2 ^ 64 - 1)` is `0`, which is not more than three nodes. -/
theorem migrate_wraps :
    embeddedQueueMigrateWord threeNodes false true 1 0xFFFFFFFFFFFFFFFF .tail = .error .nullDeref ∧
      queueNodeMigrate threeNodes false true 1 0xFFFFFFFFFFFFFFFF .tail = .error .nullDeref ∧
      ¬ Migrates threeNodes threeLists false true 1 (2 ^ 64 - 1) .tail
        (.error .nullDeref) := by
  have hholds : Holds threeNodes true (threeLists true) :=
    inv_threeNodes.holds true
  have hrun : embeddedQueueMigrateWord threeNodes false true 1 0xFFFFFFFFFFFFFFFF .tail =
      .error .nullDeref := by
    have hpos : (1 : BitVec 64).toNat < (threeLists true).length := by decide
    have hsum : 2 ^ 64 ≤ (1 : BitVec 64).toNat + (0xFFFFFFFFFFFFFFFF : BitVec 64).toNat := by decide
    rcases migrateWord_wrapped hholds (by decide) hpos hsum with ⟨hr, first, hwalk, hwalk'⟩
    rw [embeddedQueueMigrateWord, hr]
    simp only [Bool.false_eq_true, if_false, hwalk, hwalk']
  refine ⟨hrun, ?_, not_migrates_error _ _ _ _⟩
  rw [queueNodeMigrate_eq hholds (by decide)]
  exact hrun

end Ds
end XytherOS
