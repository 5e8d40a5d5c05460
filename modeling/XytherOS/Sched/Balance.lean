import Mathlib.Algebra.BigOperators.Fin
import Mathlib.Algebra.Order.BigOperators.Group.Finset
import XytherOS.Sched.RunQueues

/-!
# Balance — what `MLFQ_balance` does to the loads

One call moves threads between the calling CPU and one other, all in the same direction, so its
effect on the loads is one number.  With all trylocks free, `MLFQ_push` gives half of every level
with two or more threads to an idle CPU: an overloaded CPU that finds no other one idle keeps its
threads.  `MLFQ_pull` takes about half of the most loaded CPU, whatever the load of the calling one,
and where the average is below 2 it is called for an unsigned `avg_load - 2` that has wrapped
around.
-/

namespace XytherOS
namespace Sched

open Function Links Ds

variable {ncpu : Nat} {T : Type} [DecidableEq T] [Fintype T]

def avgLoad (s : State ncpu T) : Nat := ((List.finRange ncpu).map fun c => mlfqLoad s c).sum / ncpu

def Moved (s s' : State ncpu T) (c : Fin ncpu) : Prop :=
  ∃ l, nodeSequence s'.rq (c, l) ≠ nodeSequence s.rq (c, l)

def loadGap (s : State ncpu T) (c c' : Fin ncpu) : Nat :=
  ((mlfqLoad s c : Int) - mlfqLoad s c').natAbs

/-- From `s` to `s'` the CPU `me` has balanced: no difference has grown, it has only pulled if it was
more than 2 below the average, and if it was more than 2 above and had two threads at some level,
it has moved a thread to a CPU with a smaller load. -/
structure BalanceLaw (s s' : State ncpu T) (me : Fin ncpu) : Prop where
  gap : ∀ c, c ≠ me → Moved s s' c → loadGap s' me c ≤ loadGap s me c
  pulls : mlfqLoad s me < mlfqLoad s' me → mlfqLoad s me + 2 < avgLoad s
  pushes : avgLoad s + 2 < mlfqLoad s me → (∃ l, 2 ≤ queueLength s (me, l)) →
    ∃ c, mlfqLoad s c < mlfqLoad s me ∧ mlfqLoad s c < mlfqLoad s' c

/-- `c` is the first of the most loaded CPUs other than `me`. -/
def MostLoaded (s : State ncpu T) (me c : Fin ncpu) : Prop :=
  c ≠ me ∧ ∀ d, d ≠ me → mlfqLoad s d ≤ mlfqLoad s c ∧ (d < c → mlfqLoad s d < mlfqLoad s c)

/-- The share of a queue of length `n` that is up for stealing. -/
def share (n : Nat) : Nat := if n = 1 then 1 else n / 2

def lowShares (s : State ncpu T) (c : Fin ncpu) (k : Nat) : Nat :=
  ((foreachLevelReverse.take k).map fun l => share (queueLength s (c, l))).sum

/-- An overloaded CPU with two threads at a level finds another one idle; unless it is overloaded,
an average below 2 means that no other CPU has two threads; and if it is more than 2 below the
average, then at every level of the most loaded CPU below which the shares do not reach half of
that load, the shares up to that level are at most the difference of the loads. -/
structure Balanceable (s : State ncpu T) (me : Fin ncpu) : Prop where
  idle : avgLoad s + 2 < mlfqLoad s me → (∃ l, 2 ≤ queueLength s (me, l)) →
    ∃ c, c ≠ me ∧ mlfqLoad s c = 0
  low : mlfqLoad s me ≤ avgLoad s + 2 → avgLoad s < 2 → ∀ c, c ≠ me → mlfqLoad s c < 2
  shares : mlfqLoad s me + 2 < avgLoad s → ∀ c, MostLoaded s me c → ∀ k, k < 4 →
    lowShares s c k < mlfqLoad s c / 2 → lowShares s c (k + 1) + mlfqLoad s me ≤ mlfqLoad s c

variable {s s' : State ncpu T} {a a' a'' : RunQueue ncpu → List T} {me src dst : Fin ncpu}
  {level : Level} {levels : List Level} {m n : Nat}

/-! ## Loads -/

def loadOf (a : RunQueue ncpu → List T) (c : Fin ncpu) : Nat := ∑ l : Level, (a (c, l)).length

theorem Inv.load_eq (h : Inv s a) (c : Fin ncpu) : mlfqLoad s c = loadOf a c := by
  simp only [mlfqLoad, foreachLevel, h.queueLength_eq, loadOf, Fin.sum_univ_four, List.map_cons,
    List.map_nil, List.sum_cons, List.sum_nil]
  omega

theorem loadOf_change {c : Fin ncpu} (hother : ∀ l, l ≠ level → a' (c, l) = a (c, l)) :
    loadOf a' c + (a (c, level)).length = loadOf a c + (a' (c, level)).length := by
  have hsum : ∀ b : RunQueue ncpu → List T, loadOf b c =
      (b (c, level)).length + ∑ l ∈ Finset.univ.erase level, (b (c, l)).length := fun b =>
    (Finset.add_sum_erase _ (fun l => (b (c, l)).length) (Finset.mem_univ level)).symm
  have hrest : ∑ l ∈ Finset.univ.erase level, (a' (c, l)).length =
      ∑ l ∈ Finset.univ.erase level, (a (c, l)).length :=
    Finset.sum_congr rfl fun l hl => by rw [hother l (Finset.ne_of_mem_erase hl)]
  rw [hsum a', hsum a, hrest]
  omega

/-- `n` threads have gone from the CPU `src` to the CPU `dst`, and the others are untouched. -/
structure Transfer (src dst : Fin ncpu) (a a' : RunQueue ncpu → List T) (n : Nat) : Prop where
  gone : loadOf a' src + n = loadOf a src
  come : loadOf a' dst = loadOf a dst + n
  rest : ∀ c, c ≠ src → c ≠ dst → ∀ l, a' (c, l) = a (c, l)

theorem Transfer.refl (src dst : Fin ncpu) (a : RunQueue ncpu → List T) : Transfer src dst a a 0 :=
  ⟨rfl, rfl, fun _ _ _ _ => rfl⟩

theorem Transfer.trans (h : Transfer src dst a a' m) (h' : Transfer src dst a' a'' n) :
    Transfer src dst a a'' (m + n) := by
  have hgone := h.gone
  have hgone' := h'.gone
  have hcome := h.come
  have hcome' := h'.come
  exact ⟨by omega, by omega, fun c hc hc' l => (h'.rest c hc hc' l).trans (h.rest c hc hc' l)⟩

theorem transfer_migrate (hne : dst ≠ src) {pos : Nat} {w : Whence} (hle : pos + n ≤ (a (src, level)).length) :
    Transfer src dst a (listMigrate a (dst, level) (src, level) pos n w) n := by
  have hother : ∀ c l, l ≠ level →
      listMigrate a (dst, level) (src, level) pos n w (c, l) = a (c, l) :=
    fun c l hl => listMigrate_of_ne hl
  have hsrc := loadOf_change (hother src)
  have hdst := loadOf_change (hother dst)
  have hlen : (listMigrate a (dst, level) (src, level) pos n w (src, level)).length + n =
      (a (src, level)).length := by
    rw [listMigrate, update_of_ne (by simp [hne.symm]), update_self]
    simp only [List.length_append, List.length_take, List.length_drop]
    omega
  have hlen' : (listMigrate a (dst, level) (src, level) pos n w (dst, level)).length =
      (a (dst, level)).length + n := by
    rw [listMigrate, update_self]
    cases w with
    | head =>
      simp only [listJoin, List.length_append, List.length_take, List.length_drop]
      omega
    | tail =>
      simp only [listJoin, List.length_append, List.length_take, List.length_drop]
      omega
  refine ⟨by omega, by omega, fun c hc hc' l => ?_⟩
  rw [listMigrate, update_of_ne (by simp [hc']), update_of_ne (by simp [hc])]

/-- What is stolen from queues of the given lengths: their shares, until the quota is reached. -/
def stolen (quota : Nat) : List Nat → Nat → Nat
  | [], pulled => pulled
  | n :: ns, pulled => if quota ≤ pulled then pulled else stolen quota ns (pulled + share n)

theorem stolen_le_iff {quota pulled bound : Nat} {ns : List Nat} :
    stolen quota ns pulled ≤ bound ↔ pulled ≤ bound ∧ ∀ k, k < ns.length →
      pulled + ((ns.take k).map share).sum < quota →
      pulled + ((ns.take (k + 1)).map share).sum ≤ bound := by
  induction ns generalizing pulled with
  | nil => simp [stolen]
  | cons n ns ih =>
    rw [stolen]
    by_cases hquota : quota ≤ pulled
    · rw [if_pos hquota]
      exact ⟨fun hle => ⟨hle, fun k _ hlt => absurd hlt (by omega)⟩, fun h => h.1⟩
    · rw [if_neg hquota, ih]
      constructor
      · rintro ⟨hle, hall⟩
        refine ⟨by omega, fun k hk hlt => ?_⟩
        cases k with
        | zero => simpa using hle
        | succ k =>
          simp only [List.take_succ_cons, List.map_cons, List.sum_cons, ← Nat.add_assoc]
            at hlt ⊢
          exact hall k (by simpa using hk) hlt
      · rintro ⟨hle, hall⟩
        refine ⟨?_, fun k hk hlt => ?_⟩
        · simpa using hall 0 (by simp) (by simpa using hquota)
        · have hnext := hall (k + 1) (by simpa using hk)
          simp only [List.take_succ_cons, List.map_cons, List.sum_cons, ← Nat.add_assoc] at hnext
          exact hnext hlt

theorem lengths_migrate {rq : Queues (RunQueue ncpu) T} {pos : Nat} {w : Whence} {c : Fin ncpu}
    (h : Inv s a)
    (h' : Inv { s with rq := rq } (listMigrate a (dst, level) (src, level) pos n w))
    (hnot : level ∉ levels) (f : Nat → Nat) :
    levels.map (fun l => f (queueLength { s with rq := rq } (c, l))) =
      levels.map fun l => f (queueLength s (c, l)) := by
  refine List.map_congr_left fun l hl => ?_
  have hl' : l ≠ level := fun heq => hnot (heq ▸ hl)
  rw [h'.queueLength_eq, h.queueLength_eq, listMigrate_of_ne hl']

/-- The loop of `MLFQ_pull`: induction on the levels that are left. -/
theorem pullLoop_transfer {target : Fin ncpu} (hne : me ≠ target) (load : Nat)
    (hnd : levels.Nodup) (h : Inv s a) (count pulled : Nat) :
    ∃ s' a' n, pullLoop me target load allFree levels s count pulled = .ok s' ∧ Inv s' a' ∧
      Transfer target me a a' n ∧
      pulled + n = stolen (load / 2) (levels.map fun l => queueLength s (target, l)) pulled := by
  induction levels generalizing s a count pulled with
  | nil => exact ⟨s, a, 0, rfl, h, .refl target me a, rfl⟩
  | cons level levels ih =>
    rcases List.nodup_cons.1 hnd with ⟨hnot, hnd'⟩
    rw [pullLoop, List.map_cons, stolen]
    by_cases henough : load / 2 ≤ pulled
    · rw [if_pos henough, if_pos henough]
      exact ⟨s, a, 0, rfl, h, .refl target me a, rfl⟩
    rw [if_neg henough, if_neg henough, if_neg (by simp [allFree])]
    simp only
    by_cases hempty : queueLength s (target, level) = 0
    · rw [if_pos hempty, hempty]
      exact ih hnd' h count pulled
    rw [if_neg hempty]
    -- the share of the level moves
    have hcount : (if queueLength s (target, level) = 1 then
        if pulled < load / 2 then 1 else count
        else queueLength s (target, level) / 2) = share (queueLength s (target, level)) := by
      rw [share, if_pos (by omega : pulled < load / 2)]
    rw [hcount]
    generalize hshare : share (queueLength s (target, level)) = n
    have hn : 0 < n ∧
        queueLength s (target, level) / 2 + n ≤ queueLength s (target, level) := by
      rw [← hshare, share]
      split_ifs <;> omega
    rcases h.migrate hne hn.1 hn.2 .tail with ⟨rq, hrun, hinv⟩
    have hone : Transfer target me a (listMigrate a (me, level) (target, level)
        ((a (target, level)).length / 2) n .tail) n :=
      transfer_migrate hne (by rw [← h.queueLength_eq]; exact hn.2)
    rcases ih hnd' hinv n (pulled + n) with ⟨s', a', m, hloop, hinv', hmore, hm⟩
    refine ⟨s', a', n + m, ?_, hinv', hone.trans hmore, ?_⟩
    · simp only [hrun, ok_bind, if_true]
      exact hloop
    · rw [← Nat.add_assoc, hm]
      exact congrArg (stolen (load / 2) · (pulled + n)) (lengths_migrate h hinv hnot id)

theorem pushLoop_transfer {target : Fin ncpu} (hne : target ≠ me) (hnd : levels.Nodup)
    (h : Inv s a) (pushed : Nat) :
    ∃ s' a', pushLoop me target 0 allFree levels s pushed = .ok s' ∧ Inv s' a' ∧
      Transfer me target a a' (levels.map fun l => queueLength s (me, l) / 2).sum := by
  induction levels generalizing s a pushed with
  | nil => exact ⟨s, a, rfl, h, .refl me target a⟩
  | cons level levels ih =>
    rcases List.nodup_cons.1 hnd with ⟨hnot, hnd'⟩
    rw [pushLoop, if_neg (by simp [allFree]), List.map_cons, List.sum_cons]
    simp only
    by_cases htwo : 2 ≤ queueLength s (me, level)
    · rw [if_neg (by omega), if_pos htwo]
      have hle : queueLength s (me, level) / 2 + queueLength s (me, level) / 2 ≤
          queueLength s (me, level) := by omega
      rcases h.migrate hne (by omega) hle .head with ⟨rq, hrun, hinv⟩
      have hone : Transfer me target a (listMigrate a (target, level) (me, level)
          ((a (me, level)).length / 2) (queueLength s (me, level) / 2) .head) _ :=
        transfer_migrate hne (by rw [← h.queueLength_eq]; exact hle)
      rcases ih hnd' hinv (pushed + queueLength s (me, level) / 2) with
        ⟨s', a', hloop, hinv', hmore⟩
      rw [lengths_migrate h hinv hnot (· / 2)] at hmore
      refine ⟨s', a', ?_, hinv', hone.trans hmore⟩
      simp only [hrun, ok_bind, if_true]
      exact hloop
    · -- the share to be pushed is nothing, so a queue of one thread is skipped
      rw [if_pos (by omega), (by omega : queueLength s (me, level) / 2 = 0), Nat.zero_add]
      exact ih hnd' h pushed

/-! ## The targets -/

theorem pullTarget_spec (s : State ncpu T) (me : Fin ncpu) (cs : List (Fin ncpu)) (load : Nat)
    (target : Option (Fin ncpu)) :
    (pullTarget s me cs load target = (load, target) ∧
      ∀ c, c ∈ cs → c ≠ me → mlfqLoad s c ≤ load) ∨
    ∃ x l₁ l₂, cs = l₁ ++ x :: l₂ ∧ x ≠ me ∧ load < mlfqLoad s x ∧
      pullTarget s me cs load target = (mlfqLoad s x, some x) ∧
      (∀ c, c ∈ l₁ → c ≠ me → mlfqLoad s c < mlfqLoad s x) ∧
      ∀ c, c ∈ l₂ → c ≠ me → mlfqLoad s c ≤ mlfqLoad s x := by
  induction cs generalizing load target with
  | nil => exact .inl ⟨rfl, by simp⟩
  | cons d cs ih =>
    rw [pullTarget]
    by_cases hme : d = me
    · rw [if_pos hme]
      rcases ih load target with ⟨heq, hall⟩ | ⟨x, l₁, l₂, rfl, hx, hlt, heq, h₁, h₂⟩
      · refine .inl ⟨heq, fun c hc hne => ?_⟩
        rcases List.mem_cons.1 hc with rfl | hc
        · exact absurd hme hne
        · exact hall c hc hne
      · refine .inr ⟨x, d :: l₁, l₂, rfl, hx, hlt, heq, fun c hc hne => ?_, h₂⟩
        rcases List.mem_cons.1 hc with rfl | hc
        · exact absurd hme hne
        · exact h₁ c hc hne
    rw [if_neg hme]
    by_cases hload : load < mlfqLoad s d
    · rw [if_pos hload]
      rcases ih (mlfqLoad s d) (some d) with ⟨heq, hall⟩ | ⟨x, l₁, l₂, rfl, hx, hlt, heq, h₁, h₂⟩
      · exact .inr ⟨d, [], cs, rfl, hme, hload, heq, by simp, hall⟩
      · refine .inr ⟨x, d :: l₁, l₂, rfl, hx, by omega, heq, fun c hc hne => ?_, h₂⟩
        rcases List.mem_cons.1 hc with rfl | hc
        · exact hlt
        · exact h₁ c hc hne
    · rw [if_neg hload]
      rcases ih load target with ⟨heq, hall⟩ | ⟨x, l₁, l₂, rfl, hx, hlt, heq, h₁, h₂⟩
      · refine .inl ⟨heq, fun c hc hne => ?_⟩
        rcases List.mem_cons.1 hc with rfl | hc
        · omega
        · exact hall c hc hne
      · refine .inr ⟨x, d :: l₁, l₂, rfl, hx, hlt, heq, fun c hc hne => ?_, h₂⟩
        rcases List.mem_cons.1 hc with rfl | hc
        · omega
        · exact h₁ c hc hne

theorem pullTarget_mostLoaded (s : State ncpu T) (me : Fin ncpu) :
    (pullTarget s me (List.finRange ncpu) 0 none = (0, none) ∧
      ∀ c, c ≠ me → mlfqLoad s c = 0) ∨
    ∃ x, MostLoaded s me x ∧ 0 < mlfqLoad s x ∧
      pullTarget s me (List.finRange ncpu) 0 none = (mlfqLoad s x, some x) := by
  rcases pullTarget_spec s me (List.finRange ncpu) 0 none with
    ⟨heq, hall⟩ | ⟨x, l₁, l₂, hcs, hx, hlt, heq, h₁, h₂⟩
  · exact .inl ⟨heq, fun c hc => Nat.le_zero.1 (hall c (List.mem_finRange c) hc)⟩
  · have hsorted : (l₁ ++ x :: l₂).Pairwise (· < ·) := hcs ▸ List.pairwise_lt_finRange ncpu
    refine .inr ⟨x, ⟨hx, fun d hd => ?_⟩, hlt, heq⟩
    have hmem : d ∈ l₁ ++ x :: l₂ := hcs ▸ List.mem_finRange d
    rcases List.mem_append.1 hmem with hd1 | hd2
    · exact ⟨(h₁ d hd1 hd).le, fun _ => h₁ d hd1 hd⟩
    rcases List.mem_cons.1 hd2 with rfl | hd2
    · exact ⟨le_rfl, fun hself => absurd hself (lt_irrefl _)⟩
    · -- behind `x` in the list is above it
      have habove : x < d :=
        List.rel_of_pairwise_cons (List.pairwise_append.1 hsorted).2.1 hd2
      exact ⟨h₂ d hd2 hd, fun hbelow => absurd hbelow (lt_asymm habove)⟩

theorem pushTarget_spec (s : State ncpu T) (me : Fin ncpu) (cs : List (Fin ncpu))
    (target : Option (Fin ncpu)) :
    (pushTarget s me cs 0 target = (0, target) ∧ ∀ c, c ∈ cs → c ≠ me → mlfqLoad s c ≠ 0) ∨
    ∃ x, x ≠ me ∧ mlfqLoad s x = 0 ∧ pushTarget s me cs 0 target = (0, some x) := by
  induction cs generalizing target with
  | nil => exact .inl ⟨rfl, by simp⟩
  | cons d cs ih =>
    rw [pushTarget]
    by_cases hme : d = me
    · rw [if_pos hme]
      rcases ih target with ⟨heq, hall⟩ | hfound
      · refine .inl ⟨heq, fun c hc hne => ?_⟩
        rcases List.mem_cons.1 hc with rfl | hc
        · exact absurd hme hne
        · exact hall c hc hne
      · exact .inr hfound
    rw [if_neg hme]
    by_cases hload : mlfqLoad s d ≤ 0
    · rw [if_pos hload, Nat.le_zero.1 hload]
      rcases ih (some d) with ⟨heq, -⟩ | hfound
      · exact .inr ⟨d, hme, Nat.le_zero.1 hload, heq⟩
      · exact .inr hfound
    · rw [if_neg hload]
      rcases ih target with ⟨heq, hall⟩ | hfound
      · refine .inl ⟨heq, fun c hc hne => ?_⟩
        rcases List.mem_cons.1 hc with rfl | hc
        · omega
        · exact hall c hc hne
      · exact .inr hfound

/-! ## Averages -/

theorem avgLoad_eq (s : State ncpu T) : avgLoad s = (∑ c : Fin ncpu, mlfqLoad s c) / ncpu := by
  rw [avgLoad, Fin.sum_univ_def]

theorem exists_above_avg (s : State ncpu T) (me : Fin ncpu) : ∃ c, avgLoad s ≤ mlfqLoad s c := by
  have hne : (Finset.univ : Finset (Fin ncpu)).Nonempty := ⟨me, Finset.mem_univ me⟩
  have hsum : ∑ _c : Fin ncpu, avgLoad s ≤ ∑ c : Fin ncpu, mlfqLoad s c := by
    rw [Finset.sum_const, Finset.card_univ, Fintype.card_fin, smul_eq_mul, avgLoad_eq]
    exact Nat.mul_div_le _ _
  rcases Finset.exists_le_of_sum_le hne hsum with ⟨c, -, hle⟩
  exact ⟨c, hle⟩

theorem Inv.avgLoad_le (h : Inv s a) : avgLoad s ≤ Fintype.card T := by
  have hsum : ∑ c : Fin ncpu, mlfqLoad s c = ∑ q : RunQueue ncpu, (a q).toFinset.card := by
    rw [Fintype.sum_prod_type]
    refine Finset.sum_congr rfl fun c _ => ?_
    rw [h.load_eq, loadOf]
    exact Finset.sum_congr rfl fun l _ =>
      (List.toFinset_card_of_nodup (h.rq.holds (c, l)).chain.nodup).symm
  have hdisjoint : ((Finset.univ : Finset (RunQueue ncpu)) : Set (RunQueue ncpu)).PairwiseDisjoint
      fun q => (a q).toFinset := by
    intro q _ q' _ hne
    refine Finset.disjoint_left.2 fun t ht ht' => hne ?_
    exact h.rq.apart q q' t (List.mem_toFinset.1 ht) (List.mem_toFinset.1 ht')
  rw [avgLoad_eq]
  refine (Nat.div_le_self _ _).trans ?_
  rw [hsum, ← Finset.card_biUnion hdisjoint]
  exact Finset.card_le_univ _

/-! ## What one call comes to -/

theorem moved_self (s : State ncpu T) (c : Fin ncpu) : ¬ Moved s s c := by
  rintro ⟨l, hne⟩
  exact hne rfl

theorem Transfer.moved (h : Inv s a) (h' : Inv s' a') (ht : Transfer src dst a a' n)
    {c : Fin ncpu} (hm : Moved s s' c) : c = src ∨ c = dst := by
  by_contra hnot
  rw [not_or] at hnot
  rcases hm with ⟨l, hne⟩
  rw [h.sequence_eq, h'.sequence_eq, ht.rest c hnot.1 hnot.2 l] at hne
  exact hne rfl

theorem Transfer.moved_src (h : Inv s a) (h' : Inv s' a') (ht : Transfer src dst a a' n)
    (hn : 0 < n) : Moved s s' src := by
  by_contra hnot
  have hsame : ∀ l, a' (src, l) = a (src, l) := by
    intro l
    by_contra hne
    exact hnot ⟨l, by rwa [h.sequence_eq, h'.sequence_eq]⟩
  have hgone := ht.gone
  simp only [loadOf, hsame] at hgone
  omega

theorem balanceLaw_self (hover : mlfqLoad s me ≤ avgLoad s + 2) : BalanceLaw s s me :=
  ⟨fun c _ hm => absurd hm (moved_self s c), fun hlt => absurd hlt (lt_irrefl _),
    fun hlt => absurd hlt (not_lt.2 hover)⟩

theorem Transfer.pushed (h : Inv s a) (h' : Inv s' a') (ht : Transfer me dst a a' n)
    (hne : dst ≠ me) (hidle : mlfqLoad s dst = 0) (hover : avgLoad s + 2 < mlfqLoad s me)
    (hhalf : 2 * n ≤ mlfqLoad s me) (hsome : (∃ l, 2 ≤ queueLength s (me, l)) → 0 < n) :
    BalanceLaw s s' me := by
  have hgone := ht.gone
  have hcome := ht.come
  rw [← h.load_eq, ← h'.load_eq] at hgone hcome
  refine ⟨fun c hc hm => ?_, fun hlt => absurd hlt (by omega), fun _ htwo => ?_⟩
  · obtain rfl : c = dst := (ht.moved h h' hm).resolve_left hc
    simp only [loadGap]
    omega
  · have hpos := hsome htwo
    have hload : 0 < mlfqLoad s me := Nat.zero_lt_of_lt hover
    exact ⟨dst, by omega, by omega⟩

theorem Transfer.pulled_iff (h : Inv s a) (h' : Inv s' a') (ht : Transfer src me a a' n)
    (hne : src ≠ me) (hn : 0 < n) (hover : mlfqLoad s me ≤ avgLoad s + 2)
    (habove : avgLoad s ≤ mlfqLoad s src) :
    BalanceLaw s s' me ↔
      mlfqLoad s me + 2 < avgLoad s ∧ n + mlfqLoad s me ≤ mlfqLoad s src := by
  have hgone := ht.gone
  have hcome := ht.come
  rw [← h.load_eq, ← h'.load_eq] at hgone hcome
  constructor
  · intro hlaw
    have hlow := hlaw.pulls (by omega)
    have hgap := hlaw.gap src hne (ht.moved_src h h' hn)
    simp only [loadGap] at hgap
    exact ⟨hlow, by omega⟩
  · rintro ⟨hlow, hle⟩
    refine ⟨fun c hc hm => ?_, fun _ => hlow, fun hlt => absurd hlt (not_lt.2 hover)⟩
    obtain rfl : c = src := (ht.moved h h' hm).resolve_right hc
    simp only [loadGap]
    omega

/-- The law holds of what `MLFQ_balance` does on the CPU `me` with all trylocks free. -/
def Balances (s : State ncpu T) (me : Fin ncpu) : Prop :=
  ∃ s', mlfqBalance s me allFree = .ok s' ∧ BalanceLaw s s' me

theorem balances_of_eq {x : Except Fault (State ncpu T)} (heq : mlfqBalance s me allFree = x) :
    Balances s me ↔ ∃ s', x = .ok s' ∧ BalanceLaw s s' me := by
  rw [Balances, heq]

theorem balances_iff (heq : mlfqBalance s me allFree = .ok s') :
    Balances s me ↔ BalanceLaw s s' me := by
  rw [balances_of_eq heq]
  constructor
  · rintro ⟨s'', hok, hlaw⟩
    obtain rfl := Except.ok.inj hok
    exact hlaw
  · exact fun hlaw => ⟨s', rfl, hlaw⟩

theorem Inv.balances_over (h : Inv s a) (hover : avgLoad s + 2 < mlfqLoad s me) :
    Balances s me ↔ ((∃ l, 2 ≤ queueLength s (me, l)) → ∃ c, c ≠ me ∧ mlfqLoad s c = 0) := by
  have hpush : mlfqBalance s me allFree = Sched.mlfqPush s me allFree := if_pos hover
  have hpos : 0 < mlfqLoad s me := Nat.zero_lt_of_lt hover
  rcases pushTarget_spec s me (List.finRange ncpu) none with ⟨heq, hall⟩ | ⟨x, hx, hidle, heq⟩
  · have hself : mlfqBalance s me allFree = .ok s := by rw [hpush, Sched.mlfqPush, heq]
    rw [balances_iff hself]
    constructor
    · intro hlaw htwo
      rcases hlaw.pushes hover htwo with ⟨c, -, hlt⟩
      exact absurd hlt (lt_irrefl _)
    · intro hnone
      refine ⟨fun c _ hm => absurd hm (moved_self s c), fun hlt => absurd hlt (lt_irrefl _),
        fun _ htwo => ?_⟩
      rcases hnone htwo with ⟨c, hc, hzero⟩
      exact absurd hzero (hall c (List.mem_finRange c) hc)
  · rcases pushLoop_transfer hx (by decide : foreachLevel.Nodup) h 0 with ⟨s', a', hrun, h', ht⟩
    have hself : mlfqBalance s me allFree = .ok s' := by
      rw [hpush, Sched.mlfqPush, heq]
      simp only
      rw [if_neg (by omega), hrun]
    rw [balances_iff hself]
    refine iff_of_true (ht.pushed h h' hx hidle hover ?_ ?_) fun _ => ⟨x, hx, hidle⟩
    · simp only [mlfqLoad, foreachLevel, List.map_cons, List.map_nil, List.sum_cons, List.sum_nil]
      omega
    · rintro ⟨l, hl⟩
      have hhalf : queueLength s (me, l) / 2 ∈
          foreachLevel.map fun l => queueLength s (me, l) / 2 :=
        List.mem_map_of_mem ((by decide : ∀ l : Level, l ∈ foreachLevel) l)
      have hle := List.le_sum_of_mem hhalf
      omega

theorem lowShares_eq_zero {c : Fin ncpu} (hzero : lowShares s c 4 = 0) : mlfqLoad s c = 0 := by
  have hshare : ∀ n, share n = 0 → n = 0 := by
    intro n hn
    rw [share] at hn
    split_ifs at hn
    omega
  simp only [lowShares, foreachLevelReverse, List.take_succ_cons, List.take_zero, List.map_cons,
    List.map_nil, List.sum_cons, List.sum_nil, Nat.add_eq_zero_iff] at hzero
  rcases hzero with ⟨h0, h₁, h₂, h3, -⟩
  simp only [mlfqLoad, foreachLevel, List.map_cons, List.map_nil, List.sum_cons, List.sum_nil,
    hshare _ h0, hshare _ h₁, hshare _ h₂, hshare _ h3, Nat.add_zero]

theorem stolen_le_iff_lowShares {c : Fin ncpu} {quota bound : Nat} :
    stolen quota (foreachLevelReverse.map fun l => queueLength s (c, l)) 0 ≤ bound ↔
      ∀ k, k < 4 → lowShares s c k < quota → lowShares s c (k + 1) ≤ bound := by
  rw [stolen_le_iff, and_iff_right (Nat.zero_le _)]
  simp only [← List.map_take, List.map_map, Nat.zero_add, lowShares]
  rfl

theorem stolen_pos {c : Fin ncpu} (hload : 2 ≤ mlfqLoad s c) :
    0 < stolen (mlfqLoad s c / 2) (foreachLevelReverse.map fun l => queueLength s (c, l)) 0 := by
  by_contra hnot
  have hall := stolen_le_iff_lowShares.1 (Nat.le_zero.2 (Nat.eq_zero_of_not_pos hnot))
  -- the shares are nothing level by level
  have hzero : ∀ k, k ≤ 4 → lowShares s c k = 0 := by
    intro k
    induction k with
    | zero => exact fun _ => rfl
    | succ k ih =>
      intro hk
      have hprev := ih (by omega)
      exact Nat.le_zero.1 (hall k (by omega) (by omega))
  have hidle := lowShares_eq_zero (hzero 4 le_rfl)
  omega

theorem MostLoaded.unique {c d : Fin ncpu} (hc : MostLoaded s me c) (hd : MostLoaded s me d) :
    c = d := by
  have hle := (hc.2 d hd.1).1
  have hle' := (hd.2 c hc.1).1
  rcases lt_trichotomy c d with hlt | heq | hlt
  · exact absurd ((hd.2 c hc.1).2 hlt) (by omega)
  · exact heq
  · exact absurd ((hc.2 d hd.1).2 hlt) (by omega)

theorem MostLoaded.above {c : Fin ncpu} (hc : MostLoaded s me c)
    (hlow : mlfqLoad s me < avgLoad s) : avgLoad s ≤ mlfqLoad s c := by
  rcases exists_above_avg s me with ⟨d, hd⟩
  have hne : d ≠ me := by
    rintro rfl
    omega
  exact hd.trans (hc.2 d hne).1

theorem Inv.balances_pull (h : Inv s a) (hover : mlfqLoad s me ≤ avgLoad s + 2)
    (hpull : mlfqBalance s me allFree = Sched.mlfqPull s me allFree)
    (hlow : mlfqLoad s me + 2 < avgLoad s ∨ avgLoad s < 2) :
    Balances s me ↔ ∀ c, MostLoaded s me c → 2 ≤ mlfqLoad s c →
      mlfqLoad s me + 2 < avgLoad s ∧ ∀ k, k < 4 → lowShares s c k < mlfqLoad s c / 2 →
        lowShares s c (k + 1) + mlfqLoad s me ≤ mlfqLoad s c := by
  rcases pullTarget_mostLoaded s me with ⟨heq, hall⟩ | ⟨x, hx, hpos, heq⟩
  · -- all other CPUs are idle
    have hself : mlfqBalance s me allFree = .ok s := by rw [hpull, Sched.mlfqPull, heq]
    rw [balances_iff hself]
    refine iff_of_true (balanceLaw_self hover) fun c hc htwo => ?_
    have hzero := hall c hc.1
    omega
  by_cases htwo : 2 ≤ mlfqLoad s x
  swap
  · have hself : mlfqBalance s me allFree = .ok s := by
      rw [hpull, Sched.mlfqPull, heq]
      exact if_pos (by omega)
    rw [balances_iff hself]
    refine iff_of_true (balanceLaw_self hover) fun c hc hload => ?_
    exact absurd (hx.unique hc ▸ hload) htwo
  rcases pullLoop_transfer hx.1.symm (mlfqLoad s x) (by decide : foreachLevelReverse.Nodup) h 0 0
    with ⟨s', a', n, hrun, h', ht, hn⟩
  have hself : mlfqBalance s me allFree = .ok s' := by
    rw [hpull, Sched.mlfqPull, heq]
    simp only
    rw [if_neg (by omega), hrun]
  rw [Nat.zero_add] at hn
  have hsome : 0 < n := hn ▸ stolen_pos htwo
  have habove : avgLoad s ≤ mlfqLoad s x := by
    rcases hlow with hlow | hlow
    · exact hx.above (by omega)
    · omega
  rw [balances_iff hself, ht.pulled_iff h h' hx.1 hsome hover habove]
  have hbound : n + mlfqLoad s me ≤ mlfqLoad s x ↔
      ∀ k, k < 4 → lowShares s x k < mlfqLoad s x / 2 →
        lowShares s x (k + 1) + mlfqLoad s me ≤ mlfqLoad s x := by
    by_cases hle : mlfqLoad s me ≤ mlfqLoad s x
    · have hstolen : stolen (mlfqLoad s x / 2)
          (foreachLevelReverse.map fun l => queueLength s (x, l)) 0 ≤
            mlfqLoad s x - mlfqLoad s me ↔ _ := stolen_le_iff_lowShares
      rw [← hn] at hstolen
      constructor
      · intro hle' k hk hlt
        have hshare := hstolen.1 (by omega) k hk hlt
        omega
      · intro hall
        have hle' := hstolen.2 fun k hk hlt => by
          have hshare := hall k hk hlt
          omega
        omega
    · -- nothing may be taken from a CPU with fewer threads, but the first share is
      refine iff_of_false (by omega) fun hall => ?_
      have hfirst := hall 0 (by decide) (by
        change 0 < mlfqLoad s x / 2
        omega)
      omega
  rw [hbound]
  constructor
  · intro hgood c hc _
    obtain rfl := hx.unique hc
    exact hgood
  · exact fun hall => hall x hx htwo

/-- For every number of CPUs and every distribution of the threads over the run queues, with all
trylocks free: a call of `MLFQ_balance` keeps the law if and only if the loads are balanceable. -/
theorem balance_law_iff {ncpu : Nat} {T : Type} [DecidableEq T] [Fintype T] {s : State ncpu T}
    {a : RunQueue ncpu → List T} (h : Inv s a) (hcard : Fintype.card T < 2 ^ 64)
    (me : Fin ncpu) : Balances s me ↔ Balanceable s me := by
  have havg := h.avgLoad_le
  by_cases hover : avgLoad s + 2 < mlfqLoad s me
  · rw [h.balances_over hover]
    exact ⟨fun hidle => ⟨fun _ => hidle, fun hle => absurd hover (not_lt.2 hle),
      fun hlow => absurd hlow (by omega)⟩, fun hfit => hfit.idle hover⟩
  have hbalance : mlfqBalance s me allFree =
      if mlfqLoad s me < (avgLoad s + 2 ^ 64 - 2) % 2 ^ 64 then Sched.mlfqPull s me allFree
      else .ok s := if_neg hover
  by_cases hwrap : avgLoad s < 2
  · -- `avg_load - 2` has wrapped around
    have hpull : mlfqBalance s me allFree = Sched.mlfqPull s me allFree := by
      rw [hbalance, if_pos]
      rw [Nat.mod_eq_of_lt (by omega)]
      omega
    rw [h.balances_pull (by omega) hpull (.inr hwrap)]
    constructor
    · intro hall
      refine ⟨fun hgt => absurd hgt hover, fun _ _ c hc => ?_, fun hlow => absurd hlow (by omega)⟩
      rcases pullTarget_mostLoaded s me with ⟨-, hzero⟩ | ⟨x, hx, -, -⟩
      · rw [hzero c hc]
        decide
      · have hle := (hx.2 c hc).1
        by_contra hmany
        have hlow := (hall x hx (by omega)).1
        omega
    · intro hfit c hc htwo
      exact absurd (hfit.low (by omega) hwrap c hc.1) (by omega)
  · have hmod : (avgLoad s + 2 ^ 64 - 2) % 2 ^ 64 = avgLoad s - 2 := by omega
    rw [hmod] at hbalance
    by_cases hlow : mlfqLoad s me < avgLoad s - 2
    · rw [if_pos hlow] at hbalance
      rw [h.balances_pull (by omega) hbalance (.inl (by omega))]
      constructor
      · intro hall
        refine ⟨fun hgt => absurd hgt hover, fun _ hlt => absurd hlt hwrap, fun _ c hc => ?_⟩
        have habove := hc.above (by omega)
        exact (hall c hc (by omega)).2
      · exact fun hfit c hc _ => ⟨by omega, hfit.shares (by omega) c hc⟩
    · rw [if_neg hlow] at hbalance
      rw [balances_iff hbalance]
      refine iff_of_true (balanceLaw_self (by omega)) ⟨fun hgt => absurd hgt hover,
        fun _ hlt => absurd hlt hwrap, fun hlt => absurd hlt (by omega)⟩

/-- Threads that are bound to the CPU that `home` names, not enqueued yet. -/
def boundState (ncpu : Nat) {n : Nat} (home : Fin n → Fin ncpu) : State ncpu (Fin n) :=
  State.init
    (fun t => freshThread ncpu { hard := true, cpuSet := BitVec.twoPow 32 (home t).val })
    fun _ => 10

def enqueueAll {ncpu n : Nat} (home : Fin n → Fin ncpu) : List (Act ncpu (Fin n)) :=
  (List.finRange n).map fun t => .enqueue (home t) t

theorem inv_of_enqueueAll {ncpu n : Nat} (home : Fin n → Fin ncpu) {s : State ncpu (Fin n)}
    (hok : guarded step enqueuesUnlinked (boundState ncpu home) (enqueueAll home) = true)
    (hrun : runs step (boundState ncpu home) (enqueueAll home) = .ok s) : ∃ a, Inv s a := by
  have hstep : ∀ (s : State ncpu (Fin n)) (act : Act ncpu (Fin n)), (∃ a, Inv s a) →
      enqueuesUnlinked s act = true → Safe (fun _ => False) (step s act) fun s' => ∃ a, Inv s' a := by
    rintro s act ⟨a, h⟩ hfit
    exact h.step_safe act hfit
  have hinit : ∃ a, Inv (boundState ncpu home) a :=
    ⟨_, inv_init _ (fun t => by simp [freshThread]) fun t => by simp [freshThread, mlfqHigh]⟩
  exact (Safe.runs hstep hinit hok).of_eq_ok hrun

def oneLoaded : State 3 (Fin 5) :=
  outcome (runs step (boundState 3 fun _ => 0) (enqueueAll fun _ => 0)) (boundState 3 fun _ => 0)

theorem balance_law_iff_one_loaded :
    (List.finRange 3).map (mlfqLoad oneLoaded) = [5, 0, 0] ∧ Balances oneLoaded 0 := by
  have hinv : ∃ a, Inv oneLoaded a :=
    inv_of_enqueueAll (fun _ => 0) (by decide +kernel) (eq_ok_outcome (by decide +kernel))
  have hload : mlfqLoad oneLoaded 0 = 5 := by decide +kernel
  have hidle : mlfqLoad oneLoaded 1 = 0 := by decide +kernel
  have havg : avgLoad oneLoaded = 1 := by decide +kernel
  rcases hinv with ⟨a, h⟩
  refine ⟨by decide +kernel, (balance_law_iff h (by simp) 0).2 ⟨?_, ?_, ?_⟩⟩
  · exact fun _ _ => ⟨1, by decide, hidle⟩
  · intro hle
    rw [hload, havg] at hle
    exact absurd hle (by decide)
  · intro hlow
    rw [hload, havg] at hlow
    exact absurd hlow (by decide)

def twoElsewhere : State 3 (Fin 2) :=
  outcome (runs step (boundState 3 fun _ => 1) (enqueueAll fun _ => 1)) (boundState 3 fun _ => 1)

def sixAndOne : State 2 (Fin 7) :=
  outcome (runs step (boundState 2 fun t => if t.val = 6 then 1 else 0)
    (enqueueAll fun t => if t.val = 6 then 1 else 0))
    (boundState 2 fun t => if t.val = 6 then 1 else 0)

/-- The first of three CPUs, two of them idle, pulls although the average is 0; of two CPUs with six
threads and one, the first keeps its threads. -/
theorem balance_law_broken :
    (∃ a, Inv twoElsewhere a) ∧ avgLoad twoElsewhere = 0 ∧
    (mlfqBalance twoElsewhere 0 allFree).toOption.map
      (fun s => (List.finRange 3).map (mlfqLoad s)) = some [1, 1, 0] ∧
    ¬ Balances twoElsewhere 0 ∧
    (∃ a, Inv sixAndOne a) ∧ avgLoad sixAndOne = 3 ∧
    (mlfqBalance sixAndOne 0 allFree).toOption.map
      (fun s => (List.finRange 2).map (mlfqLoad s)) = some [6, 1] ∧
    ¬ Balances sixAndOne 0 := by
  have hinv : ∃ a, Inv twoElsewhere a :=
    inv_of_enqueueAll (fun _ => 1) (by decide +kernel) (eq_ok_outcome (by decide +kernel))
  have hinv' : ∃ a, Inv sixAndOne a :=
    inv_of_enqueueAll (fun t => if t.val = 6 then 1 else 0) (by decide +kernel)
      (eq_ok_outcome (by decide +kernel))
  have hpulled : (mlfqBalance twoElsewhere 0 allFree).toOption.map
      (fun s => (List.finRange 3).map (mlfqLoad s)) = some [1, 1, 0] := by decide +kernel
  have hkept : (mlfqBalance sixAndOne 0 allFree).toOption.map
      (fun s => (List.finRange 2).map (mlfqLoad s)) = some [6, 1] := by decide +kernel
  have havg : avgLoad twoElsewhere = 0 := by decide +kernel
  have havg' : avgLoad sixAndOne = 3 := by decide +kernel
  refine ⟨hinv, havg, hpulled, ?_, hinv', havg', hkept, ?_⟩
  · rintro ⟨s', heq, hlaw⟩
    have hbefore : mlfqLoad twoElsewhere 0 = 0 := by decide +kernel
    rw [heq] at hpulled
    have hafter : mlfqLoad s' 0 = 1 := (List.cons.inj (Option.some.inj hpulled)).1
    have hlow := hlaw.pulls (by omega)
    rw [havg] at hlow
    exact absurd hlow (by omega)
  · rintro ⟨s', heq, hlaw⟩
    have hbefore : mlfqLoad sixAndOne 0 = 6 := by decide +kernel
    have hbefore' : ∀ c, mlfqLoad sixAndOne c = if c = 0 then 6 else 1 := by decide +kernel
    rw [heq] at hkept
    have hafter : [mlfqLoad s' 0, mlfqLoad s' 1] = [6, 1] := Option.some.inj hkept
    have hone : mlfqLoad s' 1 = 1 := (List.cons.inj (List.cons.inj hafter).2).1
    rcases hlaw.pushes (by omega) ⟨3, by decide +kernel⟩ with ⟨c, hless, hmore⟩
    rw [hbefore'] at hless hmore
    rcases (by decide : ∀ c : Fin 2, c = 0 ∨ c = 1) c with rfl | rfl
    · rw [hbefore] at hless
      exact absurd hless (by decide)
    · rw [hone] at hmore
      exact absurd hmore (by decide)

end Sched
end XytherOS
