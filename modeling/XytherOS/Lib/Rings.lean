import Mathlib.Data.List.Chain
import Mathlib.Data.List.Nodup

/-!
# Rings — circular doubly linked lists with a sentinel

The nodes of a circular list and its sentinel `h` point to each other both ways, and the last node
points back to the sentinel.  `Ring.splice` moves a run of nodes from one ring to the end of another
by changing the six links around it.
-/

namespace XytherOS
namespace Rings

variable {P : Type*} {next prev next' prev' : P → P}

/-- `y` is the node behind `x`. -/
def Adj (next prev : P → P) (x y : P) : Prop := next x = y ∧ prev y = x

/-- The circular list of `h` has the nodes `l`. -/
structure Ring (next prev : P → P) (h : P) (l : List P) : Prop where
  nodup : (h :: l).Nodup
  chain : ((h :: l) ++ [h]).IsChain (Adj next prev)

variable {h x y : P} {a b l t : List P}

theorem ring_nil : Ring next prev h [] ↔ next h = h ∧ prev h = h := by
  refine ⟨fun hr => by simpa [Adj] using hr.chain, fun hself => ⟨by simp, by simpa [Adj] using hself⟩⟩

/-- The nodes on both sides of a place. -/
theorem Ring.joint (hr : Ring next prev h (a ++ b)) :
    next (a.getLastD h) = b.headD h ∧ prev (b.headD h) = a.getLastD h := by
  have hchain := hr.chain
  rw [← List.cons_append, List.append_assoc, List.isChain_append] at hchain
  refine hchain.2.2 _ (by simp [List.getLast?_cons]) _ ?_
  cases b <;> simp

theorem Ring.reverse (hr : Ring next prev h l) : Ring prev next h l.reverse := by
  refine ⟨by simpa using hr.nodup, ?_⟩
  have hchain := List.isChain_reverse.2 hr.chain
  simp only [List.cons_append, List.reverse_cons, List.reverse_append, List.reverse_nil,
    List.nil_append] at hchain ⊢
  exact hchain.imp fun x y hxy => ⟨hxy.2, hxy.1⟩

/-- The `i`-th node behind the sentinel. -/
theorem Ring.iterate (hr : Ring next prev h l) {i : Nat} (hi : i < l.length) :
    next^[i + 1] h = l[i] := by
  have hchain := List.isChain_iff_getElem.1 hr.chain
  induction i with
  | zero =>
    have hlink := (hchain 0 (by simp)).1
    simpa [List.getElem_append, hi] using hlink
  | succ i ih =>
    have hlink := (hchain (i + 1) (by simp; omega)).1
    rw [Function.iterate_succ_apply', ih (by omega)]
    have hlt : i < l.length := by omega
    simpa [List.getElem_append, hlt, hi] using hlink

theorem Ring.iterate_length (hr : Ring next prev h l) : next^[l.length + 1] h = h := by
  rcases List.eq_nil_or_concat l with rfl | ⟨k, x, rfl⟩
  · simpa using (ring_nil.1 hr).1
  · have hlast := hr.iterate (i := k.length) (by simp)
    have hjoint := (Ring.joint (a := k ++ [x]) (b := []) (by simpa using hr)).1
    simp only [List.concat_eq_append, List.length_append, List.length_singleton] at hlast ⊢
    rw [Function.iterate_succ_apply', hlast]
    simpa using hjoint

/-- The nodes are read off the links. -/
theorem Ring.unique {l' : List P} (hr : Ring next prev h l) (hr' : Ring next prev h l') : l = l' := by
  have hle : ∀ {k k' : List P}, Ring next prev h k → Ring next prev h k' → k'.length ≤ k.length := by
    intro k k' hk hk'
    by_contra hlt
    have hnode := hk'.iterate (i := k.length) (by omega)
    rw [hk.iterate_length] at hnode
    exact (List.nodup_cons.1 hk'.nodup).1 (hnode ▸ List.getElem_mem _)
  have hlen : l.length = l'.length := le_antisymm (hle hr' hr) (hle hr hr')
  refine List.ext_getElem hlen fun i hi hi' => ?_
  rw [← hr.iterate hi, hr'.iterate hi']

/-- A chain stays one when the links inside it do. -/
theorem isChain_congr (hnd : l.Nodup) (hchain : l.IsChain (Adj next prev))
    (hnext : ∀ u ∈ l, l.getLast? ≠ some u → next' u = next u)
    (hprev : ∀ v ∈ l, l.head? ≠ some v → prev' v = prev v) : l.IsChain (Adj next' prev') := by
  induction l with
  | nil => exact .nil
  | cons x l ih =>
    cases l with
    | nil => exact .singleton x
    | cons y l =>
      rw [List.nodup_cons] at hnd
      rw [List.isChain_cons_cons] at hchain ⊢
      have hxy : x ≠ y := fun heq => hnd.1 (by simp [heq])
      refine ⟨⟨?_, ?_⟩, ih hnd.2 hchain.2 ?_ ?_⟩
      · refine (hnext x (by simp) fun hlast => hnd.1 ?_).trans hchain.1.1
        rw [List.getLast?_cons_cons] at hlast
        exact List.mem_of_getLast? hlast
      · exact (hprev y (by simp) (by simpa using hxy)).trans hchain.1.2
      · intro u hu hlast
        exact hnext u (List.mem_cons_of_mem _ hu) (by rwa [List.getLast?_cons_cons])
      · intro v hv _
        refine hprev v (List.mem_cons_of_mem _ hv) fun heq => hnd.1 ?_
        rw [List.head?_cons, Option.some.injEq] at heq
        rwa [heq]

/-- The six links that change when the run from `x` to `y` is taken out between `p` and `n`, and put
between `q` and `d`. -/
structure Spliced (next prev next' prev' : P → P) (p n x y q d : P) : Prop where
  closed : Adj next' prev' p n
  first : Adj next' prev' q x
  last : Adj next' prev' y d
  next : ∀ u, u ≠ p → u ≠ q → u ≠ y → next' u = next u
  prev : ∀ v, v ≠ n → v ≠ x → v ≠ d → prev' v = prev v

/-- A run of one ring goes to the end of another. -/
theorem Ring.splice {d : P} (hsrc : Ring next prev h (a ++ x :: t ++ b)) (hdst : Ring next prev d l)
    (hdis : (d :: l).Disjoint (h :: (a ++ x :: t ++ b)))
    (hs : Spliced next prev next' prev' (a.getLastD h) (b.headD h) x (t.getLastD x)
      (l.getLastD d) d) :
    Ring next' prev' d (l ++ x :: t) ∧ Ring next' prev' h (a ++ b) := by
  have hp : a.getLastD h ∈ h :: a := List.getLastD_mem_cons
  have hy : t.getLastD x ∈ x :: t := List.getLastD_mem_cons
  have hq : l.getLastD d ∈ d :: l := List.getLastD_mem_cons
  have hn : b.headD h ∈ b ++ [h] := by cases b <;> simp
  have hnd := hsrc.nodup
  have hdl := hdst.nodup
  simp only [List.nodup_cons, List.nodup_append, List.mem_append, List.mem_cons, not_or] at hnd hdl
  rcases hnd with ⟨⟨⟨hha, hhx, hht⟩, hhb⟩, ⟨ha, ⟨hxt, ht⟩, hat⟩, hb, habt⟩
  -- nodes of different parts are different
  have hA : ∀ u ∈ h :: a, ∀ v ∈ x :: t, u ≠ v := by grind
  have hB : ∀ u ∈ b ++ [h], ∀ v ∈ x :: t, u ≠ v := by grind
  have hAB : ∀ u ∈ h :: a, ∀ v ∈ b, u ≠ v := by grind
  have hBA : ∀ u ∈ b ++ [h], ∀ v ∈ a, u ≠ v := by grind
  have hD : ∀ u ∈ d :: l, ∀ v ∈ h :: (a ++ x :: t ++ b), u ≠ v := fun u hu v hv heq =>
    hdis hu (heq ▸ hv)
  have hDA : ∀ u ∈ d :: l, ∀ v ∈ h :: a, u ≠ v := fun u hu v hv => hD u hu v (by grind)
  have hDX : ∀ u ∈ d :: l, ∀ v ∈ x :: t, u ≠ v := fun u hu v hv => hD u hu v (by grind)
  have hDB : ∀ u ∈ d :: l, ∀ v ∈ b ++ [h], u ≠ v := fun u hu v hv => hD u hu v (by grind)
  have hsplit : (h :: (a ++ x :: t ++ b)) ++ [h] = (h :: a) ++ ((x :: t) ++ (b ++ [h])) := by simp
  have hchain := hsrc.chain
  rw [hsplit, List.isChain_append, List.isChain_append] at hchain
  have hchain' := hdst.chain
  rw [List.isChain_append] at hchain'
  have hca : (h :: a).IsChain (Adj next' prev') := by
    refine isChain_congr (by simp [hha, ha]) hchain.1 (fun u hu hlast => ?_) fun v hv hfirst => ?_
    · refine hs.next u ?_ (hDA _ hq _ hu).symm (hA _ hu _ hy)
      simpa [List.getLast?_cons, eq_comm] using hlast
    · refine hs.prev v ?_ (hA _ hv _ (by simp)) (hDA _ (by simp) _ hv).symm
      have hva : v ∈ a := by simpa [Ne.symm (by simpa using hfirst : h ≠ v)] using hv
      exact (hBA _ hn _ hva).symm
  have hcx : (x :: t).IsChain (Adj next' prev') := by
    refine isChain_congr (by simp [hxt, ht]) hchain.2.1.1 (fun u hu hlast => ?_) fun v hv hfirst => ?_
    · refine hs.next u (hA _ hp _ hu).symm (hDX _ hq _ hu).symm ?_
      simpa [List.getLast?_cons, eq_comm] using hlast
    · refine hs.prev v (hB _ hn _ hv).symm ?_ (hDX _ (by simp) _ hv).symm
      simpa [eq_comm] using hfirst
  have hcb : (b ++ [h]).IsChain (Adj next' prev') := by
    refine isChain_congr (by grind) hchain.2.1.2.1 (fun u hu hlast => ?_) fun v hv hfirst => ?_
    · have hub : u ∈ b := by
        rcases List.mem_append.1 hu with hub | huh
        · exact hub
        · exact absurd (by simp [List.mem_singleton.1 huh]) hlast
      exact hs.next u (hAB _ hp _ hub).symm (hDB _ hq _ hu).symm (hB _ hu _ hy)
    · refine hs.prev v ?_ (hB _ hv _ (by simp)) (hDB _ (by simp) _ hv).symm
      rintro rfl
      cases b <;> simp at hfirst
  have hcl : (d :: l).IsChain (Adj next' prev') := by
    refine isChain_congr (by simp [hdl]) hchain'.1 (fun u hu hlast => ?_) fun v hv hfirst => ?_
    · refine hs.next u (hDA _ hu _ hp) ?_ (hDX _ hu _ hy)
      simpa [List.getLast?_cons, eq_comm] using hlast
    · refine hs.prev v (hDB _ hv _ hn) (hDX _ hv _ (by simp)) ?_
      simpa [eq_comm] using hfirst
  refine ⟨⟨?_, ?_⟩, ?_, ?_⟩
  · rw [← List.cons_append, List.nodup_append]
    refine ⟨by simp [hdl], by simp [hxt, ht], hDX⟩
  · rw [← List.cons_append, List.append_assoc]
    refine hcl.append (hcx.append (.singleton d) ?_) ?_
    · simpa [List.getLast?_cons] using hs.last
    · simpa [List.getLast?_cons] using hs.first
  · rw [← List.cons_append, List.nodup_append]
    exact ⟨by simp [hha, ha], hb, hAB⟩
  · rw [← List.cons_append, List.append_assoc]
    refine hca.append hcb ?_
    have hjoint := hs.closed
    cases b <;> simpa [List.getLast?_cons] using hjoint

end Rings
end XytherOS
