import XytherOS.Ds.EmbeddedRefine

/-!
# EmbeddedMove — slices of intrusive queues that change the queue

`embedded_queue_migrate` takes a run of neighbouring nodes out of one queue and links it in at
either end of another one, without looking at the nodes in between.
-/

namespace XytherOS
namespace Ds

open Function Links

section Model

variable {Q N : Type} [DecidableEq Q] [DecidableEq N]

/-- The first half of `embedded_queue_migrate`: the nodes from `first` to `last` come out of `src`
and are cut off at both ends. -/
def detachSlice (s : Queues Q N) (src : Q) (first last : N) (n : Nat) : Queues Q N :=
  let prev := (s.node first).prev
  let next := (s.node last).next
  let node := storePrev (storeNext s.node prev next) next prev
  let queue := s.queue src
  { node := storeNext (storePrev node (some first) none) (some last) none
    queue := update s.queue src
      { head := if prev = none then next else queue.head
        tail := if next = none then prev else queue.tail
        qCount := queue.qCount - n } }

/-- The second half of `embedded_queue_migrate`: the nodes from `first` to `last` go to one end of
`dst`. -/
def attachSlice (s : Queues Q N) (dst : Q) (first last : N) (n : Nat) : Whence → Queues Q N
  | .head =>
    let queue := s.queue dst
    { node := storePrev (storeNext s.node (some last) queue.head) queue.head (some last)
      queue := update s.queue dst
        { head := some first
          tail := if queue.tail = none then some last else queue.tail
          qCount := queue.qCount + n } }
  | .tail =>
    let queue := s.queue dst
    { node := storeNext (storePrev s.node (some first) queue.tail) queue.tail (some first)
      queue := update s.queue dst
        { head := if queue.head = none then some first else queue.head
          tail := some last
          qCount := queue.qCount + n } }

def embeddedQueueMigrate (s : Queues Q N) (dst src : Q) (pos n : Nat) (whence : Whence) :
    Except Fault (Ret × Queues Q N) :=
  if (s.queue src).qCount ≤ pos ∨ n = 0 ∨ (s.queue src).qCount < pos + n then
    .ok (.err .EINVAL, s)
  else
    match walk (nexts s.node) pos (s.queue src).head with
    | none => .ok (.err .ENOENT, s)
    | some first =>
      match walk (nexts s.node) (n - 1) (some first) with
      | none => .error .nullDeref
      | some last =>
        .ok (.ok, attachSlice (detachSlice s src first last n) dst first last n whence)

end Model

/-! ## Lists -/

section Lists

variable {Q N : Type}

def listJoin (l m : List N) : Whence → List N
  | .head => m ++ l
  | .tail => l ++ m

theorem mem_listJoin {l m : List N} {w : Whence} {x : N} :
    x ∈ listJoin l m w ↔ x ∈ l ∨ x ∈ m := by
  cases w with
  | head => simp [listJoin, or_comm]
  | tail => simp [listJoin]

/-- `n` nodes from position `pos` on move from `src` to `dst`. -/
def listMigrate [DecidableEq Q] (a : Q → List N) (dst src : Q) (pos n : Nat) (whence : Whence) :
    Q → List N :=
  update (update a src ((a src).take pos ++ (a src).drop (pos + n))) dst
    (listJoin (a dst) (((a src).drop pos).take n) whence)

end Lists

variable {Q N : Type} [DecidableEq Q] [DecidableEq N]

theorem holds_detachSlice {s : Queues Q N} {q : Q} {l₁ m l₂ : List N} {first last : N}
    (h : Holds s q (l₁ ++ (m ++ l₂))) (hfirst : m.head? = some first)
    (hlast : m.getLast? = some last) :
    Holds (detachSlice s q first last m.length) q (l₁ ++ l₂) ∧
      Chain (nexts (detachSlice s q first last m.length).node)
        (prevs (detachSlice s q first last m.length).node) none m none ∧
      FrameOf s (detachSlice s q first last m.length) q (l₁ ++ (m ++ l₂)) := by
  have hnd := h.chain.nodup
  have hnd1 := List.nodup_append.1 hnd
  have hnd2 := List.nodup_append.1 hnd1.2.1
  have hmem_first : first ∈ m := List.mem_of_head? hfirst
  have hmem_last : last ∈ m := List.mem_of_getLast? hlast
  rcases chain_append.1 h.chain with ⟨hl1, hrest⟩
  rcases chain_append.1 hrest with ⟨hm, hl2⟩
  -- the neighbours of the slice
  have hprev : (s.node first).prev = l₁.getLast? := by
    cases m with
    | nil => simp at hfirst
    | cons x xs =>
      have hx : x = first := by simpa using hfirst
      subst hx
      have hmid := hm.1
      rwa [Option.or_none] at hmid
  have hnext : (s.node last).next = l₂.head? := by
    rcases List.eq_nil_or_concat m with rfl | ⟨xs, x, rfl⟩
    · simp at hlast
    · have hx : x = last := by simpa using hlast
      subst hx
      rw [List.concat_eq_append] at hm
      have hmid := hm.mid.2
      simpa [nexts, LinkNode.next] using hmid
  have hout1 : ∀ y ∈ l₁ ++ l₂, ∀ z ∈ m, some z ≠ some y := by
    intro y hy z hz hzy
    rw [Option.some.inj hzy] at hz
    rcases List.mem_append.1 hy with hy | hy
    · exact hnd1.2.2 y hy y (List.mem_append_left _ hz) rfl
    · exact hnd2.2.2 y hz y hy rfl
  have hsub : (l₁ ++ l₂).Nodup := by
    refine List.nodup_append.2 ⟨hnd1.1, hnd2.2.1, fun y hy z hz => ?_⟩
    exact hnd1.2.2 y hy z (List.mem_append_right _ hz)
  refine ⟨⟨?_, ?_, ?_, ?_⟩, ?_, ?_, ?_⟩
  · have hjoin := hl1.join hl2 hsub
    simp only [detachSlice, hprev, hnext, nexts_storeNext, nexts_storePrev, prevs_storeNext,
      prevs_storePrev]
    exact (hjoin.setNext_of_not_mem (fun y hy => hout1 y hy last hmem_last) none).setPrev_of_not_mem
      (fun y hy => hout1 y hy first hmem_first) none
  · simp only [detachSlice, hprev, hnext, update_self]
    cases l₁ with
    | nil => simp
    | cons x xs => simp [h.head, List.getLast?_cons]
  · simp only [detachSlice, hprev, hnext, update_self]
    cases l₂ with
    | nil => simp
    | cons x xs => simp [h.tail, List.getLast?_append, List.getLast?_cons]
  · simp only [detachSlice, update_self, h.count, List.length_append]
    omega
  · have hleft : ∀ y ∈ m, l₁.getLast? ≠ some y := by
      intro y hy hl
      exact hnd1.2.2 y (List.mem_of_getLast? hl) y (List.mem_append_left _ hy) rfl
    have hright : ∀ y ∈ m, l₂.head? ≠ some y := by
      intro y hy hl
      exact hnd2.2.2 y hy y (List.mem_of_head? hl) rfl
    have hcut := ((hm.setNext_of_not_mem hleft l₂.head?).setPrev_of_not_mem hright
      l₁.getLast?).isolate hnd2.1
    simp only [detachSlice, hprev, hnext, nexts_storeNext, nexts_storePrev, prevs_storeNext,
      prevs_storePrev]
    rwa [hfirst, hlast] at hcut
  · intro q' hq
    simp [detachSlice, hq]
  · intro y hy
    have hyf : some first ≠ some y := by
      intro hfy
      exact hy (by simp [← Option.some.inj hfy, hmem_first])
    have hyl : some last ≠ some y := by
      intro hly
      exact hy (by simp [← Option.some.inj hly, hmem_last])
    have hy1 : l₁.getLast? ≠ some y := fun hl => hy (by simp [List.mem_of_getLast? hl])
    have hy2 : l₂.head? ≠ some y := fun hl => hy (by simp [List.mem_of_head? hl])
    simp only [detachSlice, hprev, hnext]
    rw [storeNext_of_ne _ hyl, storePrev_of_ne _ hyf, storePrev_of_ne _ hy2, storeNext_of_ne _ hy1]

theorem holds_attachSlice {s : Queues Q N} {q : Q} {l m : List N} {first last : N}
    (h : Holds s q l) (hm : Chain (nexts s.node) (prevs s.node) none m none)
    (hdisj : ∀ x ∈ l, x ∉ m) (hfirst : m.head? = some first) (hlast : m.getLast? = some last)
    (w : Whence) :
    Holds (attachSlice s q first last m.length w) q (listJoin l m w) ∧
      FrameOf s (attachSlice s q first last m.length w) q (l ++ m) := by
  have hmem_first : first ∈ m := List.mem_of_head? hfirst
  have hmem_last : last ∈ m := List.mem_of_getLast? hlast
  have hframe : ∀ y, y ∉ l ++ m → l.head? ≠ some y ∧ l.getLast? ≠ some y ∧ some first ≠ some y ∧
      some last ≠ some y := by
    intro y hy
    refine ⟨fun hl => ?_, fun hl => ?_, fun hl => ?_, fun hl => ?_⟩
    · exact hy (by simp [List.mem_of_head? hl])
    · exact hy (by simp [List.mem_of_getLast? hl])
    · exact hy (by simp [← Option.some.inj hl, hmem_first])
    · exact hy (by simp [← Option.some.inj hl, hmem_last])
  cases w with
  | head =>
    have hnd : (m ++ l).Nodup := by
      refine List.nodup_append.2 ⟨hm.nodup, h.chain.nodup, fun y hy z hz hyz => ?_⟩
      exact hdisj z hz (hyz ▸ hy)
    refine ⟨⟨?_, ?_, ?_, ?_⟩, ?_, ?_⟩
    · have hjoin := hm.join h.chain hnd
      rw [hlast] at hjoin
      simp only [attachSlice, h.head, nexts_storeNext, nexts_storePrev, prevs_storeNext,
        prevs_storePrev]
      exact hjoin
    · simp [attachSlice, listJoin, hfirst]
    · simp only [attachSlice, update_self, h.tail, listJoin, List.getLast?_append, hlast]
      cases hl : l.getLast? with
      | none => simp
      | some x => simp
    · simp only [attachSlice, update_self, h.count, listJoin, List.length_append]
      omega
    · intro q' hq
      simp [attachSlice, hq]
    · intro y hy
      rcases hframe y hy with ⟨hhead, -, -, hyl⟩
      simp only [attachSlice, h.head]
      rw [storePrev_of_ne _ hhead, storeNext_of_ne _ hyl]
  | tail =>
    have hnd : (l ++ m).Nodup := by
      refine List.nodup_append.2 ⟨h.chain.nodup, hm.nodup, fun y hy z hz hyz => ?_⟩
      exact hdisj y hy (hyz ▸ hz)
    refine ⟨⟨?_, ?_, ?_, ?_⟩, ?_, ?_⟩
    · have hjoin := h.chain.join hm hnd
      rw [hfirst] at hjoin
      simp only [attachSlice, h.tail, nexts_storeNext, nexts_storePrev, prevs_storeNext,
        prevs_storePrev]
      exact hjoin
    · simp only [attachSlice, update_self, h.head, listJoin, List.head?_append, hfirst]
      cases hl : l.head? with
      | none => simp
      | some x => simp
    · simp [attachSlice, listJoin, hlast]
    · simp only [attachSlice, update_self, h.count, listJoin, List.length_append]
    · intro q' hq
      simp [attachSlice, hq]
    · intro y hy
      rcases hframe y hy with ⟨-, htail, hyf, -⟩
      simp only [attachSlice, h.tail]
      rw [storeNext_of_ne _ htail, storePrev_of_ne _ hyf]

theorem slice_split {l : List N} (pos n : Nat) :
    l = l.take pos ++ ((l.drop pos).take n ++ l.drop (pos + n)) := by
  rw [← List.drop_drop, List.take_append_drop, List.take_append_drop]

theorem Holds.slice {s : Queues Q N} {q : Q} {l : List N} (h : Holds s q l) {pos n : Nat}
    (hn : 0 < n) (hpos : pos + n ≤ l.length) :
    ∃ first last, ((l.drop pos).take n).head? = some first ∧
      ((l.drop pos).take n).getLast? = some last ∧
      walk (nexts s.node) pos (s.queue q).head = some first ∧
      walk (nexts s.node) (n - 1) (some first) = some last := by
  have hchain := h.chain
  have hsplit := slice_split (l := l) pos n
  rw [hsplit] at hchain
  have hlen : ((l.drop pos).take n).length = n := by
    rw [List.length_take, List.length_drop]
    omega
  have hlen1 : (l.take pos).length = pos := by
    rw [List.length_take]
    omega
  have hmne : (l.drop pos).take n ≠ [] := by
    intro hnil
    rw [hnil, List.length_nil] at hlen
    omega
  rcases List.exists_cons_of_ne_nil hmne with ⟨first, m', hcons⟩
  rcases List.eq_nil_or_concat ((l.drop pos).take n) with hnil | ⟨ys, last, hconcat⟩
  · exact absurd hnil hmne
  rw [List.concat_eq_append] at hconcat
  have hfirst : ((l.drop pos).take n).head? = some first := by
    rw [hcons]
    rfl
  refine ⟨first, last, hfirst, ?_, ?_, ?_⟩
  · rw [hconcat]
    simp
  · rw [h.head]
    have hwalk := walk_chain hchain hlen1 (List.append_ne_nil_of_left_ne_nil hmne _)
    rw [← hsplit, List.head?_append, hfirst] at hwalk
    exact hwalk
  · have hslice := (chain_append.1 (chain_append.1 hchain).2).1
    have hys : ys.length = n - 1 := by
      rw [hconcat, List.length_append, List.length_singleton] at hlen
      omega
    rw [hconcat] at hslice
    have hend := walk_chain hslice hys (by simp)
    rw [← hconcat, hfirst] at hend
    rw [hend]
    rfl

theorem migrate_refines {s : Queues Q N} {a : Q → List N} (hinv : Inv s a) {dst src : Q}
    (hne : dst ≠ src) {pos n : Nat} (hn : 0 < n) (hpos : pos + n ≤ (a src).length) (w : Whence) :
    ∃ s', embeddedQueueMigrate s dst src pos n w = .ok (.ok, s') ∧
      Inv s' (listMigrate a dst src pos n w) := by
  have hholds := hinv.holds src
  have hcount := hholds.count
  rcases hholds.slice hn hpos with ⟨first, last, hfirst, hlast, hwalk, hwalk'⟩
  have hlen : (((a src).drop pos).take n).length = n := by
    rw [List.length_take, List.length_drop]
    omega
  -- the source is `l₁ ++ m ++ l₂`, and `m` moves
  have hsrc := slice_split (l := a src) pos n
  rw [listMigrate]
  generalize (a src).take pos = l₁ at *
  generalize ((a src).drop pos).take n = m at *
  generalize (a src).drop (pos + n) = l₂ at *
  rw [hsrc] at hholds
  have hchain := hholds.chain
  rcases holds_detachSlice hholds hfirst hlast with ⟨hcut, hiso, hframe⟩
  have hinv1 : Inv (detachSlice s src first last m.length) (update a src (l₁ ++ l₂)) := by
    refine hinv.update hcut hframe ?_ ?_
    · intro q' hq y hy
      rw [← hsrc]
      exact hinv.not_mem hq hy
    · intro q' hq y hy hmem
      refine hinv.not_mem hq hy ?_
      rw [hsrc]
      rcases List.mem_append.1 hmem with hmem | hmem
      · simp [hmem]
      · simp [hmem]
  -- the slice is in no queue now
  have hout : ∀ q, ∀ y ∈ update a src (l₁ ++ l₂) q, y ∉ m := by
    intro q y hy hym
    have hysrc : y ∈ a src := by simp [hsrc, hym]
    by_cases hq : q = src
    · subst hq
      rw [update_self] at hy
      have hnd1 := List.nodup_append.1 hchain.nodup
      rcases List.mem_append.1 hy with hy | hy
      · exact hnd1.2.2 y hy y (List.mem_append_left _ hym) rfl
      · exact (List.nodup_append.1 hnd1.2.1).2.2 y hym y hy rfl
    · rw [update_of_ne hq] at hy
      exact hinv.not_mem hq hy hysrc
  have hdst : update a src (l₁ ++ l₂) dst = a dst := update_of_ne hne _ _
  rcases holds_attachSlice (hinv1.holds dst) hiso (hout dst) hfirst hlast w with ⟨hjoin, hframe'⟩
  rw [hdst] at hjoin hframe'
  refine ⟨attachSlice (detachSlice s src first last n) dst first last n w, ?_, ?_⟩
  · have hguard : ¬ ((s.queue src).qCount ≤ pos ∨ n = 0 ∨ (s.queue src).qCount < pos + n) := by
      omega
    rw [embeddedQueueMigrate, if_neg hguard, hwalk]
    simp only
    rw [hwalk']
  · rw [hlen] at hinv1 hjoin hframe'
    have hapart : ∀ q', q' ≠ dst → ∀ y ∈ update a src (l₁ ++ l₂) q', y ∉ a dst ++ m := by
      intro q' hq y hy hmem
      rcases List.mem_append.1 hmem with hmem | hmem
      · rw [← hdst] at hmem
        exact hinv1.not_mem hq hy hmem
      · exact hout q' y hy hmem
    refine hinv1.update hjoin hframe' hapart fun q' hq y hy hmem => ?_
    refine hapart q' hq y hy ?_
    rw [mem_listJoin] at hmem
    exact List.mem_append.2 hmem

end Ds
end XytherOS
