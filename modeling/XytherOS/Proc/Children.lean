import Mathlib.Data.Fin.VecNotation
import XytherOS.Proc.Process

/-!
# Children — the children queues and their hand-over to another process

`proc_add_child` and `proc_remove_child` (`sys/thread/process.c`) keep the queue and the parent
pointer of a child together.  There are two functions that hand all children over:
`proc_abandon_children` beside them, and `abandon_children` of `sys/thread/exit.c`, which `exit`
calls and which leaves the parent pointers as they are.
-/

namespace XytherOS
namespace Process

open Ds Function

variable {P : Type} [DecidableEq P] [Fintype P]

def procAddChild (s : State P) (parent child : P) : Except Fault (Ret × State P) := do
  if (s.proc child).parent.isSome then
    return (.err .EINVAL, s)
  else do
    let s ← s.lock (.children parent)
    let (ret, children) ← embeddedEnqueue s.children parent child .unique
    let s := { s with children := children }
    let s := if ret = .ok then
      (s.setProc child { s.proc child with parent := some parent }).getref child
    else s
    let s ← s.unlock (.children parent)
    return (ret, s)

def procRemoveChild (s : State P) (parent child : P) : Except Fault (Ret × State P) := do
  if (s.proc child).parent ≠ some parent then
    return (.err .EINVAL, s)
  else do
    let s ← s.lock (.children parent)
    let (ret, children) ← embeddedQueueRemove s.children parent child
    let s := { s with children := children }
    let s := if ret = .ok then
      (s.putref child).setProc child { (s.putref child).proc child with parent := none }
    else s
    let s ← s.unlock (.children parent)
    return (ret, s)

/-- `queue_foreach_entry` over children, with a body that may fail.  The next node is read before
the body runs. -/
def foreachChild (body : P → State P → Except Fault (Ret × State P)) :
    Nat → Option P → State P → Except Fault (Ret × State P)
  | _, none, s => return (.ok, s)
  | 0, some _, _ => .error .hang
  | n + 1, some child, s => do
      let next := (s.children.node child).next
      match ← body child s with
      | (.err e, s) => return (.err e, s)
      | (.ok, s) => foreachChild body n next s

/-- The parent pointer of the child follows, with the references of the two parents. -/
def State.adopt (s : State P) (new old child : P) : State P :=
  ((s.setProc child { s.proc child with parent := some new }).getref new).putref old

/-- The body of the two loops; with `adopt` it is that of `proc_abandon_children`.  The caller holds
the locks of both parents. -/
def moveChild (adopt : Bool) (new old child : P) (s : State P) : Except Fault (Ret × State P) := do
  s.access child
  assert (child ≠ new ∧ child ≠ old) "Spinlock already held"
  let (ret, children) ← embeddedQueueRelloc s.children new old child .unique .tail
  let s := { s with children := children }
  if ret = .ok ∧ adopt then
    return (ret, s.adopt new old child)
  else
    return (ret, s)

def abandonChildren (s : State P) (curproc target : P) : Except Fault (Ret × State P) :=
  if curproc = target then
    return (.err .EINVAL, s)
  else do
    let s ← s.lock (.children curproc)
    let s ← s.lock (.children target)
    match ← foreachChild (moveChild false target curproc) (Fintype.card P)
        (s.children.queue curproc).head s with
    | (.err e, s) => return (.err e, s)
    | (.ok, s) =>
      let s ← s.unlock (.children target)
      let s ← s.unlock (.children curproc)
      return (.ok, s)

def procAbandonChildren (s : State P) (newParent oldParent : P) :
    Except Fault (Ret × State P) := do
  let s ← s.lock (.children newParent)
  let s ← s.lock (.children oldParent)
  let (_, s) ← foreachChild (moveChild true newParent oldParent) (Fintype.card P)
    (s.children.queue oldParent).head s
  let s ← s.unlock (.children oldParent)
  let s ← s.unlock (.children newParent)
  return (.ok, s)

inductive Abandon
  | abandonChildren
  | procAbandonChildren
  deriving DecidableEq, Repr

def abandon (s : State P) (new old : P) : Abandon → Except Fault (Ret × State P)
  | .abandonChildren => abandonChildren s old new
  | .procAbandonChildren => procAbandonChildren s new old

/-! ## The process tree -/

/-- The children queues are well linked, a child is in the queue of its parent, and no process is
an ancestor of itself. -/
structure Tree (s : State P) (kids : P → List P) : Prop where
  unlocked : Unlocked s
  links : Inv s.children kids
  parent : ∀ p c, c ∈ kids p ↔ s.live c = true ∧ (s.proc c).parent = some p
  rank : ∃ depth : P → Nat, ∀ p c, c ∈ kids p → depth p < depth c

/-- What is to hold after the children of `old` have been handed over to `new`. -/
structure Reparented (s s' : State P) (ret : Ret) (new old : P) : Prop where
  empty : ret = .ok → nodeSequence s'.children old = []
  once : ret = .ok → ∀ c ∈ nodeSequence s.children old, (nodeSequence s'.children new).count c = 1
  parent : ret = .ok → ∀ c ∈ nodeSequence s.children old, (s'.proc c).parent = some new
  none : ret = .ok → ∀ c, s'.live c = true → (s'.proc c).parent ≠ some old
  failed : ret ≠ .ok → s'.children = s.children ∧ s'.proc = s.proc ∧ Unlocked s'

variable {s : State P} {kids : P → List P} {new old : P} {adopt : Bool}

def moveLists (a : P → List P) (new old : P) (l : List P) : P → List P :=
  update (update a old []) new (a new ++ l)

variable {a : P → List P} {l : List P}

theorem mem_moveLists {q c : P} :
    c ∈ moveLists a new old l q ↔
      q = new ∧ (c ∈ a new ∨ c ∈ l) ∨ q ≠ new ∧ q ≠ old ∧ c ∈ a q := by
  rw [moveLists, update_apply]
  split_ifs with hnew
  · simp [hnew]
  · rw [update_apply]
    split_ifs with hold
    · subst hold
      simp [hnew]
    · simp [hnew, hold]

theorem relloc_first {kq : Queues P P} {c : P} (h : Inv kq a)
    (hne : new ≠ old) (hl : a old = c :: l) :
    ∃ kq', embeddedQueueRelloc kq new old c .unique .tail = .ok (.ok, kq') ∧
      Inv kq' (update (update a old l) new (a new ++ [c])) := by
  have hmem : c ∈ a old := by simp [hl]
  have herase : (a old).erase c = l := by rw [hl, List.erase_cons_head]
  have hnew : update a old l new = a new := update_of_ne hne _ _
  have hnot : c ∉ a new := fun hc => hne (h.apart new old c hc hmem)
  obtain ⟨kq', hcall, hinv⟩ := relloc_refines h new old c .unique .tail
  simp only [listCall, if_pos hmem, herase, listEnqueue, hnew, hnot, and_false, if_false,
    listPut] at hcall hinv
  refine ⟨kq', ?_, hinv⟩
  simp only [call, bind_ok_iff, pure_eq_ok, Except.ok.injEq, Prod.mk.injEq] at hcall
  obtain ⟨⟨ret, kq''⟩, hrel, ⟨rfl, -⟩, rfl⟩ := hcall
  exact hrel

/-- What a loop over the children leaves alone, and what it does to the parent pointers. -/
structure Moved (s s' : State P) (adopt : Bool) (new : P) (l : List P) : Prop where
  frame : s' = { s with children := s'.children, proc := s'.proc }
  same : adopt = false → s'.proc = s.proc
  parent : adopt = true → ∀ c, (s'.proc c).parent = if c ∈ l then some new else (s.proc c).parent

theorem adopt_parent (s : State P) (new old child c : P) :
    ((s.adopt new old child).proc c).parent =
      if c = child then some new else (s.proc c).parent := by
  have href : ∀ (t : State P) (p : P), ((t.getref p).proc c).parent = (t.proc c).parent := by
    intro t p
    by_cases hc : c = p
    · subst hc
      simp [State.getref, State.setProc]
    · simp [State.getref, State.setProc, hc]
  have hput : ∀ (t : State P) (p : P), ((t.putref p).proc c).parent = (t.proc c).parent := by
    intro t p
    by_cases hc : c = p
    · subst hc
      simp [State.putref, State.setProc]
    · simp [State.putref, State.setProc, hc]
  rw [State.adopt, hput, href]
  by_cases hc : c = child
  · subst hc
    simp [State.setProc]
  · simp [State.setProc, hc]

theorem moveChild_spec (adopt : Bool) {c : P} (hlinks : Inv s.children a)
    (hne : new ≠ old) (hl : a old = c :: l) (hlive : s.live c = true) (hcn : c ≠ new)
    (hco : c ≠ old) :
    ∃ s', moveChild adopt new old c s = .ok (.ok, s') ∧ Moved s s' adopt new [c] ∧
      Inv s'.children (update (update a old l) new (a new ++ [c])) := by
  obtain ⟨kq, hrel, hinv⟩ := relloc_first hlinks hne hl
  have hbody : moveChild adopt new old c s = .ok (.ok,
      if adopt then ({ s with children := kq } : State P).adopt new old c
      else { s with children := kq }) := by
    rw [moveChild, access_eq hlive, ok_bind, assert, if_pos ⟨hcn, hco⟩, ok_bind, hrel, ok_bind]
    cases adopt <;> rfl
  cases adopt with
  | false => exact ⟨_, hbody, ⟨rfl, fun _ => rfl, fun h => absurd h (by simp)⟩, hinv⟩
  | true =>
    refine ⟨_, hbody, ⟨rfl, fun h => absurd h (by simp), fun _ d => ?_⟩, hinv⟩
    rw [if_pos rfl, adopt_parent]
    simp only [List.mem_singleton]

theorem Moved.trans {s₁ s₂ : State P} {c : P} (h₁ : Moved s s₁ adopt new [c])
    (h₂ : Moved s₁ s₂ adopt new l) : Moved s s₂ adopt new (c :: l) := by
  refine ⟨?_, fun hadopt => (h₂.same hadopt).trans (h₁.same hadopt), fun hadopt d => ?_⟩
  · rw [h₂.frame, h₁.frame]
  · rw [h₂.parent hadopt, h₁.parent hadopt]
    simp only [List.mem_cons, List.not_mem_nil, or_false]
    by_cases hd : d = c <;> by_cases hl : d ∈ l <;> simp [hd, hl]

theorem foreachChild_moves {n : Nat} (hlinks : Inv s.children a)
    (hne : new ≠ old) (hl : a old = l) (hn : l.length ≤ n) (hlive : ∀ c ∈ l, s.live c = true)
    (hnew : new ∉ l) (hold : old ∉ l) :
    ∃ s', foreachChild (moveChild adopt new old) n l.head? s = .ok (.ok, s') ∧
      Moved s s' adopt new l ∧ Inv s'.children (moveLists a new old l) := by
  -- induction on the children that are left
  induction l generalizing s a n with
  | nil =>
    refine ⟨s, by rw [List.head?_nil, foreachChild.eq_def]; rfl,
      ⟨rfl, fun _ => rfl, fun _ c => by simp⟩, ?_⟩
    have hid : moveLists a new old [] = a := by
      rw [moveLists, List.append_nil, ← hl, update_eq_self, update_eq_self]
    rw [hid]
    exact hlinks
  | cons c l ih =>
    rw [List.mem_cons, not_or] at hnew hold
    obtain ⟨s₁, hbody, hmoved, hinv⟩ :=
      moveChild_spec adopt hlinks hne hl (hlive c (by simp)) (Ne.symm hnew.1)
        (Ne.symm hold.1)
    have hnext : (s.children.node c).next = l.head? := by
      have hchain := (hlinks.holds old).chain
      rw [hl, Links.chain_cons, Option.or_none] at hchain
      exact hchain.2.1
    cases n with
    | zero => simp at hn
    | succ n =>
      have hold1 : update (update a old l) new (a new ++ [c]) old = l := by
        rw [update_of_ne (Ne.symm hne), update_self]
      have hlive1 : ∀ d ∈ l, s₁.live d = true := by
        intro d hd
        rw [hmoved.frame]
        exact hlive d (by simp [hd])
      obtain ⟨s₂, hrun, hmoved2, hinv2⟩ :=
        ih hinv hold1 (by simpa using hn) hlive1 hnew.2 hold.2
      refine ⟨s₂, ?_, hmoved.trans hmoved2, ?_⟩
      · rw [List.head?_cons, foreachChild]
        rw [hbody, ok_bind, hnext]
        exact hrun
      · have hlists : moveLists (update (update a old l) new (a new ++ [c]))
            new old l = moveLists a new old (c :: l) := by
          funext q
          simp only [moveLists, update_apply]
          split_ifs with hq hq' <;> simp_all
        rw [← hlists]
        exact hinv2

/-! ### The locks -/

def State.held (s : State P) (a b : Lock P) : State P :=
  { s with locked := update (update s.locked a true) b true }

theorem lock_lock {β : Type} {a b : Lock P} (h : Unlocked s) (hab : a ≠ b)
    (k : State P → Except Fault β) :
    (s.lock a >>= fun t => t.lock b >>= k) = k (s.held a b) := by
  have hb : ({ s with locked := update s.locked a true } : State P).locked b = false := by
    dsimp only
    rw [update_of_ne (Ne.symm hab)]
    exact h b
  rw [lock_eq (h a), ok_bind, lock_eq hb, ok_bind]
  rfl

theorem unlock_unlock {β : Type} {t : State P} {a b : Lock P} (h : Unlocked s) (hab : a ≠ b)
    (ht : t.locked = (s.held a b).locked) (k : State P → Except Fault β) :
    (t.unlock b >>= fun t => t.unlock a >>= k) = k { t with locked := s.locked } := by
  have hb : t.locked b = true := by
    rw [ht]
    exact update_self _ _ _
  have hfree : update t.locked b false = update s.locked a true := by
    rw [ht, State.held, update_idem]
    refine update_eq_self_iff.2 ?_
    rw [update_of_ne (Ne.symm hab), h b]
  have ha : ({ t with locked := update t.locked b false } : State P).locked a = true := by
    dsimp only
    rw [hfree, update_self]
  rw [unlock_eq hb, ok_bind, unlock_eq ha, ok_bind]
  dsimp only
  rw [hfree, update_locked (h a)]

theorem abandon_spec (how : Abandon) (hlock : Unlocked s)
    (hlinks : Inv s.children a) (hne : new ≠ old) (hlive : ∀ c ∈ a old, s.live c = true)
    (hnew : new ∉ a old) (hold : old ∉ a old) :
    ∃ s', abandon s new old how = .ok (.ok, s') ∧
      Moved s s' (decide (how = .procAbandonChildren)) new (a old) ∧
      Inv s'.children (moveLists a new old (a old)) := by
  have hloop : ∀ adopt x y, ∃ t, foreachChild (moveChild adopt new old) (Fintype.card P)
      ((s.held x y).children.queue old).head (s.held x y) = .ok (.ok, t) ∧
      Moved (s.held x y) t adopt new (a old) ∧ Inv t.children (moveLists a new old (a old)) := by
    intro adopt x y
    have hlinks' : Inv (s.held x y).children a := hlinks
    rw [(hlinks'.holds old).head]
    exact foreachChild_moves hlinks' hne rfl (hlinks.holds old).length_le hlive hnew hold
  have hmoved : ∀ adopt x y t, Moved (s.held x y) t adopt new (a old) →
      Moved s { t with locked := s.locked } adopt new (a old) := by
    rintro adopt x y t ⟨hframe, hsame, hparent⟩
    refine ⟨?_, hsame, hparent⟩
    rw [hframe]
    rfl
  have hlocked : ∀ adopt x y t, Moved (s.held x y) t adopt new (a old) →
      t.locked = (s.held x y).locked := by
    rintro adopt x y t ⟨hframe, -, -⟩
    rw [hframe]
  cases how with
  | abandonChildren =>
    obtain ⟨t, hrun, ht, hinv⟩ := hloop false (.children old) (.children new)
    have hab : Lock.children old ≠ Lock.children new := by simp [Ne.symm hne]
    refine ⟨{ t with locked := s.locked }, ?_, hmoved _ _ _ t ht, hinv⟩
    rw [abandon, abandonChildren, if_neg (Ne.symm hne), lock_lock hlock hab, hrun, ok_bind]
    exact unlock_unlock hlock hab (hlocked _ _ _ t ht) _
  | procAbandonChildren =>
    obtain ⟨t, hrun, ht, hinv⟩ := hloop true (.children new) (.children old)
    have hab : Lock.children new ≠ Lock.children old := by simp [hne]
    refine ⟨{ t with locked := s.locked }, ?_, hmoved _ _ _ t ht, hinv⟩
    rw [abandon, procAbandonChildren, lock_lock hlock hab, hrun, ok_bind]
    exact unlock_unlock hlock hab (hlocked _ _ _ t ht) _

/-! ## Orphans -/

/-- In a process tree whose `new` is no child of `old`, the children of `old` are re-parented to
`new` if and only if there are none or `proc_abandon_children` does it. -/
theorem orphans_reparented_iff (htree : Tree s kids) (how : Abandon) (hne : new ≠ old)
    (hnew : (s.proc new).parent ≠ some old) :
    (∃ ret s', abandon s new old how = .ok (ret, s') ∧ Reparented s s' ret new old) ↔
      how = .procAbandonChildren ∨ nodeSequence s.children old = [] := by
  obtain ⟨depth, hdepth⟩ := htree.rank
  have hold : old ∉ kids old := fun h => absurd (hdepth old old h) (lt_irrefl _)
  have hout : new ∉ kids old := fun h => hnew ((htree.parent old new).1 h).2
  have hlive : ∀ c ∈ kids old, s.live c = true := fun c hc => ((htree.parent old c).1 hc).1
  obtain ⟨s', hrun, hmoved, hinv⟩ :=
    abandon_spec how htree.unlocked htree.links hne hlive hout hold
  rw [(htree.links.holds old).nodeSequence_eq]
  have hunlocked : Unlocked s' := by
    rw [hmoved.frame]
    exact htree.unlocked
  have hlive' : s'.live = s.live := by rw [hmoved.frame]
  -- where the children are afterwards
  have hseq : ∀ q, nodeSequence s'.children q = moveLists kids new old (kids old) q :=
    fun q => (hinv.holds q).nodeSequence_eq
  have hempty : nodeSequence s'.children old = [] := by
    rw [hseq, moveLists, update_of_ne (Ne.symm hne), update_self]
  have honce : ∀ c ∈ kids old, (nodeSequence s'.children new).count c = 1 := by
    intro c hc
    rw [hseq]
    refine List.count_eq_one_of_mem (hinv.holds new).chain.nodup ?_
    rw [moveLists, update_self]
    exact List.mem_append_right _ hc
  constructor
  · rintro ⟨ret, s₁, heq, hrep⟩
    rw [hrun] at heq
    obtain ⟨rfl, rfl⟩ := Prod.mk.inj (Except.ok.inj heq)
    cases how with
    | procAbandonChildren => exact .inl rfl
    | abandonChildren =>
      -- a child still points to `old`
      refine .inr (List.eq_nil_iff_forall_not_mem.2 fun c hc => ?_)
      have hparent := hrep.parent rfl c (by rwa [(htree.links.holds old).nodeSequence_eq])
      rw [hmoved.same (by decide), ((htree.parent old c).1 hc).2] at hparent
      exact hne (Option.some.inj hparent).symm
  · intro h
    refine ⟨.ok, s', hrun, fun _ => hempty, ?_, ?_, ?_, fun h => absurd rfl h⟩
    · intro _ c hc
      rw [(htree.links.holds old).nodeSequence_eq] at hc
      exact honce c hc
    · intro _ c hc
      rw [(htree.links.holds old).nodeSequence_eq] at hc
      rcases h with rfl | hnil
      · rw [hmoved.parent (by decide), if_pos hc]
      · rw [hnil] at hc
        exact absurd hc (by simp)
    · intro _ c hc hparent
      rw [hlive'] at hc
      have hstill : c ∉ kids old → (s.proc c).parent ≠ some old :=
        fun hnot heq => hnot ((htree.parent old c).2 ⟨hc, heq⟩)
      rcases h with rfl | hnil
      · rw [hmoved.parent (by decide)] at hparent
        by_cases hmem : c ∈ kids old
        · rw [if_pos hmem] at hparent
          exact hne (Option.some.inj hparent)
        · rw [if_neg hmem] at hparent
          exact hstill hmem hparent
      · have hproc : (s'.proc c).parent = (s.proc c).parent := by
          cases how with
          | abandonChildren => rw [hmoved.same (by decide)]
          | procAbandonChildren =>
            rw [hmoved.parent (by decide), if_neg (by rw [hnil]; simp)]
        rw [hproc] at hparent
        exact hstill (by rw [hnil]; simp) hparent

/-- Process 1 is a child of process 0, and process 2 is a child of process 1. -/
def smallTree : State (Fin 3) :=
  { State.empty (P := Fin 3) fun c =>
      { (newProc c.val : Proc (Fin 3)) with parent := ![none, some 0, some 1] c } with
    live := fun _ => true
    children :=
      { node := fun _ => { prev := none, next := none }
        queue := ![{ head := some 1, tail := some 1, qCount := 1 },
          { head := some 2, tail := some 2, qCount := 1 },
          { head := none, tail := none, qCount := 0 }] }
    initproc := some 0 }

def smallKids : Fin 3 → List (Fin 3) := ![[1], [2], []]

theorem smallTree_tree : Tree smallTree smallKids where
  unlocked _ := rfl
  links :=
    { holds := by
        intro q
        match q with
        | 0 => exact ⟨⟨rfl, rfl, trivial⟩, rfl, rfl, rfl⟩
        | 1 => exact ⟨⟨rfl, rfl, trivial⟩, rfl, rfl, rfl⟩
        | 2 => exact ⟨trivial, rfl, rfl, rfl⟩
      apart := by decide }
  parent := by decide
  rank := ⟨fun p => p.val, by decide⟩

theorem orphans_reparented_iff_small :
    (∃ ret s', abandon smallTree 0 1 .procAbandonChildren = .ok (ret, s') ∧
      Reparented smallTree s' ret 0 1) ↔
        Abandon.procAbandonChildren = .procAbandonChildren ∨
          nodeSequence smallTree.children 1 = [] :=
  orphans_reparented_iff smallTree_tree .procAbandonChildren (by decide) (by decide)

/-- After `abandon_children` the orphan is in the queue of process 0 and points to process 1. -/
theorem orphan_keeps_parent :
    ∃ s', abandon smallTree 0 1 .abandonChildren = .ok (.ok, s') ∧
      Tree smallTree smallKids ∧ 2 ∈ nodeSequence smallTree.children 1 ∧
      (s'.proc 2).parent = some 1 ∧ ¬ Reparented smallTree s' .ok 0 1 := by
  have hmem : 2 ∈ nodeSequence smallTree.children 1 := by decide +kernel
  refine ⟨(outcome (abandon smallTree 0 1 .abandonChildren) (.ok, smallTree)).2, ?_,
    smallTree_tree, hmem, by decide +kernel, fun h => ?_⟩
  · have hret : (outcome (abandon smallTree 0 1 .abandonChildren) (.ok, smallTree)).1 = .ok := by
      decide +kernel
    have hrun := eq_ok_outcome (d := (.ok, smallTree))
      (show (abandon smallTree 0 1 .abandonChildren).isOk = true by decide +kernel)
    rw [hrun]
    exact congrArg Except.ok (Prod.ext hret rfl)
  · have hparent := h.parent rfl 2 hmem
    exact absurd hparent (by decide +kernel)

end Process
end XytherOS
