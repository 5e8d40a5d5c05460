import XytherOS.Proc.Children

/-!
# Fork — `fork` and `exit` (`sys/syscall/fork.c`, `sys/thread/exit.c`)

A new process is in `procQ` before anything is copied into it, and in the children queue of its
parent once the copies are made.  A failure in between gives up one reference to it and leaves it
where it is.
-/

namespace XytherOS
namespace Process

open Ds Function

variable {P : Type} [DecidableEq P] [Fintype P]

/-- Where `fork` may fail outside of the processes: in the allocations of `proc_alloc`; in
`mmap_copy`, `file_copy` or `cred_copy`; in `thread_fork` or `enqueue_global_thread`; in
`thread_schedule`. -/
inductive Stage
  | alloc
  | copy
  | thread
  | schedule
  deriving DecidableEq, Repr

def failAt (fail : Option (Stage × Errno)) (stage : Stage) : Option Errno :=
  match fail with
  | some (at', e) => if at' = stage then some e else none
  | none => none

def inherit (child : Proc P) (parent : Proc P) (p : P) : Proc P :=
  { child with
    sid := parent.sid
    pgid := parent.pgid
    status := parent.status
    parent := some p }

def copyProc (s : State P) (child parent : P) (fail : Option Errno) :
    Except Fault (Ret × State P) := do
  match ← procQInsert s child with
  | (.err e, s) => return (.err e, s)
  | (.ok, s) =>
    match fail with
    | some e => return (.err e, s)
    | none =>
      let s ← s.lock (.children parent)
      let (ret, children) ← embeddedEnqueue s.children parent child .unique
      let s ← { s with children := children }.unlock (.children parent)
      match ret with
      | .err e => return (.err e, s)
      | .ok =>
        let s := s.setProc child (inherit (s.proc child) (s.proc parent) parent)
        return (.ok, s.getref parent)

def forkStart (s : State P) (curproc child : P) (fail : Option (Stage × Errno)) :
    Except Fault (Res Int × State P) :=
  match failAt fail .thread with
  | some e => do return (.err e, ← procFree s (some curproc) child)
  | none =>
    match failAt fail .schedule with
    -- `curproc` has been unlocked by now, and is unlocked again
    | some _ => .error (.assertion "Spinlock must be held.")
    | none => return (.val (s.proc child).pid,
        s.setProc child { s.proc child with started := true })

def fork (s : State P) (curproc : P) (place : Option P) (fail : Option (Stage × Errno)) :
    Except Fault (Res Int × State P) := do
  match ← procAlloc s place (failAt fail .alloc) with
  | (.err e, s) => return (.err e, s)
  | (.val child, s) =>
    match ← copyProc s child curproc (failAt fail .copy) with
    | (.err e, s) => return (.err e, ← procFree s (some curproc) child)
    | (.ok, s) => forkStart s curproc child fail

def signalParent (s : State P) (curproc : P) : Except Fault Unit :=
  match (s.proc curproc).parent with
  | some parent => s.access parent
  | none => return ()

/-- `exit`; `killed` and `cleaned` say that `thread_kill_others` and `mmap_clean` succeed. -/
def exit (s : State P) (curproc : P) (status : Int) (killed cleaned : Bool) :
    Except Fault (State P) := do
  assert (s.initproc ≠ some curproc) "'init process' must not exit, (atleast for now)."
  assert (killed = true) "Error: failed to kill other threads."
  match s.initproc with
  | none => .error (.assertion "Invalid proc.")
  | some init =>
    s.access init
    let (ret, s) ← abandonChildren s curproc init
    assert (ret = .ok) "Failed to abandon children."
    let s := s.setProc curproc
      { s.proc curproc with state := .terminated, status := status * 256 }
    assert (cleaned = true) "Failed to clean memory map."
    signalParent s curproc
    return s

def State.runs (s : State P) (p : P) : Bool :=
  s.live p && (s.proc p).started && !procDied (s.proc p)

/-! ## Sane states -/

/-- The queues are well linked and have live processes in them, and no lock is held.  `l` are the
processes in `procQ` and `kids` the children. -/
structure Sane (s : State P) (l : List P) (kids : P → List P) : Prop where
  unlocked : Unlocked s
  bucket : s.procIDs = []
  procQ : Inv s.procQ fun _ => l
  links : Inv s.children kids
  live : ∀ c ∈ l, s.live c = true
  queued : ∀ p c, c ∈ kids p → c ∈ l
  owner : ∀ p c, c ∈ kids p → s.live p = true

variable {s : State P} {l : List P} {kids : P → List P} {p x : P} {pid : Int}

theorem Sane.kids_live (h : Sane s l kids) {c : P} (hc : c ∈ kids p) : s.live c = true :=
  h.live c (h.queued p c hc)

theorem Sane.setProcs (h : Sane s l kids) (proc : P → Proc P) :
    Sane { s with proc := proc } l kids :=
  ⟨h.unlocked, h.bucket, h.procQ, h.links, h.live, h.queued, h.owner⟩

theorem Sane.place (h : Sane s l kids) (hx : s.live x = false) (pid : Int) :
    Sane (s.place x pid) l kids := by
  have hout : x ∉ l := by
    intro hmem
    rw [h.live x hmem] at hx
    exact Bool.noConfusion hx
  have hchild : ∀ q, x ∉ kids q := fun q hmem => hout (h.queued q x hmem)
  have hkids : kids x = [] := by
    refine List.eq_nil_iff_forall_not_mem.2 fun c hc => ?_
    rw [h.owner x c hc] at hx
    exact Bool.noConfusion hx
  have hlive : ∀ y, s.live y = true → update s.live x true y = true := by
    intro y hy
    by_cases hyx : y = x
    · rw [hyx, update_self]
    · rw [update_of_ne hyx]
      exact hy
  refine ⟨fun a => ?_, h.bucket, h.procQ.update_node (fun _ => hout) _, ?_,
    fun c hc => hlive c (h.live c hc), h.queued, fun q c hc => hlive q (h.owner q c hc)⟩
  · dsimp only [State.place]
    by_cases ha : a = .children x
    · rw [ha, update_self]
    · rw [update_of_ne ha]
      exact h.unlocked a
  · -- the queue of the place is empty as it is
    have hnode := h.links.update_node hchild { prev := none, next := none }
    refine ⟨fun q => ?_, hnode.apart⟩
    have hq := hnode.holds q
    by_cases hqx : q = x
    · subst hqx
      rw [hkids] at hq ⊢
      refine ⟨trivial, ?_, ?_, ?_⟩ <;> simp [State.place, clearQueue]
    · refine ⟨hq.chain, ?_, ?_, ?_⟩
      · simpa [State.place, clearQueue, hqx] using hq.head
      · simpa [State.place, clearQueue, hqx] using hq.tail
      · simpa [State.place, clearQueue, hqx] using hq.count

theorem Sane.procQInsert (h : Sane s l kids) (hx : s.live x = true) (hout : x ∉ l) :
    ∃ procQ, procQInsert s x = .ok (.ok, ({ s with procQ := procQ } : State P).getref x) ∧
      Sane ({ s with procQ := procQ } : State P) (l ++ [x]) kids := by
  obtain ⟨procQ, hrun, hinv⟩ := enqueueWhence_refines h.procQ (fun _ => hout) () .unique .tail
  have hlist : listEnqueue (fun _ : Unit => l) () x .unique .tail =
      (.ok, fun _ => l ++ [x]) := by
    rw [listEnqueue, if_neg (fun hmem => hout hmem.2)]
    refine Prod.ext rfl (funext fun u => ?_)
    simp [listPut]
  rw [hlist] at hrun hinv
  refine ⟨procQ, ?_, ⟨h.unlocked, h.bucket, hinv, h.links, ?_, ?_, h.owner⟩⟩
  · have henq : embeddedEnqueue s.procQ () x .unique = .ok (.ok, procQ) := hrun
    rw [Process.procQInsert, lock_eq (h.unlocked _), ok_bind]
    dsimp only
    rw [henq, ok_bind]
    dsimp only
    rw [if_pos rfl, unlock_eq (by simp [State.getref, State.setProc]), ok_bind]
    simp only [State.getref, State.setProc]
    rw [update_locked (h.unlocked _)]
    rfl
  · intro c hc
    rcases List.mem_append.1 hc with hc | hc
    · exact h.live c hc
    · rw [List.mem_singleton.1 hc]
      exact hx
  · exact fun q c hc => List.mem_append_left _ (h.queued q c hc)

theorem Sane.addChild (h : Sane s l kids) (hx : x ∈ l) (hout : ∀ q, x ∉ kids q)
    (hp : s.live p = true) :
    ∃ children, embeddedEnqueue s.children p x .unique = .ok (.ok, children) ∧
      Sane ({ s with children := children } : State P) l
        (update kids p (kids p ++ [x])) := by
  obtain ⟨children, hrun, hinv⟩ := enqueueWhence_refines h.links hout p .unique .tail
  have hlist : listEnqueue kids p x .unique .tail =
      (.ok, update kids p (kids p ++ [x])) := by
    rw [listEnqueue, if_neg (fun hmem => hout p hmem.2)]
    rfl
  rw [hlist] at hrun hinv
  refine ⟨children, hrun, ⟨h.unlocked, h.bucket, h.procQ, hinv, h.live, ?_, ?_⟩⟩
  · intro q c hc
    by_cases hq : q = p
    · rw [hq, update_self, List.mem_append, List.mem_singleton] at hc
      rcases hc with hc | rfl
      · exact h.queued p c hc
      · exact hx
    · rw [update_of_ne hq] at hc
      exact h.queued q c hc
  · intro q c hc
    by_cases hq : q = p
    · rw [hq]
      exact hp
    · rw [update_of_ne hq] at hc
      exact h.owner q c hc

theorem Sane.procAlloc_cases (h : Sane s l kids) (place : Option P) (fail : Option Errno) :
    (∃ e pids, procAlloc s place fail = .ok (.err e, { s with pids := pids })) ∨
      ∃ x, place = some x ∧ procAlloc s place fail = .ok (.val x,
        ({ s with pids := s.pids + 1 } : State P).place x (toPid (s.pids + 1))) := by
  cases place with
  | none => exact .inl ⟨.ENOMEM, s.pids, rfl⟩
  | some x =>
    cases fail with
    | some e => exact .inl ⟨e, s.pids, rfl⟩
    | none =>
      rw [procAlloc, procAllocPid_eq h.unlocked h.bucket]
      by_cases hfull : NPROC ≤ toPid (s.pids + 1)
      · rw [if_pos hfull]
        exact .inl ⟨.EAGAIN, s.pids + 1, rfl⟩
      · rw [if_neg hfull]
        exact .inr ⟨x, rfl, rfl⟩

/-! ## What `fork` does -/

def MoreRefs (proc proc' : Proc P) : Prop :=
  proc' = { proc with refcnt := proc'.refcnt } ∧ proc.refcnt ≤ proc'.refcnt

theorem MoreRefs.refl (proc : Proc P) : MoreRefs proc proc := ⟨rfl, le_refl _⟩

/-- The process `x` has been added by a `fork` of `p`; it has the group and the session of its parent
if `whole`, and else its own id for both. -/
structure Added (s s' : State P) (p x : P) (l : List P) (kids : P → List P) (whole : Bool) :
    Prop where
  fresh : s.live x = false
  live : s'.live = update s.live x true
  init : s'.initproc = s.initproc
  sane : Sane s' (l ++ [x]) (if whole then update kids p (kids p ++ [x]) else kids)
  other : ∀ y, y ≠ x → MoreRefs (s.proc y) (s'.proc y)
  state : (s'.proc x).state = .embryo
  refs : (s'.proc x).started = true → 3 ≤ (s'.proc x).refcnt
  sid : (s'.proc x).sid = if whole then (s.proc p).sid else toPid (s.pids + 1)
  pgid : (s'.proc x).pgid = if whole then (s.proc p).pgid else toPid (s.pids + 1)

theorem setProc_self (s : State P) (p : P) (proc : Proc P) : (s.setProc p proc).proc p = proc :=
  update_self _ _ _

theorem setProc_of_ne (s : State P) {p q : P} (proc : Proc P) (h : q ≠ p) :
    (s.setProc p proc).proc q = s.proc q :=
  update_of_ne h _ _

theorem getref_self (s : State P) (p : P) :
    (s.getref p).proc p = { s.proc p with refcnt := (s.proc p).refcnt + 1 } := by
  simp [State.getref, State.setProc]

theorem getref_of_ne (s : State P) {p q : P} (h : q ≠ p) : (s.getref p).proc q = s.proc q := by
  simp [State.getref, State.setProc, h]

theorem putref_self (s : State P) (p : P) :
    (s.putref p).proc p = { s.proc p with refcnt := (s.proc p).refcnt - 1 } := by
  simp [State.putref, State.setProc]

theorem putref_of_ne (s : State P) {p q : P} (h : q ≠ p) : (s.putref p).proc q = s.proc q := by
  simp [State.putref, State.setProc, h]

theorem copyProc_spec (h : Sane s l kids) (hx : s.live x = true) (hout : x ∉ l) (hxp : x ≠ p)
    (hp : s.live p = true) (fail : Option Errno) :
    ∃ ret s', copyProc s x p fail = .ok (ret, s') ∧
      s'.live = s.live ∧ s'.initproc = s.initproc ∧ (∀ y, y ≠ x → MoreRefs (s.proc y) (s'.proc y)) ∧
      Sane s' (l ++ [x])
        (if fail.isNone then update kids p (kids p ++ [x]) else kids) ∧
      s'.proc x = (if fail.isNone then inherit ((s.getref x).proc x) (s.proc p) p
        else (s.getref x).proc x) ∧
      ret = match fail with
        | some e => .err e
        | none => .ok := by
  obtain ⟨procQ, hinsert, hsane⟩ := h.procQInsert hx hout
  have hsane1 : Sane (({ s with procQ := procQ } : State P).getref x) (l ++ [x]) kids :=
    hsane.setProcs _
  cases fail with
  | some e =>
    refine ⟨.err e, ({ s with procQ := procQ } : State P).getref x, ?_, rfl, rfl, fun y hy => ?_,
      hsane1, rfl, rfl⟩
    · rw [copyProc, hinsert, ok_bind]
      rfl
    · rw [getref_of_ne _ hy]
      exact MoreRefs.refl _
  | none =>
    have hkids : ∀ q, x ∉ kids q := fun q hmem => hout (h.queued q x hmem)
    obtain ⟨children, henq, hsane2⟩ := hsane1.addChild (by simp) hkids hp
    have hparent : (({ s with procQ := procQ } : State P).getref x).proc p = s.proc p :=
      getref_of_ne _ (Ne.symm hxp)
    let s₂ : State P := { ({ s with procQ := procQ } : State P).getref x with children := children }
    let s3 := (s₂.setProc x (inherit (s₂.proc x) (s₂.proc p) p)).getref p
    refine ⟨.ok, s3, ?_, rfl, rfl, fun y hy => ?_, hsane2.setProcs _, ?_, rfl⟩
    · rw [copyProc, hinsert, ok_bind]
      dsimp only
      rw [lock_eq (hsane1.unlocked _), ok_bind]
      dsimp only
      rw [henq, ok_bind]
      dsimp only
      rw [unlock_eq (by simp), ok_bind]
      dsimp only
      rw [update_locked (hsane1.unlocked _)]
      rfl
    · have hold : (s₂.setProc x (inherit (s₂.proc x) (s₂.proc p) p)).proc y = s.proc y := by
        rw [setProc_of_ne _ _ hy]
        exact getref_of_ne _ hy
      by_cases hyp : y = p
      · rw [hyp] at hold ⊢
        rw [getref_self, hold]
        exact ⟨rfl, by dsimp only; omega⟩
      · rw [getref_of_ne _ hyp, hold]
        exact MoreRefs.refl _
    · have hproc : s₂.proc x = (s.getref x).proc x := rfl
      have hproc' : s₂.proc p = s.proc p := hparent
      rw [getref_of_ne _ hxp, setProc_self, hproc, hproc']
      rfl

/-- The process that `proc_alloc` gives to `fork`, if it succeeds. -/
def forkChild (s : State P) (place : Option P) (fail : Option (Stage × Errno)) : Option P :=
  if (failAt fail .alloc).isSome ∨ NPROC ≤ toPid (s.pids + 1) then none else place

variable {place : Option P} {fail : Option (Stage × Errno)}

theorem fork_none (h : Sane s l kids) (hchild : forkChild s place fail = none) :
    ∃ e pids, fork s p place fail = .ok (.err e, { s with pids := pids }) := by
  cases hplace : place with
  | none => exact ⟨.ENOMEM, s.pids, by rw [fork, procAlloc]; rfl⟩
  | some x =>
    cases halloc : failAt fail .alloc with
    | some e => exact ⟨e, s.pids, by rw [fork, halloc, procAlloc]; rfl⟩
    | none =>
      have hfull : NPROC ≤ toPid (s.pids + 1) := by
        by_contra hleft
        rw [forkChild, halloc, if_neg (by simpa using hleft), hplace] at hchild
        exact absurd hchild (by simp)
      refine ⟨.EAGAIN, s.pids + 1, ?_⟩
      rw [fork, halloc, procAlloc, procAllocPid_eq h.unlocked h.bucket, if_pos hfull]
      rfl

theorem fork_alloc (h : Sane s l kids) (hchild : forkChild s place fail = some x) :
    place = some x ∧ procAlloc s place (failAt fail .alloc) = .ok (.val x,
      ({ s with pids := s.pids + 1 } : State P).place x (toPid (s.pids + 1))) := by
  rw [forkChild] at hchild
  split_ifs at hchild with hnone
  subst hchild
  rw [not_or, Option.not_isSome_iff_eq_none] at hnone
  refine ⟨rfl, ?_⟩
  rw [hnone.1, procAlloc, procAllocPid_eq h.unlocked h.bucket, if_neg hnone.2]
  rfl

theorem Added.putref {s' : State P} {whole : Bool} (h : Added s s' p x l kids whole)
    (hstarted : (s'.proc x).started = false) : Added s (s'.putref x) p x l kids whole := by
  refine ⟨h.fresh, h.live, h.init, h.sane.setProcs _, fun y hy => ?_, ?_, fun hs => ?_, ?_, ?_⟩
  · rw [putref_of_ne _ hy]
    exact h.other y hy
  · rw [putref_self]
    exact h.state
  · rw [putref_self] at hs
    exact absurd (hstarted.symm.trans hs) (by simp)
  · rw [putref_self]
    exact h.sid
  · rw [putref_self]
    exact h.pgid

theorem Added.start {s' : State P} {whole : Bool} (h : Added s s' p x l kids whole)
    (href : 3 ≤ (s'.proc x).refcnt) :
    Added s (s'.setProc x { s'.proc x with started := true }) p x l kids whole := by
  refine ⟨h.fresh, h.live, h.init, h.sane.setProcs _, fun y hy => ?_, ?_, fun _ => ?_, ?_, ?_⟩
  · rw [setProc_of_ne _ _ hy]
    exact h.other y hy
  · rw [setProc_self]
    exact h.state
  · rw [setProc_self]
    exact href
  · rw [setProc_self]
    exact h.sid
  · rw [setProc_self]
    exact h.pgid

theorem failAt_unique {a b : Stage} (ha : failAt fail a ≠ none) (hb : failAt fail b ≠ none) :
    a = b := by
  cases fail with
  | none => exact absurd rfl ha
  | some f =>
    simp only [failAt, ne_eq, ite_eq_right_iff, reduceCtorEq, imp_false, not_not] at ha hb
    rw [← ha, hb]

theorem failAt_some {stage : Stage} {e : Errno} (h : failAt fail stage = some e) :
    fail = some (stage, e) := by
  cases fail with
  | none => exact absurd h (by simp [failAt])
  | some f =>
    rcases f with ⟨at', e'⟩
    simp only [failAt] at h
    split_ifs at h with heq
    rw [heq, Option.some.inj h]

theorem fork_some (h : Sane s l kids) (hp : s.live p = true)
    (hfree : place.any s.live = false) (hchild : forkChild s place fail = some x) :
    if (failAt fail .schedule).isSome then
      fork s p place fail = .error (.assertion "Spinlock must be held.")
    else ∃ ret s', fork s p place fail = .ok (ret, s') ∧
      Added s s' p x l kids (failAt fail .copy).isNone ∧
      (∀ e, ret = .err e ↔ ∃ stage, fail = some (stage, e)) := by
  obtain ⟨rfl, halloc⟩ := fork_alloc h hchild
  have hx : s.live x = false := hfree
  have hout : x ∉ l := by
    intro hmem
    rw [h.live x hmem] at hx
    exact Bool.noConfusion hx
  have hxp : x ≠ p := by
    rintro rfl
    rw [hp] at hx
    exact Bool.noConfusion hx
  let s₀ : State P := ({ s with pids := s.pids + 1 } : State P).place x (toPid (s.pids + 1))
  have hcount : Sane ({ s with pids := s.pids + 1 } : State P) l kids :=
    ⟨h.unlocked, h.bucket, h.procQ, h.links, h.live, h.queued, h.owner⟩
  have hsane : Sane s₀ l kids := hcount.place hx _
  have hlive0 : s₀.live x = true := update_self _ _ _
  have hlivep : s₀.live p = true := by
    change update s.live x true p = true
    rw [update_of_ne (Ne.symm hxp)]
    exact hp
  have hproc0 : s₀.proc x = newProc (toPid (s.pids + 1)) := update_self _ _ _
  have hold0 : ∀ y, y ≠ x → s₀.proc y = s.proc y := fun y hy => update_of_ne hy _ _
  obtain ⟨ret, s₁, hcopy, hlive, hinit, hother, hsane1, hproc, hret⟩ :=
    copyProc_spec hsane hlive0 hout hxp hlivep (failAt fail .copy)
  rw [getref_self, hproc0, hold0 p (Ne.symm hxp)] at hproc
  -- the state after `copy_proc`
  have hadded : Added s s₁ p x l kids (failAt fail .copy).isNone := by
    refine ⟨hx, hlive, hinit, hsane1, fun y hy => ?_, ?_, fun _ => ?_, ?_, ?_⟩
    · rw [← hold0 y hy]
      exact hother y hy
    all_goals
      rw [hproc]
      cases (failAt fail .copy).isNone
    all_goals simp [inherit, newProc]
  have hstarted : (s₁.proc x).started = false := by
    rw [hproc]
    cases (failAt fail .copy).isNone <;> rfl
  have hlive1 : s₁.live x = true := by
    rw [hlive]
    exact hlive0
  have href : (s₁.proc x).refcnt = 3 := by
    rw [hproc]
    cases (failAt fail .copy).isNone <;> rfl
  have hfree1 : procFree s₁ (some p) x = .ok (s₁.putref x) :=
    procFree_drop (by simpa using Ne.symm hxp) hlive1 (by omega)
  rw [fork, halloc, ok_bind]
  dsimp only
  rw [hcopy, ok_bind, hret]
  cases hcopied : failAt fail .copy with
  | some e =>
    -- the copies fail, so nothing later does
    have hsched : failAt fail .schedule = none := by
      by_contra hne
      have hsome : failAt fail .copy ≠ none := by simp [hcopied]
      exact absurd (failAt_unique hsome hne) (by simp)
    rw [hcopied] at hadded
    rw [hsched, if_neg (by simp)]
    dsimp only
    rw [hfree1]
    refine ⟨.err e, _, rfl, hadded.putref hstarted, fun e' => ?_⟩
    simp [failAt_some hcopied]
  | none =>
    rw [hcopied] at hadded
    dsimp only
    rw [forkStart]
    cases hthread : failAt fail .thread with
    | some e =>
      have hsched : failAt fail .schedule = none := by
        by_contra hne
        have hsome : failAt fail .thread ≠ none := by simp [hthread]
        exact absurd (failAt_unique hsome hne) (by simp)
      rw [hsched, if_neg (by simp)]
      dsimp only
      rw [hfree1]
      refine ⟨.err e, _, rfl, hadded.putref hstarted, fun e' => ?_⟩
      simp [failAt_some hthread]
    | none =>
      cases hsched : failAt fail .schedule with
      | some e => rw [if_pos (by simp)]
      | none =>
        rw [if_neg (by simp)]
        refine ⟨.val (s₁.proc x).pid, _, rfl, hadded.start (by omega), fun e => ?_⟩
        refine iff_of_false (by simp) ?_
        rintro ⟨stage, hfail⟩
        have hat : failAt fail stage = some e := by
          rw [hfail, failAt, if_pos rfl]
        cases stage with
        | alloc =>
          rw [forkChild, hat, if_pos (by simp)] at hchild
          exact absurd hchild (by simp)
        | copy => exact absurd (hcopied.symm.trans hat) (by simp)
        | thread => exact absurd (hthread.symm.trans hat) (by simp)
        | schedule => exact absurd (hsched.symm.trans hat) (by simp)

end Process
end XytherOS
