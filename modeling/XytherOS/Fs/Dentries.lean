import XytherOS.Fs.Path
import Mathlib.Logic.Function.Basic

/-!
# Dentries — the reference counts of `fs/dentry.c`

A dentry counts the references to it: those of its holders, one for the link to its parent, and one
for each of its children.  `dput` and `dclose` give one back and destroy the dentry with the last;
`dunbind` gives back two, that of the link and that of the parent, and destroys nothing.

* The callers hold the locks that the functions assert, and the locks are left out.
* The siblings of a dentry are the list of the children of its parent, the newest first.
* Who holds a dentry is not in the kernel's state: `held` counts the references that callers have
  been given and have not given back.
-/

namespace XytherOS
namespace Fs
namespace Dentries

open Function

variable {D : Type} [DecidableEq D]

/-- The dentries `D`: the fields of the C struct, which of them are allocated, and the references of
their holders. -/
structure State (D : Type) where
  dCount : D → Int
  dName : D → Option Name
  dParent : D → Option D
  dChildren : D → List D
  live : D → Bool
  held : D → Nat

namespace State

def use (s : State D) (d : D) : Except Fault Unit :=
  if s.live d then .ok () else .error .wildAccess

def addCount (s : State D) (d : D) (n : Int) : State D :=
  { s with dCount := update s.dCount d (s.dCount d + n) }

def hold (s : State D) (d : D) : State D :=
  { s with held := update s.held d (s.held d + 1) }

def drop (s : State D) (d : D) : State D :=
  { s with held := update s.held d (s.held d - 1) }

def dbind (s : State D) (dir child : D) : Except Fault (State D) := do
  s.use dir
  s.use child
  let linked : State D :=
    { s with
      dChildren := update s.dChildren dir (child :: s.dChildren dir)
      dParent := update s.dParent child (some dir) }
  return (linked.addCount child 1).addCount dir 1

def dunbind (s : State D) (dentry : D) : Except Fault (Ret × State D) := do
  s.use dentry
  match s.dParent dentry with
  | none => return (.err .EINVAL, s)
  | some parent =>
    s.use parent
    let removed : State D :=
      { s with dChildren := update s.dChildren parent ((s.dChildren parent).erase dentry) }
    let dropped := (removed.addCount parent (-1)).addCount dentry (-1)
    return (.ok, { dropped with dParent := update s.dParent dentry none })

def ddestroy (s : State D) (dentry : D) : Except Fault (State D) := do
  s.use dentry
  let (_, s) ← s.dunbind dentry
  return { s with live := update s.live dentry false }

def dinit (s : State D) (dentry : D) (name : Option Name) : Ret × State D :=
  let cleared : State D :=
    { s with
      dCount := update s.dCount dentry 1
      dName := update s.dName dentry name
      dParent := update s.dParent dentry none
      dChildren := update s.dChildren dentry []
      live := update s.live dentry true }
  (if name.isNone then .err .ENOMEM else .ok, cleared)

def dalloc (s : State D) (place : Option D) (name : Option Name) : Except Fault (Ret × State D) :=
  match place with
  | none => .ok (.err .ENOMEM, s)
  | some dentry =>
    match s.dinit dentry name with
    | (.err e, s) => do
        let s ← s.ddestroy dentry
        return (.err e, s)
    | (.ok, s) => .ok (.ok, s.hold dentry)

def dopen (s : State D) (dentry : D) : Except Fault (Ret × State D) := do
  s.use dentry
  let s := s.addCount dentry 1
  if 0 < s.dCount dentry then return (.ok, s.hold dentry) else return (.err .EINVAL, s)

def dclose (s : State D) (dentry : D) : Except Fault (State D) := do
  s.use dentry
  let s := s.addCount dentry (-1)
  if s.dCount dentry ≤ 0 then s.ddestroy dentry else return s

def dput (s : State D) (dentry : D) : Except Fault (State D) := do
  s.use dentry
  let put := s.addCount dentry (-1)
  if s.dCount dentry = 1 then put.dclose dentry else return put

def findChild (s : State D) (name : Name) : List D → Except Fault (Option D)
  | [] => .ok none
  | d :: ds => do
      s.use d
      if s.dName d = some name then return some d
      s.findChild name ds

def dlookup (s : State D) (dir : D) (name : Name) (pdp : Bool) : Except Fault (Ret × State D) := do
  s.use dir
  match ← s.findChild name (s.dChildren dir) with
  | none => return (.err .ENOENT, s)
  | some d =>
    if pdp then
      let (_, s) ← s.dopen d
      return (.ok, s)
    else return (.ok, s)

end State

inductive Call (D : Type)
  | dalloc (place : Option D) (name : Option Name)
  | dbind (dir child : D)
  | dunbind (dentry : D)
  | dopen (dentry : D)
  | dlookup (dir : D) (name : Name) (pdp : Bool)
  | dput (dentry : D)
  | dclose (dentry : D)

/-- One call.  The reference that `dput` and `dclose` give back is one of the caller's. -/
def step (s : State D) : Call D → Except Fault (State D)
  | .dalloc place name => do
      let out ← s.dalloc place name
      return out.2
  | .dbind dir child => s.dbind dir child
  | .dunbind dentry => do
      let out ← s.dunbind dentry
      return out.2
  | .dopen dentry => do
      let out ← s.dopen dentry
      return out.2
  | .dlookup dir name pdp => do
      let out ← s.dlookup dir name pdp
      return out.2
  | .dput dentry => (s.drop dentry).dput dentry
  | .dclose dentry => (s.drop dentry).dclose dentry

/-- What the callers see to: the allocator returns an unused block, the dentries of a call are
allocated, no dentry is bound to itself, and only a holder gives a reference back. -/
def allowed (s : State D) : Call D → Bool
  | .dalloc place _ => place.all fun d => !s.live d
  | .dbind dir child => s.live dir && s.live child && decide (dir ≠ child)
  | .dunbind dentry => s.live dentry
  | .dopen dentry => s.live dentry
  | .dlookup dir _ _ => s.live dir
  | .dput dentry => s.live dentry && decide (0 < s.held dentry)
  | .dclose dentry => s.live dentry && decide (0 < s.held dentry)

def State.init : State D where
  dCount _ := 0
  dName _ := none
  dParent _ := none
  dChildren _ := []
  live _ := false
  held _ := 0

/-- The references to a dentry: its holders, the link to its parent and its children. -/
def State.refs (s : State D) (d : D) : Nat :=
  s.held d + (if (s.dParent d).isSome then 1 else 0) + (s.dChildren d).length

/-- The lists of children and the links to the parents are two views of one tree. -/
structure Linked (s : State D) : Prop where
  listed : ∀ p d, s.live p = true → (d ∈ s.dChildren p ↔ s.live d = true ∧ s.dParent d = some p)
  nodup : ∀ p, s.live p = true → (s.dChildren p).Nodup
  up : ∀ d p, s.live d = true → s.dParent d = some p → s.live p = true
  irrefl : ∀ d, s.live d = true → s.dParent d ≠ some d

/-- The counts are those of the references, and a dentry is allocated for as long as it has one. -/
structure Counted (s : State D) : Prop extends Linked s where
  count : ∀ d, s.live d = true → s.dCount d = s.refs d
  pos : ∀ d, s.live d = true → 0 < s.refs d
  dead : ∀ d, s.live d = false → s.held d = 0

/-- What holds after a call: the references are counted, and a dentry that has been destroyed had
one holder and neither a parent nor children. -/
def Law (s s' : State D) : Prop :=
  Counted s' ∧ ∀ d, s.live d = true → s'.live d = false →
    s.held d = 1 ∧ s.dParent d = none ∧ s.dChildren d = []

/-- The calls that keep the law: a dentry is bound once, and `dunbind` gives back no last
reference. -/
def fine (s : State D) : Call D → Bool
  | .dbind _ child => (s.dParent child).isNone
  | .dunbind dentry =>
    (s.dParent dentry).all fun parent => decide (1 < s.dCount dentry ∧ 1 < s.dCount parent)
  | _ => true

/-! ## Holding and giving back -/

section Hold

variable {s : State D} {d : D}

theorem Counted.recount (h : Counted s) {n : Int} {k : Nat} (hd : s.live d = true)
    (hn : n = k + (if (s.dParent d).isSome then 1 else 0 : Nat) + (s.dChildren d).length)
    (hpos : 0 < n) :
    Counted { s with dCount := update s.dCount d n, held := update s.held d k } := by
  refine ⟨⟨h.listed, h.nodup, h.up, h.irrefl⟩, ?_, ?_, ?_⟩
  · intro e he
    by_cases hde : e = d
    · subst hde
      simp only [State.refs, update_self]
      omega
    · simpa [State.refs, update_of_ne hde] using h.count e he
  · intro e he
    by_cases hde : e = d
    · subst hde
      simp only [State.refs, update_self]
      omega
    · simpa [State.refs, update_of_ne hde] using h.pos e he
  · intro e he
    have hde : e ≠ d := by
      rintro rfl
      simp [hd] at he
    simpa [update_of_ne hde] using h.dead e he

theorem dopen_law (h : Counted s) (hd : s.live d = true) :
    ∃ s', s.dopen d = .ok (.ok, s') ∧ Counted s' ∧ s'.live = s.live := by
  have hcount := h.count d hd
  have hpos : 0 < s.dCount d + 1 := by omega
  refine ⟨(s.addCount d 1).hold d, ?_, ?_, rfl⟩
  · simp [State.dopen, State.use, State.addCount, hd, hpos]
  · refine h.recount (k := s.held d + 1) hd ?_ hpos
    simp only [State.refs] at hcount
    omega

theorem refs_one (hheld : 0 < s.held d) (hone : s.refs d = 1) :
    s.held d = 1 ∧ s.dParent d = none ∧ s.dChildren d = [] := by
  rw [State.refs] at hone
  refine ⟨by omega, ?_, List.length_eq_zero_iff.1 (by omega)⟩
  cases hparent : s.dParent d with
  | none => rfl
  | some p =>
    simp only [hparent, Option.isSome_some, if_true] at hone
    omega

theorem Counted.destroy (h : Counted s) (hd : s.live d = true) (hheld : 0 < s.held d)
    (hone : s.refs d = 1) {c : D → Int} (hc : ∀ e, e ≠ d → c e = s.dCount e) :
    Counted { s.drop d with dCount := c, live := update s.live d false } := by
  rcases refs_one hheld hone with ⟨hlast, hparent, hchildren⟩
  have hlive : ∀ e, update s.live d false e = true ↔ e ≠ d ∧ s.live e = true := by
    intro e
    by_cases hde : e = d
    · simp [hde]
    · simp [hde]
  have horphan : ∀ e, s.live e = true → s.dParent e ≠ some d := by
    intro e he hp
    have hmem := (h.listed d e hd).2 ⟨he, hp⟩
    simp [hchildren] at hmem
  have hrefs : ∀ e, e ≠ d →
      State.refs { s.drop d with dCount := c, live := update s.live d false } e = s.refs e := by
    intro e hde
    have hheld' : (s.drop d).held e = s.held e := update_of_ne hde _ _
    rw [State.refs, State.refs, ← hheld']
    rfl
  refine ⟨⟨?_, ?_, ?_, ?_⟩, ?_, ?_, ?_⟩
  · intro p e hp
    rcases (hlive p).1 hp with ⟨hpd, hp⟩
    have hlisted := h.listed p e hp
    by_cases hde : e = d
    · subst hde
      simpa [State.drop, hparent] using hlisted
    · simpa [State.drop, hde] using hlisted
  · intro p hp
    exact h.nodup p ((hlive p).1 hp).2
  · intro e p he hp
    have he' := ((hlive e).1 he).2
    refine (hlive p).2 ⟨?_, h.up e p he' hp⟩
    rintro rfl
    exact horphan e he' hp
  · intro e he
    exact h.irrefl e ((hlive e).1 he).2
  · intro e he
    rcases (hlive e).1 he with ⟨hde, he'⟩
    rw [hrefs e hde, ← h.count e he']
    exact hc e hde
  · intro e he
    rcases (hlive e).1 he with ⟨hde, he'⟩
    rw [hrefs e hde]
    exact h.pos e he'
  · intro e he
    by_cases hde : e = d
    · subst hde
      simp [State.drop, hlast]
    · have he' : s.live e = false := by simpa [update_of_ne hde] using he
      simpa [State.drop, update_of_ne hde] using h.dead e he'

theorem drop_law (h : Counted s) (hd : s.live d = true) (hheld : 0 < s.held d)
    (hmore : s.refs d ≠ 1) : Law s ((s.drop d).addCount d (-1)) := by
  have hcount := h.count d hd
  have hpos := h.pos d hd
  refine ⟨?_, fun e he he' => absurd (he.symm.trans he') (by simp)⟩
  refine h.recount (k := s.held d - 1) hd ?_ ?_
  · simp only [State.refs] at hcount
    simp only [State.drop]
    omega
  · simp only [State.drop]
    omega

theorem destroy_law (h : Counted s) (hd : s.live d = true) (hheld : 0 < s.held d)
    (hone : s.refs d = 1) {c : D → Int} (hc : ∀ e, e ≠ d → c e = s.dCount e) :
    ∃ s', State.ddestroy { s.drop d with dCount := c } d = .ok s' ∧ Law s s' := by
  have hlast := refs_one hheld hone
  refine ⟨{ s.drop d with dCount := c, live := update s.live d false }, ?_,
    h.destroy hd hheld hone hc, ?_⟩
  · simp [State.ddestroy, State.dunbind, State.use, State.drop, hd, hlast.2.1]
  · intro e he he'
    by_cases hde : e = d
    · exact hde ▸ hlast
    · simp [hde, he] at he'

theorem dclose_law (h : Counted s) (hd : s.live d = true) (hheld : 0 < s.held d) :
    ∃ s', (s.drop d).dclose d = .ok s' ∧ Law s s' := by
  have hcount : s.dCount d = s.refs d := h.count d hd
  have hpos := h.pos d hd
  by_cases hone : s.refs d = 1
  · rcases destroy_law (c := update s.dCount d (s.dCount d - 1)) h hd hheld hone
      (fun e hde => update_of_ne hde _ _) with ⟨s', heq, hs'⟩
    refine ⟨s', ?_, hs'⟩
    rw [← heq]
    simp [State.dclose, State.use, State.addCount, State.drop, hd, hcount, hone]
  · refine ⟨_, ?_, drop_law h hd hheld hone⟩
    have hmore : ¬ s.dCount d + -1 ≤ 0 := by omega
    simp [State.dclose, State.use, State.addCount, State.drop, hd, hmore]

theorem dput_law (h : Counted s) (hd : s.live d = true) (hheld : 0 < s.held d) :
    ∃ s', (s.drop d).dput d = .ok s' ∧ Law s s' := by
  have hcount : s.dCount d = s.refs d := h.count d hd
  by_cases hone : s.refs d = 1
  · -- the count is taken down twice
    rcases destroy_law (c := update s.dCount d (s.dCount d - 2)) h hd hheld hone
      (fun e hde => update_of_ne hde _ _) with ⟨s', heq, hs'⟩
    refine ⟨s', ?_, hs'⟩
    rw [← heq]
    simp [State.dput, State.dclose, State.use, State.addCount, State.drop, hd, hcount, hone]
  · refine ⟨_, ?_, drop_law h hd hheld hone⟩
    have hmore : ¬ s.dCount d = 1 := by omega
    simp [State.dput, State.use, State.addCount, State.drop, hd, hmore]

end Hold

/-! ## Binding and unbinding -/

section Bind

variable {s : State D} {dir child d p : D}

theorem dbind_eq (hdir : s.live dir = true) (hchild : s.live child = true) (hne : dir ≠ child) :
    s.dbind dir child = .ok
      { s with
        dCount := update (update s.dCount child (s.dCount child + 1)) dir
          (s.dCount dir + 1)
        dParent := update s.dParent child (some dir)
        dChildren := update s.dChildren dir (child :: s.dChildren dir) } := by
  simp [State.dbind, State.use, State.addCount, hdir, hchild, update_of_ne hne]

theorem Linked.dbind (h : Linked s) (hdir : s.live dir = true) (hchild : s.live child = true)
    (hne : dir ≠ child) (hfree : s.dParent child = none) (c : D → Int) :
    Linked { s with
      dCount := c
      dParent := update s.dParent child (some dir)
      dChildren := update s.dChildren dir (child :: s.dChildren dir) } := by
  have hout : ∀ q, s.live q = true → child ∉ s.dChildren q := by
    intro q hq hmem
    have hparent := ((h.listed q child hq).1 hmem).2
    simp [hfree] at hparent
  refine ⟨?_, ?_, ?_, ?_⟩
  · intro q e hq
    have hlisted := h.listed q e hq
    by_cases hec : e = child
    · subst hec
      by_cases hqd : q = dir
      · subst hqd
        simp [hchild]
      · simp [update_of_ne hqd, hout q hq, Ne.symm hqd]
    · by_cases hqd : q = dir
      · subst hqd
        simpa [hec] using hlisted
      · simpa [update_of_ne hqd, update_of_ne hec] using hlisted
  · intro q hq
    by_cases hqd : q = dir
    · subst hqd
      simpa [hout q hq] using h.nodup q hq
    · simpa [update_of_ne hqd] using h.nodup q hq
  · intro e q he hq
    by_cases hec : e = child
    · subst hec
      have heq : dir = q := by simpa using hq
      exact heq ▸ hdir
    · exact h.up e q he (by simpa [update_of_ne hec] using hq)
  · intro e he
    by_cases hec : e = child
    · subst hec
      simpa using hne
    · simpa [update_of_ne hec] using h.irrefl e he

theorem dbind_law (h : Counted s) (hallowed : allowed s (.dbind dir child) = true)
    (hfine : fine s (.dbind dir child) = true) :
    ∃ s', s.dbind dir child = .ok s' ∧ Law s s' := by
  simp only [allowed, Bool.and_eq_true, decide_eq_true_eq] at hallowed
  rcases hallowed with ⟨⟨hdir, hchild⟩, hne⟩
  have hfree : s.dParent child = none := by simpa [fine] using hfine
  refine ⟨_, dbind_eq hdir hchild hne,
    ⟨h.toLinked.dbind hdir hchild hne hfree _, ?_, ?_, h.dead⟩,
    fun e he he' => absurd (he.symm.trans he') (by simp)⟩
  · intro e he
    have hcount := h.count e he
    simp only [State.refs] at hcount ⊢
    by_cases hec : e = child
    · subst hec
      simp only [update_of_ne (Ne.symm hne), update_self, hfree] at hcount ⊢
      simp at hcount ⊢
      omega
    · by_cases hed : e = dir
      · subst hed
        simp only [update_self, update_of_ne hec, List.length_cons]
        omega
      · simpa only [update_of_ne hec, update_of_ne hed] using hcount
  · intro e he
    have hpos := h.pos e he
    simp only [State.refs] at hpos ⊢
    by_cases hec : e = child
    · subst hec
      simp only [update_self, Option.isSome_some, if_true]
      omega
    · by_cases hed : e = dir
      · subst hed
        simp only [update_self, update_of_ne hec, List.length_cons]
        omega
      · simpa only [update_of_ne hec, update_of_ne hed] using hpos

theorem dbind_wrong (h : Counted s) (hallowed : allowed s (.dbind dir child) = true)
    (hfine : fine s (.dbind dir child) = false) :
    ¬ Safe (fun _ => False) (s.dbind dir child) (Law s) := by
  simp only [allowed, Bool.and_eq_true, decide_eq_true_eq] at hallowed
  rcases hallowed with ⟨⟨hdir, hchild⟩, hne⟩
  rw [dbind_eq hdir hchild hne]
  rintro ⟨hcounted, -⟩
  have hbound : (s.dParent child).isSome = true := by simpa [fine] using hfine
  have hcount := h.count child hchild
  have hcount' := hcounted.count child hchild
  simp only [State.refs, update_of_ne (Ne.symm hne), update_self, hbound,
    Option.isSome_some, if_true] at hcount hcount'
  omega

theorem dunbind_eq (hd : s.live d = true) (hp : s.live p = true) (hne : p ≠ d)
    (hparent : s.dParent d = some p) :
    s.dunbind d = .ok (.ok,
      { s with
        dCount := update (update s.dCount p (s.dCount p - 1)) d (s.dCount d - 1)
        dParent := update s.dParent d none
        dChildren := update s.dChildren p ((s.dChildren p).erase d) }) := by
  simp [State.dunbind, State.use, State.addCount, hd, hp, hparent, update_of_ne (Ne.symm hne),
    ← Int.sub_eq_add_neg]

theorem Linked.dunbind (h : Linked s) (hparent : s.dParent d = some p) (c : D → Int) :
    Linked { s with
      dCount := c
      dParent := update s.dParent d none
      dChildren := update s.dChildren p ((s.dChildren p).erase d) } := by
  refine ⟨?_, ?_, ?_, ?_⟩
  · intro q e hq
    have hlisted := h.listed q e hq
    by_cases hqp : q = p
    · subst hqp
      simp only [update_self, (h.nodup q hq).mem_erase_iff]
      by_cases hed : e = d
      · simp [hed]
      · simpa [hed] using hlisted
    · by_cases hed : e = d
      · subst hed
        simpa [update_of_ne hqp, hparent, Ne.symm hqp] using hlisted
      · simpa [update_of_ne hqp, update_of_ne hed] using hlisted
  · intro q hq
    by_cases hqp : q = p
    · subst hqp
      simpa using (h.nodup q hq).erase d
    · simpa [update_of_ne hqp] using h.nodup q hq
  · intro e q he hq
    by_cases hed : e = d
    · simp [hed] at hq
    · exact h.up e q he (by simpa [update_of_ne hed] using hq)
  · intro e he
    by_cases hed : e = d
    · simp [hed]
    · simpa [update_of_ne hed] using h.irrefl e he

theorem refs_dunbind (h : Counted s) (hd : s.live d = true) (hp : s.live p = true) (hne : p ≠ d)
    (hparent : s.dParent d = some p) (c : D → Int) (e : D) :
    (State.refs { s with
        dCount := c
        dParent := update s.dParent d none
        dChildren := update s.dChildren p ((s.dChildren p).erase d) } e : Int) =
      s.refs e - (if e = d then 1 else 0) - (if e = p then 1 else 0) := by
  have hmem : d ∈ s.dChildren p := (h.listed p d hp).2 ⟨hd, hparent⟩
  have hlen := List.length_erase_of_mem hmem
  have hlenpos := List.length_pos_of_mem hmem
  simp only [State.refs]
  by_cases hed : e = d
  · subst hed
    simp only [update_self, update_of_ne (Ne.symm hne), hparent, if_neg (Ne.symm hne)]
    simp
    omega
  · by_cases hep : e = p
    · subst hep
      simp only [update_self, update_of_ne hed, hlen, if_neg hed, if_true]
      omega
    · simp only [update_of_ne hed, update_of_ne hep, if_neg hed, if_neg hep]
      omega

theorem dunbind_law (h : Counted s) (hd : s.live d = true) (hfine : fine s (.dunbind d) = true) :
    ∃ ret s', s.dunbind d = .ok (ret, s') ∧ Law s s' := by
  cases hparent : s.dParent d with
  | none =>
    refine ⟨.err .EINVAL, s, by simp [State.dunbind, State.use, hd, hparent], h, ?_⟩
    exact fun e he he' => absurd (he.symm.trans he') (by simp)
  | some p =>
    have hp : s.live p = true := h.up d p hd hparent
    have hne : p ≠ d := fun hpd => h.irrefl d hd (hpd ▸ hparent)
    have hmore : 1 < s.dCount d ∧ 1 < s.dCount p := by simpa [fine, hparent] using hfine
    refine ⟨_, _, dunbind_eq hd hp hne hparent,
      ⟨h.toLinked.dunbind hparent _, ?_, ?_, h.dead⟩,
      fun e he he' => absurd (he.symm.trans he') (by simp)⟩
    · intro e he
      have hcount := h.count e he
      rw [refs_dunbind h hd hp hne hparent]
      by_cases hed : e = d
      · subst hed
        simp [hcount, Ne.symm hne]
      · by_cases hep : e = p
        · subst hep
          simp [hcount, hed]
        · simp [hcount, hed, hep]
    · intro e he
      have hcount := h.count e he
      have hpos := h.pos e he
      refine Int.natCast_pos.1 ?_
      rw [refs_dunbind h hd hp hne hparent]
      by_cases hed : e = d
      · subst hed
        simp only [if_true, if_neg (Ne.symm hne)]
        omega
      · by_cases hep : e = p
        · subst hep
          simp only [if_true, if_neg hed]
          omega
        · simp only [if_neg hed, if_neg hep]
          omega

theorem dunbind_wrong (h : Counted s) (hd : s.live d = true) (hfine : fine s (.dunbind d) = false) :
    ¬ Safe (fun _ => False) (step s (.dunbind d)) (Law s) := by
  cases hparent : s.dParent d with
  | none => simp [fine, hparent] at hfine
  | some p =>
    have hp : s.live p = true := h.up d p hd hparent
    have hne : p ≠ d := fun hpd => h.irrefl d hd (hpd ▸ hparent)
    have hlast : 1 < s.dCount d → s.dCount p ≤ 1 := by simpa [fine, hparent] using hfine
    rw [step, dunbind_eq hd hp hne hparent]
    rintro ⟨hcounted, -⟩
    have hdpos := hcounted.pos d hd
    have hppos := hcounted.pos p hp
    have hdrefs := refs_dunbind h hd hp hne hparent
      (update (update s.dCount p (s.dCount p - 1)) d (s.dCount d - 1)) d
    have hprefs := refs_dunbind h hd hp hne hparent
      (update (update s.dCount p (s.dCount p - 1)) d (s.dCount d - 1)) p
    simp only [if_true, if_neg (Ne.symm hne), if_neg hne] at hdrefs hprefs hdpos hppos
    have hdcount := h.count d hd
    have hpcount := h.count p hp
    omega

end Bind

/-! ## Making and finding -/

section Find

variable {s : State D} {d : D}

theorem Counted.dalloc (h : Counted s) (hd : s.live d = false) (name : Name) :
    Counted ((s.dinit d (some name)).2.hold d) := by
  have hlive : ∀ e, ((s.dinit d (some name)).2.hold d).live e = true ↔ e = d ∨ s.live e = true := by
    intro e
    by_cases hed : e = d
    · simp [State.dinit, State.hold, hed]
    · simp [State.dinit, State.hold, hed]
  have hrefs : ∀ e, ((s.dinit d (some name)).2.hold d).refs e = if e = d then 1 else s.refs e := by
    intro e
    by_cases hed : e = d
    · subst hed
      simp [State.refs, State.dinit, State.hold, h.dead e hd]
    · simp only [State.refs, State.dinit, State.hold, update_of_ne hed, if_neg hed]
  have hne : ∀ e, s.live e = true → e ≠ d := by
    rintro e he rfl
    simp [hd] at he
  refine ⟨⟨?_, ?_, ?_, ?_⟩, ?_, ?_, ?_⟩
  · intro p e hp
    by_cases hpd : p = d
    · -- nobody has an unused block for a parent
      subst hpd
      simp only [State.dinit, State.hold, update_self, List.not_mem_nil, false_iff]
      rintro ⟨he, hparent⟩
      by_cases hep : e = p
      · simp [hep] at hparent
      · rw [update_of_ne hep] at he hparent
        exact hne p (h.up e p he hparent) rfl
    · have hp' : s.live p = true := ((hlive p).1 hp).resolve_left hpd
      have hlisted := h.listed p e hp'
      by_cases hed : e = d
      · subst hed
        simpa [State.dinit, State.hold, update_of_ne hpd, hd] using hlisted
      · simpa [State.dinit, State.hold, update_of_ne hpd, update_of_ne hed] using
          hlisted
  · intro p hp
    by_cases hpd : p = d
    · simp [State.dinit, State.hold, hpd]
    · simpa [State.dinit, State.hold, update_of_ne hpd] using
        h.nodup p (((hlive p).1 hp).resolve_left hpd)
  · intro e p he hp
    by_cases hed : e = d
    · simp [State.dinit, State.hold, hed] at hp
    · have hp' : s.dParent e = some p := by
        simpa [State.dinit, State.hold, update_of_ne hed] using hp
      exact (hlive p).2 (Or.inr (h.up e p (((hlive e).1 he).resolve_left hed) hp'))
  · intro e he
    by_cases hed : e = d
    · simp [State.dinit, State.hold, hed]
    · simpa [State.dinit, State.hold, update_of_ne hed] using
        h.irrefl e (((hlive e).1 he).resolve_left hed)
  · intro e he
    rw [hrefs e]
    by_cases hed : e = d
    · simp [State.dinit, State.hold, hed]
    · simpa [State.dinit, State.hold, hed] using h.count e (((hlive e).1 he).resolve_left hed)
  · intro e he
    rw [hrefs e]
    by_cases hed : e = d
    · simp [hed]
    · simpa [hed] using h.pos e (((hlive e).1 he).resolve_left hed)
  · intro e he
    have hed : e ≠ d := by
      rintro rfl
      simp [State.dinit, State.hold] at he
    simpa [State.dinit, State.hold, update_of_ne hed] using
      h.dead e (by simpa [State.dinit, State.hold, update_of_ne hed] using he)

theorem Counted.congr {s' : State D} (h : Counted s) (hlive : s'.live = s.live)
    (hheld : s'.held = s.held)
    (hsame : ∀ e, s.live e = true → s'.dCount e = s.dCount e ∧ s'.dParent e = s.dParent e ∧
      s'.dChildren e = s.dChildren e) : Counted s' := by
  have hrefs : ∀ e, s.live e = true → s'.refs e = s.refs e := by
    intro e he
    rcases hsame e he with ⟨-, hparent, hchildren⟩
    rw [State.refs, State.refs, hparent, hchildren, hheld]
  refine ⟨⟨?_, ?_, ?_, ?_⟩, ?_, ?_, ?_⟩
  · intro p e hp
    rw [hlive] at hp ⊢
    rw [(hsame p hp).2.2, h.listed p e hp]
    exact and_congr_right fun he => by rw [(hsame e he).2.1]
  · intro p hp
    rw [hlive] at hp
    exact (hsame p hp).2.2 ▸ h.nodup p hp
  · intro e p he hp
    rw [hlive] at he ⊢
    exact h.up e p he ((hsame e he).2.1 ▸ hp)
  · intro e he
    rw [hlive] at he
    exact (hsame e he).2.1 ▸ h.irrefl e he
  · intro e he
    rw [hlive] at he
    rw [hrefs e he, (hsame e he).1]
    exact h.count e he
  · intro e he
    rw [hlive] at he
    exact (hrefs e he).symm ▸ h.pos e he
  · intro e he
    rw [hlive] at he
    exact hheld ▸ h.dead e he

theorem dalloc_law (h : Counted s) {place : Option D} {name : Option Name}
    (hallowed : allowed s (.dalloc place name) = true) :
    ∃ ret s', s.dalloc place name = .ok (ret, s') ∧ Law s s' := by
  cases place with
  | none => exact ⟨.err .ENOMEM, s, rfl, h, fun e he he' => absurd (he.symm.trans he') (by simp)⟩
  | some d =>
    have hd : s.live d = false := by simpa [allowed] using hallowed
    have hstays : ∀ e, s.live e = true → e ≠ d := by
      rintro e he rfl
      simp [hd] at he
    cases name with
    | some name =>
      refine ⟨.ok, (s.dinit d (some name)).2.hold d, by simp [State.dalloc, State.dinit],
        h.dalloc hd name, ?_⟩
      intro e he he'
      simp [State.dinit, State.hold, update_of_ne (hstays e he), he] at he'
    | none =>
      let freed : State D :=
        { (s.dinit d none).2 with live := update (s.dinit d none).2.live d false }
      have hlive : freed.live = s.live := by
        funext e
        by_cases hed : e = d
        · subst hed
          simp [freed, hd]
        · simp [freed, State.dinit, hed]
      refine ⟨.err .ENOMEM, freed, ?_, h.congr hlive rfl ?_, ?_⟩
      · simp [State.dalloc, State.dinit, State.ddestroy, State.dunbind, State.use, freed]
      · intro e he
        have hed := hstays e he
        simp [freed, State.dinit, hed]
      · intro e he he'
        rw [hlive, he] at he'
        simp at he'

theorem findChild_spec (name : Name) {ds : List D} (hlive : ∀ d ∈ ds, s.live d = true) :
    ∃ o, s.findChild name ds = .ok o ∧ ∀ d, o = some d → d ∈ ds := by
  induction ds with
  | nil => exact ⟨none, rfl, by simp⟩
  | cons d ds ih =>
    have hd : s.live d = true := hlive d (by simp)
    by_cases hname : s.dName d = some name
    · exact ⟨some d, by simp [State.findChild, State.use, hd, hname], by simp⟩
    · rcases ih fun e he => hlive e (by simp [he]) with ⟨o, heq, ho⟩
      exact ⟨o, by simp [State.findChild, State.use, hd, hname, heq],
        fun e he => by simp [ho e he]⟩

theorem dlookup_law (h : Counted s) {dir : D} (hdir : s.live dir = true) (name : Name) (pdp : Bool) :
    ∃ ret s', s.dlookup dir name pdp = .ok (ret, s') ∧ Law s s' := by
  have hsame : Law s s := ⟨h, fun e he he' => absurd (he.symm.trans he') (by simp)⟩
  have hchildren : ∀ d ∈ s.dChildren dir, s.live d = true :=
    fun d hmem => ((h.listed dir d hdir).1 hmem).1
  rcases findChild_spec name hchildren with ⟨o, hfind, hmem⟩
  cases o with
  | none => exact ⟨.err .ENOENT, s, by simp [State.dlookup, State.use, hdir, hfind], hsame⟩
  | some d =>
    cases pdp with
    | false => exact ⟨.ok, s, by simp [State.dlookup, State.use, hdir, hfind], hsame⟩
    | true =>
      rcases dopen_law h (hchildren d (hmem d rfl)) with ⟨s', hopen, hs', hlive⟩
      refine ⟨.ok, s', by simp [State.dlookup, State.use, hdir, hfind, hopen], hs', ?_⟩
      intro e he he'
      rw [hlive, he] at he'
      simp at he'

end Find

theorem step_law {s : State D} (h : Counted s) {a : Call D} (hallowed : allowed s a = true)
    (hfine : fine s a = true) : ∃ s', step s a = .ok s' ∧ Law s s' := by
  cases a with
  | dalloc place name =>
    rcases dalloc_law h hallowed with ⟨ret, s', heq, hs'⟩
    exact ⟨s', by simp [step, heq], hs'⟩
  | dbind dir child => exact dbind_law h hallowed hfine
  | dunbind d =>
    rcases dunbind_law h hallowed hfine with ⟨ret, s', heq, hs'⟩
    exact ⟨s', by simp [step, heq], hs'⟩
  | dopen d =>
    rcases dopen_law h hallowed with ⟨s', heq, hs', hlive⟩
    refine ⟨s', by simp [step, heq], hs', fun e he he' => ?_⟩
    rw [hlive, he] at he'
    simp at he'
  | dlookup dir name pdp =>
    rcases dlookup_law h hallowed name pdp with ⟨ret, s', heq, hs'⟩
    exact ⟨s', by simp [step, heq], hs'⟩
  | dput d =>
    simp only [allowed, Bool.and_eq_true, decide_eq_true_eq] at hallowed
    exact dput_law h hallowed.1 hallowed.2
  | dclose d =>
    simp only [allowed, Bool.and_eq_true, decide_eq_true_eq] at hallowed
    exact dclose_law h hallowed.1 hallowed.2

theorem step_wrong {s : State D} (h : Counted s) {a : Call D} (hallowed : allowed s a = true)
    (hfine : fine s a = false) : ¬ Safe (fun _ => False) (step s a) (Law s) := by
  cases a with
  | dbind dir child => exact dbind_wrong h hallowed hfine
  | dunbind d => exact dunbind_wrong h hallowed hfine
  | dalloc place name => simp [fine] at hfine
  | dopen d => simp [fine] at hfine
  | dlookup dir name pdp => simp [fine] at hfine
  | dput d => simp [fine] at hfine
  | dclose d => simp [fine] at hfine

theorem Counted.init : Counted (State.init : State D) :=
  ⟨⟨fun _ _ h => absurd h (by simp [State.init]), fun _ h => absurd h (by simp [State.init]),
    fun _ _ h => absurd h (by simp [State.init]), fun _ h => absurd h (by simp [State.init])⟩,
    fun _ h => absurd h (by simp [State.init]), fun _ h => absurd h (by simp [State.init]),
    fun _ _ => rfl⟩

/-- A run of calls counts the references, and destroys a dentry exactly when its last reference is
given back, if and only if it binds no dentry twice and unbinds none that has no other reference,
and none whose parent has no other. -/
theorem dentry_law_iff (calls : List (Call D))
    (hallowed : guarded step allowed State.init calls = true) :
    Stepwise (fun _ => False) step (fun s _ s' => Law s s') State.init calls ↔
      guarded step fine State.init calls = true := by
  refine stepwise_iff_guarded_of ?_ (fun s a h => step_wrong h) Counted.init hallowed
  intro s a h hpre hok
  rcases step_law h hpre hok with ⟨s', heq, hlaw⟩
  rw [heq]
  exact ⟨hlaw, hlaw.1⟩

theorem dentry_law_unbound :
    Stepwise (fun _ => False) (step (D := Nat)) (fun s _ s' => Law s s') State.init
      [.dalloc (some 0) (some ['/']), .dalloc (some 1) (some ['a']), .dbind 0 1, .dlookup 0 ['a'] true,
        .dput 1, .dunbind 1, .dclose 1, .dput 0] :=
  (dentry_law_iff _ (by decide +kernel)).2 (by decide +kernel)

/-- A directory that its maker has given back stays for its child, and stays when the child is
unbound. -/
theorem dunbind_leaks :
    ¬ Stepwise (fun _ => False) (step (D := Nat)) (fun s _ s' => Law s s') State.init
      [.dalloc (some 0) (some ['/']), .dalloc (some 1) (some ['a']), .dbind 0 1, .dclose 0,
        .dunbind 1] := by
  intro h
  have hcounted : Counted _ := h.2.2.2.2.1.1
  have hpos := hcounted.pos 0 rfl
  exact absurd hpos (by decide +kernel)

end Dentries
end Fs
end XytherOS
