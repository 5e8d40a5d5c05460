import XytherOS.Fs.Traverse

/-!
# TraverseResolve — when a traversal finds the node that the path names

The loops follow the names of the array one by one, and the file system and the dentries give the
same answers.  Three things go wrong.  A name that equals the last one ends the path for both loops
wherever it stands.  The array of a path with `..` may hold names behind its end.  And a path
without names leads to the root, also from the current directory.
-/

namespace XytherOS
namespace Fs

open Function

variable {t : Tree} {p : Vfspath} {c : Dcache} {w : Traversal}

/-! ## Dentries of a tree -/

namespace Dcache

structure Shows (t : Tree) (c : Dcache) : Prop where
  below : ∀ d < c.next, ∀ e ∈ (c.dentry d).children, e < c.next
  child : ∀ d < c.next, ∀ e ∈ (c.dentry d).children,
    t.child (c.dentry d).inode (c.dentry e).name = some (c.dentry e).inode

theorem Shows.of_same {c' : Dcache} (h : c.Shows t) (hdentry : c'.dentry = c.dentry)
    (hnext : c'.next = c.next) : c'.Shows t := by
  constructor
  · rw [hdentry, hnext]
    exact h.below
  · rw [hdentry, hnext]
    exact h.child

theorem Shows.bindNew {dir ip : Nat} {name : Name} (h : c.Shows t) (hdir : dir < c.next)
    (hchild : t.child (c.dentry dir).inode name = some ip) : (c.bindNew dir name ip).Shows t := by
  have hdentry : ∀ d, d ≠ c.next → ((c.bindNew dir name ip).dentry d).inode = (c.dentry d).inode ∧
      ((c.bindNew dir name ip).dentry d).name = (c.dentry d).name ∧
      ((c.bindNew dir name ip).dentry d).children =
        if d = dir then c.next :: (c.dentry d).children else (c.dentry d).children := by
    intro d hd
    by_cases heq : d = dir
    · subst heq
      simp [Dcache.bindNew, hd]
    · simp [Dcache.bindNew, hd, heq]
  have hnew : (c.bindNew dir name ip).dentry c.next = ⟨name, ip, []⟩ := by simp [Dcache.bindNew]
  -- a child is a child from before, or the new dentry in the directory
  have hcases : ∀ d < c.next + 1, ∀ e ∈ ((c.bindNew dir name ip).dentry d).children,
      d < c.next ∧ (e ∈ (c.dentry d).children ∨ d = dir ∧ e = c.next) := by
    intro d hd e he
    by_cases hdnew : d = c.next
    · rw [hdnew, hnew] at he
      simp at he
    · rw [(hdentry d hdnew).2.2] at he
      refine ⟨by omega, ?_⟩
      by_cases heq : d = dir
      · rw [if_pos heq] at he
        rcases List.mem_cons.1 he with he | he
        · exact .inr ⟨heq, he⟩
        · exact .inl he
      · rw [if_neg heq] at he
        exact .inl he
  constructor
  · intro d hd e he
    rcases hcases d hd e he with ⟨hlt, hold | ⟨-, hisnew⟩⟩
    · exact Nat.lt_succ_of_lt (h.below d hlt e hold)
    · exact hisnew ▸ Nat.lt_succ_self _
  · intro d hd e he
    rcases hcases d hd e he with ⟨hlt, hold | ⟨hisdir, hisnew⟩⟩
    · have helt := h.below d hlt e hold
      rw [(hdentry d (by omega)).1, (hdentry e (by omega)).1, (hdentry e (by omega)).2.1]
      exact h.child d hlt e hold
    · rw [(hdentry d (by omega)).1, hisnew, hnew, hisdir]
      exact hchild

def Holds (c : Dcache) (d : Nat) : Prop := ∀ x, c.locked x = true ↔ x = d

theorem dlock_free {d : Nat} (h : c.locked d = false) :
    c.dlock d = .ok { c with locked := update c.locked d true } := by
  rw [dlock, assert, if_pos h]
  rfl

theorem dunlock_held {d : Nat} (h : c.locked d = true) :
    c.dunlock d = .ok { c with locked := update c.locked d false } := by
  rw [dunlock, assert, if_pos h]
  rfl

theorem dlookup_free (name : Name) {ds : List Nat} (h : ∀ e ∈ ds, c.locked e = false) :
    dlookup name ds c = .ok (none, c) ∨
      ∃ d ∈ ds, (c.dentry d).name = name ∧
        dlookup name ds c = .ok (some d, { c with locked := update c.locked d true }) := by
  induction ds with
  | nil => exact .inl rfl
  | cons d ds ih =>
    have hd := h d (by simp)
    rw [dlookup, dlock_free hd, ok_bind]
    by_cases hname : (c.dentry d).name = name
    · right
      exact ⟨d, by simp, hname, by rw [if_pos hname]; rfl⟩
    · -- the lock is given back
      have hsame : update (update c.locked d true) d false = c.locked := by
        rw [update_idem, ← hd, update_eq_self]
      rw [if_neg hname, dunlock_held (by simp), ok_bind, hsame]
      rcases ih fun e he => h e (by simp [he]) with hnone | ⟨e, he, hfound⟩
      · exact .inl hnone
      · exact .inr ⟨e, by simp [he], hfound⟩

end Dcache

/-! ## What the loops do -/

namespace Tree

/-- Where the loops arrive, if a name that equals `last` ends the path. -/
def arrival (t : Tree) (last : Name) (slash : Bool) (n : Nat) :
    List Name → Except Errno (Option Nat)
  | [] => .ok none
  | name :: names =>
    match t.ilookup n name with
    | .error e => .error e
    | .ok c =>
      if name = last then
        if slash && !t.isdir c then .error .ENOTDIR else .ok (some c)
      else if !t.isdir c then .error .ENOTDIR
      else arrival t last slash c names

/-- A name that equals `last` is reached before the end of the names, and does not end the
traversal with an error. -/
def meetsLast (t : Tree) (last : Name) (slash : Bool) (n : Nat) : List Name → Bool
  | [] => false
  | name :: names =>
    match t.ilookup n name with
    | .error _ => false
    | .ok c =>
      if name = last then !names.isEmpty && !(slash && !t.isdir c)
      else t.isdir c && meetsLast t last slash c names

theorem child_of_ilookup {n c : Nat} {name : Name} (h : t.ilookup n name = .ok c) :
    t.isdir n = true ∧ t.child n name = some c := by
  rw [ilookup] at h
  cases hdir : t.isdir n with
  | false => simp [hdir] at h
  | true =>
    cases hchild : t.child n name with
    | none => simp [hdir, hchild] at h
    | some c' =>
      simp only [hdir, hchild, Bool.not_true, Bool.false_eq_true, if_false] at h
      cases h
      exact ⟨rfl, rfl⟩

end Tree

/-- The thread is in a loop at the node `n`: it holds the lock of `path->directory` alone. -/
structure Walking (t : Tree) (w : Traversal) (n : Nat) : Prop where
  shows : w.cache.Shows t
  lt : w.directory < w.cache.next
  inode : w.inode = n
  holds : w.cache.Holds w.directory
  clear : w.dentry = none

/-- It has found the dentry `d` of the node `c`, and holds its lock, too. -/
structure Found (t : Tree) (w : Traversal) (d c : Nat) : Prop where
  shows : w.cache.Shows t
  lt : d < w.cache.next
  inode : (w.cache.dentry d).inode = c
  ne : d ≠ w.directory
  holds : ∀ x, w.cache.locked x = true ↔ x = w.directory ∨ x = d
  clear : w.dentry = none

/-- A loop ends with this result: an error, or no dentry, or the dentry of a node. -/
def Ends (x : Except Fault (Ret × Traversal)) : Except Errno (Option Nat) → Prop
  | .error e => ∃ w, x = .ok (.err e, w)
  | .ok found => ∃ w, x = .ok (.ok, w) ∧ w.cache.locked w.directory = true ∧
      w.dentry.map (fun d => (w.cache.dentry d).inode) = found

theorem Walking.next {n : Nat} (h : Walking t w n) (token : Name) : Walking t (w.next token) n :=
  ⟨h.shows, h.lt, h.inode, h.holds, rfl⟩

theorem Walking.found_new {n ip : Nat} {token : Name} (h : Walking t w n)
    (hchild : t.child n token = some ip) :
    Found t { w with cache := w.cache.bindNew w.directory token ip } w.cache.next ip := by
  have hlt := h.lt
  refine ⟨h.shows.bindNew h.lt (by rw [← hchild, ← h.inode]; rfl), Nat.lt_succ_self _, ?_, ?_, ?_,
    h.clear⟩
  · simp [Dcache.bindNew]
  · simp only
    omega
  · intro x
    by_cases hx : x = w.cache.next
    · simp [Dcache.bindNew, hx]
    · simp [Dcache.bindNew, hx, h.holds x]

theorem Walking.found_cached {n d : Nat} (h : Walking t w n)
    (hd : d ∈ (w.cache.dentry w.directory).children) :
    Found t { w with cache := { w.cache with locked := update w.cache.locked d true } } d
      (w.cache.dentry d).inode := by
  refine ⟨h.shows.of_same rfl rfl, h.shows.below _ h.lt d hd, rfl, ?_, ?_, h.clear⟩
  · intro (heq : d = w.directory)
    -- a child lies deeper than its directory
    have hdeep := t.deeper (h.shows.child _ h.lt d hd)
    rw [heq] at hdeep
    omega
  · intro x
    by_cases hx : x = d
    · simp [hx]
    · simp [hx, h.holds x]

theorem Walking.children_free {n : Nat} (h : Walking t w n) :
    ∀ e ∈ (w.cache.dentry w.directory).children, w.cache.locked e = false := by
  intro e he
  have hdeep := t.deeper (h.shows.child _ h.lt e he)
  rw [Bool.eq_false_iff]
  intro hlocked
  rw [(h.holds e).1 hlocked] at hdeep
  omega

variable {names ts : List Name}

theorem Found.ends {d n ip : Nat} {token : Name}
    {k : Traversal → Except Fault (Ret × Traversal)} (h : Found t w d ip)
    (hlook : t.ilookup n token = .ok ip)
    (hmeets : t.meetsLast p.lasttoken p.isdir n (token :: names) = false)
    (hdone : names = [] → ∀ w, k w = .ok (.ok, w))
    (hrest : ∀ w', Walking t w' ip → w'.tokIndex = w.tokIndex + 1 →
      t.meetsLast p.lasttoken p.isdir ip names = false →
      Ends (k w') (t.arrival p.lasttoken p.isdir ip names)) :
    Ends (do
        match ← arrive t p token d w with
        | (.err e, w) => return (.err e, w)
        | (.ok, w) => k w)
      (t.arrival p.lasttoken p.isdir n (token :: names)) := by
  have hd : w.cache.locked d = true := (h.holds d).2 (.inr rfl)
  have hdir : w.cache.locked w.directory = true := (h.holds _).2 (.inl rfl)
  simp only [Tree.arrival, Tree.meetsLast, hlook] at hmeets ⊢
  simp only [arrive, h.inode]
  by_cases hlast : token = p.lasttoken
  · simp only [if_pos hlast] at hmeets ⊢
    by_cases hslash : (p.isdir && !t.isdir ip) = true
    · simp only [if_pos hslash, Dcache.dunlock_held hd]
      exact ⟨_, rfl⟩
    · -- this is the end of the names
      have hnil : names = [] := by simpa [hslash] using hmeets
      simp only [if_neg hslash]
      refine ⟨_, hdone hnil _, hdir, ?_⟩
      simp [h.inode]
  · simp only [if_neg hlast] at hmeets ⊢
    cases hisdir : t.isdir ip with
    | false =>
      simp only [Bool.not_false, if_true, Dcache.dunlock_held hd]
      exact ⟨_, rfl⟩
    | true =>
      simp only [hisdir, Bool.true_and] at hmeets
      simp only [Bool.not_true, Bool.false_eq_true, if_false, Dcache.dunlock_held hdir]
      refine hrest _ ⟨h.shows.of_same rfl rfl, h.lt, h.inode, ?_, h.clear⟩ rfl hmeets
      -- the lock of the directory is given back
      intro x
      by_cases hx : x = w.directory
      · simp [hx, h.ne.symm]
      · simp [hx, h.holds x]

theorem lookupLoop_ends {n : Nat} (h : Walking t w n)
    (hmeets : t.meetsLast p.lasttoken p.isdir n ts = false) :
    Ends (lookupLoop t p ts w) (t.arrival p.lasttoken p.isdir n ts) := by
  induction ts generalizing w n with
  | nil => exact ⟨w, rfl, (h.holds _).2 rfl, by rw [h.clear]; rfl⟩
  | cons token ts ih =>
    have hw := h.next token
    rw [lookupLoop, hw.inode]
    cases hlook : t.ilookup n token with
    | error e =>
      simp only [Tree.arrival, hlook]
      exact ⟨_, rfl⟩
    | ok ip =>
      have hchild := (Tree.child_of_ilookup hlook).2
      refine (hw.found_new hchild).ends hlook hmeets ?_ ?_
      · rintro rfl w
        rfl
      · intro w' hw' _ hmeets'
        exact ih hw' hmeets'

theorem traverseLoop_ends {n : Nat} (h : Walking t w n)
    (hts : p.tokenized.drop w.tokIndex = ts)
    (hmeets : t.meetsLast p.lasttoken p.isdir n ts = false) :
    Ends (traverseLoop t p ts w) (t.arrival p.lasttoken p.isdir n ts) := by
  induction ts generalizing w n with
  | nil => exact ⟨w, rfl, (h.holds _).2 rfl, by rw [h.clear]; rfl⟩
  | cons token ts ih =>
    have hw := h.next token
    rw [traverseLoop, hw.inode]
    cases hdir : t.isdir n with
    | false =>
      simp only [Tree.arrival, Tree.ilookup, hdir]
      exact ⟨_, rfl⟩
    | true =>
      simp only [Bool.not_true, Bool.false_eq_true, if_false]
      rcases Dcache.dlookup_free token hw.children_free with
        hnone | ⟨d, hd, hname, hfound⟩
      · -- the file system takes over at this very token
        rw [hnone, ok_bind]
        change Ends (lookupLoop t p (p.tokenized.drop w.tokIndex) (w.next token)) _
        rw [hts]
        exact lookupLoop_ends hw hmeets
      · rw [hfound, ok_bind]
        have hchild := hw.shows.child _ hw.lt d hd
        have hlook : t.ilookup n token = .ok (w.cache.dentry d).inode := by
          have heq : t.child n token = some (w.cache.dentry d).inode := by
            rw [← hname, ← hw.inode]
            exact hchild
          simp [Tree.ilookup, hdir, heq]
        refine (hw.found_cached hd).ends hlook hmeets ?_ ?_
        · rintro rfl w
          rfl
        · intro w' hw' hindex hmeets'
          refine ih hw' ?_ hmeets'
          rw [hindex]
          change p.tokenized.drop (w.tokIndex + 1) = ts
          rw [← List.drop_drop, hts]
          rfl

/-! ## Where the loops arrive, and where the path leads -/

namespace Tree

variable {slash : Bool} {names : List Name}

theorem arrival_eq_follow {last : Name} {n : Nat}
    (hlast : names.getLast? = some last) (hmeets : t.meetsLast last slash n names = false) :
    t.arrival last slash n names = (t.follow slash n names).map some := by
  induction names generalizing n with
  | nil => simp at hlast
  | cons name names ih =>
    simp only [arrival, follow, meetsLast] at hmeets ⊢
    cases hlook : t.ilookup n name with
    | error e => rfl
    | ok c =>
      simp only [hlook] at hmeets ⊢
      cases names with
      | nil =>
        have heq : name = last := by simpa using hlast
        simp only [if_pos heq, follow]
        split_ifs <;> rfl
      | cons name' names =>
        rw [List.getLast?_cons_cons] at hlast
        by_cases hname : name = last
        · -- it ends with an error, since a node before the last is not a directory
          have hbad : slash = true ∧ t.isdir c = false := by simpa [hname] using hmeets
          simp [hname, hbad.1, hbad.2, follow, ilookup, Except.map]
        · simp only [if_neg hname] at hmeets ⊢
          cases hdir : t.isdir c with
          | false => simp [follow, ilookup, hdir, Except.map]
          | true =>
            simp only [hdir, Bool.true_and] at hmeets
            simpa using ih hlast hmeets

theorem arrival_error {last : Name} {n : Nat} {rest : List Name} {e : Errno}
    (hrest : rest ≠ []) (hmeets : t.meetsLast last slash n (names ++ rest) = false)
    (herr : t.follow slash n names = .error e) :
    t.arrival last slash n (names ++ rest) = .error e := by
  induction names generalizing n with
  | nil =>
    -- the name behind the path asks for a directory, as the slash does
    rcases List.exists_cons_of_ne_nil hrest with ⟨name, rest', rfl⟩
    cases hdir : t.isdir n with
    | true => simp [follow, hdir] at herr
    | false =>
      have he : Errno.ENOTDIR = e := by
        cases slash <;> simp [follow, hdir] at herr
        exact herr
      simp [arrival, ilookup, hdir, he]
  | cons name names ih =>
    simp only [List.cons_append, arrival, follow, meetsLast] at hmeets herr ⊢
    cases hlook : t.ilookup n name with
    | error e' =>
      simp only [hlook] at herr
      cases herr
      rfl
    | ok c =>
      simp only [hlook] at hmeets herr ⊢
      have hmore : (names ++ rest).isEmpty = false := by
        cases names <;> simp [hrest]
      cases hdir : t.isdir c with
      | false =>
        -- the next name, or the slash at the end, asks for a directory
        have he : e = .ENOTDIR := by
          cases names with
          | nil =>
            cases slash <;> simp [follow, hdir] at herr
            exact herr.symm
          | cons name' names =>
            simp [follow, ilookup, hdir] at herr
            exact herr.symm
        by_cases hname : name = last
        · have hslash : slash = true := by simpa [hname, hmore, hdir] using hmeets
          simp [hname, hslash, he]
        · simp [hname, he]
      | true =>
        by_cases hname : name = last
        · simp [hname, hmore, hdir] at hmeets
        · simp only [hname, if_false, hdir, Bool.true_and, Bool.not_true,
            Bool.false_eq_true] at hmeets ⊢
          exact ih hmeets herr

theorem depth_of_follow {n c : Nat}
    (h : t.follow slash n names = .ok c) : t.depth c = t.depth n + names.length := by
  induction names generalizing n with
  | nil =>
    rw [follow] at h
    split_ifs at h
    cases h
    rfl
  | cons name names ih =>
    rw [follow] at h
    cases hlook : t.ilookup n name with
    | error e => simp [hlook] at h
    | ok m =>
      rw [hlook] at h
      have hdeep := t.deeper (child_of_ilookup hlook).2
      have hrest := ih h
      rw [List.length_cons]
      omega

theorem depth_of_arrival {last : Name} {n c : Nat}
    (hmeets : t.meetsLast last slash n names = false)
    (h : t.arrival last slash n names = .ok (some c)) : t.depth c = t.depth n + names.length := by
  induction names generalizing n with
  | nil => simp [arrival] at h
  | cons name names ih =>
    simp only [arrival, meetsLast] at hmeets h
    cases hlook : t.ilookup n name with
    | error e => simp [hlook] at h
    | ok m =>
      simp only [hlook] at hmeets h
      have hdeep := t.deeper (child_of_ilookup hlook).2
      split_ifs at hmeets h with hname hslash hdir
      · have hnil : names = [] := by simpa [hslash] using hmeets
        cases h
        rw [hnil]
        exact hdeep
      · have hisdir : t.isdir m = true := by simpa using hdir
        rw [hisdir, Bool.true_and] at hmeets
        have hrest := ih hmeets h
        rw [List.length_cons]
        omega

end Tree

/-! ## Names that end the path too early -/

/-- The dentries hold the nodes along the names up to the first one that equals `last`, each one as
the only child of the one before. -/
def Chain (t : Tree) (dentry : Nat → Dentry) (last : Name) (d : Nat) : List Name → Prop
  | [] => True
  | name :: names => ∃ e, (dentry d).children = [e] ∧ e ≠ d ∧ (dentry e).name = name ∧
      t.ilookup (dentry d).inode name = .ok (dentry e).inode ∧
      (name = last ∨ Chain t dentry last e names)

theorem Dcache.Holds.pass {d e : Nat} (h : c.Holds d) (hne : e ≠ d) :
    Dcache.Holds
      { c with locked := update (update c.locked e true) d false } e := by
  intro x
  by_cases hx : x = d
  · simp [hx, hne.symm]
  · by_cases hxe : x = e
    · simp [hxe, hne]
    · simp [hx, hxe, h x]

theorem traverseLoop_cached {token : Name} {d : Nat} {cache : Dcache}
    (hdir : t.isdir w.inode = true)
    (hfound : Dcache.dlookup token (w.cache.dentry w.directory).children w.cache =
      .ok (some d, cache)) :
    traverseLoop t p (token :: ts) w = (do
      match ← arrive t p token d { w.next token with cache := cache } with
      | (.err e, w) => return (.err e, w)
      | (.ok, w) => traverseLoop t p ts w) := by
  have hnext : t.isdir (w.next token).inode = true := hdir
  have hlookup : Dcache.dlookup token
      ((w.next token).cache.dentry (w.next token).directory).children (w.next token).cache =
        .ok (some d, cache) := hfound
  rw [traverseLoop]
  simp only [hnext, Bool.not_true, Bool.false_eq_true, if_false, hlookup]
  rfl

theorem traverseLoop_locked {token : Name} {d : Nat}
    (hdir : t.isdir w.inode = true)
    (hchildren : (w.cache.dentry w.directory).children = [d]) (hlocked : w.cache.locked d = true) :
    traverseLoop t p (token :: ts) w = .error (.assertion "Spinlock already held") := by
  have hnext : t.isdir (w.next token).inode = true := hdir
  have hlookup : Dcache.dlookup token
      ((w.next token).cache.dentry (w.next token).directory).children (w.next token).cache =
        .error (.assertion "Spinlock already held") := by
    change Dcache.dlookup token (w.cache.dentry w.directory).children w.cache = _
    rw [hchildren, Dcache.dlookup, Dcache.dlock, assert, if_neg (by simp [hlocked])]
    rfl
  simp only [traverseLoop, hnext, Bool.not_true, Bool.false_eq_true, if_false, hlookup, error_bind]

theorem traverseLoop_stuck {n : Nat} (hn : w.inode = n)
    (hmeets : t.meetsLast p.lasttoken p.isdir n ts = true) (hholds : w.cache.Holds w.directory)
    (hchain : Chain t w.cache.dentry p.lasttoken w.directory ts) :
    traverseLoop t p ts w = .error (.assertion "Spinlock already held") := by
  induction ts generalizing w n with
  | nil => simp [Tree.meetsLast] at hmeets
  | cons token ts ih =>
    rcases hchain with ⟨e, hchildren, hne, hname, hlook, hrest⟩
    change t.ilookup w.inode token = _ at hlook
    have hdir : t.isdir w.inode = true := (Tree.child_of_ilookup hlook).1
    have hfree : w.cache.locked e = false := by
      rw [Bool.eq_false_iff]
      exact fun hlocked => hne ((hholds e).1 hlocked)
    have hfound : Dcache.dlookup token (w.cache.dentry w.directory).children w.cache =
        .ok (some e, { w.cache with locked := update w.cache.locked e true }) := by
      rw [hchildren, Dcache.dlookup, Dcache.dlock_free hfree, ok_bind, if_pos hname]
      rfl
    have hheld : update w.cache.locked e true w.directory = true := by
      rw [update_of_ne hne.symm]
      exact (hholds _).2 rfl
    rw [hn] at hlook
    simp only [Tree.meetsLast, hlook] at hmeets
    rw [traverseLoop_cached hdir hfound, arrive]
    by_cases hlast : token = p.lasttoken
    · simp only [if_pos hlast, Bool.and_eq_true, Bool.not_eq_true', List.isEmpty_eq_false_iff]
        at hmeets ⊢
      rcases hmeets with ⟨hmore, hslash⟩
      rw [if_neg (by simpa using hslash)]
      rcases List.exists_cons_of_ne_nil hmore with ⟨token', ts', rfl⟩
      -- the directory is the same, and its only child is locked
      refine traverseLoop_locked hdir hchildren ?_
      simp
    · simp only [if_neg hlast, Bool.and_eq_true] at hmeets ⊢
      rw [if_neg (by simpa using hmeets.1), Dcache.dunlock_held hheld, ok_bind]
      refine ih rfl hmeets.2 ?_ (hrest.resolve_left hlast)
      exact hholds.pass hne

/-! ## The whole traversal -/

/-- The root of a thread and its current directory, as nodes of the tree. -/
structure Place (t : Tree) where
  root : Nat
  cwd : Nat
  isdir : t.isdir root = true

variable {pl : Place t} {f : Fctx}

def Place.start (pl : Place t) (p : Vfspath) : Nat := if p.isabsolute then pl.root else pl.cwd

/-- The dentries hold the root and the current directory, and any other part of the tree.  The
thread holds no lock of a dentry. -/
structure Mounted (t : Tree) (pl : Place t) (f : Fctx) (c : Dcache) : Prop where
  shows : c.Shows t
  root_lt : f.root < c.next
  cwd_lt : f.cwd < c.next
  root : (c.dentry f.root).inode = pl.root
  cwd : (c.dentry f.cwd).inode = pl.cwd
  free : ∀ x, c.locked x = false

namespace Mounted

theorem start_lt (h : Mounted t pl f c) (p : Vfspath) : vfsAttachRootdir f p < c.next := by
  rw [vfsAttachRootdir]
  split_ifs
  · exact h.root_lt
  · exact h.cwd_lt

theorem start (h : Mounted t pl f c) (p : Vfspath) :
    (c.dentry (vfsAttachRootdir f p)).inode = pl.start p := by
  rw [vfsAttachRootdir, Place.start]
  split_ifs
  · exact h.root
  · exact h.cwd

end Mounted

/-- The traversal returns 0 with the dentry of this node, or with no dentry, or this error. -/
def Lookup.Gives : Lookup → Except Errno (Option Nat) → Prop
  | .found d c, .ok o => d.map (fun d => (c.dentry d).inode) = o
  | .failed e _, .error e' => e = e'
  | _, _ => False

theorem Lookup.Gives.unique {r : Lookup} {x y : Except Errno (Option Nat)} (hx : r.Gives x)
    (hy : r.Gives y) : x = y := by
  cases r with
  | found d c =>
    cases x with
    | error e => exact absurd hx id
    | ok o =>
      cases y with
      | error e => exact absurd hy id
      | ok o' =>
        have heq : o = o' := hx.symm.trans hy
        rw [heq]
  | failed e w =>
    cases x with
    | ok o => exact absurd hx id
    | error e' =>
      cases y with
      | ok o => exact absurd hy id
      | error e'' =>
        have heq : e' = e'' := hx.symm.trans hy
        rw [heq]

def entered (c : Dcache) (d : Nat) : Traversal :=
  ⟨{ c with locked := update c.locked d true }, d, none, [], 0, false⟩

theorem vfsTraversePath_eq (h : Mounted t pl f c) (hp : p.Parsed) (hne : p.tokenized ≠ []) :
    vfsTraversePath t f p c = (do
      match ← traverseLoop t p p.tokenized (entered c (vfsAttachRootdir f p)) with
      | (.err e, w) => return .failed e w
      | (.ok, w) =>
        let cache ← w.cache.dunlock w.directory
        return .found w.dentry cache) := by
  have habs : p.absolute ≠ ['/'] := fun heq => hne (hp.root.1 heq)
  rw [vfsTraversePath, Dcache.dlock_free (h.free _), ok_bind]
  simp only [if_neg habs]
  rfl

theorem entered_walking (h : Mounted t pl f c) (p : Vfspath) :
    Walking t (entered c (vfsAttachRootdir f p)) (pl.start p) := by
  refine ⟨h.shows.of_same rfl rfl, h.start_lt p, h.start p, ?_, rfl⟩
  intro x
  by_cases hx : x = vfsAttachRootdir f p
  · simp [entered, hx]
  · simp [entered, hx, h.free]

theorem vfsTraversePath_gives (h : Mounted t pl f c) (hp : p.Parsed) (hne : p.tokenized ≠ [])
    (hmeets : t.meetsLast p.lasttoken p.isdir (pl.start p) p.tokenized = false) :
    ∃ r, vfsTraversePath t f p c = .ok r ∧
      r.Gives (t.arrival p.lasttoken p.isdir (pl.start p) p.tokenized) := by
  have hends : Ends (traverseLoop t p p.tokenized (entered c (vfsAttachRootdir f p)))
      (t.arrival p.lasttoken p.isdir (pl.start p) p.tokenized) :=
    traverseLoop_ends (entered_walking h p) rfl hmeets
  rw [vfsTraversePath_eq h hp hne]
  cases harr : t.arrival p.lasttoken p.isdir (pl.start p) p.tokenized with
  | error e =>
    rw [harr] at hends
    rcases hends with ⟨w, hw⟩
    exact ⟨.failed e w, by rw [hw]; rfl, rfl⟩
  | ok found =>
    rw [harr] at hends
    rcases hends with ⟨w, hw, hlocked, hfound⟩
    refine ⟨.found w.dentry
      { w.cache with locked := update w.cache.locked w.directory false }, ?_, hfound⟩
    rw [hw]
    change (w.cache.dunlock w.directory >>= _) = _
    rw [Dcache.dunlock_held hlocked]
    rfl

theorem vfsTraversePath_root (h : Mounted t pl f c) (hp : p.Parsed) (hnil : p.tokenized = []) :
    ∃ r, vfsTraversePath t f p c = .ok r ∧ r.Gives (.ok (some pl.root)) := by
  rw [vfsTraversePath, Dcache.dlock_free (h.free _), ok_bind]
  simp only [if_pos (hp.root.2 hnil)]
  split_ifs with hroot
  · refine ⟨_, rfl, ?_⟩
    rw [hroot]
    exact congrArg some h.root
  · have hheld : update c.locked (vfsAttachRootdir f p) true (vfsAttachRootdir f p) =
        true := by
      simp
    have hfree : update (update c.locked (vfsAttachRootdir f p) true)
        (vfsAttachRootdir f p) false f.root = false := by
      rw [update_idem, update_of_ne (Ne.symm hroot)]
      exact h.free _
    rw [Dcache.dunlock_held hheld, ok_bind, Dcache.dlock_free hfree]
    exact ⟨_, rfl, congrArg some h.root⟩

/-! ## Dentries for an example -/

namespace Dcache

def add (c : Dcache) (x : Dentry) : Dcache :=
  { dentry := update c.dentry c.next x, next := c.next + 1, locked := c.locked }

theorem add_dentry {x : Dentry} {d : Nat} (h : d < c.next) : (c.add x).dentry d = c.dentry d :=
  update_of_ne (Nat.ne_of_lt h) _ _

@[simp] theorem add_dentry_next (c : Dcache) (x : Dentry) : (c.add x).dentry c.next = x := by
  simp [add]

theorem Shows.add {x : Dentry} (h : c.Shows t)
    (hx : ∀ e ∈ x.children, e < c.next ∧ t.child x.inode (c.dentry e).name =
      some (c.dentry e).inode) : (c.add x).Shows t := by
  constructor
  · intro d hd e he
    rcases Nat.lt_succ_iff_lt_or_eq.1 hd with hlt | rfl
    · rw [add_dentry hlt] at he
      exact Nat.lt_succ_of_lt (h.below d hlt e he)
    · rw [add_dentry_next] at he
      exact Nat.lt_succ_of_lt (hx e he).1
  · intro d hd e he
    rcases Nat.lt_succ_iff_lt_or_eq.1 hd with hlt | rfl
    · rw [add_dentry hlt] at he ⊢
      rw [add_dentry (h.below d hlt e he)]
      exact h.child d hlt e he
    · rw [add_dentry_next] at he ⊢
      rw [add_dentry (hx e he).1]
      exact (hx e he).2

def empty : Dcache := ⟨fun _ => ⟨[], 0, []⟩, 0, fun _ => false⟩

theorem empty_shows : empty.Shows t := ⟨by simp [empty], by simp [empty]⟩

end Dcache

theorem Chain.congr {dentry : Nat → Dentry} {last : Name} {d : Nat}
    (h : Chain t c.dentry last d names) (hshows : c.Shows t) (hd : d < c.next)
    (hsame : ∀ x < c.next, dentry x = c.dentry x) : Chain t dentry last d names := by
  induction names generalizing d with
  | nil => trivial
  | cons name names ih =>
    rcases h with ⟨e, hchildren, hne, hname, hlook, hrest⟩
    have he : e < c.next := hshows.below d hd e (by simp [hchildren])
    refine ⟨e, ?_, hne, ?_, ?_, hrest.imp_right fun hrest => ih hrest he⟩
    · rw [hsame d hd]
      exact hchildren
    · rw [hsame e he]
      exact hname
    · rw [hsame d hd, hsame e he]
      exact hlook

theorem exists_parent {n d : Nat} {name : Name} (hshows : c.Shows t) (hd : d < c.next)
    (hchild : t.child n (c.dentry d).name = some (c.dentry d).inode) :
    (c.add ⟨name, n, [d]⟩).Shows t := by
  refine hshows.add ?_
  intro e he
  rw [List.mem_singleton.1 he]
  exact ⟨hd, hchild⟩

theorem exists_chain {last : Name} {slash : Bool} {n : Nat} (name : Name)
    (hmeets : t.meetsLast last slash n names = true) :
    ∃ (c : Dcache) (d : Nat), c.Shows t ∧ d < c.next ∧ (c.dentry d).inode = n ∧ (c.dentry d).name = name ∧
      Chain t c.dentry last d names ∧ ∀ x, c.locked x = false := by
  induction names generalizing n name with
  | nil => simp [Tree.meetsLast] at hmeets
  | cons next names ih =>
    rw [Tree.meetsLast] at hmeets
    cases hlook : t.ilookup n next with
    | error e => simp [hlook] at hmeets
    | ok m =>
      have hchild := (Tree.child_of_ilookup hlook).2
      simp only [hlook] at hmeets
      -- the dentries from the next node on
      have hbelow : ∃ (c : Dcache) (d : Nat), c.Shows t ∧ d < c.next ∧
          (c.dentry d).inode = m ∧ (c.dentry d).name = next ∧ (next = last ∨ Chain t c.dentry last d names) ∧
          ∀ x, c.locked x = false := by
        by_cases hnext : next = last
        · exact ⟨Dcache.empty.add ⟨next, m, []⟩, 0, Dcache.empty_shows.add (by simp),
            Nat.zero_lt_one, rfl, rfl, .inl hnext, fun _ => rfl⟩
        · rw [if_neg hnext, Bool.and_eq_true] at hmeets
          rcases ih next hmeets.2 with ⟨c, d, hshows, hd, hinode, hname, hchain, hfree⟩
          exact ⟨c, d, hshows, hd, hinode, hname, .inr hchain, hfree⟩
      rcases hbelow with ⟨c, d, hshows, hd, hinode, hname, hchain, hfree⟩
      have hsame : ∀ x < c.next, (c.add ⟨name, n, [d]⟩).dentry x = c.dentry x := fun x hx =>
        Dcache.add_dentry hx
      refine ⟨c.add ⟨name, n, [d]⟩, c.next, ?_, Nat.lt_succ_self _, by simp, by simp, ?_, hfree⟩
      · exact exists_parent hshows hd (by rw [hname, hinode]; exact hchild)
      · refine ⟨d, by simp, Nat.ne_of_lt hd, ?_, ?_, ?_⟩
        · rw [hsame d hd]
          exact hname
        · rw [hsame d hd, Dcache.add_dentry_next, hinode]
          exact hlook
        · exact hchain.imp_right fun hchain => hchain.congr hshows hd hsame

theorem exists_mounted {d : Nat} (pl : Place t) (p : Vfspath) (hshows : c.Shows t)
    (hd : d < c.next) (hinode : (c.dentry d).inode = pl.start p)
    (hfree : ∀ x, c.locked x = false) :
    ∃ f c', Mounted t pl f c' ∧ vfsAttachRootdir f p = d ∧
      ∀ x < c.next, c'.dentry x = c.dentry x := by
  have hsame : ∀ (x : Dentry), ∀ y < c.next, (c.add x).dentry y = c.dentry y := fun x y hy =>
    Dcache.add_dentry hy
  cases habs : p.isabsolute with
  | true =>
    refine ⟨⟨d, c.next⟩, c.add ⟨[], pl.cwd, []⟩, ?_, by simp [vfsAttachRootdir, habs], hsame _⟩
    refine ⟨hshows.add (by simp), Nat.lt_succ_of_lt hd, Nat.lt_succ_self _, ?_, by simp, hfree⟩
    rw [hsame _ d hd, hinode, Place.start, if_pos habs]
  | false =>
    refine ⟨⟨c.next, d⟩, c.add ⟨[], pl.root, []⟩, ?_, by simp [vfsAttachRootdir, habs], hsame _⟩
    refine ⟨hshows.add (by simp), Nat.lt_succ_self _, Nat.lt_succ_of_lt hd, by simp, ?_, hfree⟩
    rw [hsame _ d hd, hinode, Place.start, if_neg (by simp [habs])]

theorem exists_stuck (pl : Place t) (hp : p.Parsed)
    (hmeets : t.meetsLast p.lasttoken p.isdir (pl.start p) p.tokenized = true) :
    ∃ f c, Mounted t pl f c ∧
      vfsTraversePath t f p c = .error (.assertion "Spinlock already held") := by
  have hne : p.tokenized ≠ [] := by
    intro hnil
    simp [hnil, Tree.meetsLast] at hmeets
  rcases exists_chain [] hmeets with ⟨c, d, hshows, hd, hinode, -, hchain, hfree⟩
  rcases exists_mounted pl p hshows hd hinode hfree with ⟨f, c', hmounted, hattach, hsame⟩
  refine ⟨f, c', hmounted, ?_⟩
  have hwalking := entered_walking hmounted p
  have hstuck : traverseLoop t p p.tokenized (entered c' (vfsAttachRootdir f p)) =
      .error (.assertion "Spinlock already held") := by
    refine traverseLoop_stuck hwalking.inode hmeets hwalking.holds ?_
    rw [hattach]
    exact hchain.congr hshows hd hsame
  rw [vfsTraversePath_eq hmounted hp hne, hstuck]
  rfl

/-- The path is parsed, and with any dentries the traversal leads where the names of the path lead:
to the node, or to the error. -/
def Resolves (t : Tree) (pl : Place t) (pathname : Name) : Prop :=
  ∃ p, vfspathParse pathname = .ok (.ok p) ∧
    ∀ f c, Mounted t pl f c → ∃ r, vfsTraversePath t f p c = .ok r ∧
      r.Gives ((t.follow p.isdir (pl.start p) (p.tokenized.take p.tokencount)).map some)

/-- Names that `..` has left behind the end of the path are not reached, no name is taken for the
last one too early, and a path without names means the root. -/
structure Regular (t : Tree) (pl : Place t) (p : Vfspath) : Prop where
  behind : p.tokencount = p.tokenized.length ∨
    ∃ e, t.follow p.isdir (pl.start p) (p.tokenized.take p.tokencount) = .error e
  last : t.meetsLast p.lasttoken p.isdir (pl.start p) p.tokenized = false
  root : p.tokenized = [] → p.isabsolute = true ∨ pl.cwd = pl.root

theorem Regular.gives (h : Regular t pl p) (hp : p.Parsed) (hm : Mounted t pl f c) :
    ∃ r, vfsTraversePath t f p c = .ok r ∧
      r.Gives ((t.follow p.isdir (pl.start p) (p.tokenized.take p.tokencount)).map some) := by
  by_cases hnil : p.tokenized = []
  · have hstart : pl.start p = pl.root := by
      rw [Place.start]
      split_ifs with habs
      · rfl
      · exact (h.root hnil).resolve_left habs
    have hroot := vfsTraversePath_root hm hp hnil
    simpa [hnil, hstart, Tree.follow, pl.isdir, Except.map] using hroot
  · rcases vfsTraversePath_gives hm hp hnil h.last with ⟨r, hr, hgives⟩
    refine ⟨r, hr, ?_⟩
    by_cases hall : p.tokencount = p.tokenized.length
    · rw [Tree.arrival_eq_follow (hp.ends hall hnil) h.last] at hgives
      rw [hall, List.take_length]
      exact hgives
    · rcases h.behind.resolve_left hall with ⟨e, herr⟩
      have hcount := hp.count_le
      have hrest : p.tokenized.drop p.tokencount ≠ [] := by
        rw [Ne, List.drop_eq_nil_iff]
        omega
      have hsplit := (List.take_append_drop p.tokencount p.tokenized).symm
      have hlast := h.last
      rw [hsplit] at hlast hgives
      rw [Tree.arrival_error hrest hlast herr] at hgives
      rw [herr]
      exact hgives

theorem Regular.of_gives (hp : p.Parsed)
    (hall : ∀ f c, Mounted t pl f c → ∃ r, vfsTraversePath t f p c = .ok r ∧
      r.Gives ((t.follow p.isdir (pl.start p) (p.tokenized.take p.tokencount)).map some)) :
    Regular t pl p := by
  have hlast : t.meetsLast p.lasttoken p.isdir (pl.start p) p.tokenized = false := by
    rw [Bool.eq_false_iff]
    intro hmeets
    rcases exists_stuck pl hp hmeets with ⟨f, c, hm, hstuck⟩
    rcases hall f c hm with ⟨r, hr, -⟩
    rw [hstuck] at hr
    cases hr
  -- a few dentries are enough for the rest
  have hsome : ∃ f c, Mounted t pl f c := by
    rcases exists_mounted (c := Dcache.empty.add ⟨[], pl.start p, []⟩) (d := 0) pl p
      (Dcache.empty_shows.add (by simp)) Nat.zero_lt_one rfl (fun _ => rfl) with ⟨f, c, hm, -, -⟩
    exact ⟨f, c, hm⟩
  rcases hsome with ⟨f, c, hm⟩
  rcases hall f c hm with ⟨r, hr, hgives⟩
  refine ⟨?_, hlast, ?_⟩
  · by_contra hboth
    rw [not_or, not_exists] at hboth
    have hne : p.tokenized ≠ [] := by
      intro hnil
      have hcount := hp.count_le
      rw [hnil] at hcount
      exact hboth.1 (by rw [hnil]; exact Nat.le_zero.1 hcount)
    cases hfollow : t.follow p.isdir (pl.start p) (p.tokenized.take p.tokencount) with
    | error e => exact hboth.2 e hfollow
    | ok n =>
      rcases vfsTraversePath_gives hm hp hne hlast with ⟨r', hr', hgives'⟩
      rw [hr] at hr'
      cases hr'
      have harr := hgives'.unique hgives
      rw [hfollow] at harr
      -- the array is longer than the path, and leads deeper
      have hdeep := Tree.depth_of_arrival hlast harr
      have hpath := Tree.depth_of_follow hfollow
      have hcount := hp.count_le
      rw [List.length_take] at hpath
      omega
  · intro hnil
    rcases vfsTraversePath_root hm hp hnil with ⟨r', hr', hgives'⟩
    rw [hr] at hr'
    cases hr'
    have hroot := hgives'.unique hgives
    by_cases habs : p.isabsolute = true
    · exact .inl habs
    · right
      rw [hnil, List.take_nil, Tree.follow, Place.start, if_neg habs] at hroot
      split_ifs at hroot
      · cases hroot
      · have heq : pl.root = pl.cwd := by simpa [Except.map] using hroot
        exact heq.symm

/-- For every tree, every root and current directory, and every accepted path. -/
theorem vfs_traverse_path_resolves_iff (t : Tree) (pl : Place t) (pathname : Name)
    (hok : verifyPath pathname = .ok) :
    Resolves t pl pathname ↔
      readsFreed pathname = false ∧
        ∀ p, vfspathParse pathname = .ok (.ok p) → Regular t pl p := by
  have hparse := vfspathParse_spec hok
  constructor
  · rintro ⟨p, hp, hall⟩
    have hfreed : readsFreed pathname = false := by
      rw [Bool.eq_false_iff]
      intro hfreed
      rw [hparse.1 hfreed] at hp
      cases hp
    refine ⟨hfreed, ?_⟩
    intro p' hp'
    rcases hparse.2 hfreed with ⟨q, hq, hparsed⟩
    rw [hq] at hp hp'
    cases hp
    cases hp'
    exact Regular.of_gives hparsed hall
  · rintro ⟨hfreed, hregular⟩
    rcases hparse.2 hfreed with ⟨p, hp, hparsed⟩
    exact ⟨p, hp, fun f c hm => (hregular p hp).gives hparsed hm⟩

/-- The directories `/a` and `/a/b`, and the file `/a/b/a`. -/
def nested : Tree where
  isdir n := n < 3
  child n name := if [['a'], ['b'], ['a']][n]? = some name then some (n + 1) else none
  depth n := n
  deeper h := by
    split_ifs at h
    cases h
    rfl

def nestedRoot : Place nested := ⟨0, 0, rfl⟩

theorem vfs_traverse_path_resolves_nested : Resolves nested nestedRoot ['/', 'a', '/', 'b'] := by
  refine (vfs_traverse_path_resolves_iff nested nestedRoot ['/', 'a', '/', 'b'] (by decide)).2
    ⟨by decide, ?_⟩
  intro p hp
  have hparse : vfspathParse ['/', 'a', '/', 'b'] =
      .ok (.ok ⟨true, false, ['a', '/', 'b'], ['b'], 2, [['a'], ['b']]⟩) := by decide +kernel
  rw [hparse] at hp
  cases hp
  exact ⟨.inl rfl, by decide, by simp⟩

/-- The file `/a/b/a` has the name of a directory above it, and is not found. -/
theorem repeated_name_not_resolved :
    verifyPath ['/', 'a', '/', 'b', '/', 'a'] = .ok ∧
      nested.follow false 0 [['a'], ['b'], ['a']] = .ok 3 ∧
      ¬ Resolves nested nestedRoot ['/', 'a', '/', 'b', '/', 'a'] := by
  refine ⟨by decide, by rfl, ?_⟩
  rintro ⟨p, hp, hall⟩
  have hparse : vfspathParse ['/', 'a', '/', 'b', '/', 'a'] =
      .ok (.ok ⟨true, false, ['a', '/', 'b', '/', 'a'], ['a'], 3, [['a'], ['b'], ['a']]⟩) := by
    decide +kernel
  rw [hparse] at hp
  cases hp
  have hparsed : Vfspath.Parsed
      ⟨true, false, ['a', '/', 'b', '/', 'a'], ['a'], 3, [['a'], ['b'], ['a']]⟩ :=
    ⟨by decide, by decide, by decide⟩
  have hlast := (Regular.of_gives hparsed hall).last
  exact absurd hlast (by decide)

end Fs
end XytherOS
