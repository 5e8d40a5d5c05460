import Mathlib.Logic.Basic

/-!
# Status — error numbers, return codes and faults of the kernel functions

A kernel function returns `0` or `-errno`; `Ret` is that integer.  A `Fault` is an execution that
does not return at all: a failed `assert`, a null dereference, or a loop that never ends.
-/

namespace XytherOS

/-- The error numbers of `bits/errno.h` that the modelled functions return. -/
inductive Errno
  | EPERM
  | ENOENT
  | ESRCH
  | EINTR
  | EIO
  | ENXIO
  | ECHILD
  | EAGAIN
  | ENOMEM
  | EACCES
  | EFAULT
  | EEXIST
  | ENODEV
  | ENOTDIR
  | EISDIR
  | EINVAL
  | ENOSPC
  | EPIPE
  | ENAMETOOLONG
  | ENOSYS
  | ENOTNAM
  | EBADF
  | EBADFD
  | EMFILE
  | EALREADY
  | EDEADLK
  | ENOTSUP
  | ETIMEDOUT
  deriving DecidableEq, Repr

/-- The `int` a kernel function returns: `0`, or a negated error number. -/
inductive Ret
  | ok
  | err (e : Errno)
  deriving DecidableEq, Repr

/-- An execution that does not return to its caller: a failed assertion or a panic, a null
pointer, an array access out of bounds or a division by zero, a loop that does not end. -/
inductive Fault
  | assertion (msg : String)
  | nullDeref
  | wildAccess
  | divideByZero
  | hang
  deriving DecidableEq, Repr

def assert (c : Prop) [Decidable c] (msg : String) : Except Fault Unit :=
  if c then .ok () else .error (.assertion msg)

def inBounds (i n : Nat) : Except Fault Unit :=
  if i < n then .ok () else .error .wildAccess

/-! ## Numerals of the small finite types -/

-- named, so that a numeral of `Fin 4` is one term whatever instances of `NeZero` a module sees
instance (priority := 1100) neZeroOne : @NeZero Nat Zero.ofOfNat0 1 := ⟨Nat.succ_ne_zero _⟩

instance (priority := 1100) neZeroTwo : @NeZero Nat Zero.ofOfNat0 2 := ⟨Nat.succ_ne_zero _⟩

instance (priority := 1100) neZeroThree : @NeZero Nat Zero.ofOfNat0 3 := ⟨Nat.succ_ne_zero _⟩

instance (priority := 1100) neZeroFour : @NeZero Nat Zero.ofOfNat0 4 := ⟨Nat.succ_ne_zero _⟩

/-! ## Running faulting computations -/

theorem bind_ok_iff {α β : Type} {x : Except Fault α} {f : α → Except Fault β} {b : β} :
    (x >>= f) = .ok b ↔ ∃ a, x = .ok a ∧ f a = .ok b := by
  cases x with
  | error e => simp [bind, Except.bind]
  | ok a => simp [bind, Except.bind]

@[simp] theorem ok_bind {α β : Type} (a : α) (f : α → Except Fault β) :
    ((Except.ok a : Except Fault α) >>= f) = f a := rfl

@[simp] theorem error_bind {α β : Type} (e : Fault) (f : α → Except Fault β) :
    ((Except.error e : Except Fault α) >>= f) = .error e := rfl

@[simp] theorem pure_eq_ok {α : Type} (a : α) : (pure a : Except Fault α) = .ok a := rfl

@[simp] theorem throw_eq_error {α : Type} (e : Fault) :
    (throw e : Except Fault α) = .error e := rfl

theorem assert_bind_ok_iff {β : Type} {c : Prop} [Decidable c] {msg : String}
    {f : Unit → Except Fault β} {b : β} :
    (assert c msg >>= f) = .ok b ↔ c ∧ f () = .ok b := by
  by_cases hc : c <;> simp [assert, hc]

theorem inBounds_bind_ok_iff {β : Type} {i n : Nat} {f : Unit → Except Fault β} {b : β} :
    (inBounds i n >>= f) = .ok b ↔ i < n ∧ f () = .ok b := by
  by_cases h : i < n <;> simp [inBounds, h]

def outcome {α : Type} (x : Except Fault α) (d : α) : α :=
  match x with
  | .ok a => a
  | .error _ => d

theorem eq_ok_outcome {α : Type} {x : Except Fault α} {d : α} (h : x.isOk = true) :
    x = .ok (outcome x d) := by
  cases x with
  | ok a => rfl
  | error e => exact absurd h (by simp [Except.isOk, Except.toBool])

theorem ok_of_toOption {α β : Type} {x : Except Fault α} {f : α → β} {b : β}
    (h : x.toOption.map f = some b) : ∃ a, x = .ok a ∧ f a = b := by
  cases x with
  | ok a => exact ⟨a, rfl, by simpa [Except.toOption] using h⟩
  | error e => simp [Except.toOption] at h

/-! ## Pre- and postconditions -/

/-- `x` returns a value with the property `P`, or ends in one of the faults `F`. -/
def Safe {α : Type} (F : Fault → Prop) (x : Except Fault α) (P : α → Prop) : Prop :=
  match x with
  | .ok a => P a
  | .error e => F e

section Safe

variable {α β : Type} {F : Fault → Prop} {x : Except Fault α} {P Q : α → Prop}

theorem Safe.ok {a : α} (h : P a) : Safe F (.ok a) P := h

theorem Safe.mono (h : Safe F x P) (hPQ : ∀ a, P a → Q a) : Safe F x Q := by
  cases x with
  | error e => exact h
  | ok a => exact hPQ a h

theorem Safe.faults {G : Fault → Prop} (h : Safe F x P) (hFG : ∀ e, F e → G e) : Safe G x P := by
  cases x with
  | error e => exact hFG e h
  | ok a => exact h

theorem Safe.bind {f : α → Except Fault β} {R : β → Prop} (h : Safe F x P)
    (hf : ∀ a, P a → Safe F (f a) R) : Safe F (x >>= f) R := by
  cases x with
  | error e => exact h
  | ok a => exact hf a h

theorem Safe.and {G : Fault → Prop} (h : Safe F x P) (h' : Safe G x Q) :
    Safe F x fun a => P a ∧ Q a := by
  cases x with
  | error e => exact h
  | ok a => exact ⟨h, h'⟩

theorem Safe.of_eq_ok {a : α} (h : Safe F x P) (hx : x = .ok a) : P a := by
  subst hx
  exact h

/-- Any fault at all: what is `Safe` for it holds of every execution that returns. -/
def AnyFault (_ : Fault) : Prop := True

theorem Safe.any {x : Except Fault α} (h : ∀ a, x = .ok a → P a) : Safe AnyFault x P := by
  cases x with
  | error e => exact trivial
  | ok a => exact h a rfl

def Asserted (e : Fault) : Prop := ∃ msg, e = .assertion msg

theorem assert_safe {c : Prop} [Decidable c] {msg : String} :
    Safe Asserted (assert c msg) fun _ => c := by
  rw [assert]
  by_cases hc : c
  · rw [if_pos hc]
    exact hc
  · rw [if_neg hc]
    exact ⟨msg, rfl⟩

end Safe

section Loops

variable {σ : Type}

/-- `for (i = 0; i < n; ++i)` with a body that always goes on. -/
def each (body : Nat → σ → Except Fault σ) : List Nat → σ → Except Fault σ
  | [], s => .ok s
  | i :: is, s => do
      let s ← body i s
      each body is s

def tryEach (body : Nat → σ → Except Fault (Ret × σ)) : List Nat → σ → Except Fault (Ret × σ)
  | [], s => .ok (.ok, s)
  | i :: is, s => do
      match ← body i s with
      | (.err e, s) => return (.err e, s)
      | (.ok, s) => tryEach body is s

theorem Safe.each {F : Fault → Prop} {body : Nat → σ → Except Fault σ} {I : σ → Prop}
    {is : List Nat} (hbody : ∀ i ∈ is, ∀ s, I s → Safe F (body i s) I) {s : σ} (h : I s) :
    Safe F (XytherOS.each body is s) I := by
  induction is generalizing s with
  | nil =>
    rw [XytherOS.each]
    exact h
  | cons i is ih =>
    rw [XytherOS.each]
    refine (hbody i (by simp) s h).bind ?_
    intro s hs
    exact ih (fun j hj => hbody j (by simp [hj])) hs

theorem Safe.tryEach {F : Fault → Prop} {body : Nat → σ → Except Fault (Ret × σ)} {I : σ → Prop}
    {is : List Nat} (hbody : ∀ i ∈ is, ∀ s, I s → Safe F (body i s) fun x => I x.2) {s : σ}
    (h : I s) : Safe F (XytherOS.tryEach body is s) fun x => I x.2 := by
  induction is generalizing s with
  | nil =>
    rw [XytherOS.tryEach]
    exact h
  | cons i is ih =>
    rw [XytherOS.tryEach]
    refine (hbody i (by simp) s h).bind ?_
    rintro ⟨ret, s⟩ hs
    cases ret with
    | err e => exact hs
    | ok => exact ih (fun j hj => hbody j (by simp [hj])) hs

theorem Safe.each_range {F : Fault → Prop} {body : Nat → σ → Except Fault σ} {I : Nat → σ → Prop}
    {n : Nat} (hbody : ∀ i < n, ∀ s, I i s → Safe F (body i s) (I (i + 1))) {s : σ} (h : I 0 s) :
    Safe F (XytherOS.each body (List.range n) s) (I n) := by
  rw [List.range_eq_range']
  suffices hgen : ∀ m a s, a + m = n → I a s →
      Safe F (XytherOS.each body (List.range' a m) s) (I n) from hgen n 0 s (by omega) h
  intro m
  induction m with
  | zero =>
    rintro a s rfl hs
    rw [List.range'_zero, XytherOS.each]
    exact hs
  | succ m ih =>
    intro a s hn hs
    rw [List.range'_succ, XytherOS.each]
    refine (hbody a (by omega) s hs).bind ?_
    intro s' hs'
    exact ih (a + 1) s' (by omega) hs'

theorem Safe.tryEach_range {F : Fault → Prop} {body : Nat → σ → Except Fault (Ret × σ)}
    {I : Nat → σ → Prop} {E : σ → Prop} {n : Nat}
    (hbody : ∀ i < n, ∀ s, I i s →
      Safe F (body i s) fun x => (x.1 = .ok → I (i + 1) x.2) ∧ (x.1 ≠ .ok → E x.2))
    {s : σ} (h : I 0 s) :
    Safe F (XytherOS.tryEach body (List.range n) s) fun x =>
      (x.1 = .ok → I n x.2) ∧ (x.1 ≠ .ok → E x.2) := by
  rw [List.range_eq_range']
  suffices hgen : ∀ m a s, a + m = n → I a s →
      Safe F (XytherOS.tryEach body (List.range' a m) s) fun x =>
        (x.1 = .ok → I n x.2) ∧ (x.1 ≠ .ok → E x.2) from hgen n 0 s (by omega) h
  intro m
  induction m with
  | zero =>
    rintro a s rfl hs
    rw [List.range'_zero, XytherOS.tryEach]
    exact ⟨fun _ => hs, fun hne => absurd rfl hne⟩
  | succ m ih =>
    intro a s hn hs
    rw [List.range'_succ, XytherOS.tryEach]
    refine (hbody a (by omega) s hs).bind ?_
    rintro ⟨ret, s'⟩ hs'
    cases ret with
    | ok => exact ih (a + 1) s' (by omega) (hs'.1 rfl)
    | err e => exact ⟨fun hok => absurd hok (by simp), fun _ => hs'.2 (by simp)⟩

-- a loop is not unrolled to see whether two statements are the same
attribute [irreducible] each tryEach

end Loops

section Runs

variable {σ α : Type} {step : σ → α → Except Fault σ}

def runs (step : σ → α → Except Fault σ) (s : σ) : List α → Except Fault σ
  | [] => .ok s
  | a :: as => do
      let s ← step s a
      runs step s as

theorem runs_append (step : σ → α → Except Fault σ) (s : σ) (as bs : List α) :
    runs step s (as ++ bs) = runs step s as >>= fun s' => runs step s' bs := by
  induction as generalizing s with
  | nil => rfl
  | cons a as ih =>
    rw [List.cons_append, runs, runs]
    cases step s a with
    | error e => rfl
    | ok s' => exact ih s'

/-- Every step of a run satisfies `ok` in the state in which it is taken. -/
def guarded (step : σ → α → Except Fault σ) (ok : σ → α → Bool) (s : σ) : List α → Bool
  | [] => true
  | a :: as => ok s a &&
      match step s a with
      | .ok s' => guarded step ok s' as
      | .error _ => true

theorem guarded_true (step : σ → α → Except Fault σ) (s : σ) (as : List α) :
    guarded step (fun _ _ => true) s as = true := by
  induction as generalizing s with
  | nil => rfl
  | cons a as ih =>
    rw [guarded, Bool.true_and]
    cases step s a with
    | ok s' => exact ih s'
    | error e => rfl

theorem guarded_all {ok : σ → α → Bool} {p : α → Bool} {s : σ} {as : List α}
    (hrun : guarded step ok s as = true) (hall : as.all p = true) :
    guarded step (fun s a => p a && ok s a) s as = true := by
  induction as generalizing s with
  | nil => rfl
  | cons a as ih =>
    simp only [guarded, List.all_cons, Bool.and_eq_true] at hrun hall ⊢
    refine ⟨⟨hall.1, hrun.1⟩, ?_⟩
    cases heq : step s a with
    | error e => rfl
    | ok s' =>
      rw [heq] at hrun
      exact ih hrun.2 hall.2

theorem Safe.runs {F : Fault → Prop} {ok : σ → α → Bool} {I : σ → Prop}
    (hstep : ∀ s a, I s → ok s a = true → Safe F (step s a) I) {s : σ} {as : List α} (h : I s)
    (hrun : guarded step ok s as = true) : Safe F (runs step s as) I := by
  induction as generalizing s with
  | nil => exact h
  | cons a as ih =>
    simp only [guarded, Bool.and_eq_true] at hrun
    have hone : Safe F (step s a) I := hstep s a h hrun.1
    rw [XytherOS.runs]
    cases heq : step s a with
    | error e =>
      rw [heq] at hone
      exact hone
    | ok s' =>
      rw [heq] at hone hrun
      exact ih hone hrun.2

/-- Every step of the run relates the states around it by `R`; the run may end in a fault `F`. -/
def Stepwise (F : Fault → Prop) (step : σ → α → Except Fault σ) (R : σ → α → σ → Prop) (s : σ) :
    List α → Prop
  | [] => True
  | a :: as =>
    match step s a with
    | .ok s' => R s a s' ∧ Stepwise F step R s' as
    | .error e => F e

theorem Stepwise.head {F : Fault → Prop} {R : σ → α → σ → Prop} {s : σ} {a : α} {as : List α}
    (h : Stepwise F step R s (a :: as)) : Safe F (step s a) (R s a) := by
  rw [Stepwise] at h
  cases heq : step s a with
  | error e =>
    rw [heq] at h
    exact h
  | ok s' =>
    rw [heq] at h
    exact h.1

theorem Stepwise.of_guarded {F : Fault → Prop} {R : σ → α → σ → Prop} {ok : σ → α → Bool}
    {I : σ → Prop}
    (hgood : ∀ s a, I s → ok s a = true → Safe F (step s a) fun s' => R s a s' ∧ I s') {s : σ}
    {as : List α} (h : I s) (hrun : guarded step ok s as = true) : Stepwise F step R s as := by
  induction as generalizing s with
  | nil => trivial
  | cons a as ih =>
    rw [guarded, Bool.and_eq_true] at hrun
    have hone : Safe F (step s a) fun s' => R s a s' ∧ I s' := hgood s a h hrun.1
    rw [Stepwise]
    cases heq : step s a with
    | error e =>
      rw [heq] at hone
      exact hone
    | ok s' =>
      rw [heq] at hone hrun
      exact ⟨hone.1, ih hone.2 hrun.2⟩

theorem stepwise_iff_guarded_of {F : Fault → Prop} {R : σ → α → σ → Prop} {pre ok : σ → α → Bool}
    {I : σ → Prop}
    (hgood : ∀ s a, I s → pre s a = true → ok s a = true →
      Safe F (step s a) fun s' => R s a s' ∧ I s')
    (hbad : ∀ s a, I s → pre s a = true → ok s a = false → ¬ Safe F (step s a) (R s a)) {s : σ}
    {as : List α} (h : I s) (hpre : guarded step pre s as = true) :
    Stepwise F step R s as ↔ guarded step ok s as = true := by
  induction as generalizing s with
  | nil => exact ⟨fun _ => rfl, fun _ => trivial⟩
  | cons a as ih =>
    rw [guarded, Bool.and_eq_true] at hpre ⊢
    rcases hpre with ⟨hpre, hrest⟩
    cases hok : ok s a with
    | false =>
      -- a step that the guard refuses does not relate its states
      exact iff_of_false (fun hrun => hbad s a h hpre hok hrun.head) (by simp)
    | true =>
      have hone := hgood s a h hpre hok
      rw [Stepwise]
      cases heq : step s a with
      | error e =>
        rw [heq] at hone
        exact iff_of_true hone ⟨rfl, rfl⟩
      | ok s' =>
        rw [heq] at hone hrest
        exact and_congr (iff_of_true hone.1 rfl) (ih hone.2 hrest)

theorem stepwise_iff_guarded {F : Fault → Prop} {R : σ → α → σ → Prop} {ok : σ → α → Bool}
    {I : σ → Prop}
    (hgood : ∀ s a, I s → ok s a = true → Safe F (step s a) fun s' => R s a s' ∧ I s')
    (hbad : ∀ s a, I s → ok s a = false → ¬ Safe F (step s a) (R s a)) {s : σ} {as : List α}
    (h : I s) : Stepwise F step R s as ↔ guarded step ok s as = true :=
  stepwise_iff_guarded_of (fun s a hs _ => hgood s a hs) (fun s a hs _ => hbad s a hs) h
    (guarded_true step s as)

end Runs

end XytherOS
