import Mathlib
import XytherOS.Core.Status

/-!
# FileWrite — the generic path of `fwrite`

`fwrite` of `fs/file.c` writes a buffer to the inode of an open file.  In blocking mode it writes
what is left of the buffer again and again, and waits in between; in non-blocking mode it writes
while the file is longer than the write would reach.

The inode is known by what its operations do: `iwrite` returns an error, or a count at most as large
as the request and positive where the request is.  Waking the readers, the reference count of the
inode and its lock change nothing that is seen here.
-/

namespace XytherOS
namespace Fs
namespace FileWrite

variable {σ β : Type}

/-- The operations on the inode of a regular file, whose state is `σ`: `igetsize`, `iwrite`, and
`cond_wait`, during which others may do anything to the file. -/
structure Backing (σ β : Type) where
  igetsize : σ → BitVec 64
  iwrite : σ → BitVec 64 → List β → Except Errno Nat × σ
  condWait : σ → σ
  /-- The count is an `ssize_t`. -/
  count_lt : ∀ s off buf n, (iwrite s off buf).1 = .ok n → n < 2 ^ 63
  count_le : ∀ s off buf n, (iwrite s off buf).1 = .ok n → n ≤ buf.length
  count_pos : ∀ s off buf n, (iwrite s off buf).1 = .ok n → buf ≠ [] → 0 < n

structure Inode where
  i_writers : Bool

structure Dentry where
  d_inode : Option Inode

/-- The open file: `O_NONBLOCK` of its flags, its offset and its dentry.  It has no `fwrite` of its
own. -/
structure File where
  nonblock : Bool
  f_off : BitVec 64
  f_dentry : Option Dentry

/-- What `fwrite` returns and leaves behind, and the bytes that its calls of `iwrite` stored: for
each call the offset and the part of the buffer. -/
structure Outcome (σ β : Type) where
  retval : Except Errno (BitVec 64)
  f_off : BitVec 64
  stores : List (BitVec 64 × List β)
  state : σ

def Outcome.behind (off : BitVec 64) (bytes : List β) (o : Outcome σ β) : Outcome σ β :=
  { o with stores := (off, bytes) :: o.stores }

/-- The loop of the non-blocking mode: at most `fuel` turns. -/
def nonblockLoop (io : Backing σ β) (buf : List β) :
    Nat → σ → BitVec 64 → Option (Outcome σ β)
  | 0, _, _ => none
  | fuel + 1, s, off =>
    if off + BitVec.ofNat 64 buf.length < io.igetsize s then
      match io.iwrite s off buf with
      | (.ok n, s) =>
        -- `buf` stays where it is
        (nonblockLoop io buf fuel s (off + BitVec.ofNat 64 n)).map
          (Outcome.behind off (buf.take n))
      | (.error e, s) => some ⟨.error e, off, [], s⟩
    else some ⟨.error .EAGAIN, off, [], s⟩

/-- The loop of the blocking mode over what is left of the buffer: at most `fuel` turns. -/
def blockLoop (io : Backing σ β) (i_writers : Bool) :
    Nat → σ → BitVec 64 → BitVec 64 → List β → Option (Outcome σ β)
  | 0, _, _, _, _ => none
  | fuel + 1, s, off, retval, buf =>
    if buf = [] then some ⟨.ok retval, off, [], s⟩
    else
      match io.iwrite s off buf with
      | (.error e, s) => some ⟨if retval = 0 then .error e else .ok retval, off, [], s⟩
      | (.ok written, s) =>
        let rest := buf.drop written
        let off' := off + BitVec.ofNat 64 written
        let retval := retval + BitVec.ofNat 64 written
        let next :=
          if rest = [] then blockLoop io i_writers fuel s off' retval rest
          else if i_writers then
            blockLoop io i_writers fuel (io.condWait s) off' retval rest
          else some ⟨.ok retval, off', [], s⟩
        next.map (Outcome.behind off (buf.take written))

def fwrite (io : Backing σ β) (fuel : Nat) (file : File) (buf : List β) (s : σ) :
    Option (Outcome σ β) :=
  match file.f_dentry with
  | none => some ⟨.error .ENOENT, file.f_off, [], s⟩
  | some dentry =>
    match dentry.d_inode with
    | none => some ⟨.error .ENOENT, file.f_off, [], s⟩
    | some inode =>
      if file.nonblock then nonblockLoop io buf fuel s file.f_off
      else blockLoop io inode.i_writers fuel s file.f_off 0 buf

/-! ## What a write should do -/

def places : BitVec 64 → List β → List (BitVec 64 × β)
  | _, [] => []
  | off, b :: bs => (off, b) :: places (off + 1) bs

def Outcome.stored (o : Outcome σ β) : List (BitVec 64 × β) :=
  o.stores.flatMap fun store => places store.1 store.2

/-- The first `n` bytes of the buffer are stored, each once and in order, at consecutive offsets;
the offset of the file moves by `n`, and `n` is returned, or an error where nothing is stored. -/
def Outcome.Right (file : File) (buf : List β) (o : Outcome σ β) : Prop :=
  ∃ n, n ≤ buf.length ∧ o.stored = places file.f_off (buf.take n) ∧
    o.f_off = file.f_off + BitVec.ofNat 64 n ∧
    match o.retval with
    | .ok v => v.toInt = n
    | .error _ => n = 0

@[simp] theorem length_places (off : BitVec 64) (bs : List β) :
    (places off bs).length = bs.length := by
  induction bs generalizing off with
  | nil => rfl
  | cons b bs ih => simp [places, ih]

theorem places_append (off : BitVec 64) (as bs : List β) :
    places off (as ++ bs) = places off as ++ places (off + BitVec.ofNat 64 as.length) bs := by
  induction as generalizing off with
  | nil => simp [places]
  | cons a as ih =>
    have hoff : off + 1 + BitVec.ofNat 64 as.length =
        off + BitVec.ofNat 64 (as.length + 1) := by
      rw [BitVec.add_assoc, BitVec.add_comm 1, BitVec.ofNat_add]
      rfl
    rw [List.cons_append, places, places, ih, hoff]
    rfl

@[simp] theorem stored_behind (off : BitVec 64) (bytes : List β) (o : Outcome σ β) :
    (o.behind off bytes).stored = places off bytes ++ o.stored := rfl

@[simp] theorem f_off_behind (off : BitVec 64) (bytes : List β) (o : Outcome σ β) :
    (o.behind off bytes).f_off = o.f_off := rfl

@[simp] theorem retval_behind (off : BitVec 64) (bytes : List β) (o : Outcome σ β) :
    (o.behind off bytes).retval = o.retval := rfl

/-! ## Blocking mode -/

theorem Backing.drop_lt (io : Backing σ β) {s : σ} {off : BitVec 64} {buf : List β} {n : Nat}
    (hw : (io.iwrite s off buf).1 = .ok n) (hne : buf ≠ []) :
    (buf.drop n).length < buf.length := by
  have hpos := io.count_pos s off buf n hw hne
  rw [List.length_drop]
  exact Nat.sub_lt (List.length_pos_iff.2 hne) hpos

/-- How many bytes the inode accepts, when it is asked again for the rest as long as there is one
and no error comes; at most `turns` times. -/
def acceptedIn (io : Backing σ β) (i_writers : Bool) : Nat → σ → BitVec 64 → List β → Nat
  | 0, _, _, _ => 0
  | turns + 1, s, off, buf =>
    if buf = [] then 0
    else
      match io.iwrite s off buf with
      | (.error _, _) => 0
      | (.ok n, s) =>
        if i_writers then
          n + acceptedIn io i_writers turns (io.condWait s) (off + BitVec.ofNat 64 n)
            (buf.drop n)
        else n

/-- How many bytes the inode accepts.  Every count is positive, so that there are no more turns than
bytes. -/
def accepted (io : Backing σ β) (i_writers : Bool) (s : σ) (off : BitVec 64) (buf : List β) : Nat :=
  acceptedIn io i_writers buf.length s off buf

variable {io : Backing σ β} {i_writers : Bool} {s s' : σ} {off retval : BitVec 64} {buf : List β}

theorem acceptedIn_le (turns : Nat) : acceptedIn io i_writers turns s off buf ≤ buf.length := by
  induction turns generalizing s off buf with
  | zero => exact Nat.zero_le _
  | succ turns ih =>
    rw [acceptedIn]
    by_cases hne : buf = []
    · rw [if_pos hne]
      exact Nat.zero_le _
    · rw [if_neg hne]
      rcases hw : io.iwrite s off buf with ⟨_ | n, s'⟩
      · exact Nat.zero_le _
      · have hle : n ≤ buf.length := io.count_le s off buf n (by rw [hw])
        have hrest := @ih (io.condWait s') (off + BitVec.ofNat 64 n) (buf.drop n)
        rw [List.length_drop] at hrest
        cases i_writers with
        | true =>
          simp only [if_true]
          omega
        | false => simpa using hle

theorem acceptedIn_nil (turns : Nat) : acceptedIn io i_writers turns s off [] = 0 :=
  Nat.le_zero.1 (acceptedIn_le turns)

/-- What the loop leaves behind, when the inode accepts `n` bytes and `retval` holds the sum of the
counts before. -/
structure Accepts (n : Nat) (off retval : BitVec 64) (buf : List β) (o : Outcome σ β) : Prop where
  stored : o.stored = places off (buf.take n)
  f_off : o.f_off = off + BitVec.ofNat 64 n
  returns : o.retval = .ok (retval + BitVec.ofNat 64 n) ∨
    retval + BitVec.ofNat 64 n = 0 ∧ ∃ e, o.retval = .error e

theorem Accepts.behind {m n : Nat} {o : Outcome σ β} (hle : n ≤ buf.length)
    (h : Accepts m (off + BitVec.ofNat 64 n) (retval + BitVec.ofNat 64 n) (buf.drop n) o) :
    Accepts (n + m) off retval buf (o.behind off (buf.take n)) := by
  have hsum (v : BitVec 64) : v + BitVec.ofNat 64 n + BitVec.ofNat 64 m =
      v + BitVec.ofNat 64 (n + m) := by
    rw [BitVec.add_assoc, BitVec.ofNat_add]
  refine ⟨?_, ?_, ?_⟩
  · have hlen : (buf.take n).length = n := by simp [hle]
    calc
      (o.behind off (buf.take n)).stored
          = places off (buf.take n) ++ o.stored := stored_behind _ _ _
      _ = places off (buf.take n) ++
            places (off + BitVec.ofNat 64 (buf.take n).length) ((buf.drop n).take m) := by
          rw [h.stored, hlen]
      _ = places off (buf.take (n + m)) := by
          rw [← places_append, ← List.take_add]
  · rw [f_off_behind, h.f_off, hsum]
  · have hreturns := h.returns
    rw [hsum] at hreturns
    exact hreturns

theorem blockLoop_spec (io : Backing σ β) (i_writers : Bool) (s : σ) (off retval : BitVec 64)
    {fuel : Nat} (hfuel : buf.length ≤ fuel) :
    ∃ o, blockLoop io i_writers (fuel + 1) s off retval buf = some o ∧
      Accepts (acceptedIn io i_writers fuel s off buf) off retval buf o := by
  induction fuel generalizing s off retval buf with
  | zero =>
    have hnil : buf = [] := List.length_eq_zero_iff.1 (Nat.le_zero.1 hfuel)
    refine ⟨⟨.ok retval, off, [], s⟩, by rw [blockLoop, if_pos hnil], ?_, ?_, .inl ?_⟩
    · simp [acceptedIn, Outcome.stored, places]
    · simp [acceptedIn]
    · simp [acceptedIn]
  | succ fuel ih =>
    rw [blockLoop, acceptedIn]
    by_cases hne : buf = []
    · rw [if_pos hne, if_pos hne]
      refine ⟨⟨.ok retval, off, [], s⟩, rfl, ?_, ?_, .inl ?_⟩
      · simp [Outcome.stored, places]
      · simp
      · simp
    · rw [if_neg hne, if_neg hne]
      rcases hw : io.iwrite s off buf with ⟨e | n, s'⟩
      · -- the write fails
        refine ⟨⟨if retval = 0 then .error e else .ok retval, off, [], s'⟩, rfl, ?_, ?_, ?_⟩
        · simp [Outcome.stored, places]
        · simp
        · by_cases hzero : retval = 0
          · exact .inr ⟨by rw [hzero]; rfl, e, if_pos hzero⟩
          · exact .inl ((if_neg hzero).trans (by simp))
      · -- the write stores `n` bytes
        have hle : n ≤ buf.length := io.count_le s off buf n (by rw [hw])
        have hfuel' : (buf.drop n).length ≤ fuel :=
          Nat.le_of_lt_succ (Nat.lt_of_lt_of_le (io.drop_lt (by rw [hw]) hne) hfuel)
        have hstop : Accepts 0 (off + BitVec.ofNat 64 n) (retval + BitVec.ofNat 64 n)
            (buf.drop n) ⟨.ok (retval + BitVec.ofNat 64 n), off + BitVec.ofNat 64 n, [], s'⟩ :=
          ⟨by simp [Outcome.stored, places], by simp, .inl (by simp)⟩
        -- the rest is empty, or it is written after a wait, or nobody could wait
        by_cases hrest : buf.drop n = []
        · rcases @ih _ s' (off + BitVec.ofNat 64 n)
            (retval + BitVec.ofNat 64 n) hfuel' with ⟨o, hloop, ho⟩
          rw [hrest, acceptedIn_nil, ← hrest] at ho
          refine ⟨o.behind off (buf.take n), by simp only [if_pos hrest, hloop]; rfl, ?_⟩
          have hsame : (if i_writers then n + acceptedIn io i_writers fuel (io.condWait s')
              (off + BitVec.ofNat 64 n) (buf.drop n) else n) = n + 0 := by
            rw [hrest, acceptedIn_nil]
            exact ite_self _
          simp only [hsame]
          exact ho.behind hle
        · cases i_writers with
          | true =>
            rcases @ih _ (io.condWait s')
              (off + BitVec.ofNat 64 n) (retval + BitVec.ofNat 64 n) hfuel' with ⟨o, hloop, ho⟩
            refine ⟨o.behind off (buf.take n), ?_, ho.behind hle⟩
            simp only [if_neg hrest, if_true, hloop]
            rfl
          | false =>
            refine ⟨_, ?_, hstop.behind hle⟩
            simp only [if_neg hrest, Bool.false_eq_true, if_false]
            rfl

theorem blockLoop_mono (more : Nat) {fuel : Nat} {o : Outcome σ β}
    (h : blockLoop io i_writers fuel s off retval buf = some o) :
    blockLoop io i_writers (fuel + more) s off retval buf = some o := by
  induction fuel generalizing s off retval buf o with
  | zero => exact absurd h (by simp [blockLoop])
  | succ fuel ih =>
    rw [Nat.succ_add, blockLoop]
    rw [blockLoop] at h
    by_cases hne : buf = []
    · rwa [if_pos hne] at h ⊢
    · rw [if_neg hne] at h ⊢
      rcases hw : io.iwrite s off buf with ⟨e | n, s'⟩
      · rwa [hw] at h
      · rw [hw] at h
        rcases Option.map_eq_some_iff.1 h with ⟨o', hnext, heq⟩
        refine Option.map_eq_some_iff.2 ⟨o', ?_, heq⟩
        -- the next turn is the same with more fuel
        split_ifs at hnext ⊢
        · exact ih hnext
        · exact ih hnext
        · exact hnext

theorem right_iff_of_accepts {file : File} {o : Outcome σ β} {n : Nat} (hle : n ≤ buf.length)
    (h : Accepts n file.f_off 0 buf o) : o.Right file buf ↔ n < 2 ^ 63 := by
  have hreturns := h.returns
  rw [BitVec.ofNat_eq_ofNat, BitVec.zero_add] at hreturns
  constructor
  · rintro ⟨m, hm, hstored, -, hret⟩
    have hsame : n = m := by
      have hlen := congrArg List.length (h.stored.symm.trans hstored)
      rwa [length_places, length_places, List.length_take_of_le hle,
        List.length_take_of_le hm] at hlen
    rcases hreturns with hok | ⟨-, e, herror⟩
    · simp only [hok] at hret
      have hlt := BitVec.toInt_lt (x := BitVec.ofNat 64 n)
      rw [hret] at hlt
      omega
    · simp only [herror] at hret
      rw [hsame, hret]
      exact Nat.two_pow_pos 63
  · intro hlt
    have hnat : (BitVec.ofNat 64 n).toNat = n :=
      (BitVec.toNat_ofNat n 64).trans (Nat.mod_eq_of_lt (Nat.lt_trans hlt (by decide)))
    refine ⟨n, hle, h.stored, h.f_off, ?_⟩
    rcases hreturns with hok | ⟨hzero, e, herror⟩
    · simp only [hok]
      rw [BitVec.toInt_eq_toNat_of_lt (by rw [hnat]; omega), hnat]
    · simp only [herror]
      rw [← hnat, hzero]
      rfl

/-! ## Non-blocking mode -/

/-- The inode takes nothing of the buffer: the write would reach the end of the file, or it fails;
where there is nothing to write, after some writes of nothing. -/
inductive Declines (io : Backing σ β) (off : BitVec 64) (buf : List β) : σ → Prop
  | refused {s : σ} (h : ¬off + BitVec.ofNat 64 buf.length < io.igetsize s) : Declines io off buf s
  | failed {s s' : σ} {e : Errno} (h : io.iwrite s off buf = (.error e, s')) : Declines io off buf s
  | again {s s' : σ} (hnil : buf = []) (h : io.iwrite s off buf = (.ok 0, s'))
      (hrest : Declines io off buf s') : Declines io off buf s

theorem nonblockLoop_declines (h : Declines io off buf s) :
    ∃ fuel o, nonblockLoop io buf fuel s off = some o ∧ o.stored = [] ∧ o.f_off = off ∧
      ∃ e, o.retval = .error e := by
  induction h with
  | @refused s h =>
    exact ⟨1, ⟨.error .EAGAIN, off, [], s⟩, by rw [nonblockLoop, if_neg h], rfl, rfl, _, rfl⟩
  | @failed s s' e h =>
    by_cases hsize : off + BitVec.ofNat 64 buf.length < io.igetsize s
    · exact ⟨1, ⟨.error e, off, [], s'⟩, by rw [nonblockLoop, if_pos hsize, h], rfl, rfl, _, rfl⟩
    · exact ⟨1, ⟨.error .EAGAIN, off, [], s⟩, by rw [nonblockLoop, if_neg hsize], rfl, rfl, _, rfl⟩
  | @again s s' hnil h hrest ih =>
    by_cases hsize : off + BitVec.ofNat 64 buf.length < io.igetsize s
    · rcases ih with ⟨fuel, o, hloop, hstored, hoff, herror⟩
      refine ⟨fuel + 1, o.behind off (buf.take 0), ?_, ?_, hoff, herror⟩
      · rw [nonblockLoop, if_pos hsize, h]
        simp [hloop]
      · simp [hstored, places]
    · exact ⟨1, ⟨.error .EAGAIN, off, [], s⟩, by rw [nonblockLoop, if_neg hsize], rfl, rfl, _, rfl⟩

theorem declines_of_nonblockLoop {fuel : Nat} {o : Outcome σ β}
    (h : nonblockLoop io buf fuel s off = some o) :
    (∃ e, o.retval = .error e) ∧ (o.stored = [] → Declines io off buf s) := by
  induction fuel generalizing s off o with
  | zero => exact absurd h (by simp [nonblockLoop])
  | succ fuel ih =>
    rw [nonblockLoop] at h
    by_cases hsize : off + BitVec.ofNat 64 buf.length < io.igetsize s
    · rw [if_pos hsize] at h
      rcases hw : io.iwrite s off buf with ⟨e | n, s'⟩
      · rw [hw] at h
        cases h
        exact ⟨⟨e, rfl⟩, fun _ => .failed hw⟩
      · rw [hw] at h
        rcases Option.map_eq_some_iff.1 h with ⟨o', hloop, heq⟩
        subst heq
        have hrest := ih hloop
        refine ⟨hrest.1, fun hstored => ?_⟩
        rw [stored_behind, List.append_eq_nil_iff] at hstored
        have htake : (buf.take n).length = 0 := by
          rw [← length_places off, hstored.1]
          rfl
        have hle : n ≤ buf.length := io.count_le s off buf n (by rw [hw])
        have hzero : n = 0 := by
          rwa [List.length_take_of_le hle] at htake
        subst hzero
        -- a count of zero answers an empty request
        have hnil : buf = [] := by
          by_contra hne
          exact absurd (io.count_pos s off buf 0 (by rw [hw]) hne) (Nat.lt_irrefl 0)
        have hdeclines := hrest.2 hstored.2
        rw [BitVec.add_zero] at hdeclines
        exact .again hnil hw hdeclines
    · rw [if_neg hsize] at h
      cases h
      exact ⟨⟨_, rfl⟩, fun _ => .refused hsize⟩

/-! ## The write as a whole -/

/-- When `fwrite` does what it should: there is no inode; in non-blocking mode the inode takes
nothing of the buffer; in blocking mode it accepts less than half the numbers of a `size_t`. -/
def Served (io : Backing σ β) (file : File) (buf : List β) (s : σ) : Prop :=
  match file.f_dentry.bind Dentry.d_inode with
  | none => True
  | some inode =>
    if file.nonblock then Declines io file.f_off buf s
    else accepted io inode.i_writers s file.f_off buf < 2 ^ 63

theorem fwrite_right_iff (io : Backing σ β) (file : File) (buf : List β) (s : σ) :
    (∃ fuel o, fwrite io fuel file buf s = some o ∧ o.Right file buf) ↔ Served io file buf s := by
  have hnone : Outcome.Right file buf (⟨.error .ENOENT, file.f_off, [], s⟩ : Outcome σ β) :=
    ⟨0, Nat.zero_le _, rfl, by simp, rfl⟩
  rcases hdentry : file.f_dentry with _ | dentry
  · refine iff_of_true ⟨0, _, by rw [fwrite, hdentry], hnone⟩ ?_
    simp [Served, hdentry]
  · rcases hinode : dentry.d_inode with _ | inode
    · refine iff_of_true ⟨0, _, by simp only [fwrite, hdentry, hinode], hnone⟩ ?_
      simp [Served, hdentry, hinode]
    · have hserved : Served io file buf s ↔
          if file.nonblock then Declines io file.f_off buf s
          else accepted io inode.i_writers s file.f_off buf < 2 ^ 63 := by
        rw [Served, hdentry, Option.bind_some, hinode]
      have hwrite (fuel : Nat) : fwrite io fuel file buf s =
          if file.nonblock then nonblockLoop io buf fuel s file.f_off
          else blockLoop io inode.i_writers fuel s file.f_off 0 buf := by
        simp only [fwrite, hdentry, hinode]
      simp only [hserved, hwrite]
      cases file.nonblock with
      | true =>
        simp only [if_true]
        constructor
        · rintro ⟨fuel, o, hloop, n, hle, hstored, -, hret⟩
          have hdeclines := declines_of_nonblockLoop hloop
          rcases hdeclines.1 with ⟨e, herror⟩
          simp only [herror] at hret
          subst hret
          exact hdeclines.2 hstored
        · intro h
          rcases nonblockLoop_declines h with ⟨fuel, o, hloop, hstored, hoff, e, herror⟩
          refine ⟨fuel, o, hloop, 0, Nat.zero_le _, hstored, by simp [hoff], ?_⟩
          simp only [herror]
      | false =>
        simp only [Bool.false_eq_true, if_false]
        rcases blockLoop_spec io inode.i_writers s file.f_off 0
          (Nat.le_refl buf.length) with ⟨o, hloop, haccepts⟩
        rw [accepted, ← right_iff_of_accepts (acceptedIn_le _) haccepts]
        constructor
        · rintro ⟨fuel, o', hloop', hright⟩
          have heq := blockLoop_mono (buf.length + 1) hloop'
          rw [Nat.add_comm, blockLoop_mono _ hloop, Option.some.injEq] at heq
          rwa [heq]
        · exact fun hright => ⟨_, o, hloop, hright⟩

/-- A regular file that accepts one byte a time, and is as long as `igetsize` says. -/
def slowFile : Backing Nat Char where
  igetsize s := BitVec.ofNat 64 s
  iwrite s _ buf := (.ok (min buf.length 1), s)
  condWait s := s
  count_lt s off buf n h := by
    cases h
    exact Nat.lt_of_le_of_lt (Nat.min_le_right _ _) (by decide)
  count_le s off buf n h := by
    cases h
    exact Nat.min_le_left _ _
  count_pos s off buf n h hne := by
    cases h
    exact Nat.lt_min.2 ⟨List.length_pos_iff.2 hne, Nat.one_pos⟩

/-- The loop stores the first byte again and again, until it meets the end of the file. -/
theorem fwrite_nonblock_repeats :
    ¬∀ (io : Backing Nat Char) (file : File) (buf : List Char) (s : Nat),
      ∃ fuel o, fwrite io fuel file buf s = some o ∧ o.Right file buf := by
  intro h
  rcases h slowFile ⟨true, 0, some ⟨some ⟨true⟩⟩⟩ ['a', 'b'] 100 with
    ⟨fuel, o, hwrite, n, -, hstored, -, hret⟩
  have hloop : nonblockLoop slowFile ['a', 'b'] fuel 100 0 = some o := hwrite
  have hdeclines := declines_of_nonblockLoop hloop
  rcases hdeclines.1 with ⟨e, herror⟩
  simp only [herror] at hret
  subst hret
  cases hdeclines.2 hstored with
  | refused h => exact h (by decide)
  | failed h => exact absurd h (by simp [slowFile])
  | again hnil => exact absurd hnil (by decide)

end FileWrite
end Fs
end XytherOS
