import Mathlib.Data.BitVec
import Mathlib.Data.List.FinRange
import XytherOS.Core.Status

/-!
# Sigset — sets of signals and the mask operations

`sys/sigset.h` and the mask functions of `sys/signal/sigmask.c`.  A `sigset_t` is one `uint`
(`__NR_INT` is 1), and the signal `signo` is its bit `signo - 1`.

* `Signo` — the index `signo - 1` of a signal number that is not `SIGBAD`;
* `sigmask` — edits a mask, unless the given set has one of the two signals nobody may block;
* `Blockable` — a set without these two, which is what `sigmask` keeps a mask to.
-/

namespace XytherOS
namespace Signal

/-! ## Sets of signals -/

def NSIG : Nat := 32

/-- The array index `signo - 1` of a signal number between `1` and `NSIG`. -/
abbrev Signo := Fin NSIG

def sigbad (signo : Int) : Bool := signo < 1 || signo > NSIG

def Signo.ofInt (signo : Int) : Option Signo :=
  if h : sigbad signo = true then none
  else some ⟨(signo - 1).toNat, by simp [sigbad, NSIG] at h ⊢; omega⟩

def SIGKILL : Signo := ⟨14 - 1, by decide⟩

def SIGSTOP : Signo := ⟨19 - 1, by decide⟩

def SIGUSR1 : Signo := ⟨27 - 1, by decide⟩

def SIGUSR2 : Signo := ⟨28 - 1, by decide⟩

abbrev Sigset := BitVec 32

def sigBit (n : Signo) : Sigset := BitVec.twoPow 32 n

def sigsetempty : Sigset := 0#32

def sigsetadd (set : Sigset) (n : Signo) : Sigset := set ||| sigBit n

def sigsetdel (set : Sigset) (n : Signo) : Sigset := set &&& ~~~ sigBit n

def sigsetdelmask (set mask : Sigset) : Sigset := set &&& ~~~ mask

def sigsetand (set set' : Sigset) : Sigset := set &&& set'

def sigismember (set : Sigset) (n : Signo) : Bool := (set &&& sigBit n) ≠ 0#32

def sigsetFirst (set : Sigset) : Option Signo := (List.finRange NSIG).find? (sigismember set)

theorem sigismember_eq (set : Sigset) (n : Signo) : sigismember set n = set.getLsbD n := by
  have hn : n.val < 32 := n.isLt
  rw [sigismember, sigBit, BitVec.and_twoPow]
  by_cases h : set.getLsbD n = true
  · rw [if_pos h, h]
    refine decide_eq_true ?_
    intro hzero
    have hbit : (BitVec.twoPow 32 n).getLsbD n = (0#32).getLsbD n := by rw [hzero]
    simp [hn] at hbit
  · rw [if_neg h]
    simpa using h

section Members

variable (set set' : Sigset) (n m : Signo)

@[simp] theorem sigismember_empty : sigismember sigsetempty n = false := by
  simp [sigismember_eq, sigsetempty]

@[simp] theorem sigismember_add :
    sigismember (sigsetadd set n) m = (sigismember set m || decide (m = n)) := by
  have hm : m.val < 32 := m.isLt
  simp [sigismember_eq, sigsetadd, sigBit, hm, Fin.ext_iff, eq_comm]

@[simp] theorem sigismember_del :
    sigismember (sigsetdel set n) m = (sigismember set m && decide (m ≠ n)) := by
  have hm : m.val < 32 := m.isLt
  simp [sigismember_eq, sigsetdel, sigBit, hm, Fin.ext_iff, eq_comm]

@[simp] theorem sigismember_and :
    sigismember (sigsetand set set') m = (sigismember set m && sigismember set' m) := by
  simp [sigismember_eq, sigsetand]

@[simp] theorem sigismember_or :
    sigismember (set ||| set') m = (sigismember set m || sigismember set' m) := by
  simp [sigismember_eq]

@[simp] theorem sigismember_andNot :
    sigismember (set &&& ~~~ set') m = (sigismember set m && !sigismember set' m) := by
  have hm : m.val < 32 := m.isLt
  simp [sigismember_eq, hm]

end Members

theorem sigset_ext {set set' : Sigset} (h : ∀ n, sigismember set n = sigismember set' n) :
    set = set' := by
  refine BitVec.eq_of_getLsbD_eq ?_
  intro i hi
  have hbit := h ⟨i, hi⟩
  rw [sigismember_eq, sigismember_eq] at hbit
  exact hbit

theorem sigsetFirst_eq_some_iff {set : Sigset} {n : Signo} :
    sigsetFirst set = some n ↔ sigismember set n = true ∧ ∀ m < n, sigismember set m = false := by
  rw [sigsetFirst, List.find?_eq_some_iff_getElem]
  simp only [List.getElem_finRange, List.length_finRange, Bool.not_eq_true']
  constructor
  · rintro ⟨hn, i, hi, hin, hlt⟩
    refine ⟨hn, ?_⟩
    intro m hm
    subst hin
    exact hlt m.val hm
  · rintro ⟨hn, hlt⟩
    refine ⟨hn, n.val, n.isLt, rfl, ?_⟩
    intro j hj
    exact hlt ⟨j, hj.trans n.isLt⟩ hj

theorem sigsetFirst_eq_none_iff {set : Sigset} :
    sigsetFirst set = none ↔ ∀ n, sigismember set n = false := by
  rw [sigsetFirst, List.find?_eq_none]
  simp

/-! ## Masks -/

def SIG_BLOCK : Int := 1

def SIG_UNBLOCK : Int := 2

def SIG_SETMASK : Int := 3

def doSigmask (sigset : Sigset) (how : Int) (set : Sigset) : Ret × Sigset :=
  if how = SIG_SETMASK then
    (.ok, set)
  else if how = SIG_BLOCK then
    (.ok, sigset ||| set)
  else if how = SIG_UNBLOCK then
    (.ok, sigset &&& ~~~ set)
  else
    (.err .EINVAL, sigset)

/-- `sigmask`; `*oset` is the mask it is called with.  A set with `SIGKILL` or `SIGSTOP` is refused
as a whole. -/
def sigmask (sigset : Sigset) (how : Int) (set : Option Sigset) : Ret × Sigset :=
  match set with
  | none => (.ok, sigset)
  | some set =>
    if sigismember set SIGKILL || sigismember set SIGSTOP then
      (.err .EINVAL, sigset)
    else
      doSigmask sigset how set

def Blockable (set : Sigset) : Prop :=
  sigismember set SIGKILL = false ∧ sigismember set SIGSTOP = false

instance (set : Sigset) : Decidable (Blockable set) := inferInstanceAs (Decidable (_ ∧ _))

theorem blockable_empty : Blockable sigsetempty := ⟨by simp, by simp⟩

theorem sigmask_some_eq (sigset : Sigset) (how : Int) (set : Sigset) :
    sigmask sigset how (some set) =
      if Blockable set then doSigmask sigset how set else (.err .EINVAL, sigset) := by
  rw [sigmask]
  by_cases h : Blockable set
  · rw [if_pos h, if_neg (by simp [h.1, h.2])]
  · rw [if_neg h, if_pos]
    simp only [Blockable, not_and_or, Bool.not_eq_false] at h
    simpa using h

theorem doSigmask_blockable {sigset set : Sigset} (how : Int) (h : Blockable sigset)
    (hset : Blockable set) : Blockable (doSigmask sigset how set).2 := by
  rw [doSigmask]
  split_ifs
  · exact hset
  · exact ⟨by simp [h.1, hset.1], by simp [h.2, hset.2]⟩
  · exact ⟨by simp [h.1], by simp [h.2]⟩
  · exact h

theorem sigmask_blockable {sigset : Sigset} (how : Int) (set : Option Sigset)
    (h : Blockable sigset) : Blockable (sigmask sigset how set).2 := by
  cases set with
  | none => exact h
  | some set =>
    rw [sigmask_some_eq]
    by_cases hset : Blockable set
    · rw [if_pos hset]
      exact doSigmask_blockable how h hset
    · rw [if_neg hset]
      exact h

theorem sigmask_setmask (sigset : Sigset) {set : Sigset} (hset : Blockable set) :
    sigmask sigset SIG_SETMASK (some set) = (.ok, set) := by
  rw [sigmask_some_eq, if_pos hset, doSigmask, if_pos rfl]

theorem sigmask_unblock (sigset : Sigset) {set : Sigset} (hset : Blockable set) :
    sigmask sigset SIG_UNBLOCK (some set) = (.ok, sigset &&& ~~~ set) := by
  rw [sigmask_some_eq, if_pos hset, doSigmask, if_neg (by decide), if_neg (by decide), if_pos rfl]

end Signal
end XytherOS
