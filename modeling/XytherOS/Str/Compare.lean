import XytherOS.Str.Chars

/-!
# Compare — comparing and searching in `lib/xyther_strings.c`

Blocks of sixteen bytes are taken from the strings without regard to where these end.  A match or a
difference that a mask shows behind the terminator of its block counts as one in the string, and
`xytherOs_strcmp` goes on to the next block where the whole last block agrees.

* Plain loops look at `c1`, `c2`, `c1 == '\0'` one after the other: they stop at the first
  difference or terminator, and their result is the difference of the characters there.
* Comparisons are stated for the sequences of characters at the two pointers.
-/

namespace XytherOS
namespace Str

open Loop

def blockLoop {ρ : Type} (body : Nat → Option ρ) (n s : Nat) : Option ρ :=
  run (fun s => match body s with
    | some r => .inr r
    | none => .inl (s + 16)) n s

section Search

variable (m : Mem) (str : Nat)

def alignedOr (hit : Byte → Bool) (n : Nat) : Option Nat :=
  firstOf (fun a => a % 16 == 0 || hit (m a)) str n

def strlen (n : Nat) : Option Nat := do
  let s ← alignedOr m str (· == 0) n
  if s % 16 = 0 then
    let z ← blockLoop (fun s => firstOf (hits m 0) s 16) n s
    return z - str
  else return s - str

def chrBlocks (ch : Byte) : Nat → Nat → Option (Option Nat) :=
  blockLoop fun s =>
    match firstOf (hits m ch) s 16 with
    | some a => some (some a)
    | none => if (firstOf (hits m 0) s 16).isSome then some none else none

def strchr (c : BitVec 32) (n : Nat) : Option (Option Nat) := do
  let ch := c.setWidth 8
  let s ← alignedOr m str (fun b => b == ch || b == 0) n
  if s % 16 = 0 then chrBlocks m ch n s
  else if m s = ch then return some s
  else return none

def lfind (c : BitVec 32) (n : Nat) : Option (Option Nat) := chrBlocks m (c.setWidth 8) n str

def plainChr (c : BitVec 32) (n : Nat) : Option (Option Nat) := do
  let s ← firstOf (fun a => m a == c.setWidth 8 || m a == 0) str n
  if m s = c.setWidth 8 then return some s else return none

end Search

section Comparison

variable (u v x y : Nat → Byte)

def differs (i : Nat) : Bool := u i != v i

def stops (i : Nat) : Bool := differs u v i || u i == 0

def difference (i : Nat) : Int := (u i).toNat - (v i).toNat

/-- The plain loop over `n` characters from `i` on; `none` is its end. -/
def bytes (i n : Nat) : Option Int := (firstOf (stops u v) i n).map (difference u v)

/-- A block that is looked at for a difference first, `u` and `v` being the lanes and `x` and `y`
what the loop over a block with a terminator compares; `ended` is the result behind that loop. -/
def block (ended : Option Int) (i : Nat) : Option Int :=
  match firstOf (differs u v) i 16 with
  | some k => some (difference u v k)
  | none =>
    if (firstOf (fun i => u i == 0) i 16).isSome then (bytes x y i 16).or ended else none

def counted (i n : Nat) : Int :=
  if 16 ≤ n then
    match block u v x y (some 0) i with
    | some r => r
    | none => counted (i + 16) (n - 16)
  else (bytes x y i n).getD 0
termination_by n

end Comparison

def lower (c : Byte) : Byte := if 65 ≤ c ∧ c ≤ 90 then c ||| 0x20 else c

def lowerLane (c : Byte) : Byte := c ||| if 64 < c.toInt ∧ c.toInt < 91 then 0x20 else 0

def chars (f : Byte → Byte) (m : Mem) (s i : Nat) : Byte := f (m (s + i))

section Functions

variable (m : Mem) (s1 s2 : Nat)

def strcmp (n : Nat) : Option Int := do
  let u := chars id m s1
  let v := chars id m s2
  let i ← firstOf (fun i => (s1 + i) % 16 == 0 || (s2 + i) % 16 == 0 || stops u v i) 0 n
  if (s1 + i) % 16 = 0 ∨ (s2 + i) % 16 = 0 then
    blockLoop (fun i => if (firstOf (differs u v) i 16).isSome then bytes u v i 16 else none) n i
  else return difference u v i

def strncmp (n : Nat) : Int :=
  counted (chars id m s1) (chars id m s2) (chars id m s1) (chars id m s2) 0 n

def strcasecmp (n : Nat) : Option Int :=
  blockLoop (block (chars lowerLane m s1) (chars lowerLane m s2) (chars lower m s1)
    (chars lower m s2) none) n 0

def strncasecmp (n : Nat) : Int :=
  if n = 0 then 0
  else counted (chars lowerLane m s1) (chars lowerLane m s2) (chars lower m s1)
    (chars lower m s2) 0 n

/-- The plain comparison up to the terminators, and the one of at most `n` characters. -/
def plainCmp (f : Byte → Byte) (n : Nat) : Option Int := bytes (chars f m s1) (chars f m s2) 0 n

def plainNCmp (f : Byte → Byte) (n : Nat) : Int := (plainCmp m s1 s2 f n).getD 0

end Functions

/-! ## Blocks -/

theorem lowerLane_eq : lowerLane = lower := by
  funext c
  revert c
  decide +kernel

theorem lower_eq_zero (c : Byte) : lower c = 0 ↔ c = 0 := by
  revert c
  decide +kernel

section Blocks

variable {ρ : Type} {body : Nat → Option ρ} {s t : Nat} {r : ρ}

theorem blockLoop_returns (t : Nat) (hnone : ∀ j < t, body (s + 16 * j) = none)
    (hsome : body (s + 16 * t) = some r) : Returns (fun n => blockLoop body n s) r := by
  refine Returns.of_steps (fun j => s + 16 * j) t (fun j hj => ?_) ?_
  · rw [hnone j hj]
    rfl
  · rw [hsome]

theorem blockLoop_never (hnone : ∀ j, body (s + 16 * j) = none) (n : Nat) :
    blockLoop body n s = none :=
  run_eq_none (fun j => s + 16 * j) (fun j => by rw [hnone j]; rfl) n

end Blocks

/-! ## Comparing -/

variable {u v : Nat → Byte} {k n i : Nat} {m : Mem} {s s1 s2 : Nat} {a b cs : List Byte}

theorem difference_eq_zero : difference u v i = 0 ↔ u i = v i := by
  rw [difference, Int.sub_eq_zero, Int.ofNat_inj]
  exact BitVec.toNat_inj

structure FirstStop (u v : Nat → Byte) (k : Nat) : Prop where
  stop : stops u v k
  before : ∀ i < k, stops u v i = false

namespace FirstStop

variable (h : FirstStop u v k)

include h

theorem agrees (hi : i < k) : differs u v i = false := (Bool.or_eq_false_iff.1 (h.before i hi)).1

theorem ne_zero (hi : i < k) : (u i == 0) = false := (Bool.or_eq_false_iff.1 (h.before i hi)).2

theorem bytes_eq (hi : i ≤ k) :
    bytes u v i n = if k < i + n then some (difference u v k) else none := by
  obtain ⟨d, rfl⟩ : ∃ d, k = i + d := ⟨k - i, by omega⟩
  split_ifs with hlt
  · rw [bytes, firstOf_eq h.stop (fun j hj => h.before _ (by omega)) (by omega)]
    rfl
  · rw [bytes, firstOf_eq_none.2 fun j hj => h.before _ (by omega)]
    rfl

theorem block_none {x y : Nat → Byte} {ended : Option Int} (hi : i + 16 ≤ k) :
    block u v x y ended i = none := by
  rw [block, firstOf_eq_none.2 fun j hj => h.agrees (by omega),
    firstOf_eq_none.2 fun j hj => h.ne_zero (by omega)]
  rfl

end FirstStop

def seen (u v : Nat → Byte) (k : Nat) : Int :=
  match firstOf (differs u v) (16 * (k / 16)) 16 with
  | some j => difference u v j
  | none => 0

def Clean (u v : Nat → Byte) (k : Nat) : Prop := ∀ j, k < j → j < 16 * (k / 16 + 1) → u j = v j

namespace FirstStop

variable (h : FirstStop u v k)

include h

theorem block_eq (ended : Option Int) :
    block u v u v ended (16 * (k / 16)) = some (seen u v k) := by
  rw [block, seen]
  rcases hd : firstOf (differs u v) (16 * (k / 16)) 16 with _ | j
  · have hk : differs u v k = false := by
      have hk := firstOf_eq_none.1 hd (k % 16) (Nat.mod_lt k (by decide))
      rwa [Nat.div_add_mod] at hk
    have hz : (u k == 0) = true := by
      have hstop := h.stop
      rwa [stops, hk, Bool.false_or] at hstop
    have hsome : (firstOf (fun i => u i == 0) (16 * (k / 16)) 16).isSome := by
      rw [Option.isSome_iff_ne_none]
      intro hnone
      have hk := firstOf_eq_none.1 hnone (k % 16) (Nat.mod_lt k (by decide))
      rw [Nat.div_add_mod, hz] at hk
      cases hk
    have hzero : difference u v k = 0 := difference_eq_zero.2 (by simpa [differs] using hk)
    simp only [hsome, if_true]
    rw [h.bytes_eq (by omega), if_pos (by omega), hzero]
    rfl
  · rfl

theorem seen_iff : (seen u v k).sign = (difference u v k).sign ↔ (u k = v k → Clean u v k) := by
  rw [seen]
  by_cases hk : u k = v k
  · rw [difference_eq_zero.2 hk, Int.sign_zero, Int.sign_eq_zero_iff_zero]
    rcases hd : firstOf (differs u v) (16 * (k / 16)) 16 with _ | j
    · refine iff_of_true rfl fun _ j hj hend => ?_
      have hj := firstOf_eq_none.1 hd (j - 16 * (k / 16)) (by omega)
      rw [show 16 * (k / 16) + (j - 16 * (k / 16)) = j by omega] at hj
      simpa [differs] using hj
    · rcases firstOf_some hd with ⟨hj, -, hend⟩
      have hne : u j ≠ v j := by simpa [differs] using hj
      refine iff_of_false (fun heq => hne (difference_eq_zero.1 heq)) fun hclean => ?_
      refine hne (hclean hk j ?_ (by omega))
      rcases Nat.lt_trichotomy j k with hlt | rfl | hgt
      · rw [h.agrees hlt] at hj
        cases hj
      · exact absurd hk hne
      · exact hgt
  · have hmod : 16 * (k / 16) + k % 16 = k := Nat.div_add_mod k 16
    have hd : firstOf (differs u v) (16 * (k / 16)) 16 = some (16 * (k / 16) + k % 16) := by
      refine firstOf_eq ?_ (fun j hj => h.agrees (by omega)) (Nat.mod_lt k (by decide))
      rw [hmod]
      exact bne_iff_ne.2 hk
    rw [hd, hmod]
    exact iff_of_true rfl fun heq => absurd heq hk

theorem counted_eq : counted u v u v 0 n =
    if 16 * (k / 16 + 1) ≤ n then seen u v k else (bytes u v 0 n).getD 0 := by
  have hskip : ∀ t i n, i + 16 * t ≤ k → 16 * t ≤ n →
      counted u v u v i n = counted u v u v (i + 16 * t) (n - 16 * t) := by
    intro t
    induction t with
    | zero => exact fun i n _ _ => rfl
    | succ t ih =>
      intro i n hi hn
      rw [counted, if_pos (by omega), h.block_none (by omega)]
      simp only
      rw [ih (i + 16) (n - 16) (by omega) (by omega)]
      congr 1 <;> omega
  split_ifs with hle
  · rw [hskip (k / 16) 0 n (by omega) (by omega), Nat.zero_add, counted, if_pos (by omega),
      h.block_eq]
  · rw [hskip (n / 16) 0 n (by omega) (by omega), counted, if_neg (by omega),
      h.bytes_eq (by omega), h.bytes_eq (by omega), Nat.zero_add, Nat.zero_add,
      Nat.add_sub_of_le (by omega)]

theorem counted_iff : (counted u v u v 0 n).sign = ((bytes u v 0 n).getD 0).sign ↔
    (u k = v k → 16 * (k / 16 + 1) ≤ n → Clean u v k) := by
  rw [h.counted_eq]
  split_ifs with hle
  · rw [h.bytes_eq (Nat.zero_le k), if_pos (by omega), Option.getD_some, h.seen_iff]
    exact ⟨fun hc heq _ => hc heq, fun hc heq => hc heq hle⟩
  · exact iff_of_true rfl fun _ hle' => absurd hle' hle

theorem bytes_returns : Returns (bytes u v 0) (difference u v k) :=
  (Filter.eventually_gt_atTop k).mono fun n hn => by
    rw [h.bytes_eq (Nat.zero_le k), if_pos (by omega)]

theorem blockLoop_block : Returns (fun n => blockLoop (block u v u v none) n 0) (seen u v k) := by
  refine blockLoop_returns (k / 16) (fun j hj => h.block_none (by omega)) ?_
  rw [Nat.zero_add]
  exact h.block_eq none

end FirstStop

section Strings

variable {f : Byte → Byte}

theorem chars_getD (h : Reads m s cs) (hi : i ≤ cs.length) :
    chars f m s i = (cs.map f).getD i (f 0) := by
  rw [chars, h.2 i hi, List.getD_map]

theorem map_eq_iff (hf : ∀ c, f c = 0 ↔ c = 0) (h1 : Reads m s1 a) (h2 : Reads m s2 b) :
    a.map f = b.map f ↔ ∀ i ≤ a.length, chars f m s1 i = chars f m s2 i := by
  constructor
  · intro heq i hi
    have hlen : a.length = b.length := by simpa using congrArg List.length heq
    rw [chars_getD h1 hi, chars_getD h2 (hlen ▸ hi), heq]
  · intro hsame
    have hzero : ∀ i ≤ a.length, m (s1 + i) = 0 ↔ m (s2 + i) = 0 := fun i hi => by
      rw [← hf, ← hf (m (s2 + i))]
      exact ⟨fun h => (hsame i hi).symm.trans h, fun h => (hsame i hi).trans h⟩
    have hlen : a.length = b.length := by
      rcases Nat.lt_trichotomy a.length b.length with hlt | heq | hgt
      · exact absurd ((hzero _ le_rfl).1 h1.last) (h2.ne_zero hlt)
      · exact heq
      · exact absurd ((hzero _ hgt.le).2 h2.last) (h1.ne_zero hgt)
    refine List.ext_getElem (by simpa using hlen) fun i hi hi' => ?_
    rw [List.length_map] at hi hi'
    rw [List.getElem_map, List.getElem_map, ← h1.get hi, ← h2.get hi']
    exact hsame i hi.le

theorem exists_firstStop (hf : ∀ c, f c = 0 ↔ c = 0) (h1 : Reads m s1 a) (h2 : Reads m s2 b) :
    ∃ k, FirstStop (chars f m s1) (chars f m s2) k ∧ k ≤ a.length ∧
      (chars f m s1 k = chars f m s2 k ↔ a.map f = b.map f) ∧
      (a.map f = b.map f → k = a.length) := by
  have hend : stops (chars f m s1) (chars f m s2) a.length := by
    rw [stops, chars, h1.last, (hf 0).2 rfl, beq_self_eq_true, Bool.or_true]
  have hex : ∃ k, stops (chars f m s1) (chars f m s2) k := ⟨_, hend⟩
  have hstop := Nat.find_spec hex
  have hbefore : ∀ i < Nat.find hex, stops (chars f m s1) (chars f m s2) i = false :=
    fun i hi => Bool.eq_false_iff.2 (Nat.find_min hex hi)
  have hle : Nat.find hex ≤ a.length := Nat.find_min' hex hend
  generalize Nat.find hex = k at hstop hbefore hle
  have hfirst : FirstStop (chars f m s1) (chars f m s2) k := ⟨hstop, hbefore⟩
  have hlast : chars f m s1 k = chars f m s2 k → k = a.length := by
    intro heq
    refine le_antisymm hle (Nat.le_of_not_lt fun hlt => h1.ne_zero hlt ((hf _).1 ?_))
    rw [stops, differs, heq, bne_self_eq_false, Bool.false_or, ← heq] at hstop
    exact eq_of_beq hstop
  have hsame : chars f m s1 k = chars f m s2 k ↔ a.map f = b.map f := by
    rw [map_eq_iff hf h1 h2]
    refine ⟨fun heq i hi => ?_, fun hall => hall k hle⟩
    rcases Nat.lt_or_eq_of_le (hlast heq ▸ hi) with hlt | rfl
    · simpa [differs] using hfirst.agrees hlt
    · exact heq
  exact ⟨k, hfirst, hle, hsame, fun heq => hlast (hsame.2 heq)⟩

end Strings

/-! ## `strcmp` -/

def SameSign (f plain : Nat → Option Int) : Prop :=
  ∃ r r', Returns f r ∧ Returns plain r' ∧ r.sign = r'.sign

/-- Up to the terminator no character of either string is at an aligned address. -/
def Unaligned (s1 s2 k : Nat) : Prop := ∀ i ≤ k, (s1 + i) % 16 ≠ 0 ∧ (s2 + i) % 16 ≠ 0

theorem exists_prologue (s1 s2 : Nat) (h : FirstStop u v k) : ∃ q ≤ k,
    Returns (firstOf (fun i => (s1 + i) % 16 == 0 || (s2 + i) % 16 == 0 || stops u v i) 0) q ∧
    (((s1 + q) % 16 = 0 ∨ (s2 + q) % 16 = 0) ∨ q = k ∧ Unaligned s1 s2 k) := by
  rcases exists_first (p := 0) (k := k)
    (fun i => (s1 + i) % 16 == 0 || (s2 + i) % 16 == 0 || stops u v i)
    (by rw [Nat.zero_add, h.stop, Bool.or_true]) with ⟨q, hq, hstop, hbefore, hret⟩
  simp only [Nat.zero_add] at hstop hbefore hret
  refine ⟨q, hq, hret, ?_⟩
  by_cases hal : (s1 + q) % 16 = 0 ∨ (s2 + q) % 16 = 0
  · exact .inl hal
  · have heq : q = k := by
      refine le_antisymm hq (Nat.le_of_not_lt fun hlt => hal ?_)
      simpa [h.before q hlt] using hstop
    subst heq
    refine .inr ⟨rfl, fun i hi => ?_⟩
    rcases Nat.lt_or_eq_of_le hi with hlt | rfl
    · have hi := hbefore i hlt
      rw [Bool.or_eq_false_iff, Bool.or_eq_false_iff] at hi
      exact ⟨beq_eq_false_iff_ne.1 hi.1.1, beq_eq_false_iff_ne.1 hi.1.2⟩
    · exact not_or.1 hal

theorem strcmp_right (h : FirstStop (chars id m s1) (chars id m s2) k)
    (hok : chars id m s1 k = chars id m s2 k → Unaligned s1 s2 k) :
    Returns (strcmp m s1 s2) (difference (chars id m s1) (chars id m s2) k) := by
  rcases exists_prologue s1 s2 h with ⟨q, hq, hret, hal | ⟨rfl, hun⟩⟩
  · have hne : chars id m s1 k ≠ chars id m s2 k := fun heq => by
      have hq := hok heq q hq
      exact hal.elim hq.1 hq.2
    refine hret.bind ?_
    simp only [hal, if_true]
    refine blockLoop_returns ((k - q) / 16) (fun j hj => ?_) ?_
    · rw [firstOf_eq_none.2 fun l hl => h.agrees (by omega)]
      rfl
    · have hmod : q + 16 * ((k - q) / 16) + (k - q) % 16 = k := by omega
      rw [firstOf_eq (k := (k - q) % 16) (by rw [hmod]; exact bne_iff_ne.2 hne)
        (fun l hl => h.agrees (by omega)) (Nat.mod_lt _ (by decide)), Option.isSome_some,
        if_pos rfl, h.bytes_eq (by omega)]
      exact if_pos (by omega)
  · refine hret.bind ?_
    have hq := hun q le_rfl
    simp only [hq.1, hq.2, or_self, if_false]
    exact returns_some _

theorem strcmp_never (h : FirstStop (chars id m s1) (chars id m s2) k)
    (hsame : ∀ i, m (s1 + i) = m (s2 + i)) (hal : ¬ Unaligned s1 s2 k) (r : Int) :
    ¬ Returns (strcmp m s1 s2) r := by
  intro hr
  rcases exists_prologue s1 s2 h with ⟨q, -, hret, hq | ⟨-, hun⟩⟩
  · rcases (hr.and hret).exists with ⟨n, hn, hqn⟩
    rw [strcmp] at hn
    simp only [hqn, Option.bind_eq_bind, Option.bind_some, hq, if_true] at hn
    rw [blockLoop_never fun j => ?_] at hn
    · cases hn
    · have hnone : firstOf (differs (chars id m s1) (chars id m s2)) (q + 16 * j) 16 = none :=
        firstOf_eq_none.2 fun l _ => bne_eq_false_iff_eq.2 (hsame _)
      rw [hnone]
      rfl
  · exact hal hun

theorem exists_alike (h1 : Reads m s1 a) (h2 : Reads m s2 a) : ∃ m', Reads m' s1 a ∧
    Reads m' s2 a ∧ ∀ i, m' (s1 + i) = m' (s2 + i) := by
  wlog hle : s1 ≤ s2 generalizing s1 s2
  · rcases this h2 h1 (by omega) with ⟨m', h2', h1', hsame⟩
    exact ⟨m', h1', h2', fun i => (hsame i).symm⟩
  obtain ⟨d, rfl⟩ : ∃ d, s2 = s1 + d := ⟨s2 - s1, by omega⟩
  have hapart : d = 0 ∨ a.length < d := by
    by_contra hd
    have hzero := h1.last
    rw [show s1 + a.length = s1 + d + (a.length - d) by omega] at hzero
    exact h2.ne_zero (by omega) hzero
  have hmod : ∀ i ≤ a.length, i % d = i := fun i hi => by
    rcases hapart with rfl | hlt
    · exact Nat.mod_zero i
    · exact Nat.mod_eq_of_lt (by omega)
  refine ⟨fun x => m (s1 + (x - s1) % d), h1.congr fun i hi => ?_, h1.shift fun i hi => ?_,
    fun i => ?_⟩
  · rw [Nat.add_sub_cancel_left, hmod i hi]
  · rw [Nat.add_assoc, Nat.add_sub_cancel_left, Nat.add_mod_left, hmod i hi]
  · simp only [Nat.add_assoc, Nat.add_sub_cancel_left, Nat.add_mod_left]

theorem map_id_iff : a.map id = b.map id ↔ a = b := by rw [List.map_id, List.map_id]

theorem strcmp_iff (h1 : Reads m s1 a) (h2 : Reads m s2 b) :
    (∀ m', Reads m' s1 a → Reads m' s2 b →
      SameSign (strcmp m' s1 s2) (plainCmp m' s1 s2 id)) ↔
    (a = b → Unaligned s1 s2 a.length) := by
  have hid : ∀ c : Byte, id c = 0 ↔ c = 0 := fun _ => Iff.rfl
  constructor
  · rintro hall rfl
    by_contra hal
    rcases exists_alike h1 h2 with ⟨m', h1', h2', hsame⟩
    rcases exists_firstStop hid h1' h2' with ⟨k, hk, -, -, hend⟩
    rcases hall m' h1' h2' with ⟨r, -, hr, -, -⟩
    exact strcmp_never hk hsame (hend rfl ▸ hal) r hr
  · intro hun m' h1' h2'
    rcases exists_firstStop hid h1' h2' with ⟨k, hk, -, heq, hend⟩
    rw [map_id_iff] at heq hend
    refine ⟨_, _, strcmp_right hk fun hsame => ?_, hk.bytes_returns, rfl⟩
    rw [hend (heq.1 hsame)]
    exact hun (heq.1 hsame)

/-! ## Searching -/

section Search

variable {ch : Byte} {c : BitVec 32}

abbrev blockEnd (len : Nat) : Nat := 16 * (len / 16 + 1)

theorem chrBlocks_returns (h : Reads m s cs) :
    Returns (fun n => chrBlocks m ch n s) (firstOf (hits m ch) s (blockEnd cs.length)) := by
  induction hlen : cs.length using Nat.strong_induction_on generalizing s cs with
  | _ len ih =>
    subst hlen
    by_cases hlt : cs.length < 16
    · have hend : blockEnd cs.length = 16 := by simp only [blockEnd]; omega
      have hzero : (firstOf (hits m 0) s 16).isSome := by rw [h.firstOf_zero, if_pos hlt]; rfl
      rw [hend]
      refine returns_done ?_
      rcases hch : firstOf (hits m ch) s 16 with _ | k
      · simp only [hch, hzero, if_true]
      · simp only [hch]
    · have hsplit : blockEnd cs.length = 16 + blockEnd (cs.length - 16) := by
        simp only [blockEnd]
        omega
      have hzero : firstOf (hits m 0) s 16 = none := by rw [h.firstOf_zero, if_neg hlt]
      rw [hsplit, firstOf_add]
      rcases hch : firstOf (hits m ch) s 16 with _ | k
      · have hdrop := h.dropN (Nat.le_of_not_lt hlt)
        rw [Option.none_or, ← List.length_drop]
        refine returns_step ?_ (ih _ (by rw [List.length_drop]; omega) hdrop rfl)
        simp only [hch, hzero, Option.isSome_none, Bool.false_eq_true, if_false]
      · refine returns_done ?_
        simp only [hch, Option.some_or]

theorem firstOf_ch (h : Reads m s cs) :
    firstOf (hits m ch) s (cs.length + 1) = none ↔ ch ∉ 0 :: cs := by
  rw [firstOf_eq_none, List.mem_cons, not_or]
  constructor
  · intro hall
    refine ⟨fun heq => ?_, fun hmem => ?_⟩
    · exact hits_eq_false.1 (hall _ (Nat.lt_succ_self _)) (h.last.trans heq.symm)
    · rcases List.getElem_of_mem hmem with ⟨i, hi, heq⟩
      exact hits_eq_false.1 (hall i (by omega)) ((h.get hi).trans heq)
  · rintro ⟨hzero, hmem⟩ i hi
    rw [hits_eq_false]
    rcases Nat.lt_or_eq_of_le (Nat.le_of_lt_succ hi) with hlt | rfl
    · rw [h.get hlt]
      exact fun heq => hmem (heq ▸ List.getElem_mem hlt)
    · exact fun heq => hzero (heq.symm.trans h.last)

theorem firstOf_beyond (h : Reads m s cs) (hn : cs.length < n) :
    firstOf (hits m ch) s n = firstOf (hits m ch) s (cs.length + 1) ↔
      (ch ∉ 0 :: cs → ∀ j, cs.length < j → j < n → m (s + j) ≠ ch) := by
  obtain ⟨d, rfl⟩ : ∃ d, n = cs.length + 1 + d := ⟨n - (cs.length + 1), by omega⟩
  rw [firstOf_add, ← firstOf_ch h]
  rcases firstOf (hits m ch) s (cs.length + 1) with _ | k
  · rw [Option.none_or, firstOf_eq_none]
    refine ⟨fun hall _ j hj hn => ?_, fun hall j hj => ?_⟩
    · have hne := hall (j - (cs.length + 1)) (by omega)
      rw [show s + (cs.length + 1) + (j - (cs.length + 1)) = s + j by omega] at hne
      exact hits_eq_false.1 hne
    · rw [Nat.add_assoc]
      exact hits_eq_false.2 (hall rfl _ (by omega) (by omega))
  · exact iff_of_true rfl fun hnone => absurd hnone (by simp)

theorem firstOf_stop (h : Reads m s cs) {q : Nat} (hq : q ≤ cs.length)
    (hstop : m (s + q) = ch ∨ m (s + q) = 0) (hbefore : ∀ i < q, m (s + i) ≠ ch) :
    firstOf (hits m ch) s (cs.length + 1) = if m (s + q) = ch then some (s + q) else none := by
  split_ifs with hch
  · exact firstOf_eq (hits_iff.2 hch) (fun i hi => hits_eq_false.2 (hbefore i hi)) (by omega)
  · have hlen : q = cs.length := le_antisymm hq
      (Nat.le_of_not_lt fun hlt => h.ne_zero hlt (hstop.resolve_left hch))
    refine firstOf_eq_none.2 fun i hi => hits_eq_false.2 ?_
    rcases Nat.lt_or_eq_of_le (Nat.le_of_lt_succ hi) with hlt | rfl
    · exact hbefore i (hlen ▸ hlt)
    · exact hlen ▸ hch

theorem plainChr_returns (h : Reads m s cs) : Returns (plainChr m s c)
    (firstOf (hits m (c.setWidth 8)) s (cs.length + 1)) := by
  rcases exists_first (p := s) (k := cs.length) (fun a => m a == c.setWidth 8 || m a == 0)
    (by simp [h.last]) with ⟨q, hq, hstop, hbefore, hret⟩
  simp only [Bool.or_eq_false_iff, beq_eq_false_iff_ne] at hbefore
  rw [firstOf_stop h hq (by simpa using hstop) fun i hi => (hbefore i hi).1]
  refine hret.bind ?_
  split_ifs
  · exact returns_some _
  · exact returns_some _

def SamePointer (f plain : Nat → Option (Option Nat)) : Prop :=
  ∃ r, Returns f r ∧ Returns plain r

theorem samePointer_iff {f plain : Nat → Option (Option Nat)} {r r' : Option Nat}
    (hf : Returns f r) (hplain : Returns plain r') : SamePointer f plain ↔ r = r' := by
  constructor
  · rintro ⟨r₀, hf0, hplain0⟩
    exact (hf.unique hf0).trans (hplain0.unique hplain)
  · rintro rfl
    exact ⟨r, hf, hplain⟩

theorem lfind_iff (h : Reads m s cs) : SamePointer (lfind m s c) (plainChr m s c) ↔
    (c.setWidth 8 ∉ 0 :: cs →
      ∀ j, cs.length < j → j < blockEnd cs.length → m (s + j) ≠ c.setWidth 8) := by
  refine (samePointer_iff (chrBlocks_returns h) (plainChr_returns h)).trans ?_
  exact firstOf_beyond h (by simp only [blockEnd]; omega)

theorem strchr_iff (h : Reads m s cs) : SamePointer (strchr m s c) (plainChr m s c) ↔
    (c.setWidth 8 ∉ 0 :: cs → s ≤ 16 * ((s + cs.length) / 16) →
      ∀ a, s + cs.length < a → a / 16 = (s + cs.length) / 16 → m a ≠ c.setWidth 8) := by
  rcases exists_first (p := s) (k := cs.length)
    (fun a => a % 16 == 0 || (m a == c.setWidth 8 || m a == 0)) (by simp [h.last]) with
    ⟨q, hq, hstop, hbefore, hret⟩
  simp only [Bool.or_eq_false_iff, beq_eq_false_iff_ne] at hbefore
  by_cases hal : (s + q) % 16 = 0
  · have hdrop := h.dropN hq
    have hlen : (cs.drop q).length = cs.length - q := List.length_drop
    have hf : Returns (strchr m s c)
        (firstOf (hits m (c.setWidth 8)) (s + q) (blockEnd (cs.drop q).length)) := by
      refine hret.bind ?_
      simp only [hal, if_true]
      exact chrBlocks_returns hdrop
    have hfront : firstOf (hits m (c.setWidth 8)) s (cs.length + 1) =
        firstOf (hits m (c.setWidth 8)) (s + q) ((cs.drop q).length + 1) := by
      rw [show cs.length + 1 = q + ((cs.drop q).length + 1) by omega, firstOf_add,
        firstOf_eq_none.2 fun i hi => hits_eq_false.2 (hbefore i hi).2.1]
      exact Option.none_or
    refine (samePointer_iff hf (plainChr_returns h)).trans ?_
    rw [hfront, firstOf_beyond hdrop (by simp only [blockEnd]; omega), ← firstOf_ch h, hfront,
      firstOf_ch hdrop]
    refine imp_congr_right fun _ => ⟨fun hall _ a ha hblock => ?_, fun hall j hj hend => ?_⟩
    · have hne := hall (a - (s + q)) (by omega) (by simp only [blockEnd]; omega)
      rwa [Nat.add_sub_of_le (by omega)] at hne
    · simp only [blockEnd] at hend
      exact hall (by omega) _ (by omega) (by omega)
  · have hstop' : m (s + q) = c.setWidth 8 ∨ m (s + q) = 0 := by simpa [hal] using hstop
    have hf : Returns (strchr m s c)
        (firstOf (hits m (c.setWidth 8)) s (cs.length + 1)) := by
      rw [firstOf_stop h hq hstop' fun i hi => (hbefore i hi).2.1]
      refine hret.bind ?_
      simp only [hal, if_false]
      split_ifs
      · exact returns_some _
      · exact returns_some _
    refine iff_of_true ⟨_, hf, plainChr_returns h⟩ fun hmem hle => ?_
    -- all addresses of the string are unaligned
    have hne := hits_eq_false.1 (firstOf_eq_none.1 ((firstOf_ch h).2 hmem) q (by omega))
    have hlen : q = cs.length := le_antisymm hq
      (Nat.le_of_not_lt fun hlt => h.ne_zero hlt (hstop'.resolve_left hne))
    subst hlen
    have hlast := hbefore (16 * ((s + cs.length) / 16) - s)
    omega

theorem strlen_returns (h : Reads m s cs) : Returns (strlen m s) cs.length := by
  rcases exists_first (p := s) (k := cs.length) (fun a => a % 16 == 0 || m a == 0)
    (by simp [h.last]) with ⟨q, hq, hstop, hbefore, hret⟩
  simp only [Bool.or_eq_false_iff, beq_eq_false_iff_ne] at hbefore
  refine hret.bind ?_
  by_cases hal : (s + q) % 16 = 0
  · simp only [hal, if_true]
    have hend : Returns (fun n => blockLoop (fun s => firstOf (hits m 0) s 16) n (s + q))
        (s + cs.length) := by
      refine blockLoop_returns ((cs.length - q) / 16) (fun j hj => ?_) ?_
      · refine firstOf_eq_none.2 fun i hi => hits_eq_false.2 ?_
        rw [Nat.add_assoc, Nat.add_assoc]
        exact h.ne_zero (by omega)
      · have hdrop := h.dropN (k := q + 16 * ((cs.length - q) / 16)) (by omega)
        rw [Nat.add_assoc, hdrop.firstOf_zero, List.length_drop, if_pos (by omega), Nat.add_assoc,
          Nat.add_sub_of_le (by omega)]
    refine hend.bind ?_
    rw [Nat.add_sub_cancel_left]
    exact returns_some _
  · have hlen : q = cs.length := le_antisymm hq
      (Nat.le_of_not_lt fun hlt => h.ne_zero hlt (by simpa [hal] using hstop))
    subst hlen
    simp only [hal, if_false, Nat.add_sub_cancel_left]
    exact returns_some _

end Search

/-! ## All of them -/

section Strings

variable {f : Byte → Byte}

theorem counted_strings (hf : ∀ c, f c = 0 ↔ c = 0) (h1 : Reads m s1 a) (h2 : Reads m s2 b) :
    (counted (chars f m s1) (chars f m s2) (chars f m s1) (chars f m s2) 0 n).sign =
        (plainNCmp m s1 s2 f n).sign ↔
      (a.map f = b.map f → blockEnd a.length ≤ n →
        Clean (chars f m s1) (chars f m s2) a.length) := by
  rcases exists_firstStop hf h1 h2 with ⟨k, hk, -, heq, hend⟩
  refine hk.counted_iff.trans ?_
  rw [heq]
  exact forall_congr' fun hsame => by rw [hend hsame]

theorem strcasecmp_iff (h1 : Reads m s1 a) (h2 : Reads m s2 b) :
    SameSign (strcasecmp m s1 s2) (plainCmp m s1 s2 lower) ↔
      (a.map lower = b.map lower → Clean (chars lower m s1) (chars lower m s2) a.length) := by
  rcases exists_firstStop lower_eq_zero h1 h2 with ⟨k, hk, -, heq, hend⟩
  have hblocks := hk.blockLoop_block
  have hsame : SameSign (strcasecmp m s1 s2) (plainCmp m s1 s2 lower) ↔
      (seen (chars lower m s1) (chars lower m s2) k).sign =
        (difference (chars lower m s1) (chars lower m s2) k).sign := by
    unfold strcasecmp
    rw [lowerLane_eq]
    constructor
    · rintro ⟨r, r', hr, hr', hsign⟩
      rwa [hr.unique hblocks, hr'.unique hk.bytes_returns] at hsign
    · exact fun hsign => ⟨_, _, hblocks, hk.bytes_returns, hsign⟩
  rw [hsame, hk.seen_iff, heq]
  exact forall_congr' fun hmap => by rw [hend hmap]

end Strings

/-- The lengths are always right, and the rest under these conditions. -/
theorem vector_functions_iff (h1 : Reads m s1 a) (h2 : Reads m s2 b) (n : Nat) (c : BitVec 32) :
    Returns (strlen m s1) a.length ∧
    (SamePointer (strchr m s1 c) (plainChr m s1 c) ↔
      (c.setWidth 8 ∉ 0 :: a → s1 ≤ 16 * ((s1 + a.length) / 16) → ∀ x, s1 + a.length < x →
        x / 16 = (s1 + a.length) / 16 → m x ≠ c.setWidth 8)) ∧
    (SamePointer (lfind m s1 c) (plainChr m s1 c) ↔
      (c.setWidth 8 ∉ 0 :: a → ∀ j, a.length < j → j < blockEnd a.length →
        m (s1 + j) ≠ c.setWidth 8)) ∧
    ((strncmp m s1 s2 n).sign = (plainNCmp m s1 s2 id n).sign ↔
      (a = b → blockEnd a.length ≤ n → Clean (chars id m s1) (chars id m s2) a.length)) ∧
    ((strncasecmp m s1 s2 n).sign = (plainNCmp m s1 s2 lower n).sign ↔
      (a.map lower = b.map lower → blockEnd a.length ≤ n →
        Clean (chars lower m s1) (chars lower m s2) a.length)) ∧
    (SameSign (strcasecmp m s1 s2) (plainCmp m s1 s2 lower) ↔
      (a.map lower = b.map lower → Clean (chars lower m s1) (chars lower m s2) a.length)) ∧
    ((∀ m', Reads m' s1 a → Reads m' s2 b →
        SameSign (strcmp m' s1 s2) (plainCmp m' s1 s2 id)) ↔
      (a = b → Unaligned s1 s2 a.length)) := by
  refine ⟨strlen_returns h1, strchr_iff h1, lfind_iff h1, ?_, ?_, strcasecmp_iff h1 h2,
    strcmp_iff h1 h2⟩
  · have hcounted := counted_strings (n := n) (f := id) (fun _ => Iff.rfl) h1 h2
    rwa [map_id_iff] at hcounted
  · rw [strncasecmp, lowerLane_eq]
    split_ifs with hn
    · subst hn
      exact iff_of_true rfl fun _ hend => absurd hend (by simp only [blockEnd]; omega)
    · exact counted_strings lower_eq_zero h1 h2

theorem vector_functions_iff_one : ∃ m, Reads m 0 [97] ∧ Reads m 32 [97] ∧
    (SamePointer (lfind m 0 98) (plainChr m 0 98) ↔
      (BitVec.setWidth 8 98#32 ∉ 0 :: [97] → ∀ j, 1 < j → j < blockEnd 1 →
        m (0 + j) ≠ BitVec.setWidth 8 98#32)) :=
  have h1 : Reads (fun i => if i % 32 = 0 then 97 else 0) 0 [97] := ⟨by decide, by decide⟩
  have h2 : Reads (fun i => if i % 32 = 0 then 97 else 0) 32 [97] := ⟨by decide, by decide⟩
  ⟨_, h1, h2, (vector_functions_iff h1 h2 0 98).2.2.1⟩

/-- The empty string, with `'b'` behind its terminator: `lfind` finds it. -/
theorem search_reads_beyond : ¬ ∀ m s cs c, Reads m s cs →
    SamePointer (lfind m s c) (plainChr m s c) := by
  intro hall
  have hreads : Reads (fun i => if i = 1 then 98 else 0) 0 [] := by
    refine ⟨by decide, fun i hi => ?_⟩
    rw [Nat.le_zero.1 hi]
    rfl
  have hne := (lfind_iff hreads).1 (hall _ _ _ 98 hreads) (by decide) 1 (by decide) (by decide)
  exact hne rfl

end Str
end XytherOS
