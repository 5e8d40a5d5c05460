import XytherOS.Core.Status
import XytherOS.Str.Chars

/-!
# Tokenize — `tokenize` of `lib/string.c`

The function copies the string, shifts it over its leading delimiters, clears delimiters from the
original end on, and cuts the rest up in place.  `lib/xyther_strings.c` has the same body under the
name `xytherOs_tokenize`.

After a shift the bytes from the new terminator to the original end are left over: trimming starts
among them, and stops at the terminator.
-/

namespace XytherOS
namespace Str

open Loop

structure Buf where
  data : Mem
  written : List Nat

def Buf.write (b : Buf) (d n : Nat) (f : Nat → Byte) : Buf :=
  ⟨put b.data d n f, List.range' d n ++ b.written⟩

/-- What the function returns; a token is its offset, `entries` are the entries of the array that
were written. -/
structure Tokenized where
  buf : Buf
  capacity : Nat
  entries : List (Option Nat)
  ntoks : Nat
  lastTok : Option Nat

section

variable (delim : BitVec 32)

def isDelim (c : Byte) : Bool := c.signExtend 32 == delim

/-- `while (end >= p && *end == delim) *end-- = '\0'`, with `end + 1`. -/
def trim : Nat → Buf → Buf
  | 0, b => b
  | e + 1, b => if isDelim delim (b.data e) then trim e (b.write e 1 fun _ => 0) else b

def countTokens (data : Mem) : Nat → Nat → Option Nat
  | 0, _ => none
  | n + 1, scan =>
    if data scan = 0 then some 0
    else do
      let count ← countTokens data n (scan + 1)
      if isDelim delim (data scan) && data (scan + 1) != 0 && !isDelim delim (data (scan + 1)) then
        return count + 1
      else
        return count

def extract : Nat → Nat → Buf → List Nat → Option (Buf × List Nat)
  | 0, _, _, _ => none
  | n + 1, p, b, tokens =>
    if b.data p = 0 then some (b, tokens)
    else do
      let q ← firstOf (fun i => b.data i == 0 || isDelim delim (b.data i)) p n
      if b.data q = 0 then extract n q b (tokens ++ [p])
      else
        let b := b.write q 1 fun _ => 0
        let r ← firstOf (fun i => !isDelim delim (b.data i)) (q + 1) n
        extract n r b (tokens ++ [p])

/-- `tokenize`.  `heap` is what the allocation of the copy holds, `none` when it failed; the array
is there when `array` is. -/
def tokenize (n : Nat) (s : Option (List Byte)) (ptokenized : Bool) (heap : Option Mem)
    (array : Bool) : Option (Except Errno Tokenized) := do
  let some s := s | return .error .EINVAL
  if delim = 0 ∨ ptokenized = false then return .error .EINVAL
  let len := s.length
  let some heap := heap | return .error .ENOMEM
  let buf := (Buf.mk heap []).write 0 (len + 1) fun i => s.getD i 0
  let p ← firstOf (fun i => !isDelim delim (buf.data i)) 0 n
  let buf ←
    if p = 0 then pure buf
    else do
      let e ← firstOf (hits buf.data 0) p n
      pure (buf.write 0 (e - p + 1) fun i => buf.data (p + i))
  let buf := trim delim len buf
  let count ← countTokens delim buf.data n 0
  if array = false then return .error .ENOMEM
  let (buf, tokens) ← extract delim n 0 buf []
  return .ok {
    buf, capacity := count + 2, entries := tokens.map some ++ [none]
    ntoks := tokens.length, lastTok := tokens.getLast? }

end

variable {delim : BitVec 32} {m : Mem} {b : Buf} {p k len : Nat} {s : List Byte}

def Buf.Within (b : Buf) (len : Nat) : Prop := ∀ i ∈ b.written, i ≤ len

theorem Buf.Within.write (h : b.Within len) {d n : Nat} (hle : d + n ≤ len + 1)
    (f : Nat → Byte) : (b.write d n f).Within len := by
  intro i hi
  rcases List.mem_append.1 hi with hi | hi
  · have hlt := (List.mem_range'_1.1 hi).2
    omega
  · exact h i hi

theorem Buf.write_of_ne {d a : Nat} {f : Nat → Byte} (hne : a ≠ d) :
    (b.write d 1 f).data a = b.data a :=
  if_neg (by omega)

theorem Buf.write_self {d : Nat} {f : Nat → Byte} : (b.write d 1 f).data d = f 0 := by
  exact (if_pos (by omega)).trans (congrArg f (Nat.sub_self d))

theorem isDelim_zero (hdelim : delim ≠ 0) : isDelim delim 0 = false :=
  beq_eq_false_iff_ne.2 fun heq => hdelim heq.symm

theorem trim_spec (hdelim : delim ≠ 0) (h : Reads b.data 0 s) (hk : s.length ≤ k)
    (hlen : k ≤ len) (hin : b.Within len) :
    (trim delim k b).Within len ∧ ∃ s', Reads (trim delim k b).data 0 s' ∧ s'.length ≤ s.length ∧
      runs (isDelim delim) s' = runs (isDelim delim) s ∧ (s' = [] ∨ s'.head? = s.head?) := by
  induction k generalizing b s with
  | zero => exact ⟨hin, s, h, le_rfl, rfl, .inr rfl⟩
  | succ e ih =>
    rw [trim]
    split_ifs with htest
    · have hin' := hin.write (show e + 1 ≤ len + 1 by omega) fun _ => 0
      rcases Nat.lt_or_eq_of_le hk with hlt | heq
      · -- the terminator is in front of the delimiter
        have hne : s.length ≠ e := by
          rintro rfl
          have hlast := h.last
          rw [Nat.zero_add] at hlast
          rw [hlast, isDelim_zero hdelim] at htest
          cases htest
        exact ih (h.congr fun i hi => Buf.write_of_ne (by omega)) (by omega) (by omega) hin'
      · rcases List.eq_nil_or_concat s with rfl | ⟨w, c, rfl⟩
        · cases heq
        rw [List.concat_eq_append] at h heq ⊢
        have he : w.length = e := by simpa using heq
        subst he
        have hc : isDelim delim c := by
          have hget := h.drop.head
          rw [Nat.zero_add] at hget
          rwa [hget] at htest
        have hcut : Reads (b.write w.length 1 fun _ => 0).data 0 w := by
          refine h.cut ?_ fun i (hi : i < w.length) => Buf.write_of_ne (by omega)
          rw [Nat.zero_add]
          exact Buf.write_self
        rcases ih hcut le_rfl (by omega) hin' with ⟨hwithin, s', hs', hle, hruns, hhead⟩
        refine ⟨hwithin, s', hs', by simp; omega, hruns.trans (runs_concat hc).symm, ?_⟩
        cases w with
        | nil => exact .inl (hhead.elim id fun heq => List.head?_eq_none_iff.1 heq)
        | cons d w => exact hhead
    · exact ⟨hin, s, h, le_rfl, rfl, .inr rfl⟩

theorem countTokens_spec (h : Reads m p s) :
    ∃ count, Returns (fun n => countTokens delim m n p) count ∧
      (runs (isDelim delim) s).length = count + if s.head?.all (isDelim delim) then 0 else 1 := by
  induction s generalizing p with
  | nil =>
    refine ⟨0, .of_succ (.of_forall fun n => ?_), by simp⟩
    change countTokens delim m (n + 1) p = _
    rw [countTokens, if_pos (by simpa using h.head)]
  | cons c s ih =>
    rcases ih h.tail with ⟨count, hret, hcount⟩
    have hc : m p = c := h.head
    have hnext : m (p + 1) = s.headD 0 := h.tail.head
    have hzero : c ≠ 0 := fun heq => h.1 (heq ▸ List.mem_cons_self)
    refine ⟨if isDelim delim c && s.headD 0 != 0 && !isDelim delim (s.headD 0) then count + 1
      else count, ?_, ?_⟩
    · refine .of_succ ?_
      filter_upwards [hret] with n hn
      rw [countTokens, hc, if_neg hzero, hn, hnext]
      exact (apply_ite some _ _ _).symm
    · have hdelims : ∀ d ∈ s.head?, ¬ d = 0#8 := by
        rintro d hd rfl
        exact h.tail.1 (List.mem_of_mem_head? hd)
      rw [length_runs_cons, hcount]
      cases hc' : isDelim delim c <;> rcases s with _ | ⟨d, s⟩
      · simp [hc']
      · cases hd' : isDelim delim d <;> simp [hc', hd']
      · simp [hc']
      · have hd : ¬ d = 0#8 := hdelims d rfl
        cases hd' : isDelim delim d <;> simp [hc', hd, hd']

theorem extract_spec (hdelim : delim ≠ 0) (h : Reads b.data p s) (hlen : p + s.length ≤ len)
    (hhead : ∀ c ∈ s.head?, isDelim delim c = false) (hin : b.Within len) (tokens : List Nat) :
    ∃ b' new, Returns (fun n => extract delim n p b tokens) (b', tokens ++ new) ∧
      b'.Within len ∧ List.Forall₂ (Reads b'.data) new (runs (isDelim delim) s) ∧
      ∀ a, a < p ∨ p + s.length ≤ a → b'.data a = b.data a := by
  induction hsize : s.length using Nat.strong_induction_on generalizing p s b tokens with
  | _ size ih =>
    rcases s with _ | ⟨c, cs⟩
    · refine ⟨b, [], .of_succ (.of_forall fun n => ?_), hin, by simp, fun _ _ => rfl⟩
      change extract delim (n + 1) p b tokens = _
      rw [extract, if_pos (by simpa using h.head), List.append_nil]
    have hp : b.data p ≠ 0 := by
      have hne := h.ne_zero (i := 0) (Nat.succ_pos _)
      rwa [Nat.add_zero] at hne
    rcases exists_split (isDelim delim) (c :: cs) with ⟨w, r, hsplit, hw, hr⟩
    have hwne : w ≠ [] := by
      rintro rfl
      have hc : isDelim delim c = true := hr c (by rw [← List.nil_append r, ← hsplit]; rfl)
      rw [hhead c rfl] at hc
      cases hc
    rw [hsplit] at h hlen hsize ⊢
    have hq : Returns (firstOf (fun i => b.data i == 0 || isDelim delim (b.data i)) p)
        (p + w.length) := by
      refine h.scan (fun c => c == 0 || isDelim delim c) (fun d hd => ?_) ?_
      · have hd0 : (d == 0) = false :=
          beq_eq_false_iff_ne.2 fun heq => h.1 (heq ▸ List.mem_append_left r hd)
        simp only [hd0, hw d hd, Bool.or_false]
      · rcases r with _ | ⟨d, r⟩
        · rfl
        · simp [hr d rfl]
    have hpos := List.length_pos_of_ne_nil hwne
    rw [List.length_append] at hlen hsize
    rcases r with _ | ⟨d, r⟩
    · -- the string ends with this token
      have hend := h.drop
      rcases ih 0 (by omega) hend (by simpa using hlen) (by simp) hin (tokens ++ [p]) rfl with
        ⟨b', new, hret, hwithin, hnew, hsame⟩
      rw [runs_nil, List.forall₂_nil_right_iff] at hnew
      subst hnew
      rw [List.append_nil] at h hret ⊢
      have hone := runs_append hw hwne (r := []) (by simp)
      rw [List.append_nil, runs_nil] at hone
      refine ⟨b', [p], .of_succ ?_, hwithin, ?_, fun a ha => hsame a (by simp at ha ⊢; omega)⟩
      · filter_upwards [hq, hret] with n hqn hn
        rw [extract, if_neg hp, hqn, Option.bind_eq_bind, Option.bind_some,
          if_pos (by simpa using hend.head), hn]
      · rw [hone]
        refine .cons (h.congr fun i hi => hsame _ ?_) .nil
        simp
        omega
    · have hd : isDelim delim d = true := hr d rfl
      have hstop : ¬ b.data (p + w.length) = 0 := h.ne_zero (by simp)
      rcases exists_split (! isDelim delim ·) r with ⟨ds, r, rfl, hds, hr⟩
      obtain ⟨b₁, hb1⟩ : ∃ b₁, b₁ = b.write (p + w.length) 1 fun _ => 0 := ⟨_, rfl⟩
      have hother : ∀ a, a ≠ p + w.length → b₁.data a = b.data a :=
        fun a ha => hb1 ▸ Buf.write_of_ne ha
      have htoken : Reads b₁.data p w :=
        h.cut (hb1 ▸ Buf.write_self) fun i hi => hother _ (by omega)
      have hrest : Reads b₁.data (p + w.length + 1) (ds ++ r) :=
        h.drop.tail.congr fun i _ => hother _ (by omega)
      have hnext : (! isDelim delim (r.headD 0)) = true := by
        rcases r with _ | ⟨e, r⟩
        · simpa using isDelim_zero hdelim
        · exact hr e rfl
      have hskip := hrest.scan (! isDelim delim ·) hds hnext
      have hin' : b₁.Within len := hb1 ▸ hin.write (by simp at hlen; omega) _
      simp only [List.length_cons, List.length_append] at hlen hsize
      rcases ih r.length (by omega) hrest.drop (by omega) (fun e he => by simpa using hr e he) hin'
        (tokens ++ [p]) rfl with ⟨b', new, hret, hwithin, hnew, hsame⟩
      refine ⟨b', p :: new, .of_succ ?_, hwithin, ?_, fun a ha => ?_⟩
      · filter_upwards [hq, hskip, hret] with n hqn hrn hn
        rw [hb1] at hrn hn
        rw [extract, if_neg hp, hqn, Option.bind_eq_bind, Option.bind_some, if_neg hstop]
        change Option.bind (firstOf _ _ n) _ = _
        rw [hrn, Option.bind_some, hn, List.append_assoc]
        rfl
      · rw [runs_append hw hwne (by simpa using hd), runs_cons hd,
          runs_skip fun e he => by simpa using hds e he]
        exact .cons (htoken.congr fun i hi => hsame _ (.inl (by omega))) hnew
      · rw [hsame a (by omega), hother a (by omega)]

/-! ## The function -/

theorem isDelim_ascii {d : Byte} (hascii : d < 128) : isDelim (d.setWidth 32) = (· == d) := by
  funext c
  have hmsb : d.msb = false := by
    rw [BitVec.msb_eq_false_iff_two_mul_lt]
    exact Nat.mul_lt_mul_of_pos_left (BitVec.lt_def.1 hascii) (Nat.succ_pos 1)
  have hinj : c.signExtend 32 = d.setWidth 32 ↔ c = d := by
    rw [← BitVec.signExtend_eq_setWidth_of_msb_false hmsb]
    refine ⟨fun heq => BitVec.eq_of_toInt_eq ?_, fun heq => heq ▸ rfl⟩
    rw [← BitVec.toInt_signExtend_of_le (v := 32) (by decide), heq,
      BitVec.toInt_signExtend_of_le (by decide)]
  exact Bool.eq_iff_iff.2 (beq_iff_eq.trans (hinj.trans beq_iff_eq.symm))

/-- The returned array is the runs in order and NULL; all writes are within the allocations. -/
theorem tokenize_exact {s : List Byte} {d : Byte} (hs : 0 ∉ s) (hd : d ≠ 0) (hascii : d < 128)
    (heap : Mem) : ∃ t, Returns (fun n => tokenize (d.setWidth 32) n (some s) true (some heap) true)
        (.ok t) ∧
      (∃ tokens, t.entries = tokens.map some ++ [none] ∧
        List.Forall₂ (Reads t.buf.data) tokens (runs (· == d) s) ∧
        t.lastTok = tokens.getLast?) ∧
      t.ntoks = (runs (· == d) s).length ∧ t.entries.length ≤ t.capacity ∧
      ∀ i ∈ t.buf.written, i < s.length + 1 := by
  have hdelim : d.setWidth 32 ≠ 0 := by
    intro heq
    have hlow := congrArg (BitVec.setWidth 8) heq
    rw [BitVec.setWidth_setWidth_of_le _ (by decide), BitVec.setWidth_eq] at hlow
    exact hd hlow
  rw [← isDelim_ascii hascii]
  generalize d.setWidth 32 = delim at hdelim
  obtain ⟨b₀, hb₀⟩ : ∃ b₀, b₀ = (Buf.mk heap []).write 0 (s.length + 1) fun i => s.getD i 0 :=
    ⟨_, rfl⟩
  have hcopy : Reads b₀.data 0 s := by
    refine ⟨hs, fun i hi => ?_⟩
    rw [hb₀, Nat.zero_add]
    exact if_pos (by omega)
  have hin₀ : b₀.Within s.length := by
    rw [hb₀]
    exact Buf.Within.write (fun _ h => absurd h List.not_mem_nil) (by omega) _
  rcases exists_split (! isDelim delim ·) s with ⟨lead, r, rfl, hlead, hr⟩
  have hnext : (! isDelim delim (r.headD 0)) = true := by
    rcases r with _ | ⟨c, r⟩
    · simpa using isDelim_zero hdelim
    · exact hr c rfl
  have hp := hcopy.scan (! isDelim delim ·) hlead hnext
  have he := hcopy.drop.end
  -- the copy behind the shift
  obtain ⟨b₁, hb₁, hshift, hin₁⟩ : ∃ b₁, b₁ = (if 0 + lead.length = 0 then b₀ else
      b₀.write 0 (0 + lead.length + r.length - (0 + lead.length) + 1)
        fun i => b₀.data (0 + lead.length + i)) ∧
      Reads b₁.data 0 r ∧ b₁.Within (lead ++ r).length := by
    refine ⟨_, rfl, ?_⟩
    split_ifs with hzero
    · exact ⟨by simpa [hzero] using hcopy.drop, hin₀⟩
    · refine ⟨hcopy.drop.shift fun i hi => ?_, hin₀.write (by simp) _⟩
      rw [Nat.zero_add i]
      exact if_pos (by omega)
  rcases trim_spec hdelim hshift (by simp) le_rfl hin₁ with ⟨hin₂, s', hs', hle, hruns, hhead⟩
  have hlast := runs_skip (r := r) fun c hc => show isDelim delim c by simpa using hlead c hc
  rcases countTokens_spec hs' with ⟨count, hcount, hlength⟩
  have hfirst : ∀ c ∈ s'.head?, isDelim delim c = false := by
    rcases hhead with rfl | hhead
    · simp
    · exact fun c hc => by simpa using hr c (hhead ▸ hc)
  have hlen : 0 + s'.length ≤ (lead ++ r).length := by
    rw [List.length_append]
    omega
  rcases extract_spec hdelim hs' hlen hfirst hin₂ [] with
    ⟨b', tokens, hextract, hwithin, htokens, -⟩
  rw [List.nil_append] at hextract
  rw [hruns, ← hlast] at htokens hlength
  refine ⟨⟨b', count + 2, tokens.map some ++ [none], tokens.length, tokens.getLast?⟩, ?_,
    ⟨tokens, rfl, htokens, rfl⟩, htokens.length_eq, ?_,
    fun i hi => Nat.lt_succ_of_le (hwithin i hi)⟩
  · filter_upwards [hp, he, hcount, hextract] with n hpn hen hcn hn
    simp only [tokenize, hdelim, or_false, Bool.true_eq_false, if_false, ← hb₀, hpn, hen,
      Option.bind_eq_bind, Option.bind_some]
    by_cases hzero : 0 + lead.length = 0
    · rw [if_pos hzero] at hb₁ ⊢
      simp only [Option.pure_def, Option.bind_some, ← hb₁, hcn, hn]
    · rw [if_neg hzero] at hb₁ ⊢
      simp only [Option.pure_def, Option.bind_some, ← hb₁, hcn, hn]
  · have hn := htokens.length_eq
    simp only [List.length_append, List.length_map, List.length_singleton]
    split_ifs at hlength <;> omega

theorem tokenize_exact_slash : 0 ∉ [47#8, 97] ∧ (47#8 ≠ 0 ∧ 47#8 < 128) ∧
    ∃ t, Returns (fun n =>
        tokenize (BitVec.setWidth 32 47#8) n (some [47, 97]) true (some fun _ => 0) true) (.ok t) ∧
      t.ntoks = (runs (· == 47) [47, 97]).length :=
  ⟨by decide, by decide,
    (tokenize_exact (s := [47, 97]) (d := 47) (by decide) (by decide) (by decide) _).imp
      fun _ h => ⟨h.1, h.2.2.1⟩⟩

end Str
end XytherOS
