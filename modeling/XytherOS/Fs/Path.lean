import XytherOS.Core.Status
import Mathlib.Data.List.Basic
import Mathlib.Tactic.SplitIfs

/-!
# Path — path strings of `fs/vfs_path.c`

`vfspath_parse` cuts a path string at its slashes, drops `.` and resolves `..` against the names
before it.  The tokens are places in one copy of the string: `tokenize` puts the first one at the
start of that block, so that a `kfree` of the first token frees all of them.  A `kfree` of any other
token finds no block there and changes nothing.

All callers pass no flags, and memory is found for everything.
-/

namespace XytherOS
namespace Fs

abbrev Name := List Char

/-- A `char *` into the block of `tokenize`: the number of the token in the block, and its text. -/
structure Token where
  num : Nat
  text : Name
  deriving DecidableEq, Repr

/-! ## Checking -/

/-- Some component is longer than `NAME_MAX`, with `component_length` characters of the current one
behind us. -/
def overlong (componentLength : Nat) : List Char → Bool
  | [] => false
  | ch :: cs =>
    if ch = '/' then overlong 0 cs
    else if componentLength + 1 > 255 then true
    else overlong (componentLength + 1) cs

def verifyPath (path : Name) : Ret :=
  if path = [] then .err .EINVAL
  else if overlong 0 path then .err .ENAMETOOLONG
  else if path.length > 4096 then .err .ENAMETOOLONG
  else .ok

/-! ## Cutting -/

/-- The parts of a string between the delimiters that are not empty, with the characters `cur` of
the current part behind us. -/
def pieces (delim : Char) (cur : Name) : List Char → List Name
  | [] => if cur = [] then [] else [cur]
  | ch :: cs =>
    if ch = delim then (if cur = [] then pieces delim [] cs else cur :: pieces delim [] cs)
    else pieces delim (cur ++ [ch]) cs

def numbered (num : Nat) : List Name → List Token
  | [] => []
  | s :: ss => ⟨num, s⟩ :: numbered (num + 1) ss

def tokenize (s : Name) (delim : Char) : List Token := numbered 0 (pieces delim [] s)

def canonicalizePath (path : Name) : List Token := tokenize path '/'

/-! ## Parsing -/

/-- The `vfspath_t` that `vfspath_parse` makes: the flags `PATH_ABSOLUTE` and `PATH_ISDIR`, the
entries of `tokenized` up to the null pointer, and `tokencount`.  A null `lasttoken` is the empty
name, which no token has. -/
structure Vfspath where
  isabsolute : Bool
  isdir : Bool
  absolute : Name
  lasttoken : Name
  tokencount : Nat
  tokenized : List Name
  deriving DecidableEq, Repr

/-- The locals of `vfspath_parse`: the entries of `tokenized` up to the null pointer, `index`,
`lasttoken`, and whether the block of the tokens has been freed. -/
structure Parsing where
  tokenized : List Token
  index : Nat
  lasttoken : Option Token
  freed : Bool
  deriving DecidableEq, Repr

namespace Parsing

def kfree (s : Parsing) (token : Token) : Parsing :=
  { s with freed := s.freed || token.num == 0 }

/-- `tokenized[index++] = lasttoken = token`.  What lies behind `index` stays in the array. -/
def store (s : Parsing) (token : Token) : Parsing :=
  { s with
    tokenized := s.tokenized.take s.index ++ token :: s.tokenized.drop (s.index + 1)
    index := s.index + 1
    lasttoken := some token }

def take (s : Parsing) (token : Token) : Except Fault Parsing :=
  if s.freed then throw .wildAccess
  else if token.text = ['.'] then return s.kfree token
  else if token.text = ['.', '.'] then return { s with index := s.index - 1 }.kfree token
  else return s.store token

end Parsing

/-- The string `absolute`: the last token ends it, unless the path names a directory.  The tokens
are compared as pointers. -/
def concatenate (isdir : Bool) (lasttoken : Option Token) : List Token → Name
  | [] => []
  | token :: ts =>
    token.text ++ (if some token = lasttoken && !isdir then [] else ['/']) ++
      concatenate isdir lasttoken ts

def vfspathParse (pathname : Name) : Except Fault (Except Errno Vfspath) := do
  if pathname = [] then return .error .ENOTNAM
  match verifyPath pathname with
  | .err e => return .error e
  | .ok =>
    let canonical := canonicalizePath pathname
    let isdir := pathname.getLast? == some '/'
    let s ← runs Parsing.take ⟨[], 0, canonical.getLast?, false⟩ canonical
    if s.tokenized.any fun token => token.text.length > 255 then return .error .ENAMETOOLONG
    return .ok
      { isabsolute := pathname.head? == some '/'
        isdir := isdir
        absolute :=
          if s.tokenized = [] then ['/'] else concatenate isdir s.lasttoken s.tokenized
        lasttoken := (s.lasttoken.map Token.text).getD []
        tokencount := s.index
        tokenized := s.tokenized.map Token.text }

/-! ## The parts of a string -/

theorem pieces_sound {delim : Char} {cs cur s : Name} (hcur : delim ∉ cur)
    (hs : s ∈ pieces delim cur cs) : s ≠ [] ∧ delim ∉ s := by
  induction cs generalizing cur with
  | nil =>
    by_cases hnil : cur = []
    · simp [pieces, hnil] at hs
    · simp only [pieces, if_neg hnil, List.mem_singleton] at hs
      subst hs
      exact ⟨hnil, hcur⟩
  | cons ch cs ih =>
    rw [pieces] at hs
    split_ifs at hs with hch hnil
    · exact ih (by simp) hs
    · rcases List.mem_cons.1 hs with heq | hs
      · subst heq
        exact ⟨hnil, hcur⟩
      · exact ih (by simp) hs
    · refine ih ?_ hs
      simp only [List.mem_append, List.mem_singleton, not_or]
      exact ⟨hcur, fun heq => hch heq.symm⟩

theorem empty_short : ([] : Name).length ≤ 255 := Nat.zero_le 255

theorem pieces_short {cs cur s : Name} (hcur : cur.length ≤ 255)
    (hshort : overlong cur.length cs = false) (hs : s ∈ pieces '/' cur cs) : s.length ≤ 255 := by
  induction cs generalizing cur with
  | nil =>
    by_cases hnil : cur = []
    · simp [pieces, hnil] at hs
    · simp only [pieces, if_neg hnil, List.mem_singleton] at hs
      subst hs
      exact hcur
  | cons ch cs ih =>
    rw [pieces] at hs
    rw [overlong] at hshort
    split_ifs at hs hshort with hch hnil hlong
    · exact ih empty_short hshort hs
    · rcases List.mem_cons.1 hs with heq | hs
      · subst heq
        exact hcur
      · exact ih empty_short hshort hs
    · have hlen : (cur ++ [ch]).length = cur.length + 1 := by simp
      exact ih (by omega) (by rw [hlen]; exact hshort) hs

theorem text_mem_of_numbered {ss : List Name} {n : Nat} {token : Token}
    (h : token ∈ numbered n ss) : token.text ∈ ss ∧ n ≤ token.num := by
  induction ss generalizing n with
  | nil => simp [numbered] at h
  | cons s ss ih =>
    rcases List.mem_cons.1 h with heq | h
    · subst heq
      exact ⟨by simp, Nat.le_refl n⟩
    · have hrest := ih h
      exact ⟨by simp [hrest.1], by omega⟩

def Token.Valid (token : Token) : Prop :=
  token.text ≠ [] ∧ '/' ∉ token.text ∧ token.text.length ≤ 255

theorem canonicalizePath_valid {pathname : Name} (hok : verifyPath pathname = .ok) {token : Token}
    (h : token ∈ canonicalizePath pathname) : token.Valid := by
  have hshort : overlong 0 pathname = false := by
    rw [verifyPath] at hok
    split_ifs at hok with _ hlong
    simpa using hlong
  have hmem : token.text ∈ pieces '/' [] pathname := (text_mem_of_numbered h).1
  have hsound := pieces_sound (by simp) hmem
  exact ⟨hsound.1, hsound.2, pieces_short empty_short hshort hmem⟩

/-! ## The loop over the tokens -/

namespace Parsing

/-- What the loop keeps: `index` stays in the array, at its end behind the last token. -/
structure Sound (s : Parsing) : Prop where
  index_le : s.index ≤ s.tokenized.length
  ends : s.index = s.tokenized.length → s.tokenized = [] ∨ s.tokenized.getLast? = s.lasttoken
  valid : ∀ token ∈ s.tokenized, token.Valid

theorem Sound.store {s : Parsing} {token : Token} (h : s.Sound) (hvalid : token.Valid) :
    (s.store token).Sound := by
  have hle := h.index_le
  constructor
  · simp only [Parsing.store, List.length_append, List.length_take, List.length_cons,
      List.length_drop]
    omega
  · intro heq
    simp only [Parsing.store, List.length_append, List.length_take, List.length_cons,
      List.length_drop] at heq
    -- nothing lies behind the new token
    have hnil : s.tokenized.drop (s.index + 1) = [] := List.drop_eq_nil_of_le (by omega)
    right
    simp [Parsing.store, hnil]
  · intro t ht
    simp only [Parsing.store, List.mem_append, List.mem_cons] at ht
    rcases ht with ht | ht | ht
    · exact h.valid t (List.mem_of_mem_take ht)
    · subst ht
      exact hvalid
    · exact h.valid t (List.mem_of_mem_drop ht)

theorem Sound.back {s : Parsing} (h : s.Sound) : { s with index := s.index - 1 }.Sound := by
  have hle := h.index_le
  refine ⟨by simp only; omega, ?_, h.valid⟩
  intro heq
  simp only at heq
  by_cases hzero : s.index = 0
  · left
    rw [hzero] at heq
    exact List.length_eq_zero_iff.1 heq.symm
  · omega

theorem Sound.kfree {s : Parsing} (h : s.Sound) (token : Token) : (s.kfree token).Sound :=
  ⟨h.index_le, h.ends, h.valid⟩

theorem take_later {s : Parsing} {token : Token} (h : s.Sound) (hfreed : s.freed = false)
    (hvalid : token.Valid) (hnum : token.num ≠ 0) :
    ∃ s', s.take token = .ok s' ∧ s'.Sound ∧ s'.freed = false := by
  rw [take, if_neg (by simp [hfreed])]
  split_ifs
  · exact ⟨_, rfl, h.kfree token, by simp [Parsing.kfree, hfreed, hnum]⟩
  · exact ⟨_, rfl, h.back.kfree token, by simp [Parsing.kfree, hfreed, hnum]⟩
  · exact ⟨_, rfl, h.store hvalid, hfreed⟩

theorem runs_later {ts : List Token} {s : Parsing} (h : s.Sound) (hfreed : s.freed = false)
    (hts : ∀ token ∈ ts, token.Valid ∧ token.num ≠ 0) :
    ∃ s', runs take s ts = .ok s' ∧ s'.Sound := by
  induction ts generalizing s with
  | nil => exact ⟨s, rfl, h⟩
  | cons token ts ih =>
    have htoken := hts token (by simp)
    rcases take_later h hfreed htoken.1 htoken.2 with ⟨s1, heq, hs1, hfreed1⟩
    rcases ih hs1 hfreed1 (fun t ht => hts t (by simp [ht])) with ⟨s', hrun, hs'⟩
    refine ⟨s', ?_, hs'⟩
    rw [runs, heq]
    exact hrun

end Parsing

def Token.isDots (token : Token) : Bool := token.text == ['.'] || token.text == ['.', '.']

/-- The first component is `.` or `..`, and another one is read after it. -/
def readsFreed (pathname : Name) : Bool :=
  match canonicalizePath pathname with
  | [] => false
  | token :: rest => token.isDots && !rest.isEmpty

theorem take_first_dots {s : Parsing} {token : Token} (hfreed : s.freed = false)
    (hnum : token.num = 0) (hdots : token.isDots = true) :
    ∃ s', s.take token = .ok s' ∧ s'.freed = true ∧ s'.tokenized = s.tokenized ∧
      s'.index ≤ s.index := by
  rw [Parsing.take, if_neg (by simp [hfreed])]
  simp only [Token.isDots, Bool.or_eq_true, beq_iff_eq] at hdots
  split_ifs with hone htwo
  · exact ⟨_, rfl, by simp [Parsing.kfree, hnum], rfl, Nat.le_refl _⟩
  · exact ⟨_, rfl, by simp [Parsing.kfree, hnum], rfl, Nat.sub_le _ _⟩
  · rcases hdots with hdots | hdots
    · exact absurd hdots hone
    · exact absurd hdots htwo

theorem take_first_name {s : Parsing} {token : Token} (hfreed : s.freed = false)
    (hdots : token.isDots = false) : s.take token = .ok (s.store token) := by
  simp only [Token.isDots, Bool.or_eq_false_iff, beq_eq_false_iff_ne] at hdots
  rw [Parsing.take, if_neg (by simp [hfreed]), if_neg hdots.1, if_neg hdots.2]
  rfl

theorem runs_take {pathname : Name} (hok : verifyPath pathname = .ok) (last : Option Token) :
    (readsFreed pathname = true →
      runs Parsing.take ⟨[], 0, last, false⟩ (canonicalizePath pathname) = .error .wildAccess) ∧
    (readsFreed pathname = false →
      ∃ s, runs Parsing.take ⟨[], 0, last, false⟩ (canonicalizePath pathname) = .ok s ∧
        s.Sound) := by
  have hvalid : ∀ token ∈ canonicalizePath pathname, token.Valid := fun token =>
    canonicalizePath_valid hok
  have hstart : Parsing.Sound ⟨[], 0, last, false⟩ := ⟨Nat.le_refl 0, fun _ => .inl rfl, by simp⟩
  rw [readsFreed]
  unfold canonicalizePath tokenize at *
  cases hss : pieces '/' [] pathname with
  | nil => exact ⟨fun h => absurd h (by simp [numbered]), fun _ => ⟨_, rfl, hstart⟩⟩
  | cons first rest =>
    rw [hss] at hvalid
    simp only [numbered, Bool.and_eq_true, Bool.and_eq_false_iff] at hvalid ⊢
    have hlater : ∀ token ∈ numbered 1 rest, token.Valid ∧ token.num ≠ 0 := by
      intro token ht
      have hnum := (text_mem_of_numbered ht).2
      exact ⟨hvalid token (by simp [ht]), by omega⟩
    refine ⟨?_, ?_⟩
    · rintro ⟨hdots, hrest⟩
      rcases take_first_dots (s := ⟨[], 0, last, false⟩) rfl rfl hdots with ⟨s, heq, hfreed, -, -⟩
      rcases hmore : numbered 1 rest with _ | ⟨second, more⟩
      · simp [hmore] at hrest
      · rw [runs, heq, ok_bind, runs, Parsing.take, if_pos hfreed]
        rfl
    · intro hgood
      cases hdots : Token.isDots ⟨0, first⟩ with
      | false =>
        -- the block stays
        rcases Parsing.runs_later (hstart.store (hvalid ⟨0, first⟩ (by simp))) rfl hlater with
          ⟨s, hrun, hs⟩
        refine ⟨s, ?_, hs⟩
        rw [runs, take_first_name rfl hdots]
        exact hrun
      | true =>
        rcases take_first_dots (s := ⟨[], 0, last, false⟩) rfl rfl hdots with
          ⟨s, heq, -, hnil, hindex⟩
        have hempty : numbered 1 rest = [] := by simpa [hdots] using hgood
        have hzero : s.index = 0 := Nat.le_zero.1 hindex
        refine ⟨s, ?_, ?_, fun _ => .inl hnil, ?_⟩
        · rw [runs, heq, ok_bind, hempty]
          rfl
        · rw [hzero]
          exact Nat.zero_le _
        · rw [hnil]
          simp

/-! ## The parsed path -/

structure Vfspath.Parsed (p : Vfspath) : Prop where
  count_le : p.tokencount ≤ p.tokenized.length
  ends : p.tokencount = p.tokenized.length → p.tokenized ≠ [] →
    p.tokenized.getLast? = some p.lasttoken
  root : p.absolute = ['/'] ↔ p.tokenized = []

theorem concatenate_ne_root {isdir : Bool} {last : Option Token} {token : Token} {ts : List Token}
    (hvalid : token.Valid) : concatenate isdir last (token :: ts) ≠ ['/'] := by
  rcases htext : token.text with _ | ⟨ch, cs⟩
  · exact absurd htext hvalid.1
  · intro heq
    have hch : '/' ∉ ch :: cs := htext ▸ hvalid.2.1
    simp only [concatenate, htext, List.cons_append, List.cons.injEq] at heq
    exact hch (by simp [heq.1])

theorem vfspathParse_spec {pathname : Name} (hok : verifyPath pathname = .ok) :
    (readsFreed pathname = true → vfspathParse pathname = .error .wildAccess) ∧
    (readsFreed pathname = false → ∃ p, vfspathParse pathname = .ok (.ok p) ∧ p.Parsed) := by
  have hne : pathname ≠ [] := by
    intro hnil
    simp [verifyPath, hnil] at hok
  have hloop := runs_take hok (canonicalizePath pathname).getLast?
  refine ⟨?_, ?_⟩
  · intro hfreed
    simp only [vfspathParse, if_neg hne, hok, hloop.1 hfreed]
    rfl
  · intro hfreed
    rcases hloop.2 hfreed with ⟨s, hrun, hs⟩
    have hshort : (s.tokenized.any fun token => token.text.length > 255) = false := by
      rw [List.any_eq_false]
      intro token ht
      simpa using (hs.valid token ht).2.2
    simp only [vfspathParse, if_neg hne, hok, hrun, ok_bind, hshort]
    refine ⟨_, rfl, ?_⟩
    constructor
    · simpa using hs.index_le
    · intro heq hnil
      simp only [List.length_map] at heq
      rcases hs.ends heq with hempty | hlast
      · simp [hempty] at hnil
      · cases hlt : s.lasttoken with
        | none =>
          rw [hlt, List.getLast?_eq_none_iff] at hlast
          simp [hlast] at hnil
        | some token =>
          rw [hlt] at hlast
          simp [hlast]
    · simp only [List.map_eq_nil_iff]
      cases htok : s.tokenized with
      | nil => simp
      | cons token ts =>
        have hvalid : token.Valid := hs.valid token (by simp [htok])
        simpa using concatenate_ne_root hvalid

end Fs
end XytherOS
