import XytherOS.Fs.Path
import Mathlib.Data.List.Basic

/-!
# PathNormal — what `vfspath_parse` makes of `.` and `..`

The lexical normalisation of a path drops its empty components and its `.`s, and lets each `..` take
back the name kept before it.  The loop of `vfspath_parse` takes a name back by lowering `index`
over an array whose later slots keep their tokens.  So the first `tokencount` entries are the
normalisation, but the null that ends the array stands behind the highest `index` there ever was,
and `lasttoken` is the last name stored, not the last one kept.
-/

namespace XytherOS
namespace Fs

/-! ## Lexical normalisation -/

def keep (kept : List Name) (component : Name) : List Name :=
  if component = [] ∨ component = ['.'] then kept
  else if component = ['.', '.'] then kept.dropLast
  else kept ++ [component]

def lexical (components : List Name) : List Name := components.foldl keep []

def normalise (path : Name) : List Name := lexical (path.splitOn '/')

def components (path : Name) : List Name := (path.splitOn '/').filter (· ≠ [])

theorem lexical_concat (cs : List Name) (c : Name) : lexical (cs ++ [c]) = keep (lexical cs) c := by
  simp [lexical, List.foldl_append]

namespace Parsing

/-- What the loop has made of the components `done`: the entries below `index` are the names they
keep, and the array is as long as the longest list of names that a prefix of them keeps. -/
structure Tracks (done : List Name) (s : Parsing) : Prop where
  kept : (s.tokenized.take s.index).map Token.text = lexical done
  index_le : s.index ≤ s.tokenized.length
  high : ∀ n, s.tokenized.length ≤ n ↔ ∀ pre, pre <+: done → (lexical pre).length ≤ n

variable {done : List Name} {s s' : Parsing} {token : Token}

theorem Tracks.start (last : Option Token) : Tracks [] ⟨[], 0, last, false⟩ := by
  refine ⟨rfl, Nat.le_refl 0, fun n => ?_⟩
  simp [lexical]

theorem Tracks.index_eq (h : Tracks done s) : s.index = (lexical done).length := by
  have hle := h.index_le
  calc
    s.index = (s.tokenized.take s.index).length := by simp [hle]
    _ = ((s.tokenized.take s.index).map Token.text).length := by simp
    _ = (lexical done).length := by rw [h.kept]

theorem high_concat {c : Name} {len len' : Nat}
    (h : ∀ n, len ≤ n ↔ ∀ pre, pre <+: done → (lexical pre).length ≤ n)
    (hlen : ∀ n, len' ≤ n ↔ len ≤ n ∧ (lexical (done ++ [c])).length ≤ n) (n : Nat) :
    len' ≤ n ↔ ∀ pre, pre <+: done ++ [c] → (lexical pre).length ≤ n := by
  rw [hlen n, h n]
  constructor
  · rintro ⟨hdone, hall⟩ pre hpre
    rcases List.prefix_concat_iff.1 hpre with heq | hpre
    · rw [heq]
      exact hall
    · exact hdone pre hpre
  · intro hall
    exact ⟨fun pre hpre => hall pre (hpre.trans (List.prefix_append done [c])),
      hall (done ++ [c]) (List.prefix_refl _)⟩

theorem Tracks.store (h : Tracks done s) (hkeep : keep (lexical done) token.text =
    lexical done ++ [token.text]) : Tracks (done ++ [token.text]) (s.store token) := by
  have hle := h.index_le
  have hindex := h.index_eq
  have hlen : (s.store token).tokenized.length = max s.tokenized.length (s.index + 1) := by
    simp only [Parsing.store, List.length_append, List.length_take, List.length_cons,
      List.length_drop]
    omega
  refine ⟨?_, ?_, high_concat h.high fun n => ?_⟩
  · have htake : (s.store token).tokenized.take (s.index + 1) =
        s.tokenized.take s.index ++ [token] := by
      rw [Parsing.store, List.take_append]
      simp [hle, List.take_take]
    calc
      ((s.store token).tokenized.take (s.index + 1)).map Token.text
          = (s.tokenized.take s.index).map Token.text ++ [token.text] := by simp [htake]
      _ = lexical (done ++ [token.text]) := by rw [h.kept, lexical_concat, hkeep]
  · rw [hlen]
    exact Nat.le_max_right _ _
  · have hnew : (lexical (done ++ [token.text])).length = s.index + 1 := by
      rw [lexical_concat, hkeep]
      simp [hindex]
    rw [hlen, hnew]
    exact Nat.max_le

end Parsing

/-! ## The parsed path -/

/-- The path has no component, or its first one is a name and none of its prefixes keeps more names
than the whole path. -/
def Settled (pathname : Name) : Prop :=
  match components pathname with
  | [] => True
  | first :: rest =>
    (first ≠ ['.'] ∧ first ≠ ['.', '.']) ∧
      ∀ pre, pre <+: first :: rest → (lexical pre).length ≤ (normalise pathname).length

section Name

variable {path first : Name} {rest : List Name} {s : Parsing}

end Name

end Fs
end XytherOS
