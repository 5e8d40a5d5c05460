import XytherOS.Core.Status
import Mathlib.Data.List.Basic
import Mathlib.Tactic.SplitIfs

/-!
# Printf — the output of `lib/printf.c`

The formatter hands every character to an output function.  For `snprintf` that is `_out_buffer`,
which drops what lies at or behind `maxlen`; at the end a NUL goes behind the characters, or into
the last place of the buffer.

The formats of the callers hold `%s` and `%c` alone, so the expanded text is what they pass here.  A
block is the list of its bytes; a byte that was never written is `none`.
-/

namespace XytherOS
namespace Printf

variable {α : Type}

/-- `buffer[i] = character`, for a buffer that begins at `block`. -/
def store (block : List (Option α)) (i : Nat) (character : α) :
    Except Fault (List (Option α)) := do
  inBounds i block.length
  return block.set i (some character)

def outBuffer (character : α) (buffer idx maxlen : Nat) (block : List (Option α)) :
    Except Fault (List (Option α)) :=
  if idx < maxlen then store block (buffer + idx) character else .ok block

def emit (buffer maxlen : Nat) : Nat → List α → List (Option α) → Except Fault (List (Option α))
  | _, [], block => .ok block
  | idx, character :: cs, block => do
      let block ← outBuffer character buffer idx maxlen block
      emit buffer maxlen (idx + 1) cs block

def snprintf (nul : α) (buffer maxlen : Nat) (text : List α) (block : List (Option α)) :
    Except Fault (List (Option α)) := do
  let block ← emit buffer maxlen 0 text block
  outBuffer nul buffer (if text.length < maxlen then text.length else maxlen - 1) maxlen block

/-! ## Writing a run of cells -/

def overwrite (block : List (Option α)) (i : Nat) (cs : List α) : List (Option α) :=
  block.take i ++ cs.map some ++ block.drop (i + cs.length)

variable {block : List (Option α)} {buffer maxlen idx i : Nat} {cs text : List α}

@[simp] theorem overwrite_nil (block : List (Option α)) (i : Nat) : overwrite block i [] = block := by
  simp [overwrite]

theorem length_overwrite (h : i + cs.length ≤ block.length) :
    (overwrite block i cs).length = block.length := by
  simp only [overwrite, List.length_append, List.length_take, List.length_map, List.length_drop]
  omega

theorem overwrite_cons (a : α) (h : i < block.length) :
    overwrite (block.set i (some a)) (i + 1) cs = overwrite block i (a :: cs) := by
  have htake : (block.set i (some a)).take (i + 1) = block.take i ++ [some a] := by
    rw [List.take_add_one, List.getElem?_set_self h, List.take_set_of_le (Nat.le_refl i)]
    rfl
  have hdrop : (block.set i (some a)).drop (i + 1 + cs.length) =
      block.drop (i + (a :: cs).length) := by
    rw [List.drop_set_of_lt (by omega), List.length_cons, Nat.add_assoc, Nat.add_comm 1]
  rw [overwrite, htake, hdrop, overwrite]
  simp

theorem set_overwrite {i : Nat} {cs : List α} (block : List (Option α)) (a : α) (rest : List α)
    (hrest : rest.length ≤ 1) (h : i + cs.length < block.length) :
    (overwrite block i (cs ++ rest)).set (i + cs.length) (some a) =
      overwrite block i (cs ++ [a]) := by
  have hlen : (block.take i ++ cs.map some).length = i + cs.length := by
    simp only [List.length_append, List.length_take, List.length_map]
    omega
  have hdrop : block.drop (i + cs.length) =
      block[i + cs.length] :: block.drop (i + cs.length + 1) := List.drop_eq_getElem_cons h
  rcases rest with _ | ⟨b, rest⟩
  · rw [overwrite, List.append_nil, ← hlen, List.set_append_right _ _ (Nat.le_refl _), hlen, hdrop]
    simp [overwrite, Nat.add_assoc]
  · have hnil : rest = [] := by simpa using hrest
    subst hnil
    rw [overwrite, List.map_append, ← List.append_assoc, List.append_assoc _ _ (block.drop _),
      ← hlen, List.set_append_right _ _ (Nat.le_refl _)]
    simp [overwrite]

/-! ## What is written -/

theorem emit_full (h : maxlen ≤ idx) : emit buffer maxlen idx cs block = .ok block := by
  induction cs generalizing idx with
  | nil => rfl
  | cons c cs ih =>
    rw [emit, outBuffer, if_neg (Nat.not_lt.2 h), ok_bind]
    exact ih (Nat.le_succ_of_le h)

theorem emit_spec (h : buffer + idx ≤ block.length) :
    emit buffer maxlen idx cs block =
      if buffer + idx + (cs.take (maxlen - idx)).length ≤ block.length then
        .ok (overwrite block (buffer + idx) (cs.take (maxlen - idx)))
      else .error .wildAccess := by
  induction cs generalizing idx block with
  | nil => simp [emit, h]
  | cons c cs ih =>
    rw [emit, outBuffer]
    by_cases hidx : idx < maxlen
    · -- the character goes into the block
      have hrest : maxlen - idx = maxlen - (idx + 1) + 1 := by omega
      rw [if_pos hidx, store, inBounds]
      by_cases hin : buffer + idx < block.length
      · have hset : buffer + (idx + 1) ≤ (block.set (buffer + idx) (some c)).length := by
          rw [List.length_set]
          exact hin
        rw [if_pos hin, ok_bind, pure_eq_ok, ok_bind, ih hset, hrest, List.take_succ_cons,
          ← Nat.add_assoc, overwrite_cons c hin, List.length_set, List.length_cons]
        simp only [Nat.add_assoc, Nat.add_comm 1]
      · rw [if_neg hin, error_bind, error_bind, hrest, List.take_succ_cons, List.length_cons,
          if_neg (by omega)]
    · -- nothing is written any more
      have hzero : maxlen - idx = 0 := by omega
      rw [if_neg hidx, ok_bind, emit_full (by omega), hzero]
      simp [h]

theorem snprintf_spec (nul : α) (h : buffer ≤ block.length) (hmax : 0 < maxlen) :
    snprintf nul buffer maxlen text block =
      if buffer + (text.take (maxlen - 1)).length < block.length then
        .ok (overwrite block buffer (text.take (maxlen - 1) ++ [nul]))
      else .error .wildAccess := by
  rw [snprintf, emit_spec h, Nat.sub_zero, Nat.add_zero]
  by_cases hshort : text.length < maxlen
  · -- the NUL goes behind the text
    have htake : text.take maxlen = text := List.take_of_length_le (Nat.le_of_lt hshort)
    have htake' : text.take (maxlen - 1) = text := List.take_of_length_le (by omega)
    rw [htake, htake', if_pos hshort]
    by_cases hfit : buffer + text.length < block.length
    · have hlen : (overwrite block buffer text).length = block.length :=
        length_overwrite (Nat.le_of_lt hfit)
      have hnul := set_overwrite block nul [] (Nat.zero_le 1) hfit
      rw [List.append_nil] at hnul
      rw [if_pos (Nat.le_of_lt hfit), if_pos hfit, ok_bind, outBuffer, if_pos hshort, store,
        inBounds, hlen, if_pos hfit, ok_bind, pure_eq_ok, hnul]
    · rw [if_neg hfit]
      by_cases hle : buffer + text.length ≤ block.length
      · have hlen : (overwrite block buffer text).length = block.length := length_overwrite hle
        rw [if_pos hle, ok_bind, outBuffer, if_pos hshort, store, inBounds, hlen, if_neg hfit]
        rfl
      · rw [if_neg hle]
        rfl
  · -- the NUL takes the last place
    have hlast : maxlen - 1 < text.length := by omega
    have htake : text.take maxlen = text.take (maxlen - 1) ++ [text[maxlen - 1]] := by
      rw [← List.take_succ_eq_append_getElem hlast, Nat.sub_add_cancel hmax]
    have hlen : (text.take (maxlen - 1)).length = maxlen - 1 := by
      rw [List.length_take]
      omega
    have hlen' : (text.take maxlen).length = maxlen - 1 + 1 := by
      rw [htake, List.length_append, hlen, List.length_singleton]
    rw [if_neg hshort, hlen, hlen', ← Nat.add_assoc]
    by_cases hfit : buffer + (maxlen - 1) < block.length
    · have hset := set_overwrite (i := buffer) block nul
        [text[maxlen - 1]] (Nat.le_refl 1) (by rw [hlen]; exact hfit)
      rw [hlen, ← htake] at hset
      have hsame : (overwrite block buffer (text.take maxlen)).length = block.length := by
        apply length_overwrite
        rw [hlen']
        exact hfit
      rw [if_pos (Nat.succ_le_of_lt hfit), if_pos hfit, ok_bind, outBuffer,
        if_pos (Nat.sub_lt hmax Nat.one_pos), store, inBounds, hsame, if_pos hfit, ok_bind,
        pure_eq_ok, hset]
    · rw [if_neg hfit, if_neg (fun hle => hfit (Nat.lt_of_succ_le hle))]
      rfl

end Printf
end XytherOS
