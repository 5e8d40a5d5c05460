import XytherOS.Fs.Tmpfs
import XytherOS.Lib.Window

/-!
# Ringbuf — the ring buffers of `ds/ringbuf.c`

`head` and `tail` are counters that are never reduced; as long as the size of the buffer divides the
number of their values it does not matter that they wrap around.  The bytes between them are a
queue: reading takes bytes from its front, writing appends what there is room for.
-/

namespace XytherOS
namespace Ds

open Fs (Byte)
open Window

structure Ringbuf where
  buf : Nat → Byte
  size : BitVec 64
  head : BitVec 64
  tail : BitVec 64
  count : BitVec 64

namespace Ringbuf

def init (size : BitVec 64) (buf : Nat → Byte) : Ringbuf :=
  { buf := buf, size := size, head := 0, tail := 0, count := 0 }

def isEmpty (r : Ringbuf) : Bool := r.count = 0

def isFull (r : Ringbuf) : Bool := r.count = r.size

def pop (r : Ringbuf) : Ringbuf := { r with head := r.head + 1, count := r.count - 1 }

def push (r : Ringbuf) (b : Byte) : Ringbuf :=
  { r with
    buf := Function.update r.buf (r.tail.toNat % r.size.toNat) b
    tail := r.tail + 1
    count := r.count + 1 }

end Ringbuf

def ringbufRead : Nat → Ringbuf → List Byte × Ringbuf
  | 0, r => ([], r)
  | n + 1, r =>
    if r.isEmpty then ([], r)
    else
      let (bs, r') := ringbufRead n r.pop
      (r.buf (r.head.toNat % r.size.toNat) :: bs, r')

def ringbufWrite (src : Nat → Byte) : Nat → Ringbuf → Nat × Ringbuf
  | 0, r => (0, r)
  | n + 1, r =>
    if r.isFull then (0, r)
    else
      let (k, r') := ringbufWrite (fun i => src (i + 1)) n (r.push (src 0))
      (k + 1, r')

namespace Ringbuf

def contents (r : Ringbuf) : List Byte :=
  window r.buf r.size.toNat r.head.toNat r.count.toNat

structure Wf (r : Ringbuf) : Prop where
  dvd : r.size.toNat ∣ 2 ^ 64
  count_le : r.count ≤ r.size
  tail : r.tail = r.head + r.count

variable {r : Ringbuf}

@[simp] theorem contents_length (r : Ringbuf) : r.contents.length = r.count.toNat :=
  window_length ..

theorem Wf.init {size : BitVec 64} (hdvd : size.toNat ∣ 2 ^ 64) (buf : Nat → Byte) :
    (Ringbuf.init size buf).Wf :=
  ⟨hdvd, Nat.zero_le _, rfl⟩

theorem Wf.pop (h : r.Wf) (hne : r.isEmpty = false) :
    r.pop.Wf ∧ r.contents = r.buf (r.head.toNat % r.size.toNat) :: r.pop.contents := by
  have hcount : r.count ≠ 0 := by simpa [isEmpty] using hne
  have hle := h.count_le
  have htail := h.tail
  have hpred : (r.count - 1).toNat + 1 = r.count.toNat := by bv_omega
  refine ⟨⟨h.dvd, ?_, ?_⟩, ?_⟩
  · simp only [Ringbuf.pop]
    bv_omega
  · simp only [Ringbuf.pop]
    bv_omega
  · rw [contents, ← hpred, window_succ]
    -- the counter `head` may wrap around
    have hhead : (r.head + 1).toNat = (r.head.toNat + 1) % 2 ^ 64 := BitVec.toNat_add ..
    simp only [contents, Ringbuf.pop]
    rw [hhead, window_mod h.dvd]

theorem Wf.push (h : r.Wf) (hne : r.isFull = false) (b : Byte) :
    (r.push b).Wf ∧ (r.push b).contents = r.contents ++ [b] := by
  have hcount : r.count ≠ r.size := by simpa [isFull] using hne
  have hle := h.count_le
  have htail := h.tail
  have hsucc : (r.count + 1).toNat = r.count.toNat + 1 := by bv_omega
  refine ⟨⟨h.dvd, ?_, ?_⟩, ?_⟩
  · simp only [Ringbuf.push]
    bv_omega
  · simp only [Ringbuf.push]
    bv_omega
  · have hplace : r.tail.toNat % r.size.toNat = (r.head.toNat + r.count.toNat) % r.size.toNat := by
      rw [htail, BitVec.toNat_add, Nat.mod_mod_of_dvd _ h.dvd]
    simp only [contents, Ringbuf.push]
    rw [hsucc, hplace]
    exact window_push (by bv_omega) b

theorem isEmpty_iff (r : Ringbuf) : r.isEmpty = true ↔ r.contents = [] := by
  rw [← List.length_eq_zero_iff, contents_length, isEmpty, decide_eq_true_eq]
  bv_omega

theorem Wf.read (h : r.Wf) (n : Nat) :
    (ringbufRead n r).1 = r.contents.take n ∧
      (ringbufRead n r).2.contents = r.contents.drop n ∧ (ringbufRead n r).2.Wf ∧
      (ringbufRead n r).2.size = r.size := by
  induction n generalizing r with
  | zero => exact ⟨rfl, rfl, h, rfl⟩
  | succ n ih =>
    rw [ringbufRead]
    cases hempty : r.isEmpty with
    | true =>
      have hnil := (isEmpty_iff r).1 hempty
      simp only [if_true, hnil, List.take_nil, List.drop_nil]
      exact ⟨trivial, trivial, h, trivial⟩
    | false =>
      rcases h.pop hempty with ⟨hwf, hcontents⟩
      rcases ih hwf with ⟨htake, hdrop, hwf', hsize⟩
      simp only [Bool.false_eq_true, if_false, hcontents, List.take_succ_cons,
        List.drop_succ_cons]
      exact ⟨congrArg _ htake, hdrop, hwf', hsize⟩

theorem Wf.write (h : r.Wf) (src : Nat → Byte) (n : Nat) :
    (ringbufWrite src n r).1 = min n (r.size.toNat - r.count.toNat) ∧
      (ringbufWrite src n r).2.contents =
        r.contents ++ (List.range (ringbufWrite src n r).1).map src ∧
      (ringbufWrite src n r).2.Wf ∧ (ringbufWrite src n r).2.size = r.size := by
  induction n generalizing r src with
  | zero => exact ⟨(Nat.zero_min _).symm, (List.append_nil _).symm, h, rfl⟩
  | succ n ih =>
    rw [ringbufWrite]
    have hle := h.count_le
    cases hfull : r.isFull with
    | true =>
      have heq : r.count = r.size := by simpa [isFull] using hfull
      simp only [if_true, heq, Nat.sub_self, Nat.min_zero]
      exact ⟨trivial, (List.append_nil _).symm, h, trivial⟩
    | false =>
      have hne : r.count ≠ r.size := by simpa [isFull] using hfull
      rcases h.push hfull (src 0) with ⟨hwf, hcontents⟩
      rcases ih hwf (fun i => src (i + 1)) with ⟨hcount, hrest, hwf', hsize⟩
      have hsucc : (r.push (src 0)).count.toNat = r.count.toNat + 1 := by
        simp only [Ringbuf.push]
        bv_omega
      have hsame : (r.push (src 0)).size = r.size := rfl
      rw [hsucc, hsame] at hcount
      simp only [Bool.false_eq_true, if_false]
      refine ⟨?_, ?_, hwf', hsize⟩
      · rw [hcount]
        bv_omega
      · rw [hrest, hcontents, List.append_assoc, List.range_succ_eq_map, List.map_cons,
          List.map_map]
        rfl

end Ringbuf

end Ds
end XytherOS
