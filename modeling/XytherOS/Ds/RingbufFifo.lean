import XytherOS.Ds.Ringbuf
import XytherOS.Core.Status

/-!
# RingbufFifo — the ring buffers of `ds/ringbuf.c` as bounded queues

The size of a ring buffer need not divide the number of values of `head` and `tail`.  As long as the
counters do not wrap around, a ring buffer of any size at least one is a queue of at most that many
bytes: `Fifo` is the queue, and a run of calls on the ring buffer replies what the queue replies.
-/

namespace XytherOS
namespace Ds

open Fs (Byte)
open Window

/-! ## The queue -/

inductive RingbufCall
  | write (src : List Byte)
  | read (n : Nat)

/-- What a call returns, and what `ringbuf_isempty`, `ringbuf_isfull` and `ringbuf_available` say
behind it. -/
structure RingbufReply where
  moved : Nat
  bytes : List Byte
  isEmpty : Bool
  isFull : Bool
  available : Nat
  deriving DecidableEq, Repr

namespace Fifo

def moved (cap : Nat) (q : List Byte) : RingbufCall → Nat
  | .write src => min src.length (cap - q.length)
  | .read n => min n q.length

/-- The queue behind the call: the longest prefix that fits is appended, the oldest bytes are
removed. -/
def after (cap : Nat) (q : List Byte) : RingbufCall → List Byte
  | .write src => q ++ src.take (cap - q.length)
  | .read n => q.drop n

def reply (cap : Nat) (q : List Byte) (c : RingbufCall) : RingbufReply where
  moved := moved cap q c
  bytes := match c with
    | .write _ => []
    | .read n => q.take n
  isEmpty := (after cap q c).isEmpty
  isFull := decide ((after cap q c).length = cap)
  available := (after cap q c).length

def replies (cap : Nat) (q : List Byte) : List RingbufCall → List RingbufReply
  | [] => []
  | c :: cs => reply cap q c :: replies cap (after cap q c) cs

def total (cap : Nat) (q : List Byte) : List RingbufCall → Nat
  | [] => 0
  | c :: cs => moved cap q c + total cap (after cap q c) cs

end Fifo

/-! ## The accesses -/

namespace Ringbuf

def index (r : Ringbuf) (i : BitVec 64) : Except Fault Nat := do
  if r.size = 0 then throw .divideByZero
  inBounds (i.toNat % r.size.toNat) r.size.toNat
  return i.toNat % r.size.toNat

def available (r : Ringbuf) : BitVec 64 :=
  if r.head ≤ r.tail then r.tail - r.head else r.tail + r.size - r.head

end Ringbuf

def ringbufReadAt : Nat → Ringbuf → Except Fault (List Byte × Ringbuf)
  | 0, r => .ok ([], r)
  | n + 1, r =>
    if r.isEmpty then .ok ([], r)
    else do
      let i ← r.index r.head
      let (bs, r') ← ringbufReadAt n r.pop
      return (r.buf i :: bs, r')

def ringbufWriteAt : List Byte → Ringbuf → Except Fault (Nat × Ringbuf)
  | [], r => .ok (0, r)
  | b :: bs, r =>
    if r.isFull then .ok (0, r)
    else do
      let _ ← r.index r.tail
      let (k, r') ← ringbufWriteAt bs (r.push b)
      return (k + 1, r')

theorem ringbufReadAt_length {n : Nat} {r r' : Ringbuf} {bs : List Byte}
    (h : ringbufReadAt n r = .ok (bs, r')) : bs.length ≤ n := by
  induction n generalizing r bs r' with
  | zero =>
    cases h
    exact Nat.le_refl 0
  | succ n ih =>
    rw [ringbufReadAt] at h
    split at h
    · cases h
      exact Nat.zero_le _
    · rcases bind_ok_iff.1 h with ⟨i, _, h⟩
      rcases bind_ok_iff.1 h with ⟨⟨rest, r''⟩, hrest, h⟩
      cases h
      exact Nat.succ_le_succ (ih hrest)

def Ringbuf.reply (r : Ringbuf) (moved : Nat) (bytes : List Byte) : RingbufReply where
  moved := moved
  bytes := bytes
  isEmpty := r.isEmpty
  isFull := r.isFull
  available := r.available.toNat

def ringbufCall (r : Ringbuf) : RingbufCall → Except Fault (RingbufReply × Ringbuf)
  | .write src => do
      let (k, r) ← ringbufWriteAt src r
      return (r.reply k [], r)
  | .read n => do
      let (bs, r) ← ringbufReadAt n r
      return (r.reply bs.length bs, r)

def ringbufReplies (r : Ringbuf) : List RingbufCall → Except Fault (List RingbufReply)
  | [] => .ok []
  | c :: cs => do
      let (reply, r) ← ringbufCall r c
      let rest ← ringbufReplies r cs
      return reply :: rest

/-- The ring buffer holds the queue `q`, and `head` has not passed `tail`. -/
structure Ringbuf.Holds (r : Ringbuf) (q : List Byte) : Prop where
  size_pos : 0 < r.size.toNat
  length : q.length = r.count.toNat
  count_le : r.count.toNat ≤ r.size.toNat
  tail : r.tail.toNat = r.head.toNat + r.count.toNat
  contents : q = window r.buf r.size.toNat r.head.toNat r.count.toNat

@[simp] theorem Ringbuf.push_size (r : Ringbuf) (b : Byte) : (r.push b).size = r.size := rfl

namespace Ringbuf.Holds

variable {r : Ringbuf} {q : List Byte}

theorem init {size : BitVec 64} (hsize : 0 < size.toNat) (buf : Nat → Byte) :
    (Ringbuf.init size buf).Holds [] :=
  ⟨hsize, rfl, Nat.zero_le _, rfl, rfl⟩

theorem isEmpty (h : r.Holds q) : r.isEmpty = q.isEmpty := by
  have hlen := h.length
  cases q with
  | nil =>
    have hzero : r.count = 0 := BitVec.eq_of_toNat_eq hlen.symm
    simp [Ringbuf.isEmpty, hzero]
  | cons b q =>
    have hne : r.count ≠ 0#64 := by
      intro hzero
      simp [hzero] at hlen
    simp [Ringbuf.isEmpty, hne]

theorem isFull (h : r.Holds q) : r.isFull = decide (q.length = r.size.toNat) := by
  rw [Ringbuf.isFull, h.length, decide_eq_decide]
  exact BitVec.toNat_inj.symm

theorem available (h : r.Holds q) : r.available.toNat = q.length := by
  have htail := h.tail
  have hle : r.head ≤ r.tail := BitVec.le_def.2 (by omega)
  rw [Ringbuf.available, if_pos hle, BitVec.toNat_sub_of_le hle, h.length]
  omega

theorem index (h : r.Holds q) (i : BitVec 64) : r.index i = .ok (i.toNat % r.size.toNat) := by
  have hpos := h.size_pos
  have hne : r.size ≠ 0#64 := by
    intro hzero
    simp [hzero] at hpos
  simp [Ringbuf.index, inBounds, hne, Nat.mod_lt _ hpos]

theorem pop {b : Byte} (h : r.Holds (b :: q)) :
    r.pop.Holds q ∧ r.buf (r.head.toNat % r.size.toNat) = b := by
  have hlen : q.length + 1 = r.count.toNat := h.length
  have hcontents := h.contents
  have htail := h.tail
  have hle := h.count_le
  have hhead : r.pop.head.toNat = r.head.toNat + 1 := by
    simp only [Ringbuf.pop]
    bv_omega
  have hcount : r.pop.count.toNat = q.length := by
    simp only [Ringbuf.pop]
    bv_omega
  rw [← hlen, window_succ, List.cons.injEq] at hcontents
  refine ⟨⟨h.size_pos, hcount.symm, ?_, ?_, ?_⟩, hcontents.1.symm⟩
  · rw [hcount]
    exact le_trans (by omega) hle
  · rw [hhead, hcount]
    exact htail.trans (by omega)
  · rw [hhead, hcount]
    exact hcontents.2

theorem push (h : r.Holds q) (hroom : q.length ≠ r.size.toNat) (htop : r.tail.toNat + 1 < 2 ^ 64)
    (b : Byte) : (r.push b).Holds (q ++ [b]) := by
  have hlen := h.length
  have htail := h.tail
  have hle := h.count_le
  have hcount : (r.push b).count.toNat = r.count.toNat + 1 := by
    simp only [Ringbuf.push]
    bv_omega
  have htail' : (r.push b).tail.toNat = r.tail.toNat + 1 := by
    simp only [Ringbuf.push]
    bv_omega
  refine ⟨h.size_pos, ?_, ?_, ?_, ?_⟩
  · rw [hcount, List.length_append, hlen]
    rfl
  · rw [hcount, Ringbuf.push_size]
    omega
  · rw [hcount, htail', htail]
    rfl
  · rw [hcount]
    simp only [Ringbuf.push]
    rw [htail, window_push (by omega), ← h.contents]

theorem readAt (h : r.Holds q) (n : Nat) :
    ∃ r', ringbufReadAt n r = .ok (q.take n, r') ∧ r'.Holds (q.drop n) ∧ r'.size = r.size ∧
      r'.tail = r.tail := by
  induction n generalizing r q with
  | zero => exact ⟨r, rfl, h, rfl, rfl⟩
  | succ n ih =>
    cases q with
    | nil => exact ⟨r, by simp [ringbufReadAt, h.isEmpty], h, rfl, rfl⟩
    | cons b q =>
      rcases h.pop with ⟨hpop, hb⟩
      rcases ih hpop with ⟨r', heq, hr', hsize, htail⟩
      exact ⟨r', by simp [ringbufReadAt, h.isEmpty, h.index, heq, hb], hr', hsize, htail⟩

theorem writeAt (h : r.Holds q) (src : List Byte)
    (htop : r.tail.toNat + min src.length (r.size.toNat - q.length) < 2 ^ 64) :
    ∃ r', ringbufWriteAt src r = .ok (min src.length (r.size.toNat - q.length), r') ∧
      r'.Holds (q ++ src.take (r.size.toNat - q.length)) ∧ r'.size = r.size ∧
      r'.tail.toNat = r.tail.toNat + min src.length (r.size.toNat - q.length) := by
  induction src generalizing r q with
  | nil => exact ⟨r, by simp [ringbufWriteAt], by simpa using h, rfl, by simp⟩
  | cons b src ih =>
    have hle : q.length ≤ r.size.toNat := h.length.trans_le h.count_le
    by_cases hfull : q.length = r.size.toNat
    · exact ⟨r, by simp [ringbufWriteAt, h.isFull, hfull], by simpa [hfull] using h, rfl,
        by simp [hfull]⟩
    · have hroom : r.size.toNat - q.length = (r.size.toNat - (q ++ [b]).length) + 1 := by
        simp only [List.length_append, List.length_singleton]
        omega
      rw [hroom, List.length_cons, Nat.add_min_add_right] at htop
      have hpush := h.push hfull (by omega) b
      have htail : (r.push b).tail.toNat = r.tail.toNat + 1 := by
        simp only [Ringbuf.push]
        bv_omega
      have htop' : (r.push b).tail.toNat +
          min src.length ((r.push b).size.toNat - (q ++ [b]).length) < 2 ^ 64 := by
        rw [htail, Ringbuf.push_size]
        omega
      rcases ih hpush htop' with ⟨r', heq, hr', hsize, htail'⟩
      rw [Ringbuf.push_size] at heq hr' htail'
      refine ⟨r', ?_, ?_, hsize, ?_⟩
      · rw [hroom, List.length_cons, Nat.add_min_add_right]
        simp [ringbufWriteAt, h.isFull, h.index, hfull, heq]
      · rw [hroom, List.take_succ_cons]
        simpa using hr'
      · rw [htail', htail, hroom, List.length_cons, Nat.add_min_add_right]
        omega

theorem call (h : r.Holds q) (c : RingbufCall)
    (htop : r.tail.toNat + Fifo.moved r.size.toNat q c < 2 ^ 64) :
    ∃ r', ringbufCall r c = .ok (Fifo.reply r.size.toNat q c, r') ∧
      r'.Holds (Fifo.after r.size.toNat q c) ∧ r'.size = r.size ∧
      r'.tail.toNat ≤ r.tail.toNat + Fifo.moved r.size.toNat q c := by
  cases c with
  | write src =>
    rcases h.writeAt src htop with ⟨r', heq, hr', hsize, htail⟩
    refine ⟨r', ?_, hr', hsize, htail.le⟩
    simp [ringbufCall, heq, Ringbuf.reply, Fifo.reply, Fifo.moved, Fifo.after, hr'.isEmpty,
      hr'.isFull, hr'.available, hsize]
  | read n =>
    rcases h.readAt n with ⟨r', heq, hr', hsize, htail⟩
    refine ⟨r', ?_, hr', hsize, by rw [htail]; omega⟩
    simp [ringbufCall, heq, Ringbuf.reply, Fifo.reply, Fifo.moved, Fifo.after, hr'.isEmpty,
      hr'.isFull, hr'.available, hsize]

theorem replies (h : r.Holds q) (cs : List RingbufCall)
    (htop : r.tail.toNat + Fifo.total r.size.toNat q cs < 2 ^ 64) :
    ringbufReplies r cs = .ok (Fifo.replies r.size.toNat q cs) := by
  induction cs generalizing r q with
  | nil => rfl
  | cons c cs ih =>
    rw [Fifo.total] at htop
    rcases h.call c (by omega) with ⟨r', heq, hr', hsize, htail⟩
    have hrest := ih hr' (by rw [hsize]; omega)
    rw [hsize] at hrest
    simp [ringbufReplies, heq, hrest, Fifo.replies]

end Ringbuf.Holds

/-- A new ring buffer of any size at least one replies to every run of calls what a queue of that
size replies, as long as the calls move fewer than `2 ^ 64` bytes in total; no access is outside the
buffer. -/
theorem ringbuf_refines_fifo (size : BitVec 64) (buf : Nat → Byte) (cs : List RingbufCall)
    (hsize : 1 ≤ size.toNat) (htotal : Fifo.total size.toNat [] cs < 2 ^ 64) :
    ringbufReplies (Ringbuf.init size buf) cs = .ok (Fifo.replies size.toNat [] cs) := by
  have hinit := Ringbuf.Holds.init hsize buf
  exact hinit.replies cs (by simpa [Ringbuf.init] using htotal)

theorem ringbuf_refines_fifo_two :
    ringbufReplies (Ringbuf.init 2 fun _ => 0) [.write [1, 2, 3], .read 1, .write [4], .read 5] =
      .ok (Fifo.replies 2 [] [.write [1, 2, 3], .read 1, .write [4], .read 5]) :=
  ringbuf_refines_fifo 2 (fun _ => 0) _ (by decide) (by decide)

end Ds
end XytherOS
