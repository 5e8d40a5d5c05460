import XytherOS.Fs.Pipe

/-!
# PipeLaw — what goes into a pipe and what comes out of it

The bytes that have left the buffer and those that are in it are the bytes that went into it, in
the same order.  What the calls report agrees with this as long as no wait fails after a call has
moved bytes.  Each end looks at its own flag instead of that of its peer, so that a reader waits for
a closed write end and a writer fills a pipe without a reader; a run in which neither happens, and
no wait fails late, is exactly one that keeps the stream law.
-/

namespace XytherOS
namespace Fs

open Ds Function

/-! ## One stretch -/

namespace PipeEnd

/-- The functions of an end do to the buffer what they are for, and leave the rest alone. -/
structure Proper (e : PipeEnd) : Prop where
  wf : ∀ {r : Ringbuf} (moved n : Nat), r.Wf → (e.transfer moved n r).2.Wf
  le : ∀ {r : Ringbuf} (moved n : Nat), r.Wf → (e.transfer moved n r).1.length ≤ n
  stop : ∀ {r : Ringbuf} (moved n : Nat), r.Wf → (e.transfer moved n r).1.length < n →
    e.blocked (e.transfer moved n r).2 = true
  isOpen : ∀ {p q : Pipe}, p.pipeR = q.pipeR → p.pipeW = q.pipeW → e.isOpen p = e.isOpen q
  wake : ∀ p, (e.wakePeer p).pipeR = p.pipeR ∧ (e.wakePeer p).pipeW = p.pipeW ∧
    (e.wakePeer p).ring = p.ring ∧ (e.wakePeer p).readers ⊆ p.readers
  enqueue : ∀ t p, (e.enqueue t p).pipeR = p.pipeR ∧ (e.enqueue t p).pipeW = p.pipeW ∧
    (e.enqueue t p).ring = p.ring

structure Moves (e : PipeEnd) (t : Nat) (nb : BitVec 64) (moved : Nat) (p : Pipe)
    (st : Stretch) : Prop where
  flags : st.pipe.pipeR = p.pipeR ∧ st.pipe.pipeW = p.pipeW
  wf : st.pipe.ring.Wf
  transfer : (st.moved = [] ∧ st.pipe.ring = p.ring) ∨
    e.transfer moved (nb.toNat - moved) p.ring = (st.moved, st.pipe.ring)
  count : ∀ n, st.ret = some (.ok n) → n = moved + st.moved.length
  error : ∀ err, st.ret = some (.error err) → moved + st.moved.length = 0
  waits : st.ret = none → e.isOpen p = true ∧ e.blocked st.pipe.ring = true ∧
    ((moved + st.moved.length : Nat) : Int) < nb.toInt ∧
      ∃ q : Pipe, q.readers ⊆ p.readers ∧ st.pipe = e.enqueue t q
  readers : st.ret ≠ none → st.pipe.readers ⊆ p.readers

structure Stretched (e : PipeEnd) (t : Nat) (nb : BitVec 64) (moved : Nat) (p : Pipe)
    (st : Stretch) : Prop extends Moves e t nb moved p st where
  returns : st.ret ≠ none → e.isOpen p = false ∨ nb.toInt ≤ (moved + st.moved.length : Nat)

variable {e : PipeEnd} {t moved k : Nat} {nb : BitVec 64} {p : Pipe}

theorem loop_last (he : e.Proper) (hwf : p.ring.Wf)
    (h : nb.toInt ≤ moved ∨ e.isOpen p = false ∨ e.blocked p.ring = true) :
    ∃ st, e.loop t nb (k + 1) p moved = .ok st ∧ (st.moved = [] ∧ st.pipe.ring = p.ring) ∧
      e.Stretched t nb moved p st := by
  rcases he.wake p with ⟨hR, hW, hring, hreaders⟩
  rw [loop]
  by_cases hmore : (moved : Int) < nb.toInt
  swap
  · -- the call is through
    rw [if_neg hmore]
    refine ⟨⟨p, [], some (.ok moved)⟩, rfl, ⟨rfl, rfl⟩,
      ⟨⟨rfl, rfl⟩, hwf, .inl ⟨rfl, rfl⟩, ?_, ?_, ?_, ?_⟩, ?_⟩
    · rintro n ⟨⟩
      rfl
    · rintro err ⟨⟩
    · exact fun hno => absurd hno (by simp)
    · exact fun _ => List.Subset.refl _
    · exact fun _ => .inr (by simp; omega)
  rw [if_pos hmore]
  cases hopen : e.isOpen p with
  | false =>
    refine ⟨⟨e.wakePeer p, [], some (orEpipe moved)⟩, rfl, ⟨rfl, hring⟩,
      ⟨⟨hR, hW⟩, ?_, .inl ⟨rfl, hring⟩, ?_, ?_, fun hno => absurd hno (by simp),
        fun _ => hreaders⟩, fun _ => .inl hopen⟩
    · rw [hring]
      exact hwf
    · intro n hn
      simp only [orEpipe, Option.some.injEq] at hn
      split_ifs at hn
      cases hn
      rfl
    · intro err herr
      simp only [orEpipe, Option.some.injEq] at herr
      split_ifs at herr with hzero
      exact hzero
  | true =>
    have hblocked : e.blocked p.ring = true := by
      rcases h with hdone | hclosed | hblocked
      · omega
      · rw [hopen] at hclosed
        cases hclosed
      · exact hblocked
    simp only [Bool.not_true, Bool.false_eq_true, if_false, hblocked, if_true]
    rcases he.enqueue t (e.wakePeer p) with ⟨hR', hW', hring'⟩
    refine ⟨⟨e.enqueue t (e.wakePeer p), [], none⟩, rfl, ⟨rfl, hring'.trans hring⟩,
      ⟨⟨hR'.trans hR, hW'.trans hW⟩, ?_, .inl ⟨rfl, hring'.trans hring⟩, by simp, by simp,
        fun _ => ?_, by simp⟩, by simp⟩
    · rw [hring', hring]
      exact hwf
    · refine ⟨hopen, ?_, by simpa using hmore, e.wakePeer p, hreaders, rfl⟩
      rw [hring', hring]
      exact hblocked

theorem moveSome_spec (he : e.Proper) (hwf : p.ring.Wf) (hmore : (moved : Int) < nb.toInt) :
    ∃ st, (do
        let st ← e.loop t nb (k + 1) (e.moveSome p moved (nb.toNat - moved)).2
          (moved + (e.moveSome p moved (nb.toNat - moved)).1.length)
        return { st with moved := (e.moveSome p moved (nb.toNat - moved)).1 ++ st.moved }) =
          Except.ok st ∧ e.Stretched t nb moved p st ∧
      e.transfer moved (nb.toNat - moved) p.ring = (st.moved, st.pipe.ring) := by
  have hnb : (nb.toNat : Int) = nb.toInt := by
    have htoInt := BitVec.toInt_eq_toNat_cond nb
    split_ifs at htoInt <;> omega
  have hwf' := he.wf moved (nb.toNat - moved) hwf
  have hle := he.le moved (nb.toNat - moved) hwf
  have hstop := he.stop moved (nb.toNat - moved) hwf
  cases htransfer : e.transfer moved (nb.toNat - moved) p.ring with
  | mk bs ring =>
    rw [htransfer] at hwf' hle hstop
    simp only at hwf' hle hstop
    obtain ⟨q, hq⟩ : ∃ q, q = e.wakePeer { p with ring := ring } := ⟨_, rfl⟩
    have hsome : e.moveSome p moved (nb.toNat - moved) = (bs, q) := by
      simp only [moveSome, htransfer, hq]
    rcases he.wake { p with ring := ring } with ⟨hR, hW, hring, hreaders⟩
    rw [← hq] at hR hW hring hreaders
    have hopen : e.isOpen q = e.isOpen p := he.isOpen hR hW
    have hlast : nb.toInt ≤ (moved + bs.length : Nat) ∨ e.isOpen q = false ∨
        e.blocked q.ring = true := by
      by_cases hlt : bs.length < nb.toNat - moved
      · rw [hring]
        exact .inr (.inr (hstop hlt))
      · exact .inl (by omega)
    rcases loop_last (t := t) (k := k) he (hring ▸ hwf') hlast with
      ⟨st, heq, ⟨hnil, hsame⟩, hst⟩
    rw [hsome]
    simp only [heq, ok_bind, pure_eq_ok]
    have htr : (bs, ring) = (bs ++ st.moved, st.pipe.ring) := by
      rw [hnil, List.append_nil, hsame, hring]
    have hcount : ∀ n, moved + (bs ++ st.moved).length = n ↔
        moved + bs.length + st.moved.length = n := by
      intro n
      rw [List.length_append, Nat.add_assoc]
    refine ⟨_, rfl, ⟨⟨⟨hst.flags.1.trans hR, hst.flags.2.trans hW⟩, hst.wf, .inr ?_, ?_, ?_, ?_,
      ?_⟩, ?_⟩, htr⟩
    · rw [htransfer]
      exact htr
    · intro n hn
      exact ((hcount n).2 (hst.count n hn).symm).symm
    · exact fun err herr => (hcount 0).2 (hst.error err herr)
    · intro hret
      rcases hst.waits hret with ⟨hw1, hw2, hw3, q', hsub, hw4⟩
      rw [← hopen, (hcount _).2 rfl]
      exact ⟨hw1, hw2, hw3, q', List.Subset.trans hsub hreaders, hw4⟩
    · exact fun hret => List.Subset.trans (hst.readers hret) hreaders
    · intro hret
      rw [← hopen, (hcount _).2 rfl]
      exact hst.returns hret

theorem loop_spec (he : e.Proper) (hwf : p.ring.Wf) (t : Nat) (nb : BitVec 64) (moved : Nat) :
    ∃ st, e.loop t nb 2 p moved = .ok st ∧ e.Stretched t nb moved p st ∧
      (st.moved ≠ [] → e.isOpen p = true ∧ (moved : Int) < nb.toInt) := by
  by_cases hmore : (moved : Int) < nb.toInt
  swap
  · have hdone : nb.toInt ≤ moved := by omega
    rcases loop_last (t := t) (k := 1) he hwf (.inl hdone) with ⟨st, heq, ⟨hnil, -⟩, hst⟩
    exact ⟨st, heq, hst, fun hne => absurd hnil hne⟩
  by_cases hgo : e.isOpen p = true ∧ e.blocked p.ring = false
  swap
  · have hlast : nb.toInt ≤ moved ∨ e.isOpen p = false ∨ e.blocked p.ring = true := by
      rw [not_and, Bool.not_eq_false] at hgo
      cases hopen : e.isOpen p with
      | false => exact .inr (.inl rfl)
      | true => exact .inr (.inr (hgo hopen))
    rcases loop_last (t := t) (k := 1) he hwf hlast with ⟨st, heq, ⟨hnil, -⟩, hst⟩
    exact ⟨st, heq, hst, fun hne => absurd hnil hne⟩
  rcases moveSome_spec (t := t) (k := 0) he hwf hmore with ⟨st, heq, hst, -⟩
  refine ⟨st, ?_, hst, fun _ => ⟨hgo.1, hmore⟩⟩
  rw [loop, if_pos hmore, hgo.1, hgo.2]
  exact heq

theorem resume_spec (he : e.Proper) (hwf : p.ring.Wf) (hmore : (moved : Int) < nb.toInt) :
    ∃ st, e.resume t nb p moved = .ok st ∧ e.Stretched t nb moved p st ∧
      e.transfer moved (nb.toNat - moved) p.ring = (st.moved, st.pipe.ring) :=
  moveSome_spec (k := 1) he hwf hmore

end PipeEnd

theorem readEnd_proper : readEnd.Proper where
  wf := fun _ n h => (h.read n).2.2.1
  le := by
    intro r _ n h
    change (ringbufRead n r).1.length ≤ n
    rw [(h.read n).1, List.length_take]
    exact Nat.min_le_left _ _
  stop := by
    intro r _ n h hlt
    change (ringbufRead n r).1.length < n at hlt
    rw [(h.read n).1, List.length_take] at hlt
    have hnil : (ringbufRead n r).2.contents = [] := by
      rw [(h.read n).2.1]
      exact List.drop_eq_nil_of_le (by omega)
    exact (Ringbuf.isEmpty_iff _).2 hnil
  isOpen := fun hR _ => hR
  wake := fun _ => ⟨rfl, rfl, rfl, List.Subset.refl _⟩
  enqueue := fun _ _ => ⟨rfl, rfl, rfl⟩

theorem slice_length (buf : Nat → Byte) (off n : Nat) : (slice buf off n).length = n := by
  simp [slice]

theorem writeEnd_proper (buf : Nat → Byte) : (writeEnd buf).Proper where
  wf := fun _ n h => (h.write _ n).2.2.1
  le := by
    intro r written n h
    change (slice buf written (ringbufWrite (fun i => buf (written + i)) n r).1).length ≤ n
    rw [slice_length, (h.write _ n).1]
    exact Nat.min_le_left _ _
  stop := by
    intro r written n h hlt
    change (slice buf written (ringbufWrite (fun i => buf (written + i)) n r).1).length < n at hlt
    rcases h.write (fun i => buf (written + i)) n with ⟨hk, hcontents, hwf, hsize⟩
    rw [slice_length, hk] at hlt
    have hlen := congrArg List.length hcontents
    rw [List.length_append, List.length_map, List.length_range, Ringbuf.contents_length,
      Ringbuf.contents_length, hk] at hlen
    have hle := h.count_le
    rw [BitVec.le_def] at hle
    have hfull : (ringbufWrite (fun i => buf (written + i)) n r).2.count =
        (ringbufWrite (fun i => buf (written + i)) n r).2.size := by
      apply BitVec.eq_of_toNat_eq
      rw [hsize]
      omega
    exact decide_eq_true hfull
  isOpen := fun _ hW => hW
  wake := fun p => ⟨rfl, rfl, rfl, List.tail_subset p.readers⟩
  enqueue := fun _ _ => ⟨rfl, rfl, rfl⟩

theorem pipeEnd_proper (kind : Kind) : kind.pipeEnd.Proper := by
  cases kind with
  | read => exact readEnd_proper
  | write buf => exact writeEnd_proper buf

/-! ## Histories -/

theorem entries_byte (call idx : Nat) (bs : List Byte) :
    (entries call idx bs).map Entry.byte = bs := by
  induction bs generalizing idx with
  | nil => rfl
  | cons b bs ih => rw [entries, List.map_cons, ih]

variable {bs : List Byte}

theorem mem_entries {call idx : Nat} {e : Entry} (h : e ∈ entries call idx bs) :
    e.call = call ∧ idx ≤ e.idx ∧ e.idx < idx + bs.length := by
  induction bs generalizing idx with
  | nil => cases h
  | cons b bs ih =>
    rw [entries, List.mem_cons] at h
    rw [List.length_cons]
    rcases h with rfl | h
    · exact ⟨rfl, le_rfl, Nat.lt_add_of_pos_right (Nat.succ_pos _)⟩
    · rcases ih h with ⟨hcall, hle, hlt⟩
      exact ⟨hcall, by omega, by omega⟩

theorem entries_ne_nil {call idx : Nat} (h : bs ≠ []) : entries call idx bs ≠ [] := by
  cases bs with
  | nil => exact absurd rfl h
  | cons b bs => exact List.cons_ne_nil _ _

namespace History

def moved (h : History) : List Entry := h.wrote ++ h.read

end History

open PipeWorld (record report)

theorem mem_record {h : History} {c : PipeCall} {e : Entry} :
    e ∈ (record h c bs).moved ↔ e ∈ h.moved ∨ e ∈ entries c.id c.moved bs := by
  cases hkind : c.kind with
  | read => simp only [record, hkind, History.moved, List.mem_append, or_assoc]
  | write buf =>
    simp only [record, hkind, History.moved, List.mem_append]
    tauto

theorem record_reports (h : History) (c : PipeCall) (bs : List Byte) :
    (record h c bs).reports = h.reports ∧ (record h c bs).calls = h.calls := by
  cases hkind : c.kind <;> simp [record, hkind]

structure Active (h : History) (c : PipeCall) : Prop where
  known : c.id < h.calls
  open_ : h.reports c.id = none
  bound : ∀ e ∈ h.moved, e.call = c.id → e.idx < c.moved
  some_ : 0 < c.moved → ∃ e ∈ h.moved, e.call = c.id

structure PipeInv (w : PipeWorld) : Prop where
  wf : w.pipe.ring.Wf
  conserved : w.history.wrote.map Entry.byte =
    w.history.read.map Entry.byte ++ w.pipe.ring.contents
  reported : ∀ e ∈ w.history.moved, w.history.reported e = true
  known : ∀ e ∈ w.history.moved, e.call < w.history.calls
  fresh : ∀ id, w.history.calls ≤ id → w.history.reports id = none
  strand : w.pipe.pipeW = false → w.pipe.readers = []
  active : ∀ t c, w.waiting t = some c → Active w.history c ∧ (c.moved : Int) < c.nb.toInt
  apart : ∀ t t' c c', w.waiting t = some c → w.waiting t' = some c' → c.id = c'.id → t = t'

theorem PipeInv.stream {w : PipeWorld} (h : PipeInv w) :
    w.history.accepted = w.history.returned ++ w.pipe.ring.contents := by
  have hall : ∀ l : List Entry, l ⊆ w.history.moved → l.filter w.history.reported = l :=
    fun l hl => List.filter_eq_self.2 fun e he => h.reported e (hl he)
  rw [History.accepted, History.returned, hall _ (List.subset_append_left _ _),
    hall _ (List.subset_append_right _ _), h.conserved]

theorem conserved_record {w : PipeWorld} {c : PipeCall} {st : Stretch} {p : Pipe} {t : Nat}
    (hp : p.ring = w.pipe.ring) (hwf : w.pipe.ring.Wf)
    (hconserved : w.history.wrote.map Entry.byte =
      w.history.read.map Entry.byte ++ w.pipe.ring.contents)
    (hst : c.kind.pipeEnd.Moves t c.nb c.moved p st) :
    (record w.history c st.moved).wrote.map Entry.byte =
      (record w.history c st.moved).read.map Entry.byte ++ st.pipe.ring.contents := by
  rcases hst.transfer with ⟨hnil, hsame⟩ | htransfer
  · have hnone : entries c.id c.moved st.moved = [] := by rw [hnil]; rfl
    rw [hsame, hp]
    cases hkind : c.kind <;> simp only [record, hkind, hnone, List.append_nil, hconserved]
  · rw [hp] at htransfer
    cases hkind : c.kind with
    | read =>
      rw [hkind] at htransfer
      have hread : ringbufRead (c.nb.toNat - c.moved) w.pipe.ring =
        (st.moved, st.pipe.ring) := htransfer
      rcases hwf.read (c.nb.toNat - c.moved) with ⟨htake, hdrop, -⟩
      rw [hread] at htake hdrop
      simp only at htake hdrop
      simp only [record, hkind, List.map_append, entries_byte]
      rw [hconserved, hdrop, htake, List.append_assoc, List.take_append_drop]
    | write buf =>
      rw [hkind] at htransfer
      rcases hwf.write (fun i => buf (c.moved + i)) (c.nb.toNat - c.moved) with ⟨-, happend, -⟩
      have hbs := (Prod.mk.inj htransfer).1
      have hring := (Prod.mk.inj htransfer).2
      have hcontents : st.pipe.ring.contents = w.pipe.ring.contents ++ st.moved := by
        rw [← hbs, ← hring]
        exact happend
      simp only [record, hkind, List.map_append, entries_byte]
      rw [hconserved, hcontents, List.append_assoc]

theorem PipeInv.settle {w : PipeWorld} {c : PipeCall} {st : Stretch} {p : Pipe} {t : Nat}
    (h : PipeInv w) (hc : Active w.history c)
    (hapart : ∀ t' c', w.waiting t' = some c' → c'.id = c.id → t' = t)
    (hflags : p.pipeR = w.pipe.pipeR ∧ p.pipeW = w.pipe.pipeW) (hring : p.ring = w.pipe.ring)
    (hreaders : p.readers ⊆ w.pipe.readers)
    (hst : c.kind.pipeEnd.Moves t c.nb c.moved p st)
    (hvain : w.pipe.pipeW = false → st.ret = none → ∃ buf, c.kind = .write buf) :
    PipeInv (w.settle t c st) := by
  rcases record_reports w.history c st.moved with ⟨hreports, hcalls⟩
  have hconserved := conserved_record hring h.wf h.conserved hst
  have hknown : ∀ e ∈ (record w.history c st.moved).moved, e.call < w.history.calls := by
    intro e he
    rcases mem_record.1 he with he | he
    · exact h.known e he
    · rw [(mem_entries he).1]
      exact hc.known
  -- the entries of the call are numbered up to what it has moved now
  have hbound : ∀ e ∈ (record w.history c st.moved).moved, e.call = c.id →
      e.idx < c.moved + st.moved.length := by
    intro e he hcall
    rcases mem_record.1 he with he | he
    · have hlt := hc.bound e he hcall
      omega
    · exact (mem_entries he).2.2
  have hother : ∀ e ∈ (record w.history c st.moved).moved, e.call ≠ c.id →
      w.history.reported e = true := by
    intro e he hne
    rcases mem_record.1 he with he | he
    · exact h.reported e he
    · exact absurd (mem_entries he).1 hne
  have hothers : ∀ t' c', t' ≠ t → w.waiting t' = some c' →
      c'.id ≠ c.id ∧ Active (record w.history c st.moved) c' ∧ (c'.moved : Int) < c'.nb.toInt := by
    intro t' c' hne hc'
    have hid : c'.id ≠ c.id := fun heq => hne (hapart t' c' hc' heq)
    rcases h.active t' c' hc' with ⟨hact, hlt⟩
    refine ⟨hid, ⟨hcalls ▸ hact.known, by rw [hreports]; exact hact.open_, ?_, ?_⟩, hlt⟩
    · intro e he hcall
      rcases mem_record.1 he with he | he
      · exact hact.bound e he hcall
      · exact absurd (hcall.symm.trans (mem_entries he).1) hid
    · intro hpos
      rcases hact.some_ hpos with ⟨e, he, hcall⟩
      exact ⟨e, mem_record.2 (.inl he), hcall⟩
  have hstrand : st.pipe.pipeW = false → st.pipe.readers = [] := by
    intro hW
    rw [hst.flags.2, hflags.2] at hW
    have hnil : p.readers = [] := List.subset_nil.1 (h.strand hW ▸ hreaders)
    cases hret : st.ret with
    | some r => exact List.subset_nil.1 (hnil ▸ hst.readers (by simp [hret]))
    | none =>
      rcases hvain hW hret with ⟨buf, hkind⟩
      rcases hst.waits hret with ⟨-, -, -, q, hsub, hq⟩
      rw [hkind] at hq
      rw [hq]
      exact List.subset_nil.1 (hnil ▸ hsub)
  cases hret : st.ret with
  | none =>
    simp only [PipeWorld.settle, hret]
    refine ⟨hst.wf, hconserved, ?_, by rwa [hcalls], by rw [hcalls, hreports]; exact h.fresh,
      hstrand, ?_, ?_⟩
    · intro e he
      by_cases hcall : e.call = c.id
      · simp only [History.reported, hreports, hcall, hc.open_]
      · have hrep := hother e he hcall
        simpa only [History.reported, hreports] using hrep
    · intro t' c' hc'
      dsimp only at hc' ⊢
      by_cases ht : t' = t
      · subst ht
        rw [update_self, Option.some.injEq] at hc'
        subst hc'
        refine ⟨⟨hcalls ▸ hc.known, by rw [hreports]; exact hc.open_, hbound, ?_⟩,
          (hst.waits hret).2.2.1⟩
        intro hpos
        by_cases hzero : 0 < c.moved
        · rcases hc.some_ hzero with ⟨e, he, hcall⟩
          exact ⟨e, mem_record.2 (.inl he), hcall⟩
        · have hne : st.moved ≠ [] := by
            intro hnil
            simp only [hnil, List.length_nil] at hpos
            omega
          rcases List.exists_mem_of_ne_nil _ (entries_ne_nil hne) with ⟨e, he⟩
          exact ⟨e, mem_record.2 (.inr he), (mem_entries he).1⟩
      · rw [update_of_ne ht] at hc'
        exact (hothers t' c' ht hc').2
    · intro t1 t2 c1 c2 h₁ h₂ hid
      dsimp only at h₁ h₂
      by_cases ht1 : t1 = t <;> by_cases ht2 : t2 = t
      · rw [ht1, ht2]
      · subst ht1
        rw [update_self, Option.some.injEq] at h₁
        rw [update_of_ne ht2] at h₂
        subst h₁
        exact absurd hid.symm (hothers t2 c2 ht2 h₂).1
      · subst ht2
        rw [update_self, Option.some.injEq] at h₂
        rw [update_of_ne ht1] at h₁
        subst h₂
        exact absurd hid (hothers t1 c1 ht1 h₁).1
      · rw [update_of_ne ht1] at h₁
        rw [update_of_ne ht2] at h₂
        exact h.apart t1 t2 c1 c2 h₁ h₂ hid
  | some r =>
    simp only [PipeWorld.settle, hret]
    refine ⟨hst.wf, hconserved, ?_, fun e he => ?_, ?_, hstrand, ?_, ?_⟩
    · intro e he
      by_cases hcall : e.call = c.id
      · have hlt := hbound e he hcall
        simp only [History.reported, report, hcall, update_self]
        cases r with
        | ok n =>
          have hn := hst.count n hret
          simp only [decide_eq_true_eq]
          omega
        | error err =>
          have hzero := hst.error err hret
          omega
      · have hrep := hother e he hcall
        simp only [History.reported, report, update_of_ne hcall, hreports]
        exact hrep
    · rw [report, hcalls]
      exact hknown e he
    · intro id hid
      have hne : id ≠ c.id := by
        have hlt := hc.known
        rw [report, hcalls] at hid
        omega
      rw [report, hcalls] at hid
      simp only [report, update_of_ne hne, hreports]
      exact h.fresh id hid
    · intro t' c' hc'
      dsimp only at hc' ⊢
      by_cases ht : t' = t
      · rw [ht, update_self] at hc'
        cases hc'
      · rw [update_of_ne ht] at hc'
        rcases hothers t' c' ht hc' with ⟨hid, hact, hlt⟩
        refine ⟨⟨hact.known, ?_, hact.bound, hact.some_⟩, hlt⟩
        simp only [report, update_of_ne hid]
        exact hact.open_
    · intro t1 t2 c1 c2 h₁ h₂ hid
      dsimp only at h₁ h₂
      have ht1 : t1 ≠ t := by
        rintro rfl
        rw [update_self] at h₁
        cases h₁
      have ht2 : t2 ≠ t := by
        rintro rfl
        rw [update_self] at h₂
        cases h₂
      rw [update_of_ne ht1] at h₁
      rw [update_of_ne ht2] at h₂
      exact h.apart t1 t2 c1 c2 h₁ h₂ hid

/-- The law of a step from `w` to `w'`: what writes report as accepted is what reads report as
returned, and behind it what is in the buffer; no call reports fewer bytes than it has moved; no
reader waits that has not been woken while the buffer is empty and the write end closed; and once
the read end is closed nothing more goes into the buffer. -/
structure PipeLaw (w : PipeWorld) (_ : PipeAct) (w' : PipeWorld) : Prop where
  stream : w'.history.accepted = w'.history.returned ++ w'.pipe.ring.contents
  reported : ∀ e ∈ w'.history.moved, w'.history.reported e = true
  waits : ∀ t ∈ w'.pipe.readers, w'.pipe.pipeW = false → w'.pipe.ring.contents ≠ []
  closed : w.pipe.pipeR = false → w'.history.wrote = w.history.wrote

/-- A read of `nb` bytes of which `moved` have been moved finds the write end closed and less in the
buffer than it asks for, and nothing else ends it. -/
def vain (p : Pipe) (moved : Nat) (nb : BitVec 64) : Bool :=
  p.pipeR && !p.pipeW && decide (moved + p.ring.count.toNat < nb.toNat)

def fills (p : Pipe) : Bool := !p.pipeR && !p.ring.isFull

/-- The steps that keep the law: no read asks for more than the bytes left behind a closed write
end, no write finds the read end closed and room in the buffer, and no wait fails after its call has
moved bytes. -/
def pipeOk (w : PipeWorld) : PipeAct → Bool
  | .start t .read nb =>
    (w.waiting t).isSome || !(decide (0 < nb.toInt) && vain w.pipe 0 nb)
  | .start t (.write _) nb =>
    (w.waiting t).isSome || !(decide (0 < nb.toInt) && w.pipe.pipeW && fills w.pipe)
  | .resume t (some _) =>
    match w.waiting t with
    | none => true
    | some c => c.moved = 0
  | .resume t none =>
    match w.waiting t with
    | none => true
    | some c =>
      match c.kind with
      | .read => !vain w.pipe c.moved c.nb
      | .write _ => !fills w.pipe
  | .close _ => true

theorem PipeInv.law {w w' : PipeWorld} {a : PipeAct} (h : PipeInv w')
    (hclosed : w.pipe.pipeR = false → w'.history.wrote = w.history.wrote) : PipeLaw w a w' where
  stream := h.stream
  reported := h.reported
  waits := by
    intro t ht hW
    rw [h.strand hW] at ht
    cases ht
  closed := hclosed

section Stretches

variable {w w₀ : PipeWorld} {a : PipeAct} {c : PipeCall} {st : Stretch} {p : Pipe} {t : Nat}

theorem PipeInv.settle_law (h : PipeInv w) (hc : Active w.history c)
    (hapart : ∀ t' c', w.waiting t' = some c' → c'.id = c.id → t' = t)
    (hflags : p.pipeR = w.pipe.pipeR ∧ p.pipeW = w.pipe.pipeW) (hring : p.ring = w.pipe.ring)
    (hreaders : p.readers ⊆ w.pipe.readers)
    (hst : c.kind.pipeEnd.Moves t c.nb c.moved p st)
    (hsame : w.history.wrote = w₀.history.wrote ∧ w.pipe.pipeR = w₀.pipe.pipeR)
    (hvain : c.kind = .read → w.pipe.pipeW = false → st.ret ≠ none)
    (hfill : ∀ buf, c.kind = .write buf → w.pipe.pipeR = false → st.moved = []) :
    PipeLaw w₀ a (w.settle t c st) ∧ PipeInv (w.settle t c st) := by
  have hinv : PipeInv (w.settle t c st) := by
    refine h.settle hc hapart hflags hring hreaders hst fun hW hret => ?_
    cases hkind : c.kind with
    | read => exact absurd hret (hvain hkind hW)
    | write buf => exact ⟨buf, rfl⟩
  refine ⟨hinv.law fun hR => ?_, hinv⟩
  have hwrote : (record w.history c st.moved).wrote = w.history.wrote := by
    cases hkind : c.kind with
    | read => simp only [record, hkind]
    | write buf =>
      rw [← hsame.2] at hR
      simp only [record, hkind, hfill buf hkind hR, entries, List.append_nil]
  rw [← hsame.1, ← hwrote]
  cases hret : st.ret <;> simp only [PipeWorld.settle, hret, report]

theorem not_law_of_vain (hkind : c.kind = .read) (hflags : p.pipeW = w.pipe.pipeW)
    (hst : c.kind.pipeEnd.Moves t c.nb c.moved p st) (hW : w.pipe.pipeW = false)
    (hret : st.ret = none) : ¬ PipeLaw w₀ a (w.settle t c st) := by
  intro hlaw
  rcases hst.waits hret with ⟨-, hblocked, -, q, -, hq⟩
  rw [hkind] at hblocked hq
  have hmem : t ∈ st.pipe.readers := by
    rw [hq]
    exact List.mem_append_right _ (List.mem_singleton.2 rfl)
  have hpipe : (w.settle t c st).pipe = st.pipe := by simp only [PipeWorld.settle, hret]
  have hwaits := hlaw.waits t (hpipe ▸ hmem) (by rw [hpipe, hst.flags.2, hflags, hW])
  rw [hpipe] at hwaits
  exact hwaits ((Ringbuf.isEmpty_iff _).1 hblocked)

variable {buf : Nat → Byte}

theorem not_law_of_fills (hkind : c.kind = .write buf)
    (hsame : w.history.wrote = w₀.history.wrote ∧ w.pipe.pipeR = w₀.pipe.pipeR)
    (hR : w.pipe.pipeR = false) (hne : st.moved ≠ []) : ¬ PipeLaw w₀ a (w.settle t c st) := by
  intro hlaw
  have hwrote := hlaw.closed (hsame.2 ▸ hR)
  have hsettle : (w.settle t c st).history.wrote =
      w.history.wrote ++ entries c.id c.moved st.moved := by
    cases hret : st.ret <;> simp only [PipeWorld.settle, hret, report, record, hkind]
  rw [hsettle, ← hsame.1] at hwrote
  exact entries_ne_nil hne (List.append_right_eq_self.1 hwrote)

theorem read_waits_iff {nb : BitVec 64} {moved : Nat} (hwf : p.ring.Wf)
    (hst : readEnd.Stretched t nb moved p st) (hmore : (moved : Int) < nb.toInt) :
    st.ret = none ↔ p.pipeR = true ∧ moved + p.ring.count.toNat < nb.toNat := by
  have hnb : (nb.toNat : Int) = nb.toInt := by
    have htoInt := BitVec.toInt_eq_toNat_cond nb
    split_ifs at htoInt <;> omega
  have hcontents : p.ring.contents = st.moved ++ st.pipe.ring.contents := by
    rcases hst.transfer with ⟨hnil, hsame⟩ | htransfer
    · rw [hnil, hsame]
      rfl
    · rcases hwf.read (nb.toNat - moved) with ⟨htake, hdrop, -⟩
      have hread : ringbufRead (nb.toNat - moved) p.ring = (st.moved, st.pipe.ring) := htransfer
      rw [hread] at htake hdrop
      rw [show st.moved = _ from htake, show st.pipe.ring.contents = _ from hdrop,
        List.take_append_drop]
  have hlen := congrArg List.length hcontents
  rw [List.length_append, Ringbuf.contents_length] at hlen
  constructor
  · intro hret
    rcases hst.waits hret with ⟨hopen, hblocked, hlt, -⟩
    rw [(Ringbuf.isEmpty_iff _).1 hblocked, List.length_nil] at hlen
    exact ⟨hopen, by omega⟩
  · rintro ⟨hopen, hlt⟩
    by_contra hret
    rcases hst.returns hret with hclosed | hdone
    · exact absurd (hopen.symm.trans hclosed) (by simp)
    · omega

theorem put_ne_nil_iff {r r' : Ringbuf} {moved n : Nat} {bs : List Byte}
    (hwf : r.Wf) (hn : 0 < n) (h : (writeEnd buf).transfer moved n r = (bs, r')) :
    bs ≠ [] ↔ r.isFull = false := by
  have hbs : slice buf moved (ringbufWrite (fun i => buf (moved + i)) n r).1 = bs :=
    (Prod.mk.inj h).1
  have hcount := (hwf.write (fun i => buf (moved + i)) n).1
  have hle := hwf.count_le
  rw [← List.length_pos_iff, ← hbs, slice_length, hcount, Ringbuf.isFull, decide_eq_false_iff_not]
  bv_omega

theorem write_moves_iff {nb : BitVec 64} (hwf : p.ring.Wf)
    (hst : (writeEnd buf).Stretched t nb 0 p st)
    (hgo : st.moved ≠ [] → (writeEnd buf).isOpen p = true ∧ ((0 : Nat) : Int) < nb.toInt) :
    st.moved ≠ [] ↔ 0 < nb.toInt ∧ p.pipeW = true ∧ p.ring.isFull = false := by
  constructor
  · intro hne
    rcases hgo hne with ⟨hopen, hmore⟩
    rcases hst.transfer with ⟨hnil, -⟩ | htransfer
    · exact absurd hnil hne
    · have hpos : 0 < nb.toNat - 0 := by
        have htoInt := BitVec.toInt_eq_toNat_cond nb
        split_ifs at htoInt <;> omega
      exact ⟨hmore, hopen, (put_ne_nil_iff hwf hpos htransfer).1 hne⟩
  · rintro ⟨hmore, hopen, hroom⟩ hnil
    cases hret : st.ret with
    | some r =>
      rcases hst.returns (by simp [hret]) with hclosed | hdone
      · exact absurd (hopen.symm.trans hclosed) (by simp)
      · rw [hnil, List.length_nil] at hdone
        omega
    | none =>
      rcases hst.waits hret with ⟨-, hblocked, -⟩
      rcases hst.transfer with ⟨-, hsame⟩ | htransfer
      · rw [hsame] at hblocked
        exact absurd (hroom.symm.trans hblocked) (by simp)
      · have hpos : 0 < nb.toNat - 0 := by
          have htoInt := BitVec.toInt_eq_toNat_cond nb
          split_ifs at htoInt <;> omega
        exact (put_ne_nil_iff hwf hpos htransfer).2 hroom hnil

theorem PipeInv.count (h : PipeInv w) : PipeInv w.count where
  wf := h.wf
  conserved := h.conserved
  reported := h.reported
  known := fun e he => Nat.lt_succ_of_lt (h.known e he)
  fresh := fun id hid => h.fresh id (Nat.le_of_succ_le hid)
  strand := h.strand
  active := by
    intro t c hc
    rcases h.active t c hc with ⟨hact, hlt⟩
    exact ⟨⟨Nat.lt_succ_of_lt hact.known, hact.open_, hact.bound, hact.some_⟩, hlt⟩
  apart := h.apart

theorem PipeInv.active_new (h : PipeInv w) (kind : Kind) (nb : BitVec 64) :
    Active w.count.history ⟨w.history.calls, kind, nb, 0⟩ ∧
      ∀ t' c', w.count.waiting t' = some c' → c'.id ≠ w.history.calls := by
  refine ⟨⟨Nat.lt_succ_self _, h.fresh _ le_rfl, ?_, fun hpos => absurd hpos (lt_irrefl _)⟩, ?_⟩
  · exact fun e he hcall => absurd hcall (h.known e he).ne
  · exact fun t' c' hc' => ((h.active t' c' hc').1.known).ne

theorem PipeInv.start (h : PipeInv w) (kind : Kind) (nb : BitVec 64)
    (hidle : w.waiting t = none) :
    ∃ w', w.start t kind nb = .ok w' ∧
      (pipeOk w (.start t kind nb) = true → PipeLaw w (.start t kind nb) w' ∧ PipeInv w') ∧
      (pipeOk w (.start t kind nb) = false → ¬ PipeLaw w (.start t kind nb) w') := by
  rcases PipeEnd.loop_spec (pipeEnd_proper kind) h.wf t nb 0 with ⟨st, heq, hst, hgo⟩
  rcases h.active_new kind nb with ⟨hact, hnew⟩
  refine ⟨w.count.settle t ⟨w.history.calls, kind, nb, 0⟩ st, ?_, ?_, ?_⟩
  · rw [PipeWorld.start, heq]
    rfl
  · intro hok
    refine h.count.settle_law hact (fun t' c' hc' hid => absurd hid (hnew t' c' hc')) ⟨rfl, rfl⟩ rfl
      (List.Subset.refl _) hst.toMoves ⟨rfl, rfl⟩ ?_ ?_
    · rintro rfl hW hret
      have hmore := (hst.waits hret).2.2.1
      have hpos : 0 < nb.toInt := by omega
      have hwaits := (read_waits_iff h.wf hst (by simpa using hpos)).1 hret
      have hW' : w.pipe.pipeW = false := hW
      simp [pipeOk, vain, hidle, hpos, hwaits.1, hW'] at hok
      omega
    · rintro buf rfl hR
      by_contra hne
      rcases (write_moves_iff h.wf hst hgo).1 hne with ⟨hpos, hopen, hroom⟩
      have hR' : w.pipe.pipeR = false := hR
      simp [pipeOk, fills, hidle, hpos, hopen, hroom, hR'] at hok
  · intro hok
    cases kind with
    | read =>
      simp only [pipeOk, vain, hidle, Option.isSome_none, Bool.false_or, Bool.not_eq_false',
        Bool.and_eq_true, decide_eq_true_eq, Bool.not_eq_true'] at hok
      rcases hok with ⟨hpos, ⟨hR, hW⟩, hlt⟩
      have hret := (read_waits_iff h.wf hst (by simpa using hpos)).2 ⟨hR, hlt⟩
      exact not_law_of_vain rfl rfl hst.toMoves hW hret
    | write buf =>
      simp only [pipeOk, fills, hidle, Option.isSome_none, Bool.false_or, Bool.not_eq_false',
        Bool.and_eq_true, decide_eq_true_eq, Bool.not_eq_true'] at hok
      rcases hok with ⟨⟨hpos, hW⟩, hR, hroom⟩
      have hne := (write_moves_iff h.wf hst hgo).2 ⟨hpos, hW, hroom⟩
      exact not_law_of_fills rfl ⟨rfl, rfl⟩ hR hne

theorem PipeInv.resume (h : PipeInv w) (hc : w.waiting t = some c) (err : Option Errno) :
    ∃ w', w.resume t c err = .ok w' ∧
      (pipeOk w (.resume t err) = true → PipeLaw w (.resume t err) w' ∧ PipeInv w') ∧
      (pipeOk w (.resume t err) = false → ¬ PipeLaw w (.resume t err) w') := by
  rcases h.active t c hc with ⟨hact, hmore⟩
  have hapart : ∀ t' c', w.waiting t' = some c' → c'.id = c.id → t' = t :=
    fun t' c' hc' hid => h.apart t' t c' c hc' hc hid
  have hreaders : (w.pipe.leave t).readers ⊆ w.pipe.readers := List.erase_subset
  cases err with
  | some e =>
    refine ⟨_, rfl, fun hok => ?_, fun hok hlaw => ?_⟩
    · have hzero : c.moved = 0 := by simpa [pipeOk, hc] using hok
      refine h.settle_law (p := w.pipe.leave t) hact hapart ⟨rfl, rfl⟩ rfl hreaders ?_ ⟨rfl, rfl⟩
        (fun _ _ => by simp) (fun _ _ _ => rfl)
      refine ⟨⟨rfl, rfl⟩, h.wf, .inl ⟨rfl, rfl⟩, by simp, fun _ _ => by simp [hzero],
        fun hno => absurd hno (by simp), fun _ => List.Subset.refl _⟩
    · -- the bytes that were moved before the wait are not reported
      have hpos : c.moved ≠ 0 := by simpa [pipeOk, hc] using hok
      rcases hact.some_ (by omega) with ⟨e', he', hcall⟩
      have hrep := hlaw.reported e' (mem_record.2 (.inl he'))
      simp only [PipeWorld.settle, History.reported, report, hcall, update_self] at hrep
      exact absurd hrep (by simp)
  | none =>
    have hwf : (w.pipe.leave t).ring.Wf := h.wf
    rcases PipeEnd.resume_spec (t := t) (pipeEnd_proper c.kind) hwf hmore with
      ⟨st, heq, hst, htransfer⟩
    have hpos : 0 < c.nb.toNat - c.moved := by
      have htoInt := BitVec.toInt_eq_toNat_cond c.nb
      split_ifs at htoInt <;> omega
    refine ⟨w.settle t c st, ?_, ?_, ?_⟩
    · rw [PipeWorld.resume, heq]
      rfl
    · intro hok
      refine h.settle_law (p := w.pipe.leave t) hact hapart ⟨rfl, rfl⟩ rfl hreaders hst.toMoves
        ⟨rfl, rfl⟩ ?_ ?_
      · intro hkind hW hret
        rw [hkind] at hst
        have hwaits := (read_waits_iff hwf hst hmore).1 hret
        have hR : w.pipe.pipeR = true := hwaits.1
        have hlt : c.moved + w.pipe.ring.count.toNat < c.nb.toNat := hwaits.2
        simp [pipeOk, vain, hc, hkind, hR, hW] at hok
        omega
      · intro buf hkind hR
        rw [hkind] at htransfer
        by_contra hne
        have hroom : w.pipe.ring.isFull = false := (put_ne_nil_iff hwf hpos htransfer).1 hne
        simp [pipeOk, fills, hc, hkind, hR, hroom] at hok
    · intro hok
      cases hkind : c.kind with
      | read =>
        simp only [pipeOk, vain, hc, hkind, Bool.not_eq_false', Bool.and_eq_true,
          decide_eq_true_eq, Bool.not_eq_true'] at hok
        rcases hok with ⟨⟨hR, hW⟩, hlt⟩
        have hret : st.ret = none := by
          rw [hkind] at hst
          exact (read_waits_iff hwf hst hmore).2 ⟨hR, hlt⟩
        exact not_law_of_vain (p := w.pipe.leave t) hkind rfl hst.toMoves hW hret
      | write buf =>
        simp only [pipeOk, fills, hc, hkind, Bool.not_eq_false', Bool.and_eq_true,
          Bool.not_eq_true'] at hok
        rw [hkind] at htransfer
        have hne := (put_ne_nil_iff hwf hpos htransfer).2 hok.2
        exact not_law_of_fills hkind ⟨rfl, rfl⟩ hok.1 hne

end Stretches

theorem PipeInv.init (buf : Nat → Byte) : PipeInv (.init buf) where
  wf := .init (by decide) buf
  conserved := rfl
  reported := fun _ he => absurd he (by simp [PipeWorld.init, History.moved])
  known := fun _ he => absurd he (by simp [PipeWorld.init, History.moved])
  fresh := fun _ _ => rfl
  strand := fun _ => rfl
  active := fun _ _ hc => absurd hc (by simp [PipeWorld.init])
  apart := fun _ _ _ _ hc => absurd hc (by simp [PipeWorld.init])

theorem PipeInv.close {w : PipeWorld} (h : PipeInv w) (writeEnd : Bool) :
    PipeInv { w with pipe := pipefsIclose w.pipe writeEnd } := by
  have hring : (pipefsIclose w.pipe writeEnd).ring = w.pipe.ring := by cases writeEnd <;> rfl
  refine ⟨hring ▸ h.wf, ?_, h.reported, h.known, h.fresh, fun _ => ?_, h.active, h.apart⟩
  · rw [h.conserved, hring]
  · cases writeEnd <;> rfl

theorem PipeInv.step {w : PipeWorld} (h : PipeInv w) (a : PipeAct) :
    ∃ w', pipeStep w a = .ok w' ∧ (pipeOk w a = true → PipeLaw w a w' ∧ PipeInv w') ∧
      (pipeOk w a = false → ¬ PipeLaw w a w') := by
  have hstay : PipeLaw w a w ∧ PipeInv w := ⟨h.law fun _ => rfl, h⟩
  cases a with
  | start t kind nb =>
    cases hc : w.waiting t with
    | some c =>
      refine ⟨w, by rw [pipeStep, hc]; rfl, fun _ => hstay, fun hok => ?_⟩
      cases kind <;> simp [pipeOk, hc] at hok
    | none =>
      rcases h.start kind nb hc with ⟨w', heq, hgood, hbad⟩
      exact ⟨w', by rw [pipeStep, hc]; exact heq, hgood, hbad⟩
  | resume t err =>
    cases hc : w.waiting t with
    | none =>
      refine ⟨w, by rw [pipeStep, hc]; rfl, fun _ => hstay, fun hok => ?_⟩
      cases err <;> simp [pipeOk, hc] at hok
    | some c =>
      rcases h.resume hc err with ⟨w', heq, hgood, hbad⟩
      exact ⟨w', by rw [pipeStep, hc]; exact heq, hgood, hbad⟩
  | close writeEnd =>
    refine ⟨_, rfl, fun _ => ⟨(h.close writeEnd).law fun _ => rfl, h.close writeEnd⟩, ?_⟩
    exact fun hok => absurd hok (by simp [pipeOk])

/-- For every interleaving of reads, writes, closing and interrupted waits: the stream law holds in
every state of the run exactly when no read asks for more than a closed write end has left, no write
finds the read end closed and room in the buffer, and no wait fails after its call has moved
bytes. -/
theorem pipe_stream_law_iff (buf : Nat → Byte) (acts : List PipeAct) :
    Stepwise (fun _ => False) pipeStep PipeLaw (.init buf) acts ↔
      guarded pipeStep pipeOk (.init buf) acts = true := by
  refine stepwise_iff_guarded ?_ ?_ (PipeInv.init buf)
  · intro w a h hok
    rcases h.step a with ⟨w', heq, hgood, -⟩
    rw [heq]
    exact hgood hok
  · intro w a h hok hsafe
    rcases h.step a with ⟨w', heq, -, hbad⟩
    rw [heq] at hsafe
    exact hbad hok hsafe

/-- Three short runs.  A reader waits for a write end that has been closed.  A write adds three bytes
after the read end has been closed.  A read takes two bytes of four, waits for the rest, is
interrupted and reports an error, and the two bytes are neither reported nor in the buffer. -/
theorem pipe_stream_law_broken :
    (∃ w, runs pipeStep (.init fun _ => 0) [.close true, .start 1 .read 4] = .ok w ∧
      (w.pipe.readers, w.pipe.pipeW, w.pipe.ring.contents) = ([1], false, [])) ∧
    (∃ w, runs pipeStep (.init fun _ => 0) [.close false, .start 1 (.write fun _ => 7) 3] = .ok w ∧
      (w.pipe.pipeR, w.history.accepted) = (false, [7, 7, 7])) ∧
    ∃ w, runs pipeStep (.init fun _ => 0) [.start 1 .read 4, .start 2 (.write fun _ => 7) 2,
        .resume 1 none, .resume 1 (some .EINTR)] = .ok w ∧
      (w.history.accepted, w.history.returned, w.pipe.ring.contents) = ([7, 7], [], []) := by
  refine ⟨ok_of_toOption ?_, ok_of_toOption ?_, ok_of_toOption ?_⟩ <;> decide +kernel

end Fs
end XytherOS
