import XytherOS.Dev.XTty

/-!
# XTtyWrite — the output side of `dev/chr/term/ldisc/x_tty.c`

`x_tty_write` puts each byte, with what the settings make of it, into the output buffer `out`, and
hands the buffer to the driver when it is full and at the end.

* As in `Dev/XTty`, `tp`, its line data and the buffer of the writer exist.  The settings play a
  part only through `c_oflag`.
* The counters are numbers: what a writer passes is smaller than the address space.
-/

namespace XytherOS
namespace XTty

open Function

open Fs (Byte)

def OPOST : BitVec 32 := 0o1

def OLCUC : BitVec 32 := 0o2

def ONLCR : BitVec 32 := 0o4

def OCRNL : BitVec 32 := 0o10

def oflag (cOflag flag : BitVec 32) : Bool := cOflag &&& flag != 0

def isLower (c : Byte) : Bool := 0x61 ≤ c.toInt && c.toInt ≤ 0x7a

structure Outbuf where
  out : Nat → Byte
  outpos : Nat
  outlen : Nat
  flushOutput : Bool

def Outbuf.init : Outbuf := { out := fun _ => 0, outpos := 0, outlen := 0, flushOutput := false }

/-- A call of `x_tty_write` under way: the output buffer, and what `t_ops.write` was given. -/
structure Writing where
  ld : Outbuf
  chunks : List (List Byte)

def Outbuf.pending (ld : Outbuf) : List Byte := (List.range ld.outlen).map ld.out

/-- `tp->t_ops.write(tp, ld->out, ld->outlen)`, and the assignments behind it. -/
def Writing.flush (w : Writing) : Writing where
  ld := { w.ld with outpos := 0, outlen := 0, flushOutput := false }
  chunks := w.chunks ++ [w.ld.pending]

/-- `ld->out[ld->outpos++] = c`, and the assignments behind it. -/
def Outbuf.put (ld : Outbuf) (c : Byte) : Outbuf where
  out := update ld.out ld.outpos c
  outpos := ld.outpos + 1
  outlen := ld.outlen + 1
  flushOutput := true

def xTtyProcessOutput (w : Writing) (c : Byte) : Writing :=
  if c = 0 then w
  else
    let w := if (w.ld.outpos : Int) < XTTYFBMAX then { w with ld := w.ld.put c } else w
    if (w.ld.outpos : Int) = XTTYFBMAX then w.flush else w

def xTtyWriteByte (cOflag : BitVec 32) (w : Writing) (c : Byte) : Writing :=
  if oflag cOflag OPOST then
    let w := if c == NL && oflag cOflag ONLCR then xTtyProcessOutput w CR else w
    let c := if c == CR && oflag cOflag OCRNL then NL else c
    let c := if oflag cOflag OLCUC && isLower c then c - 0x20 else c
    xTtyProcessOutput w c
  else xTtyProcessOutput w c

/-- The loop, with `count - i` bytes to go; `written` grows with `i`. -/
def xTtyWriteLoop (cOflag : BitVec 32) (buf : Nat → Byte) : Nat → Nat → Writing → Nat × Writing
  | 0, i, w => (i, w)
  | n + 1, i, w =>
    if buf i = 0 then (i, w)
    else xTtyWriteLoop cOflag buf n (i + 1) (xTtyWriteByte cOflag w (buf i))

/-- `x_tty_write`: the return value, what `t_ops.write` was given, and the output buffer. -/
def xTtyWrite (cOflag : BitVec 32) (ld : Outbuf) (buf : Nat → Byte) (count : Nat) :
    Nat × List (List Byte) × Outbuf :=
  let (written, w) := xTtyWriteLoop cOflag buf count 0 { ld := ld, chunks := [] }
  let w := if w.ld.flushOutput then w.flush else w
  (written, w.chunks, w.ld)

/-! ## What the settings make of a text -/

def expandByte (cOflag : BitVec 32) (c : Byte) : List Byte :=
  if !oflag cOflag OPOST then [c]
  else if c = NL then
    if oflag cOflag ONLCR then [CR, NL] else [NL]
  else if c = CR then
    if oflag cOflag OCRNL then [NL] else [CR]
  else if oflag cOflag OLCUC && isLower c then [c - 0x20]
  else [c]

def expand (cOflag : BitVec 32) (text : List Byte) : List Byte := text.flatMap (expandByte cOflag)

/-! ## The output buffer -/

structure Outbuf.Wf (ld : Outbuf) : Prop where
  pos : ld.outpos = ld.outlen
  room : (ld.outlen : Int) < XTTYFBMAX
  flush : ld.outlen ≠ 0 → ld.flushOutput = true

structure Outbuf.Empty (ld : Outbuf) : Prop where
  pos : ld.outpos = 0
  len : ld.outlen = 0
  flush : ld.flushOutput = false

theorem Outbuf.empty_init : Outbuf.init.Empty := ⟨rfl, rfl, rfl⟩

theorem Outbuf.Empty.wf {ld : Outbuf} (h : ld.Empty) : ld.Wf where
  pos := h.pos.trans h.len.symm
  room := by
    rw [h.len]
    decide
  flush hne := absurd h.len hne

structure Writing.Wf (w : Writing) : Prop where
  ld : w.ld.Wf
  chunks : ∀ chunk ∈ w.chunks, (chunk.length : Int) ≤ XTTYFBMAX

def Writing.text (w : Writing) : List Byte := w.chunks.flatten ++ w.ld.pending

@[simp] theorem Outbuf.length_pending (ld : Outbuf) : ld.pending.length = ld.outlen := by
  simp [pending]

theorem Outbuf.pending_put {ld : Outbuf} (h : ld.outpos = ld.outlen) (c : Byte) :
    (ld.put c).pending = ld.pending ++ [c] := by
  have hkept : (List.range ld.outlen).map (update ld.out ld.outpos c) =
      (List.range ld.outlen).map ld.out := by
    refine List.map_congr_left fun i hi => update_of_ne ?_ _ _
    rw [h]
    exact (List.mem_range.1 hi).ne
  simp only [pending, put, List.range_succ, List.map_append, hkept]
  simp [h]

theorem Writing.text_flush (w : Writing) : w.flush.text = w.text := by
  simp [text, flush, Outbuf.pending]

theorem xTtyProcessOutput_spec {w : Writing} (h : w.Wf) {c : Byte} (hc : c ≠ 0) :
    (xTtyProcessOutput w c).Wf ∧ (xTtyProcessOutput w c).text = w.text ++ [c] := by
  have hput : (w.ld.outpos : Int) < XTTYFBMAX := by
    rw [h.ld.pos]
    exact h.ld.room
  have htext : ({ w with ld := w.ld.put c } : Writing).text = w.text ++ [c] := by
    simp only [Writing.text, Outbuf.pending_put h.ld.pos, List.append_assoc]
  rw [xTtyProcessOutput, if_neg hc]
  simp only [if_pos hput]
  by_cases hfull : ((w.ld.put c).outpos : Int) = XTTYFBMAX
  · rw [if_pos hfull, Writing.text_flush]
    have hempty : (0 : Int) < XTTYFBMAX := by decide
    refine ⟨⟨⟨rfl, hempty, fun hne => absurd rfl hne⟩, ?_⟩, htext⟩
    intro chunk hchunk
    rcases List.mem_append.1 hchunk with hchunk | hchunk
    · exact h.chunks chunk hchunk
    · -- the chunk is the whole buffer
      rw [List.mem_singleton.1 hchunk, Outbuf.length_pending]
      have hlen : (w.ld.put c).outlen = (w.ld.put c).outpos := by simp [Outbuf.put, h.ld.pos]
      rw [hlen, hfull]
  · rw [if_neg hfull]
    refine ⟨⟨⟨?_, ?_, fun _ => rfl⟩, h.chunks⟩, htext⟩
    · simp [Outbuf.put, h.ld.pos]
    · have hpos := h.ld.pos
      simp only [Outbuf.put] at hfull ⊢
      omega

theorem ne_zero_of_isLower {c : Byte} (h : isLower c = true) : c - 0x20 ≠ 0 := by
  intro hzero
  have hc : c = 0x20 := by
    rw [← BitVec.sub_add_cancel c 0x20, hzero]
    rfl
  rw [hc] at h
  exact absurd h (by decide)

theorem body_expands (process : Writing → Byte → Writing) (w : Writing) (c : Byte)
    (post onlcr ocrnl olcuc : Bool) :
    (if post then
      let w := if c == NL && onlcr then process w CR else w
      let c := if c == CR && ocrnl then NL else c
      let c := if olcuc && isLower c then c - 0x20 else c
      process w c
    else process w c) =
      (if !post then [c]
      else if c = NL then if onlcr then [CR, NL] else [NL]
      else if c = CR then if ocrnl then [NL] else [CR]
      else if olcuc && isLower c then [c - 0x20]
      else [c]).foldl process w := by
  have hcr : CR ≠ NL := by decide
  have hlownl : isLower NL = false := by decide
  have hlowcr : isLower CR = false := by decide
  cases post with
  | false => simp
  | true =>
    by_cases hnl : c = NL
    · -- a newline stays one, behind its carriage return
      subst hnl
      cases onlcr <;> simp [hlownl, hcr.symm]
    · by_cases hc : c = CR
      · subst hc
        cases ocrnl with
        | false => simp [hlowcr, hcr]
        | true => simp [hlownl, hcr]
      · by_cases hup : olcuc = true ∧ isLower c = true
        · simp [hnl, hc, hup]
        · simp [hnl, hc, hup]

theorem xTtyWriteByte_eq (cOflag : BitVec 32) (w : Writing) (c : Byte) :
    xTtyWriteByte cOflag w c = (expandByte cOflag c).foldl xTtyProcessOutput w :=
  body_expands xTtyProcessOutput w c (oflag cOflag OPOST) (oflag cOflag ONLCR)
    (oflag cOflag OCRNL) (oflag cOflag OLCUC)

theorem ne_zero_of_mem_expandByte {cOflag : BitVec 32} {c d : Byte} (hc : c ≠ 0)
    (hd : d ∈ expandByte cOflag c) : d ≠ 0 := by
  have hnl : NL ≠ 0 := by decide
  have hcr : CR ≠ 0 := by decide
  simp only [expandByte] at hd
  split_ifs at hd with hpost h₁ h₂ h3 h4 h5
  · rwa [List.mem_singleton.1 hd]
  · rcases List.mem_cons.1 hd with rfl | hd
    · exact hcr
    · rwa [List.mem_singleton.1 hd]
  · rwa [List.mem_singleton.1 hd]
  · rwa [List.mem_singleton.1 hd]
  · rwa [List.mem_singleton.1 hd]
  · rw [List.mem_singleton.1 hd]
    exact ne_zero_of_isLower (Bool.and_eq_true_iff.1 h5).2
  · rwa [List.mem_singleton.1 hd]

theorem foldl_processOutput_spec {w : Writing} (h : w.Wf) {cs : List Byte} (hcs : ∀ c ∈ cs, c ≠ 0) :
    (cs.foldl xTtyProcessOutput w).Wf ∧ (cs.foldl xTtyProcessOutput w).text = w.text ++ cs := by
  induction cs generalizing w with
  | nil => exact ⟨h, (List.append_nil _).symm⟩
  | cons c cs ih =>
    rcases xTtyProcessOutput_spec h (hcs c (by simp)) with ⟨hwf, htext⟩
    rcases ih hwf fun d hd => hcs d (List.mem_cons_of_mem _ hd) with ⟨hwf', htext'⟩
    refine ⟨hwf', htext'.trans ?_⟩
    rw [htext, List.append_assoc, List.singleton_append]

theorem xTtyWriteLoop_spec (cOflag : BitVec 32) {buf : Nat → Byte} {n i : Nat}
    (hbuf : ∀ j < n, buf (i + j) ≠ 0) {w : Writing} (h : w.Wf) :
    (xTtyWriteLoop cOflag buf n i w).1 = i + n ∧ (xTtyWriteLoop cOflag buf n i w).2.Wf ∧
      (xTtyWriteLoop cOflag buf n i w).2.text =
        w.text ++ expand cOflag ((List.range n).map fun j => buf (i + j)) := by
  induction n generalizing i w with
  | zero => exact ⟨rfl, h, by simp [xTtyWriteLoop, expand]⟩
  | succ n ih =>
    have hc : buf i ≠ 0 := hbuf 0 (Nat.succ_pos n)
    have hrest : ∀ j < n, buf (i + 1 + j) ≠ 0 := by
      intro j hj
      rw [Nat.add_assoc, Nat.add_comm 1 j]
      exact hbuf (j + 1) (Nat.succ_lt_succ hj)
    rcases foldl_processOutput_spec h fun d hd => ne_zero_of_mem_expandByte hc hd with
      ⟨hwf, htext⟩
    rw [← xTtyWriteByte_eq cOflag] at hwf htext
    rcases ih hrest hwf with ⟨hcount, hwf', htext'⟩
    rw [xTtyWriteLoop, if_neg hc]
    refine ⟨?_, hwf', ?_⟩
    · rw [hcount]
      omega
    · have hsplit : (List.range (n + 1)).map (fun j => buf (i + j)) =
          buf i :: (List.range n).map fun j => buf (i + 1 + j) := by
        rw [List.range_succ_eq_map, List.map_cons, List.map_map]
        refine congrArg₂ List.cons rfl (List.map_congr_left fun j _ => ?_)
        rw [comp_apply, Nat.add_assoc, Nat.add_comm 1 j]
      rw [htext', htext, hsplit, List.append_assoc]
      rfl

theorem wf_xTtyWriteLoop (cOflag : BitVec 32) (buf : Nat → Byte) {n i : Nat} {w : Writing}
    (h : w.Wf) : (xTtyWriteLoop cOflag buf n i w).2.Wf := by
  induction n generalizing i w with
  | zero => exact h
  | succ n ih =>
    rw [xTtyWriteLoop]
    split_ifs with hc
    · exact h
    · rw [xTtyWriteByte_eq]
      exact ih (foldl_processOutput_spec h fun d hd => ne_zero_of_mem_expandByte hc hd).1

theorem empty_xTtyWrite (cOflag : BitVec 32) {ld : Outbuf} (hld : ld.Empty) (buf : Nat → Byte)
    (count : Nat) : (xTtyWrite cOflag ld buf count).2.2.Empty := by
  have hstart : ({ ld := ld, chunks := [] } : Writing).Wf := ⟨hld.wf, by simp⟩
  have hwf := wf_xTtyWriteLoop cOflag buf (n := count) (i := 0) hstart
  cases hloop : xTtyWriteLoop cOflag buf count 0 { ld := ld, chunks := [] } with
  | mk written w =>
    rw [hloop] at hwf
    by_cases hflush : w.ld.flushOutput = true
    · simp only [xTtyWrite, hloop, hflush, if_true]
      exact ⟨rfl, rfl, rfl⟩
    · have hlen : w.ld.outlen = 0 := by
        by_contra hne
        exact hflush (hwf.ld.flush hne)
      simp only [xTtyWrite, hloop, hflush, Bool.false_eq_true, if_false]
      exact ⟨hwf.ld.pos.trans hlen, hlen, by simpa using hflush⟩

/-- Whatever the settings, a text without NULs is put out as its expansion, in chunks that are no
larger than the output buffer; all of its bytes are counted, and nothing is left behind. -/
theorem xTtyWrite_expands (cOflag : BitVec 32) {ld : Outbuf} (hld : ld.Empty) {buf : Nat → Byte}
    {text : List Byte} (htext : (List.range text.length).map buf = text)
    (hnul : ∀ c ∈ text, c ≠ 0) :
    ∃ chunks ld', xTtyWrite cOflag ld buf text.length = (text.length, chunks, ld') ∧
      chunks.flatten = expand cOflag text ∧
      (∀ chunk ∈ chunks, (chunk.length : Int) ≤ XTTYFBMAX) ∧ ld'.Empty := by
  have hstart : ({ ld := ld, chunks := [] } : Writing).Wf := ⟨hld.wf, by simp⟩
  have hnothing : ({ ld := ld, chunks := [] } : Writing).text = [] := by
    simp [Writing.text, Outbuf.pending, hld.len]
  have hbuf : ∀ j < text.length, buf (0 + j) ≠ 0 := by
    intro j hj
    refine hnul _ ?_
    rw [← htext, Nat.zero_add]
    exact List.mem_map_of_mem (List.mem_range.2 hj)
  rcases xTtyWriteLoop_spec cOflag hbuf hstart with ⟨hcount, hwf, hout⟩
  simp only [Nat.zero_add, htext, hnothing, List.nil_append] at hcount hout
  cases hloop : xTtyWriteLoop cOflag buf text.length 0 { ld := ld, chunks := [] } with
  | mk written w =>
    rw [hloop] at hcount hwf hout
    dsimp only at hcount hwf hout
    by_cases hflush : w.ld.flushOutput = true
    · -- the last chunk
      refine ⟨w.flush.chunks, w.flush.ld, ?_, ?_, ?_, ⟨rfl, rfl, rfl⟩⟩
      · simp only [xTtyWrite, hloop, hflush, if_true]
        rw [hcount]
      · have hall := w.text_flush.trans hout
        simpa [Writing.text, Writing.flush, Outbuf.pending] using hall
      · intro chunk hchunk
        rcases List.mem_append.1 hchunk with hchunk | hchunk
        · exact hwf.chunks chunk hchunk
        · rw [List.mem_singleton.1 hchunk, Outbuf.length_pending]
          exact hwf.ld.room.le
    · have hlen : w.ld.outlen = 0 := by
        by_contra hne
        exact hflush (hwf.ld.flush hne)
      have hend := empty_xTtyWrite cOflag hld buf text.length
      refine ⟨w.chunks, w.ld, ?_, ?_, hwf.chunks, ?_⟩
      · simp only [xTtyWrite, hloop, hflush, Bool.false_eq_true, if_false]
        rw [hcount]
      · simpa [Writing.text, Outbuf.pending, hlen] using hout
      · simpa only [xTtyWrite, hloop, hflush, Bool.false_eq_true, if_false] using hend

theorem xTtyWrite_newline :
    ∃ chunks ld', xTtyWrite (OPOST ||| OLCUC ||| ONLCR) Outbuf.init
        (fun i => (bytes "a\nb").getD i 0) 3 = (3, chunks, ld') ∧
      chunks.flatten = bytes "A\r\nB" ∧ (∀ chunk ∈ chunks, (chunk.length : Int) ≤ XTTYFBMAX) ∧
      ld'.Empty :=
  @xTtyWrite_expands (OPOST ||| OLCUC ||| ONLCR) Outbuf.init Outbuf.empty_init _ (bytes "a\nb")
    (by decide) (by decide)

end XTty
end XytherOS
