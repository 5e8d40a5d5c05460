import XytherOS.Dev.XTtyTurns

/-!
# XTtySafe — the bounds of the line buffer in runs of `x_tty_receive_buf`

The space check of `tty_insert_input` looks at `inpos`, and the echo formats the text from the
cursor on as a string.  So the indices stay in the array, and every access too, in the runs in which
the line has room for what is typed and a NUL ends the text that is echoed (`Tty.fits`).

* `throughout`: what holds in front of every turn and at the end, with no fault on the way;
* `everyTurn`: what every turn finds.
-/

namespace XytherOS
namespace XTty

open Fs (Byte)

/-- `P` holds in front of every turn of the loop and at its end, and no turn faults. -/
def throughout (P : Tty → Prop) : Nat → List Byte → Tty → Prop
  | _, [], tp => P tp
  | skip + 1, _ :: rest, tp => throughout P skip rest tp
  | 0, c :: rest, tp =>
    P tp ∧ (c ≠ 0 →
      match tp.receiveChar c rest with
      | .ok (some consumed, tp) => throughout P consumed rest tp
      | .ok (none, tp) => P tp
      | .error _ => False)

/-- The same for one call of `x_tty_receive_buf` after the other. -/
def throughoutCalls (P : Tty → Prop) : List (List Byte) → Tty → Prop
  | [], tp => P tp
  | cp :: cps, tp =>
    throughout P 0 cp tp ∧ ∀ tp', xTtyReceiveBuf tp cp = .ok tp' → throughoutCalls P cps tp'

/-- Every turn of the loop satisfies `ok` in the state in which it is taken. -/
def everyTurn (ok : Tty → Byte → List Byte → Bool) : Nat → List Byte → Tty → Bool
  | _, [], _ => true
  | skip + 1, _ :: rest, tp => everyTurn ok skip rest tp
  | 0, c :: rest, tp =>
    c == 0 || (ok tp c rest &&
      match tp.receiveChar c rest with
      | .ok (some consumed, tp) => everyTurn ok consumed rest tp
      | .ok (none, _) => true
      | .error _ => true)

def everyCall (ok : Tty → Byte → List Byte → Bool) : List (List Byte) → Tty → Bool
  | [], _ => true
  | cp :: cps, tp =>
    everyTurn ok 0 cp tp &&
      match xTtyReceiveBuf tp cp with
      | .ok tp => everyCall ok cps tp
      | .error _ => true

section Runs

variable {ok : Tty → Byte → List Byte → Bool} {P : Tty → Prop}

theorem throughout.mono {Q : Tty → Prop} (hPQ : ∀ tp, P tp → Q tp) {skip : Nat} {cp : List Byte}
    {tp : Tty} (h : throughout P skip cp tp) : throughout Q skip cp tp := by
  induction cp generalizing skip tp with
  | nil => exact hPQ tp h
  | cons c rest ih =>
    cases skip with
    | succ skip => exact @ih skip tp h
    | zero =>
      refine ⟨hPQ tp h.1, fun hc => ?_⟩
      have hturn := h.2 hc
      rcases hstep : tp.receiveChar c rest with e | ⟨_ | consumed, tp'⟩
      · rw [hstep] at hturn
        exact hturn
      · rw [hstep] at hturn
        exact hPQ tp' hturn
      · rw [hstep] at hturn
        exact ih hturn

theorem throughout.finish {skip : Nat} {cp : List Byte} {tp : Tty} (h : throughout P skip cp tp) :
    ∃ tp', Tty.receiveLoop skip cp tp = .ok tp' ∧ P tp' := by
  induction cp generalizing skip tp with
  | nil =>
    rw [Tty.receiveLoop]
    exact ⟨tp, rfl, h⟩
  | cons c rest ih =>
    cases skip with
    | succ skip =>
      rw [Tty.receiveLoop]
      exact @ih skip tp h
    | zero =>
      rw [Tty.receiveLoop]
      by_cases hc : c = 0
      · rw [if_pos hc]
        exact ⟨tp, rfl, h.1⟩
      have hturn := h.2 hc
      rw [if_neg hc]
      rcases hstep : tp.receiveChar c rest with e | ⟨_ | consumed, tp'⟩
      · rw [hstep] at hturn
        exact hturn.elim
      · rw [hstep] at hturn
        exact ⟨tp', rfl, hturn⟩
      · rw [hstep] at hturn
        exact ih hturn

theorem throughout_of_turns
    (hturn : ∀ tp c rest, P tp → c ≠ 0 → ok tp c rest = true →
      ∃ k tp', tp.receiveChar c rest = .ok (k, tp') ∧ P tp')
    {skip : Nat} {cp : List Byte} {tp : Tty} (h : P tp) (hok : everyTurn ok skip cp tp = true) :
    throughout P skip cp tp := by
  induction cp generalizing skip tp with
  | nil => exact h
  | cons c rest ih =>
    cases skip with
    | succ skip => exact @ih skip tp h hok
    | zero =>
      refine ⟨h, fun hc => ?_⟩
      rw [everyTurn, beq_false_of_ne hc, Bool.false_or, Bool.and_eq_true] at hok
      rcases hturn tp c rest h hc hok.1 with ⟨k, tp', hstep, htp⟩
      have hrest := hok.2
      rw [hstep] at hrest ⊢
      cases k with
      | none => exact htp
      | some consumed => exact ih htp hrest

theorem throughoutCalls_of_turns
    (hturn : ∀ tp c rest, P tp → c ≠ 0 → ok tp c rest = true →
      ∃ k tp', tp.receiveChar c rest = .ok (k, tp') ∧ P tp')
    {cps : List (List Byte)} {tp : Tty} (h : P tp) (hok : everyCall ok cps tp = true) :
    throughoutCalls P cps tp := by
  induction cps generalizing tp with
  | nil => exact h
  | cons cp cps ih =>
    rw [everyCall, Bool.and_eq_true] at hok
    have hloop := throughout_of_turns hturn h hok.1
    rcases hloop.finish with ⟨tp', hend, htp⟩
    refine ⟨hloop, fun tp'' htp'' => ?_⟩
    have hsame : tp' = tp'' := Except.ok.inj (hend.symm.trans htp'')
    have hrest := hok.2
    rw [htp''] at hrest
    exact ih (hsame ▸ htp) hrest

theorem throughoutCalls.mono {Q : Tty → Prop} (hPQ : ∀ tp, P tp → Q tp) {cps : List (List Byte)}
    {tp : Tty} (h : throughoutCalls P cps tp) : throughoutCalls Q cps tp := by
  induction cps generalizing tp with
  | nil => exact hPQ tp h
  | cons cp cps ih => exact ⟨h.1.mono hPQ, fun tp' htp' => ih (h.2 tp' htp')⟩

end Runs

/-! ## The bounds -/

def Bounded (tp : Tty) : Prop :=
  0 ≤ tp.tLdata.inpos ∧ tp.tLdata.inpos ≤ tp.tLdata.inlen ∧ tp.tLdata.inlen < XTTYFBMAX

def Live (tp : Tty) : Prop := ∃ l, tp.tLdata.Shows l ∧ l.length < XTTYFBMAX.toNat

theorem Live.bounded {tp : Tty} (h : Live tp) : Bounded tp := by
  rcases h with ⟨l, hshows, hlen⟩
  have hpos := hshows.inpos
  have hinlen := hshows.inlen
  rw [Line.length] at hlen hinlen
  refine ⟨by omega, by omega, by omega⟩

theorem Live.turn {tp : Tty} {c : Byte} (h : Live tp) (hfits : tp.fits c = true)
    (rest : List Byte) : ∃ k tp', tp.receiveChar c rest = .ok (k, tp') ∧ Live tp' := by
  rcases h with ⟨l, hshows, hlen⟩
  rcases receiveChar_turns hshows hlen hfits rest with ⟨⟨ld, w, hmap, hld⟩, hmore⟩
  rcases hstep : tp.receiveChar c rest with e | ⟨k, tp'⟩
  · rw [hstep] at hmap
    exact absurd hmap (by simp [Except.map])
  · rw [hstep] at hmap
    refine ⟨k, tp', rfl, _, ?_, hmore⟩
    have htp : tp' = _ := Except.ok.inj hmap
    rw [htp]
    exact hld

def Ldata.kzalloc : Ldata where
  inpos := 0
  inlen := 0
  inbuf := fun _ => 0
  flush := false

theorem live_kzalloc {tp : Tty} (h : tp.tLdata = Ldata.kzalloc) : Live tp := by
  refine ⟨⟨[], [], false⟩, ⟨⟨?_, ?_, fun i hi => absurd hi (by simp)⟩, ?_⟩, by decide⟩
  · rw [h]
    rfl
  · rw [h]
    rfl
  · rw [h]
    rfl

/-- In a run in which all that is typed fits, the indices stay in bounds and nothing faults. -/
theorem receive_bounded {tp : Tty} (hopen : tp.tLdata = Ldata.kzalloc) {cps : List (List Byte)}
    (hfits : everyCall (fun tp c _ => tp.fits c) cps tp = true) :
    throughoutCalls Bounded cps tp := by
  have hlive : throughoutCalls Live cps tp :=
    throughoutCalls_of_turns (fun _ _ rest h _ hok => h.turn hok rest) (live_kzalloc hopen) hfits
  exact hlive.mono fun _ => Live.bounded

/-! An arrow key and a character in front of the text; the same behind a line that `VINTR` has
dropped, of which eight bytes are left in the array. -/

/-- A terminal that echoes, with `VINTR` at its usual place. -/
def echoTty : Tty where
  tTermios :=
    { cIflag := 0
      cLflag := ISIG ||| ICANON ||| ECHO
      cCc := fun v => if v = VINTR then 3 else 0 }
  tInputbuf := .init fun _ => 0
  tLdata := .kzalloc
  written := []

theorem arrow_bounded : throughoutCalls Bounded [bytes "b", ESC :: bytes "[Dc"] echoTty :=
  receive_bounded rfl (by decide +kernel)

theorem stale_echo_faults : ¬ throughoutCalls Bounded
    [bytes "aaaaaaaa" ++ [3], bytes "b" ++ ESC :: bytes "[Dc"] echoTty := by
  intro h
  have hfirst : (xTtyReceiveBuf echoTty (bytes "aaaaaaaa" ++ [3])).isOk = true := by decide +kernel
  have hsecond : (xTtyReceiveBuf echoTty (bytes "aaaaaaaa" ++ [3]) >>= fun tp =>
      xTtyReceiveBuf tp (bytes "b" ++ ESC :: bytes "[Dc")).isOk = false := by decide +kernel
  have hend := eq_ok_outcome (d := echoTty) hfirst
  rcases (h.2 _ hend).1.finish with ⟨tp', htp', -⟩
  rw [hend, ok_bind, xTtyReceiveBuf, htp'] at hsecond
  exact absurd (show true = false from hsecond) (by decide)

end XTty
end XytherOS
