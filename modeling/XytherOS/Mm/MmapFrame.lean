import XytherOS.Mm.MmapAddresses

/-!
# MmapFrame — what `mmap_protect` changes, address by address

A successful `mmap_protect` leaves every address outside its range as it was, whatever parts the
region is cut into.  In the range it writes the flag word of the region anew from `prot` alone:
the permission bits are right, and every other bit of the word is gone.

The range is checked through `addr + len - 1` only.  A length that wraps around passes the check
with a range that no region can hold.
-/

namespace XytherOS
namespace Mm
namespace Mmap

open Links Spans

variable {π : Type} {env : Env π} {s s' : State π} {v v₁ v₂ : View} {p : Nat} {r r' : Region}
  {a addr len : BitVec 64} {prot : BitVec 32}

/-! ## Permission bits -/

def rwxMask : BitVec 64 := VM_READ ||| VM_WRITE ||| VM_EXEC

theorem and_single (w : BitVec 64) {bit : BitVec 64} {i : Nat} (hbit : bit = BitVec.twoPow 64 i) :
    w &&& bit = bitIf (has w bit) bit := by
  subst hbit
  rw [has, BitVec.and_twoPow]
  cases w.getLsbD i <;> simp [bitIf]

theorem and_rwxMask (w : BitVec 64) :
    w &&& rwxMask = bitIf (has w VM_READ) VM_READ ||| bitIf (has w VM_WRITE) VM_WRITE |||
      bitIf (has w VM_EXEC) VM_EXEC := by
  have hread : VM_READ = BitVec.twoPow 64 2 := by decide
  have hwrite : VM_WRITE = BitVec.twoPow 64 1 := by decide
  have hexec : VM_EXEC = BitVec.twoPow 64 0 := by decide
  rw [rwxMask, BitVec.and_or_distrib_left, BitVec.and_or_distrib_left, and_single w hread,
    and_single w hwrite, and_single w hexec]

theorem protFlags_and (prot : BitVec 32) :
    protFlags prot &&& rwxMask = protFlags prot ∧ protFlags prot &&& ~~~rwxMask = 0 := by
  rw [protFlags]
  cases has prot PROT_READ <;> cases has prot PROT_WRITE <;> cases has prot PROT_EXEC <;> decide

theorem protFlags_regionProt (flags : BitVec 64) :
    protFlags (regionProt flags) = flags &&& rwxMask := by
  rw [and_rwxMask, regionProt, protFlags]
  cases has flags VM_READ <;> cases has flags VM_WRITE <;> cases has flags VM_EXEC <;> decide

/-! ## Frames -/

/-- `s'` is `s` with the permissions `prot` for the addresses of the range, and with nothing else
changed. -/
structure ProtectFrame (s s' : State π) (addr len : BitVec 64) (prot : BitVec 32) : Prop where
  inside : ∀ a, InRange addr len a → ∃ t t', attrAt s a = .ok (some t) ∧
    attrAt s' a = .ok (some t') ∧ t'.flags &&& rwxMask = protFlags prot ∧
    t'.flags &&& ~~~rwxMask = t.flags &&& ~~~rwxMask ∧ t'.file = t.file
  outside : ∀ a, ¬ InRange addr len a → attrAt s' a = attrAt s a

theorem Listed.attrAt_at (h : Listed s (v₁ ++ (p, r) :: v₂)) (hlo : r.start ≤ a)
    (hhi : a ≤ r.endAddr) : attrAt s a = .ok (some r.attr) := by
  have hreg : s.region p = r := h.region (p, r) (by simp)
  rw [attrAt, h.find_at hlo hhi, ok_bind, Option.map_some, hreg]
  rfl

theorem Mended.attrAt {m : State π} (h : Mended s m) (a : BitVec 64) : attrAt m a = attrAt s a := by
  cases h with
  | same => rfl
  | link q p => simp only [Mmap.attrAt, mmapFind_mend, State.mend_region]

theorem Mended.regions {m : State π} (h : Mended s m) : m.regions = s.regions := by
  cases h with
  | same => rfl
  | link q p =>
    have hfrom : ∀ n x, regionsFrom (s.mend q p) n x = regionsFrom s n x := by
      intro n
      induction n with
      | zero => exact fun _ => rfl
      | succ n ih =>
        intro x
        cases x with
        | none => rfl
        | some x => simp only [regionsFrom, State.mend_region, State.mend_next, ih]
    exact hfrom _ _

theorem HoldsRange.bounds (h : Listed s v) {e : Nat × Region} (he : e ∈ v)
    (hr : HoldsRange e.2 addr len) (hwrap : addr.toNat + len.toNat ≤ 2 ^ 64) (a : BitVec 64) :
    InRange addr len a ↔ addr ≤ a ∧ a ≤ addr + len - 1 := by
  rcases hr with ⟨hlen, -, -, -, hhi, -⟩
  have hlim := h.limit e he
  simp only [mmapLimit] at hlim
  have hend : (addr + len - 1).toNat = addr.toNat + len.toNat - 1 := by bv_omega
  rw [InRange, BitVec.le_def, BitVec.le_def, hend]
  have hpos : len.toNat ≠ 0 := fun hzero => hlen (by bv_omega)
  omega

theorem ProtectFrame.same (h : Listed s (v₁ ++ (p, r) :: v₂)) (hr : HoldsRange r addr len)
    (hwrap : addr.toNat + len.toNat ≤ 2 ^ 64) (hperm : regionProt r.flags = prot) :
    ProtectFrame s s addr len prot where
  inside := by
    intro a ha
    rw [hr.bounds h (e := (p, r)) (by simp) hwrap] at ha
    rcases hr with ⟨-, -, -, hlo, -, hend⟩
    have hat : attrAt s a = .ok (some r.attr) := h.attrAt_at (by bv_omega) (by bv_omega)
    refine ⟨r.attr, r.attr, hat, hat, ?_, rfl, rfl⟩
    rw [← hperm]
    exact (protFlags_regionProt r.flags).symm
  outside := fun _ _ => rfl

theorem attr_protect (r : Region) (prot : BitVec 32) (hplain : r.flags &&& ~~~rwxMask = 0) :
    (r.protect prot).attr.flags &&& rwxMask = protFlags prot ∧
      (r.protect prot).attr.flags &&& ~~~rwxMask = r.attr.flags &&& ~~~rwxMask ∧
      (r.protect prot).attr.file = r.attr.file := by
  rcases protFlags_and prot with ⟨hin, hout⟩
  exact ⟨hin, hout.trans hplain.symm, rfl⟩

theorem ProtectFrame.whole (h : Listed s (v₁ ++ (p, r) :: v₂)) (hr : HoldsRange r addr len)
    (hwrap : addr.toNat + len.toNat ≤ 2 ^ 64) (hsize : ¬ len < r.size)
    (h' : Listed s' (v₁ ++ (p, r.protect prot) :: v₂)) (hplain : r.flags &&& ~~~rwxMask = 0) :
    ProtectFrame s s' addr len prot := by
  have hmem : (p, r) ∈ v₁ ++ (p, r) :: v₂ := by simp
  have hb := h.bounds hmem
  have hin := fun a => hr.bounds h hmem hwrap a
  rcases hr with ⟨hlen, -, -, hlo, hhi, hend⟩
  -- the range is the region
  have hbounds : addr = r.start ∧ addr + len - 1 = r.endAddr := by
    simp only [Region.size, mmapLimit] at hsize hb
    constructor <;> bv_omega
  refine ⟨?_, ?_⟩
  · intro a ha
    rw [hin a, hbounds.2, hbounds.1] at ha
    exact ⟨r.attr, (r.protect prot).attr, h.attrAt_at ha.1 ha.2, h'.attrAt_at ha.1 ha.2,
      attr_protect r prot hplain⟩
  · intro a ha
    rw [hin a, hbounds.2, hbounds.1] at ha
    have hout : r.contains a = false := Region.contains_eq_false (by bv_omega)
    have hout' : (r.protect prot).contains a = false := hout
    rw [h.attrAt_eq, h'.attrAt_eq, ← View.attrAt_remove v₁ v₂ hout',
      ← View.attrAt_remove v₁ v₂ hout]

theorem LeftPart.attrAt {left : View} (hl : LeftPart r addr left) (ha : ¬ (r.start ≤ a ∧ a < addr)) :
    View.attrAt left a = Option.none := by
  refine View.attrAt_none fun e he => ?_
  cases hl with
  | none heq => exact absurd he (by simp)
  | some hlt =>
    rw [List.mem_singleton.1 he]
    refine Region.contains_eq_false ?_
    simp only [Region.withBounds]
    bv_omega

theorem RightPart.attrAt {right : View} {last : BitVec 64} (hr : RightPart r last right)
    (ha : ¬ (last < a ∧ a ≤ r.endAddr)) : View.attrAt right a = Option.none := by
  refine View.attrAt_none fun e he => ?_
  cases hr with
  | none heq => exact absurd he (by simp)
  | some hlt =>
    rw [List.mem_singleton.1 he]
    refine Region.contains_eq_false ?_
    simp only [Region.withBounds]
    bv_omega

theorem ProtectFrame.split {left right : View} (h : Rel s (v₁ ++ (p, r) :: v₂))
    (hs : Splits r addr len prot) (hl : LeftPart r addr left)
    (hr : RightPart r (addr + len - 1) right)
    (h' : Listed s' (v₁ ++ left ++
      (p, (r.withBounds addr (addr + len - 1)).protect prot) :: (right ++ v₂)))
    (hwrap : addr.toNat + len.toNat ≤ 2 ^ 64) (hplain : r.flags &&& ~~~rwxMask = 0) :
    ProtectFrame s s' addr len prot := by
  have hmem : (p, r) ∈ v₁ ++ (p, r) :: v₂ := by simp
  rcases hs.bounds h with ⟨hlo, hmid, hhi, -, -⟩
  have hholds : HoldsRange r addr len :=
    ⟨hs.1, hs.2.1, hs.2.2.1, hs.2.2.2.1, hs.2.2.2.2.1, hs.2.2.2.2.2.1⟩
  have hin := fun a => hholds.bounds h.toListed hmem hwrap a
  refine ⟨?_, ?_⟩
  · intro a ha
    rw [hin a] at ha
    exact ⟨r.attr, ((r.withBounds addr (addr + len - 1)).protect prot).attr,
      h.attrAt_at (BitVec.le_trans hlo ha.1) (BitVec.le_trans ha.2 hhi), h'.attrAt_at ha.1 ha.2,
      attr_protect (r.withBounds addr (addr + len - 1)) prot hplain⟩
  · intro a ha
    rw [hin a] at ha
    by_cases hfront : r.start ≤ a ∧ a < addr
    · -- in the part in front of the range
      rw [h.attrAt_at hfront.1 (by bv_omega)]
      cases hl with
      | none heq => exact absurd hfront (by bv_omega)
      | some hlt =>
        rw [List.append_assoc, List.singleton_append] at h'
        exact h'.attrAt_at hfront.1 (by simp only [Region.withBounds]; bv_omega)
    by_cases hback : addr + len - 1 < a ∧ a ≤ r.endAddr
    · -- in the part behind it
      rw [h.attrAt_at (by bv_omega) hback.2]
      cases hr with
      | none heq => exact absurd hback (by bv_omega)
      | some hlt =>
        rw [List.singleton_append, List.append_cons] at h'
        exact h'.attrAt_at (by simp only [Region.withBounds]; bv_omega) hback.2
    · -- in another region, or in none
      have hout : r.contains a = false := Region.contains_eq_false (by bv_omega)
      have hout' : ((r.withBounds addr (addr + len - 1)).protect prot).contains a = false := by
        refine Region.contains_eq_false ?_
        simp only [Region.protect, Region.withFlags, Region.withBounds]
        bv_omega
      rw [h.attrAt_eq, h'.attrAt_eq, ← View.attrAt_remove v₁ v₂ hout]
      simp only [View.attrAt_append, View.attrAt_cons, hl.attrAt hfront, hr.attrAt hback, hout',
        Option.or_none, Option.none_or, Bool.false_eq_true, if_false]

theorem ProtectFrame.plain (hf : ProtectFrame s s' addr len prot) (hlen : len ≠ 0)
    (hat : attrAt s addr = .ok (some r.attr))
    (hat' : attrAt s' addr = .ok (some (r'.protect prot).attr)) :
    r.flags &&& ~~~rwxMask = 0 := by
  have hin : InRange addr len addr := ⟨le_rfl, by bv_omega⟩
  rcases hf.inside addr hin with ⟨t, t', ht, ht', -, hkeep, -⟩
  rw [hat] at ht
  rw [hat'] at ht'
  cases ht
  cases ht'
  exact hkeep.symm.trans (protFlags_and prot).2

end Mmap
end Mm
end XytherOS
