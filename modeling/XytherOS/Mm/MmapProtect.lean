import XytherOS.Mm.MmapFirst

/-!
# MmapProtect — `mmap_protect` on the view of an address space

The call finds the region that holds the whole range.  When the range is a proper part of it, the
rest of the region is given regions of its own in front of the range, behind it, or on both sides;
then the region in the range and its pages get the new permissions.

A rest in front of the first region is mapped in ahead of it.  The region in the range then lacks
its link back; but nothing that follows reads that link.
-/

namespace XytherOS
namespace Mm
namespace Mmap

open Links Spans

variable {π : Type} {env : Env π} {s s' : State π} {v v₁ v₂ : View} {p : Nat} {r r' : Region}

/-! ## Outcomes -/

def Region.protect (r : Region) (prot : BitVec 32) : Region :=
  r.withFlags (protFlags prot) (pteFlags (protFlags prot))

def Allowed (r : Region) (prot : BitVec 32) : Prop :=
  r.growsdown = false ∧ regionProt r.flags ≠ prot ∧ protDenied (regionProt r.flags) prot = false

instance (r : Region) (prot : BitVec 32) : Decidable (Allowed r prot) :=
  inferInstanceAs (Decidable (_ ∧ _ ∧ _))

/-- `mmap_protect(addr, len, prot)` gets as far as splitting the region `r`. -/
def Splits (r : Region) (addr len : BitVec 64) (prot : BitVec 32) : Prop :=
  len ≠ 0 ∧ isAligned addr = true ∧ isAligned len = true ∧ r.start ≤ addr ∧
    addr ≤ r.endAddr ∧ addr + len - 1 ≤ r.endAddr ∧ Allowed r prot ∧ len < r.size

instance (r : Region) (addr len : BitVec 64) (prot : BitVec 32) :
    Decidable (Splits r addr len prot) :=
  inferInstanceAs (Decidable (_ ∧ _ ∧ _ ∧ _ ∧ _ ∧ _ ∧ _ ∧ _))

/-- The part of `r` in front of `addr`, as a region `q` of its own if there is one. -/
inductive LeftPart (r : Region) (addr : BitVec 64) : View → Prop
  | none (eq : r.start = addr) : LeftPart r addr []
  | some {q : Nat} (lt : r.start < addr) :
      LeftPart r addr [(q, r.withBounds r.start (addr - 1))]

/-- The part of `r` behind `endAddr`, as a region `q` of its own if there is one. -/
inductive RightPart (r : Region) (endAddr : BitVec 64) : View → Prop
  | none (eq : r.endAddr = endAddr) : RightPart r endAddr []
  | some {q : Nat} (lt : endAddr < r.endAddr) :
      RightPart r endAddr [(q, r.withBounds (endAddr + 1) r.endAddr)]

/-- What `mmap_protect` does: nothing, new permissions for a whole region, or a split. -/
inductive ProtectOutcome (env : Env π) (s : State π) (v : View) (addr len : BitVec 64)
    (prot : BitVec 32) (x : Ret × State π) : Prop
  | unchanged (rel : Rel x.2 v) (account : x.2.toAccount = s.toAccount)
  | whole {v₁ v₂ : View} {p : Nat} {r : Region} {pt : π} (view : v = v₁ ++ (p, r) :: v₂)
      (found : r.start ≤ addr ∧ addr ≤ r.endAddr) (allowed : Allowed r prot)
      (size : ¬ len < r.size)
      (mprotect : env.mprotect s.pt r.start r.size (r.protect prot).vflags = .ok (x.1, pt))
      (rel : Rel x.2 (v₁ ++ (p, r.protect prot) :: v₂))
      (account : x.2.toAccount = s.toAccount.withPt pt)
  | split {v₁ v₂ left right : View} {p : Nat} {r : Region} {pt : π}
      (view : v = v₁ ++ (p, r) :: v₂) (splits : Splits r addr len prot)
      (leftPart : LeftPart r addr left) (rightPart : RightPart r (addr + len - 1) right)
      (mprotect : env.mprotect s.pt addr len (r.protect prot).vflags = .ok (x.1, pt))
      (rel : Rel x.2 (v₁ ++ left ++
        (p, (r.withBounds addr (addr + len - 1)).protect prot) :: (right ++ v₂)))
      (tables : x.2.pt = pt)

/-- `mmap_protect(addr, len, _)` accepts its arguments and finds the region `r`. -/
def HoldsRange (r : Region) (addr len : BitVec 64) : Prop :=
  len ≠ 0 ∧ isAligned addr = true ∧ isAligned len = true ∧ r.start ≤ addr ∧
    addr ≤ r.endAddr ∧ addr + len - 1 ≤ r.endAddr

instance (r : Region) (addr len : BitVec 64) : Decidable (HoldsRange r addr len) :=
  inferInstanceAs (Decidable (_ ∧ _ ∧ _ ∧ _ ∧ _ ∧ _))

/-- The calls of `vmr_alloc` for a split of `r` find memory. -/
def SplitMemory (env : Env π) (s : State π) (r : Region) (addr len : BitVec 64) : Prop :=
  env.oom s.allocs = false ∧
    (r.start ≠ addr → r.endAddr ≠ addr + len - 1 → env.oom (s.allocs + 1) = false)

instance (env : Env π) (s : State π) (r : Region) (addr len : BitVec 64) :
    Decidable (SplitMemory env s r addr len) :=
  inferInstanceAs (Decidable (_ ∧ (_ → _ → _)))

/-- `mmap_protect` after it has split the region `r` between `v₁` and `v₂`.  Where the rest in
front of the range is ahead of all other regions, `m` is the state with the missing link. -/
inductive SplitDone (env : Env π) (pt : π) (v₁ : View) (p : Nat) (r : Region) (v₂ : View)
    (addr len : BitVec 64) (prot : BitVec 32) (x : Ret × State π) (m : State π) : Prop
  | intro {left right : View} {pt' : π} (leftPart : LeftPart r addr left)
      (rightPart : RightPart r (addr + len - 1) right)
      (mprotect : env.mprotect pt addr len (r.protect prot).vflags = .ok (x.1, pt'))
      (rel : Rel m (v₁ ++ left ++
        (p, (r.withBounds addr (addr + len - 1)).protect prot) :: (right ++ v₂)))
      (tables : x.2.pt = pt') (mended : Mended x.2 m)
      (same : (v₁ = [] → r.start = addr) → m = x.2)

/-- What `mmap_protect` does in any well-formed address space. -/
inductive ProtectCases (env : Env π) (s : State π) (v : View) (addr len : BitVec 64)
    (prot : BitVec 32) (x : Ret × State π) : Prop
  | refused (ret : x.1 ≠ .ok) (rel : Rel x.2 v) (account : x.2.toAccount = s.toAccount)
      (stops : ∀ e ∈ v, HoldsRange e.2 addr len → Allowed e.2 prot →
        len < e.2.size ∧ ¬ SplitMemory env s e.2 addr len)
  | same {e : Nat × Region} (mem : e ∈ v) (holds : HoldsRange e.2 addr len)
      (perm : regionProt e.2.flags = prot) (state : x = (.ok, s))
  | whole {v₁ v₂ : View} {p : Nat} {r : Region} {pt : π} (view : v = v₁ ++ (p, r) :: v₂)
      (holds : HoldsRange r addr len) (allowed : Allowed r prot) (size : ¬ len < r.size)
      (mprotect : env.mprotect s.pt r.start r.size (r.protect prot).vflags = .ok (x.1, pt))
      (rel : Rel x.2 (v₁ ++ (p, r.protect prot) :: v₂))
      (account : x.2.toAccount = s.toAccount.withPt pt)
  | split {v₁ v₂ : View} {p : Nat} {r : Region} {m : State π} (view : v = v₁ ++ (p, r) :: v₂)
      (splits : Splits r addr len prot) (memory : SplitMemory env s r addr len)
      (done : SplitDone env s.pt v₁ p r v₂ addr len prot x m)

section Protect

variable {prot : BitVec 32} {q q₀ q₁ : Nat} {addr len : BitVec 64}

theorem Rel.withAccount (h : Rel s v) (a : Account π) : Rel (s.withAccount a) v where
  toListed := h.toListed.congr rfl rfl (le_of_eq rfl) fun _ _ => ⟨rfl, rfl, rfl⟩
  mapped := h.mapped

def Env.ProtFault (env : Env π) (e : XytherOS.Fault) : Prop :=
  ∃ pt start size vflags, env.mprotect pt start size vflags = .error e

theorem Env.mprotect_safe (env : Env π) {pt : π} {start size vflags : BitVec 64} :
    Safe env.ProtFault (env.mprotect pt start size vflags) fun y =>
      env.mprotect pt start size vflags = .ok y := by
  cases heq : env.mprotect pt start size vflags with
  | error e => exact ⟨_, _, _, _, heq⟩
  | ok y => rfl

theorem Rel.protectApply_safe (h : Rel s (v₁ ++ (p, r) :: v₂)) (prot : BitVec 32) :
    Safe env.ProtFault (protectApply env s p prot) fun x => ∃ pt,
      env.mprotect s.pt r.start r.size (r.protect prot).vflags = .ok (x.1, pt) ∧
      Rel x.2 (v₁ ++ (p, r.protect prot) :: v₂) ∧
      x.2.toAccount = s.toAccount.withPt pt := by
  have hreg : s.region p = r := h.region (p, r) (by simp)
  have hb := h.bounds (e := (p, r)) (by simp)
  have heq : protectApply env s p prot = (do
      let x ← env.mprotect s.pt r.start r.size (r.protect prot).vflags
      return (x.1, (s.setRegion p (r.protect prot)).withAccount (s.toAccount.withPt x.2))) := by
    rw [protectApply, hreg]
    rfl
  rw [heq]
  refine env.mprotect_safe.bind ?_
  rintro ⟨ret, pt⟩ hprot
  have hset : Rel (s.setRegion p (r.protect prot)) (v₁ ++ (p, r.protect prot) :: v₂) :=
    h.setRegion hb.1 hb.2 h.around.2.1 h.around.2.2
  exact ⟨pt, hprot, hset.withAccount _, rfl⟩

theorem Listed.modify_not_mem (h : Listed s v) (hp : p ∉ ids v) (f : Vmr → Vmr) :
    Listed (s.modify p f) v := by
  refine h.congr rfl rfl (le_of_eq rfl) ?_
  intro q hq
  have hne : q ≠ p := fun heq => hp (heq ▸ hq)
  simp [nexts, prevs, State.region, State.modify_mem, hne]

theorem copyVmr_mem_of_ne (s : State π) (r : Region) (k : Int) {q p q' : Nat} (hne : q' ≠ q) :
    (copyVmr s q p r k).mem q' = s.mem q' := by
  simp [copyVmr, State.modify_mem, hne]

theorem copyVmr_region_self (s : State π) (q p : Nat) (r : Region) (k : Int) :
    (copyVmr s q p r k).region q = r := by
  simp [copyVmr, State.region, State.modify_mem]

theorem Splits.bounds (hs : Splits r addr len prot) (h : Rel s (v₁ ++ (p, r) :: v₂)) :
    r.start ≤ addr ∧ addr ≤ addr + len - 1 ∧ addr + len - 1 ≤ r.endAddr ∧
      r.endAddr.toNat < 2 ^ 47 ∧ addr + len - 1 - addr + 1 = len := by
  rcases hs with ⟨hlen, -, -, hlo, hhi, hend, -, hlt⟩
  rcases h.size_eq with ⟨-, hsize, -, hend'⟩
  refine ⟨hlo, ?_, hend, hend', by bv_omega⟩
  bv_omega

theorem Rel.shrink_middle (h : Listed s (v₁ ++ (p, r) :: v₂)) {a b : BitVec 64}
    (hra : r.start ≤ a) (hab : a ≤ b) (hbr : b ≤ r.endAddr) :
    Listed (s.setRegion p (r.withBounds a b)) (v₁ ++ (p, r.withBounds a b) :: v₂) := by
  rcases h.around with ⟨-, hbelow, hafter⟩
  have hlim := h.limit (p, r) (by simp)
  refine h.setRegion hab (BitVec.le_trans hbr hlim) ?_ ?_
  · intro e he
    have hlt := hbelow e he
    simp only [Region.withBounds]
    bv_omega
  · intro e he
    have hlt := hafter e he
    simp only [Region.withBounds]
    bv_omega

/-! ## Splits -/

theorem Listed.copyVmr (h : Listed s v) (hq : q ∉ ids v) (r : Region) (k : Int) :
    Listed (copyVmr s q p r k) v :=
  h.modify_not_mem hq _

theorem protectApply_mend (env : Env π) (s : State π) (x : Nat) (prot : BitVec 32) :
    protectApply env (s.mend q p) x prot = (do
      let y ← protectApply env s x prot
      return (y.1, y.2.mend q p)) := by
  simp only [protectApply, State.mend_region, setRegion_mend, State.mend_toAccount]
  cases env.mprotect (s.setRegion x _).pt _ _ _ <;> rfl

theorem Rel.split_finish {u m : State π} {left right : View} (h : Rel s (v₁ ++ (p, r) :: v₂))
    (hs : Splits r addr len prot) (hl : LeftPart r addr left)
    (hr : RightPart r (addr + len - 1) right)
    (hmend : m = u ∨ (v₁ = [] ∧ r.start ≠ addr ∧ ∃ q p', m = u.mend q p'))
    (hm : Rel m (v₁ ++ left ++ (p, r.withBounds addr (addr + len - 1)) :: (right ++ v₂)))
    (hpt : m.pt = s.pt) :
    Safe env.ProtFault (protectApply env u p prot) fun x =>
      ∃ m, SplitDone env s.pt v₁ p r v₂ addr len prot x m := by
  have hsize : (r.withBounds addr (addr + len - 1)).size = len := (hs.bounds h).2.2.2.2
  have hdone : Safe env.ProtFault _ _ := hm.protectApply_safe prot
  rw [hpt, hsize] at hdone
  rcases hmend with rfl | ⟨hnil, hne, q, p', rfl⟩
  · refine hdone.mono ?_
    rintro x ⟨pt, hprot, hrel, hacc⟩
    exact ⟨x.2, hl, hr, hprot, hrel, congrArg Account.pt hacc, .same, fun _ => rfl⟩
  · rw [protectApply_mend] at hdone
    cases heq : protectApply env u p prot with
    | error e =>
      rw [heq] at hdone
      exact hdone
    | ok x =>
      rw [heq] at hdone
      rcases hdone with ⟨pt, hprot, hrel, hacc⟩
      exact ⟨x.2.mend q p', hl, hr, hprot, hrel, congrArg Account.pt hacc, .link q p',
        fun hfront => absurd (hfront hnil) hne⟩

theorem Listed.mapin_left {r₀ : Region} (h : Listed s (v₁ ++ (p, r₀) :: v₂))
    (hq : q ∉ ids (v₁ ++ (p, r₀) :: v₂)) (halloc : q < s.allocs) (hreg : s.region q = r)
    (hle : r.start ≤ r.endAddr) (hlt : r.endAddr < r₀.start)
    (hbelow : ∀ e ∈ v₁, e.2.endAddr < r.start) :
    ∃ u m, mmapMapin s q = .ok (.ok, u) ∧ Inserted s m q r v₁ ((p, r₀) :: v₂) ∧
      (m = u ∨ (v₁ = [] ∧ m = u.mend p q)) := by
  have hb := h.bounds (e := (p, r₀)) (by simp)
  have hfit : Fits s q r v₁ ((p, r₀) :: v₂) := by
    refine ⟨hq, halloc, hreg, hle, ?_, hbelow, ?_⟩
    · simp only [mmapLimit] at hb ⊢
      bv_omega
    · intro e he
      rcases List.mem_cons.1 he with rfl | he
      · exact hlt
      · have hlt' := h.around.2.2 e he
        bv_omega
  by_cases hv1 : v₁ = []
  · subst hv1
    exact ⟨_, _, h.mapin_ahead_eq hfit, (h.mapinAhead hfit).1, .inr ⟨rfl, rfl⟩⟩
  · rcases h.mapin_fits hfit (by simp [hv1]) (by simp [hv1]) with ⟨u, hmapin, hins⟩
    exact ⟨u, u, hmapin, hins, .inl rfl⟩

theorem Rel.mapin_front (h : Rel s (v₁ ++ (p, r) :: v₂)) (hq : q ∉ ids (v₁ ++ (p, r) :: v₂))
    (halloc : q < s.allocs) (hs : Splits r addr len prot) (hfront : r.start = addr) :
    ∃ u, mmapMapin ((copyVmr s q p (r.withBounds (addr + len - 1 + 1) r.endAddr) 0).setRegion p
        (r.withBounds addr (addr + len - 1))) q = .ok (.ok, u) ∧
      Inserted ((copyVmr s q p (r.withBounds (addr + len - 1 + 1) r.endAddr) 0).setRegion p
        (r.withBounds addr (addr + len - 1))) u q (r.withBounds (addr + len - 1 + 1) r.endAddr)
        (v₁ ++ [(p, r.withBounds addr (addr + len - 1))]) v₂ := by
  rcases hs.bounds h with ⟨hlo, hmid, hhi, hend, hsize⟩
  have hlt := hs.2.2.2.2.2.2.2
  simp only [Region.size] at hlt
  have hqp : q ≠ p := fun heq => hq (heq ▸ by simp)
  have hlisted := Rel.shrink_middle (h.copyVmr (p := p) hq
    (r.withBounds (addr + len - 1 + 1) r.endAddr) 0) hlo hmid hhi
  have hqreg : ((copyVmr s q p (r.withBounds (addr + len - 1 + 1) r.endAddr) 0).setRegion p
      (r.withBounds addr (addr + len - 1))).region q =
        r.withBounds (addr + len - 1 + 1) r.endAddr := by
    rw [State.setRegion_region, if_neg hqp, copyVmr_region_self]
  exact Rel.mapin_behind hlisted (by simpa using hq) halloc hqreg
    (by simp only [Region.withBounds]; bv_omega) (by simp only [Region.withBounds]; bv_omega)
    (h.limit (p, r) (by simp)) h.around.2.2

theorem Rel.protectFront_safe (h : Rel s (v₁ ++ (p, r) :: v₂)) (hq : q ∉ ids (v₁ ++ (p, r) :: v₂))
    (halloc : q < s.allocs) (hs : Splits r addr len prot) (hfront : r.start = addr) :
    Safe env.ProtFault (protectFront env s p q (addr + len - 1) prot) fun x =>
      ∃ m, SplitDone env s.pt v₁ p r v₂ addr len prot x m := by
  rcases hs.bounds h with ⟨hlo, hmid, hhi, hend, hsize⟩
  have hlt : addr + len - 1 < r.endAddr := by
    have hlt' := hs.2.2.2.2.2.2.2
    simp only [Region.size] at hlt'
    bv_omega
  have hreg : s.region p = r := h.region (p, r) (by simp)
  rcases h.mapin_front hq halloc hs hfront with ⟨u, hmapin, hins⟩
  rw [protectFront, hreg, hfront, hmapin]
  refine h.split_finish hs (.none hfront) (.some (q := q) hlt) (.inl rfl) ?_ hins.pt_eq
  have hrel := hins.rel (fun q' hq' => by
    rw [State.setRegion_mapped, copyVmr_mem_of_ne s _ _ hq', h.mapped q']
    simp)
  simpa using hrel

theorem Rel.mapin_back (h : Rel s (v₁ ++ (p, r) :: v₂)) (hq : q ∉ ids (v₁ ++ (p, r) :: v₂))
    (halloc : q < s.allocs) (hs : Splits r addr len prot) (hfront : r.start ≠ addr) :
    ∃ u m, mmapMapin ((copyVmr s q p (r.withBounds r.start (addr - 1)) 0).setRegion p
        (r.withBounds addr (addr + len - 1))) q = .ok (.ok, u) ∧
      Inserted ((copyVmr s q p (r.withBounds r.start (addr - 1)) 0).setRegion p
        (r.withBounds addr (addr + len - 1))) m q (r.withBounds r.start (addr - 1)) v₁
        ((p, r.withBounds addr (addr + len - 1)) :: v₂) ∧
      (m = u ∨ (v₁ = [] ∧ m = u.mend p q)) := by
  rcases hs.bounds h with ⟨hlo, hmid, hhi, hend, hsize⟩
  have hlt : r.start < addr := by bv_omega
  have hqp : q ≠ p := fun heq => hq (heq ▸ by simp)
  have hlisted := Rel.shrink_middle (h.copyVmr (p := p) hq
    (r.withBounds r.start (addr - 1)) 0) hlo hmid hhi
  have hqreg : ((copyVmr s q p (r.withBounds r.start (addr - 1)) 0).setRegion p
      (r.withBounds addr (addr + len - 1))).region q = r.withBounds r.start (addr - 1) := by
    rw [State.setRegion_region, if_neg hqp, copyVmr_region_self]
  exact hlisted.mapin_left (by simpa using hq) halloc hqreg
    (by simp only [Region.withBounds]; bv_omega) (by simp only [Region.withBounds]; bv_omega)
    h.around.2.1

theorem Rel.protectBack_safe (h : Rel s (v₁ ++ (p, r) :: v₂))
    (hq : q ∉ ids (v₁ ++ (p, r) :: v₂)) (halloc : q < s.allocs) (hs : Splits r addr len prot)
    (hfront : r.start ≠ addr) (hback : r.endAddr = addr + len - 1) :
    Safe env.ProtFault (protectBack env s p q addr prot) fun x =>
      ∃ m, SplitDone env s.pt v₁ p r v₂ addr len prot x m := by
  rcases hs.bounds h with ⟨hlo, hmid, hhi, hend, hsize⟩
  have hlt : r.start < addr := by bv_omega
  have hreg : s.region p = r := h.region (p, r) (by simp)
  rcases h.mapin_back hq halloc hs hfront with ⟨u, m, hmapin, hins, hmend⟩
  rw [protectBack, hreg, hback, hmapin]
  refine h.split_finish hs (.some (q := q) hlt) (.none hback) ?_ ?_ hins.pt_eq
  · exact hmend.imp id fun hm => ⟨hm.1, hfront, _, _, hm.2⟩
  · have hrel := hins.rel (fun q' hq' => by
      rw [State.setRegion_mapped, copyVmr_mem_of_ne s _ _ hq', h.mapped q']
      simp)
    simpa using hrel

theorem Listed.mapin_right {u m : State π} {r₀ : Region}
    (h : Listed m (v₁ ++ (q₀, r') :: (p, r₀) :: v₂))
    (hmend : m = u ∨ (v₁ = [] ∧ m = u.mend p q₀))
    (hq : q₁ ∉ ids (v₁ ++ (q₀, r') :: (p, r₀) :: v₂)) (halloc : q₁ < m.allocs)
    (hreg : m.region q₁ = r) (hlt : r₀.endAddr < r.start) (hle : r.start ≤ r.endAddr)
    (hlim : r.endAddr ≤ mmapLimit) (hafter : ∀ e ∈ v₂, r.endAddr < e.2.start) :
    ∃ u' m', mmapMapin u q₁ = .ok (.ok, u') ∧
      Inserted m m' q₁ r (v₁ ++ [(q₀, r')] ++ [(p, r₀)]) v₂ ∧
      (m' = u' ∨ (v₁ = [] ∧ m' = u'.mend p q₀)) := by
  have h' := h
  rw [List.append_cons] at h' hq
  rcases Rel.mapin_behind h' hq halloc hreg hlt hle hlim hafter with ⟨w, hmapin, hins⟩
  rcases hmend with rfl | ⟨hnil, rfl⟩
  · exact ⟨w, w, hmapin, hins, .inl rfl⟩
  · have hreg0 : (u.mend p q₀).region p = r₀ := h.region (p, r₀) (by simp)
    have hb := (h'.bounds (e := (p, r₀)) (by simp)).1
    have hhead : u.head ≠ none := by
      have heq : u.head = (ids (v₁ ++ (q₀, r') :: (p, r₀) :: v₂)).head? := h.head
      rw [heq]
      cases v₁ <;> simp
    have hne : q₁ ≠ p := fun heq => hq (heq ▸ by simp)
    rw [h.mapin_mend hne hhead (by
      rw [State.mend_region] at hreg hreg0
      rw [hreg, hreg0]
      simp only at hb
      bv_omega)] at hmapin
    rcases bind_ok_iff.1 hmapin with ⟨⟨ret, u'⟩, heq, hret⟩
    cases hret
    exact ⟨u', _, heq, hins, .inr ⟨hnil, rfl⟩⟩

theorem Rel.protectMiddle_safe (h : Rel s (v₁ ++ (p, r) :: v₂))
    (hq0 : q₀ ∉ ids (v₁ ++ (p, r) :: v₂)) (hq1 : q₁ ∉ ids (v₁ ++ (p, r) :: v₂)) (hne : q₁ ≠ q₀)
    (halloc0 : q₀ < s.allocs) (halloc1 : q₁ < s.allocs) (hs : Splits r addr len prot)
    (hfront : r.start ≠ addr) (hback : r.endAddr ≠ addr + len - 1) :
    Safe env.ProtFault (protectMiddle env s p q₀ q₁ addr (addr + len - 1) prot) fun x =>
      ∃ m, SplitDone env s.pt v₁ p r v₂ addr len prot x m := by
  rcases hs.bounds h with ⟨hlo, hmid, hhi, hend, hsize⟩
  have hltl : r.start < addr := by bv_omega
  have hltr : addr + len - 1 < r.endAddr := by bv_omega
  have hreg : s.region p = r := h.region (p, r) (by simp)
  have hqp0 : q₀ ≠ p := fun heq => hq0 (heq ▸ by simp)
  have hqp1 : q₁ ≠ p := fun heq => hq1 (heq ▸ by simp)
  rw [protectMiddle, hreg]
  simp only
  -- the three objects before anything is linked in
  let u := ((copyVmr (copyVmr s q₀ p (r.withBounds r.start (addr - 1)) 0) q₁ p
    (r.withBounds (addr + len - 1 + 1) r.endAddr) (s.mem p).refs).setRegion p
      (r.withBounds addr (addr + len - 1)))
  have hlisted : Listed u (v₁ ++ (p, r.withBounds addr (addr + len - 1)) :: v₂) :=
    Rel.shrink_middle ((h.copyVmr hq0 _ _).copyVmr hq1 _ _) hlo hmid hhi
  have hreg0 : u.region q₀ = r.withBounds r.start (addr - 1) := by
    rw [State.setRegion_region, if_neg hqp0, State.region, copyVmr_mem_of_ne _ _ _ hne.symm]
    exact copyVmr_region_self s q₀ p _ 0
  have hreg1 : u.region q₁ = r.withBounds (addr + len - 1 + 1) r.endAddr := by
    rw [State.setRegion_region, if_neg hqp1, copyVmr_region_self]
  rcases hlisted.mapin_left (by simpa using hq0) halloc0 hreg0
      (by simp only [Region.withBounds]; bv_omega) (by simp only [Region.withBounds]; bv_omega)
      h.around.2.1 with ⟨u1, m1, hmapin0, hins0, hmend1⟩
  rcases hins0.listed.mapin_right hmend1 (by simpa [hne] using hq1) (hins0.allocs ▸ halloc1)
      ((hins0.region q₁).trans hreg1)
      (by simp only [Region.withBounds]; bv_omega) (by simp only [Region.withBounds]; bv_omega)
      (h.limit (p, r) (by simp)) h.around.2.2 with ⟨u2, m2, hmapin1, hins1, hmend2⟩
  rw [show mmapMapin _ q₀ = _ from hmapin0, ok_bind]
  simp only
  rw [hmapin1, ok_bind]
  simp only
  have hpt : m2.pt = s.pt := hins1.pt_eq.trans hins0.pt_eq
  refine h.split_finish hs (.some (q := q₀) hltl) (.some (q := q₁) hltr) ?_ ?_ hpt
  · exact hmend2.imp id fun hm => ⟨hm.1, hfront, _, _, hm.2⟩
  · have hrel := hins1.rel (fun q' hq' => by
      rw [hins0.mapped q', State.setRegion_mapped, copyVmr_mem_of_ne _ _ _ hq']
      by_cases heq : q' = q₀
      · simp [heq]
      · rw [if_neg heq, copyVmr_mem_of_ne _ _ _ heq, h.mapped q']
        simp [heq])
    simpa using hrel

theorem vmrAlloc_eq_none (env : Env π) (s : State π) (r : Region) :
    (vmrAlloc env s r).1 = none ↔ env.oom s.allocs = true := by
  rw [vmrAlloc]
  cases env.oom s.allocs <;> simp

theorem Rel.protectPart_cases (h : Rel s (v₁ ++ (p, r) :: v₂)) (hs : Splits r addr len prot) :
    Safe env.ProtFault (protectPart env s p addr (addr + len - 1) prot) fun x =>
      (x.1 ≠ .ok ∧ ¬ SplitMemory env s r addr len ∧ Rel x.2 (v₁ ++ (p, r) :: v₂) ∧
        x.2.toAccount = s.toAccount) ∨
      (SplitMemory env s r addr len ∧ ∃ m, SplitDone env s.pt v₁ p r v₂ addr len prot x m) := by
  rw [protectPart]
  rcases vmrAlloc_cases env s Region.zero with
    ⟨s₁, heq, hmem1, halloc, hhd, htl, hacc⟩ | ⟨q₀, s₁, heq, ha0⟩
  · have hoom := (vmrAlloc_eq_none env s _).1 (congrArg Prod.fst heq)
    rw [heq]
    refine .inl ⟨by simp, ?_, h.of_mem_eq hmem1 halloc hhd htl, hacc⟩
    exact fun hm => absurd hm.1 (by simp [hoom])
  have hoom : env.oom s.allocs = false := by
    rw [Bool.eq_false_iff, ne_eq, ← vmrAlloc_eq_none env s Region.zero, heq]
    exact Option.some_ne_none q₀
  rw [heq]
  simp only
  have h₁ := ha0.rel h
  have hreg : s₁.region p = r := h₁.region (p, r) (by simp)
  have hpt1 : s₁.pt = s.pt := congrArg Account.pt ha0.account
  rw [hreg]
  by_cases hfront : r.start = addr
  · rw [if_pos hfront]
    refine (h₁.protectFront_safe (ha0.not_mem h) ha0.lt hs hfront).mono ?_
    rintro x ⟨m, hdone⟩
    exact .inr ⟨⟨hoom, fun hne => absurd hfront hne⟩, m, hpt1 ▸ hdone⟩
  rw [if_neg hfront]
  by_cases hback : r.endAddr = addr + len - 1
  · rw [if_pos hback]
    refine (h₁.protectBack_safe (ha0.not_mem h) ha0.lt hs hfront hback).mono ?_
    rintro x ⟨m, hdone⟩
    exact .inr ⟨⟨hoom, fun _ hne => absurd hback hne⟩, m, hpt1 ▸ hdone⟩
  rw [if_neg hback]
  rcases vmrAlloc_cases env s₁ Region.zero with
    ⟨s₂, heq2, hmem2, halloc2, hhd2, htl2, hacc2⟩ | ⟨q₁, s₂, heq2, ha1⟩
  · have hoom1 := (vmrAlloc_eq_none env s₁ _).1 (congrArg Prod.fst heq2)
    rw [heq2]
    have h₂ := h₁.of_mem_eq hmem2 halloc2 hhd2 htl2
    refine .inl ⟨by simp, ?_, h₂.vmrFree (ha0.not_mem h), hacc2.trans ha0.account⟩
    intro hm
    rw [ha0.allocs] at hoom1
    exact absurd (hm.2 hfront hback) (by simp [hoom1])
  have hoom1 : env.oom s₁.allocs = false := by
    rw [Bool.eq_false_iff, ne_eq, ← vmrAlloc_eq_none env s₁ Region.zero, heq2]
    exact Option.some_ne_none q₁
  rw [heq2]
  simp only
  have hne : q₁ ≠ q₀ := by
    have hlt := ha0.lt
    rw [ha1.eq]
    omega
  have hlt0 : q₀ < s₂.allocs := by
    have hlt := ha0.lt
    rw [ha1.allocs]
    omega
  have hpt2 : s₂.pt = s.pt := (congrArg Account.pt ha1.account).trans hpt1
  refine ((ha1.rel h₁).protectMiddle_safe (ha0.not_mem h) (ha1.not_mem h₁) hne hlt0 ha1.lt hs
    hfront hback).mono ?_
  rintro x ⟨m, hdone⟩
  exact .inr ⟨⟨hoom, fun _ _ => ha0.allocs ▸ hoom1⟩, m, hpt2 ▸ hdone⟩

theorem Listed.eq_of_contains (h : Listed s v) {a : BitVec 64} {e e' : Nat × Region} (he : e ∈ v)
    (he' : e' ∈ v) (hlo : e.2.start ≤ a) (hhi : a ≤ e.2.endAddr) (hlo' : e'.2.start ≤ a)
    (hhi' : a ≤ e'.2.endAddr) : e = e' := by
  rcases List.append_of_mem he with ⟨v₁, v₂, rfl⟩
  simp only [List.mem_append, List.mem_cons] at he'
  rcases he' with hmem | rfl | hmem
  · have hlt := h.around.2.1 e' hmem
    exact absurd hlt (by bv_omega)
  · rfl
  · have hlt := h.around.2.2 e' hmem
    exact absurd hlt (by bv_omega)

theorem Rel.overlap_cases (h : Rel s v) (addr endAddr : BitVec 64) :
    (mmapFindVmrOverlap s addr endAddr = .ok none ∧
      ∀ e ∈ v, ¬ (e.2.start ≤ addr ∧ addr ≤ e.2.endAddr ∧ endAddr ≤ e.2.endAddr)) ∨
      ∃ v₁ p r v₂, v = v₁ ++ (p, r) :: v₂ ∧ r.start ≤ addr ∧ addr ≤ r.endAddr ∧
        endAddr ≤ r.endAddr ∧ mmapFindVmrOverlap s addr endAddr = .ok (some p) := by
  rcases h.locate addr with ⟨v₁, p, r, v₂, rfl, hlo, hhi⟩ | ⟨v₁, v₂, rfl, hgap⟩
  · have hreg : s.region p = r := h.region (p, r) (by simp)
    by_cases hend : endAddr ≤ r.endAddr
    · refine .inr ⟨v₁, p, r, v₂, rfl, hlo, hhi, hend, ?_⟩
      rw [mmapFindVmrOverlap, h.find_at hlo hhi, ok_bind]
      simp [hreg, hend]
    · refine .inl ⟨?_, ?_⟩
      · rw [mmapFindVmrOverlap, h.find_at hlo hhi, ok_bind]
        simp [hreg, hend]
      · rintro e he ⟨hlo', hhi', hend'⟩
        have hmem : (p, r) ∈ v₁ ++ (p, r) :: v₂ := by simp
        cases h.eq_of_contains he hmem hlo' hhi' hlo hhi
        exact hend hend'
  · refine .inl ⟨?_, ?_⟩
    · rw [mmapFindVmrOverlap, h.find_gap hgap]
      rfl
    · rintro e he ⟨hlo, hhi, -⟩
      rcases List.mem_append.1 he with he | he
      · have hlt : e.2.endAddr < addr := hgap.below e he
        exact absurd hlt (by bv_omega)
      · have hlt : addr < e.2.start := hgap.above e he
        exact absurd hlt (by bv_omega)

theorem HoldsRange.eq_of_mem (h : Listed s v) {e e' : Nat × Region} (he : e ∈ v) (he' : e' ∈ v)
    (hr : HoldsRange e.2 addr len) (hr' : HoldsRange e'.2 addr len) : e = e' := by
  rcases hr with ⟨-, -, -, hlo, hhi, -⟩
  rcases hr' with ⟨-, -, -, hlo', hhi', -⟩
  exact h.eq_of_contains he he' hlo hhi hlo' hhi'

theorem Rel.protect_cases (h : Rel s v) :
    Safe env.ProtFault (mmapProtect env s addr len prot) (ProtectCases env s v addr len prot) := by
  rw [mmapProtect]
  by_cases hargs : len = 0 ∨ (!isAligned addr) = true ∨ (!isAligned len) = true
  · rw [if_pos hargs]
    refine .refused (by simp) h rfl fun e _ hr => ?_
    rcases hr with ⟨hlen, ha, hl, -⟩
    rw [ha, hl] at hargs
    rcases hargs with heq | heq | heq
    exacts [absurd heq hlen, absurd heq (by decide), absurd heq (by decide)]
  rw [if_neg hargs]
  simp only [Bool.not_eq_eq_eq_not, Bool.not_true, not_or, Bool.not_eq_false] at hargs
  by_cases hvalid : (!validAddr addr) = true
  · rw [if_pos hvalid]
    refine .refused (by simp) h rfl fun e he hr => ?_
    rcases hr with ⟨-, -, -, -, hhi, -⟩
    have hlim := h.limit e he
    simp only [validAddr, Bool.not_eq_eq_eq_not, Bool.not_true, decide_eq_false_iff_not] at hvalid
    exact absurd (BitVec.le_trans hhi hlim) hvalid
  rw [if_neg hvalid]
  rcases h.overlap_cases addr (addr + len - 1) with
    ⟨heq, hnone⟩ | ⟨v₁, p, r, v₂, rfl, hlo, hhi, hend, heq⟩
  · rw [heq]
    refine .refused (by simp) h rfl fun e he hr => ?_
    exact absurd hr.2.2.2 (by simpa using hnone e he)
  have hreg : s.region p = r := h.region (p, r) (by simp)
  have hr : HoldsRange r addr len := ⟨hargs.1, hargs.2.1, hargs.2.2, hlo, hhi, hend⟩
  have hmem : (p, r) ∈ v₁ ++ (p, r) :: v₂ := by simp
  -- the region that holds the range is the only one that can be meant
  have honly : ∀ e ∈ v₁ ++ (p, r) :: v₂, HoldsRange e.2 addr len → e.2 = r := by
    intro e he hre
    rw [HoldsRange.eq_of_mem h.toListed he hmem hre hr]
  rw [heq, ok_bind]
  simp only [hreg]
  split_ifs with hdir hsame hdenied hsize
  · refine .refused (by simp) h rfl fun e he hre hallowed => ?_
    rw [honly e he hre] at hallowed
    exact absurd hdir (by simp [hallowed.1])
  · exact .same hmem hr hsame rfl
  · refine .refused (by simp) h rfl fun e he hre hallowed => ?_
    rw [honly e he hre] at hallowed
    exact absurd hdenied (by simp [hallowed.2.2])
  · have hallowed : Allowed r prot := ⟨by simpa using hdir, hsame, by simpa using hdenied⟩
    have hs : Splits r addr len prot := ⟨hargs.1, hargs.2.1, hargs.2.2, hlo, hhi, hend, hallowed, hsize⟩
    refine (h.protectPart_cases hs).mono ?_
    rintro x (⟨hret, hmemory, hrel, hacc⟩ | ⟨hmemory, m, hdone⟩)
    · refine .refused hret hrel hacc fun e he hre _ => ?_
      rw [honly e he hre]
      exact ⟨hsize, hmemory⟩
    · exact .split rfl hs hmemory hdone
  · have hallowed : Allowed r prot := ⟨by simpa using hdir, hsame, by simpa using hdenied⟩
    refine (h.protectApply_safe prot).mono ?_
    rintro ⟨ret, s'⟩ ⟨pt, hprot, hrel, hacc⟩
    exact .whole rfl hr hallowed hsize hprot hrel hacc

theorem Rel.protect_safe (h : Rel s v)
    (hhead : ∀ p r v₂, v = (p, r) :: v₂ → Splits r addr len prot → r.start = addr) :
    Safe env.Fault (mmapProtect env s addr len prot) (ProtectOutcome env s v addr len prot) := by
  refine (h.protect_cases.faults fun _ => .inr).mono ?_
  rintro x hx
  cases hx with
  | refused ret rel account stops => exact .unchanged rel account
  | same mem holds perm state =>
    rw [state]
    exact .unchanged h rfl
  | whole view holds allowed size mprotect rel account =>
    exact .whole view ⟨holds.2.2.2.1, holds.2.2.2.2.1⟩ allowed size mprotect rel account
  | split view splits memory done =>
    cases done with
    | intro leftPart rightPart mprotect rel tables mended same =>
      cases same (fun hnil => hhead _ _ _ (by rw [view, hnil]; rfl) splits)
      exact .split view splits leftPart rightPart mprotect rel tables

end Protect

end Mmap
end Mm
end XytherOS
