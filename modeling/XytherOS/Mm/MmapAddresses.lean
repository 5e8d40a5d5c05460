import XytherOS.Mm.MmapRun

/-!
# MmapAddresses — hole search, `mmap_unmap` and `mmap_vmr_expand`, address by address

What a process sees of its regions is what `mmap_find` returns for an address: whether it lies in a
region, and with which permissions and file.  In these terms the hole searches return a range that
no region meets whenever there is one.  `mmap_unmap` is followed through its loop with the
addresses outside the range as the invariant.  It does what it says unless the range starts
strictly inside a region: there the region would have to be cut in two, and `vmr_split` stores the
new half through the null pointer that `mmap_unmap` passes.  `mmap_vmr_expand` moves the growing end
of its region by the signed increment, in machine arithmetic that never wraps around into a request
that is granted.
-/

namespace XytherOS
namespace Mm
namespace Mmap

open Links Spans

variable {π : Type} {env : Env π} {s s' : State π} {v v₁ v₂ : View} {p : Nat} {r r' : Region}
  {a start len : BitVec 64}

/-! ## What an address is mapped to -/

/-- What all addresses of a region have in common, other than its bounds. -/
structure Attr where
  flags : BitVec 64
  vflags : BitVec 64
  file : Option Nat
  deriving DecidableEq

def Region.attr (r : Region) : Attr := ⟨r.flags, r.vflags, r.file⟩

/-- The attributes of the region that `mmap_find` finds at an address. -/
def attrAt (s : State π) (a : BitVec 64) : Except Fault (Option Attr) := do
  let p ← mmapFind s a
  return p.map fun p => (s.region p).attr

def View.attrAt (v : View) (a : BitVec 64) : Option Attr :=
  (v.find? fun e => e.2.contains a).map fun e => e.2.attr

namespace View

theorem attrAt_append (v₁ v₂ : View) (a : BitVec 64) :
    View.attrAt (v₁ ++ v₂) a = (View.attrAt v₁ a).or (View.attrAt v₂ a) := by
  simp only [View.attrAt, List.find?_append]
  cases v₁.find? fun e => e.2.contains a <;> simp

theorem attrAt_cons (e : Nat × Region) (v : View) (a : BitVec 64) :
    View.attrAt (e :: v) a = if e.2.contains a then some e.2.attr else View.attrAt v a := by
  rw [View.attrAt, List.find?_cons]
  cases e.2.contains a <;> rfl

theorem attrAt_none (h : ∀ e ∈ v, e.2.contains a = false) : View.attrAt v a = none := by
  rw [View.attrAt, Option.map_eq_none_iff, List.find?_eq_none]
  intro e he
  rw [h e he]
  exact Bool.false_ne_true

theorem attrAt_replace (v₁ v₂ : View) (r r' : Region) (hattr : r'.attr = r.attr)
    (hcon : r'.contains a = r.contains a) :
    View.attrAt (v₁ ++ (p, r') :: v₂) a = View.attrAt (v₁ ++ (p, r) :: v₂) a := by
  simp only [attrAt_append, attrAt_cons, hattr, hcon]

theorem attrAt_remove (v₁ v₂ : View) (hcon : r.contains a = false) :
    View.attrAt (v₁ ++ v₂) a = View.attrAt (v₁ ++ (p, r) :: v₂) a := by
  simp [attrAt_append, attrAt_cons, hcon]

end View

/-! ## The list of regions as a value -/

def regionsFrom (s : State π) : Nat → Option Nat → List Region
  | 0, _ => []
  | _ + 1, none => []
  | n + 1, some p => s.region p :: regionsFrom s n (s.mem p).next

def State.regions (s : State π) : List Region := regionsFrom s s.allocs s.head

theorem Listed.regionsFrom_eq {v₁ v₂ : View} (h : Listed s (v₁ ++ v₂)) {n : Nat}
    (hn : v₂.length ≤ n) : regionsFrom s n (ids v₂).head? = v₂.map Prod.snd := by
  induction v₂ generalizing v₁ n with
  | nil => cases n <;> rfl
  | cons e v₂ ih =>
    obtain ⟨n, rfl⟩ : ∃ k, n = k + 1 := ⟨n - 1, by simp at hn; omega⟩
    have hreg : s.region e.1 = e.2 := h.region e (by simp)
    have hnext : (s.mem e.1).next = (ids v₂).head? := h.links_at.1
    rw [List.append_cons] at h
    rw [ids_cons, List.head?_cons, regionsFrom, hreg, hnext, ih h (by simpa using hn),
      List.map_cons]

theorem Listed.regions_eq (h : Listed s v) : s.regions = v.map Prod.snd := by
  have h' : Listed s ([] ++ v) := h
  have hlen : v.length ≤ s.allocs := by simpa [ids] using h.length_le
  rw [State.regions, h.head]
  exact h'.regionsFrom_eq hlen

theorem Region.contains_iff : r.contains a = true ↔
    r.start.toNat ≤ a.toNat ∧ a.toNat ≤ r.endAddr.toNat := by
  rw [Region.contains, Bool.and_eq_true, decide_eq_true_iff, decide_eq_true_iff]
  exact Iff.rfl

theorem Region.contains_eq_false (h : a.toNat < r.start.toNat ∨ r.endAddr.toNat < a.toNat) :
    r.contains a = false := by
  rw [Bool.eq_false_iff, ne_eq, Region.contains_iff]
  omega

theorem Listed.attrAt_eq (h : Listed s v) (a : BitVec 64) :
    attrAt s a = .ok (View.attrAt v a) := by
  have hfind : mmapFind s a = .ok ((v.find? fun e => e.2.contains a).map Prod.fst) := by
    have htest : (fun e : Nat × Region => decide (lo e ≤ a.toNat ∧ a.toNat ≤ hi e)) =
        fun e => e.2.contains a := by
      funext e
      rw [Bool.eq_iff_iff, decide_eq_true_iff, Region.contains_iff]
      exact Iff.rfl
    rw [h.find_eq, htest]
  rw [attrAt, hfind, ok_bind, pure_eq_ok, View.attrAt]
  cases heq : v.find? fun e => e.2.contains a with
  | none => rfl
  | some e =>
    have hreg : s.region e.1 = e.2 := h.region e (List.mem_of_find?_eq_some heq)
    simp [hreg]

def InRange (start len a : BitVec 64) : Prop :=
  start.toNat ≤ a.toNat ∧ a.toNat < start.toNat + len.toNat

instance (start len a : BitVec 64) : Decidable (InRange start len a) :=
  inferInstanceAs (Decidable (_ ∧ _))

def twoMappings : List Call :=
  [.mapRegion 0x1000000 0x2000 3 (MAP_FIXED ||| MAP_PRIVATE) false,
    .mapRegion 0x1004000 0x2000 1 (MAP_FIXED ||| MAP_SHARED) false]

def twoMapped : State Unit :=
  match run Env.plain bootState twoMappings with
  | .ok s => s
  | .error _ => bootState

theorem bootState_rel : ∃ v, Rel bootState v := by
  have hinit : mmapInit Env.plain () = .ok (.ok, bootState) := rfl
  rcases mmapInit_rel hinit with ⟨q, hrel, -⟩
  exact ⟨_, hrel⟩

theorem twoMapped_rel : ∃ v, Rel twoMapped v := by
  have hrun : run Env.plain bootState twoMappings = .ok twoMapped := rfl
  rcases bootState_rel with ⟨v, hv⟩
  exact (hv.run_safe (by decide +kernel)).of_eq_ok hrun

/-! ## Hole search -/

/-- `[a, a + size - 1]` lies below the limit and meets no region. -/
def FreeRange (s : State π) (a size : BitVec 64) : Prop :=
  a.toNat + size.toNat ≤ mmapLimit.toNat + 1 ∧ ∀ b, InRange a size b → mmapFind s b = .ok none

theorem Listed.freeRange_iff (h : Listed s v) {size : BitVec 64} (hsize : size ≠ 0) :
    FreeRange s a size ↔ Free v a size := by
  have hlim : mmapLimit.toNat + 1 = 2 ^ 47 := rfl
  refine and_congr (by rw [hlim, Within]) ⟨?_, ?_⟩
  · intro hfree e he
    have hb := h.bounds he
    rcases List.append_of_mem he with ⟨v₁, v₂, rfl⟩
    by_contra hmeets
    -- the first address that the range and the region share
    have hshared : ∃ b, InRange a size b ∧ e.2.start ≤ b ∧ b ≤ e.2.endAddr := by
      by_cases hle : a ≤ e.2.start
      · exact ⟨e.2.start, ⟨hle, by bv_omega⟩, BitVec.le_refl _, hb.1⟩
      · exact ⟨a, ⟨le_rfl, by bv_omega⟩, by bv_omega, by bv_omega⟩
    rcases hshared with ⟨b, hin, hlo, hhi⟩
    have hsome : mmapFind s b = .ok (some e.1) := h.find_at hlo hhi
    rw [hfree b hin] at hsome
    cases hsome
  · intro hclear b hb
    rcases h.locate b with ⟨v₁, p, r, v₂, rfl, hlo, hhi⟩ | ⟨v₁, v₂, rfl, hgap⟩
    · have hmiss := hclear (p, r) (by simp)
      simp only [InRange] at hb
      exact absurd hmiss (by simp only; bv_omega)
    · exact h.find_gap hgap

/-- A hole search returns a free range, and `-ENOMEM` only if there is none. -/
def FindsHole (s : State π) (size : BitVec 64) (x : Except Fault (Except Errno (BitVec 64))) :
    Prop :=
  (∃ a, x = .ok (.ok a) ∧ FreeRange s a size) ∨
    (x = .ok (.error .ENOMEM) ∧ ∀ a, ¬ FreeRange s a size)

theorem Listed.findsHole (h : Listed s v) {size : BitVec 64}
    {x : Except Fault (Except Errno (BitVec 64))} (hsize : 1 < size.toNat)
    (hx : Safe NoFault x (Answer v size)) : FindsHole s size x := by
  have hne : size ≠ 0 := by bv_omega
  rcases x with e | (e | a)
  · exact hx.elim
  · rcases hx hsize with ⟨rfl, hfull⟩
    refine .inr ⟨rfl, fun a hfree => hfull a ?_⟩
    exact (h.freeRange_iff hne).1 hfree
  · exact .inl ⟨a, rfl, (h.freeRange_iff hne).2 hx⟩

/-- For every list of regions, every hint and both directions, the hole searches are sound and
complete for sizes of whole pages. -/
theorem find_hole_exact {π : Type} {s : State π} {v : View} {size : BitVec 64} (h : Listed s v)
    (hsize : size ≠ 0) (hpage : isAligned size = true) (whence : Whence) :
    FindsHole s size (mmapFindHole s size whence) ∧
      ∀ addr, FindsHole s size (mmapFindHoleat s addr size whence) := by
  have hlarge : 1 < size.toNat := by
    by_contra hsmall
    have hone : size = 1 := by bv_omega
    subst hone
    exact absurd hpage (by decide)
  exact ⟨h.findsHole hlarge (h.findHole_answer size whence),
    fun addr => h.findsHole hlarge (h.findHoleat_answer addr size whence)⟩

theorem find_hole_exact_between :
    mmapFindHoleat twoMapped 0x1004000 0x2000 .last = .ok (.ok 0x1002000) ∧
      FreeRange twoMapped 0x1002000 0x2000 := by
  have hfind : mmapFindHoleat twoMapped 0x1004000 0x2000 .last = .ok (.ok 0x1002000) := by rfl
  have hsize : (0x2000 : BitVec 64) ≠ 0 := by decide
  have hpage : isAligned 0x2000 = true := by decide
  rcases twoMapped_rel with ⟨v, hv⟩
  rcases (find_hole_exact hv.toListed hsize hpage .last).2 0x1004000 with
    ⟨a, heq, hfree⟩ | ⟨heq, -⟩
  · rw [hfind] at heq
    cases heq
    exact ⟨hfind, hfree⟩
  · rw [hfind] at heq
    cases heq

/-- The invariant of the loop: the addresses outside the range are mapped as in `v₀`. -/
def KeepsOutside (start len : BitVec 64) (v₀ v : View) : Prop :=
  ∀ a, ¬ InRange start len a → View.attrAt v a = View.attrAt v₀ a

theorem keptByUnmap_outside (env : Env π) (v₀ : View) (hlen : len ≠ 0) :
    KeptByUnmap env start len fun _ v => KeepsOutside start len v₀ v where
  remove := by
    intro s s' v₁ p r v₂ _ hm hlo hhi _ a hout
    refine (View.attrAt_remove v₁ v₂ (Region.contains_eq_false ?_)).trans (hm a hout)
    simp only [InRange] at hout
    bv_omega
  front := by
    intro s v₁ p r v₂ _ hm hlo hmid hhi a hout
    refine (View.attrAt_replace v₁ v₂ r (r.withBounds (start + len) r.endAddr) rfl ?_).trans
      (hm a hout)
    have hsum : (start + len).toNat = start.toNat + len.toNat := by bv_omega
    rw [Bool.eq_iff_iff, Region.contains_iff, Region.contains_iff]
    simp only [InRange] at hout
    simp only [Region.withBounds, hsum]
    bv_omega
  last := by
    intro s v₁ p r v₂ _ hm hlt hend a hout
    refine (View.attrAt_replace v₁ v₂ r (r.withBounds r.start (r.endAddr - 1)) rfl ?_).trans
      (hm a hout)
    rw [Bool.eq_iff_iff, Region.contains_iff, Region.contains_iff]
    simp only [InRange] at hout
    simp only [Region.withBounds]
    bv_omega

theorem Cleared.attrAt (h : Cleared start len v) (ha : InRange start len a) :
    View.attrAt v a = none := by
  refine View.attrAt_none fun e he => Region.contains_eq_false ?_
  have hmiss := h e he
  simp only [InRange] at ha
  bv_omega

/-- `arch_unmap_n` returns on page tables that satisfy `T`, and leaves such tables. -/
def Env.Unmaps (env : Env π) (T : π → Prop) : Prop :=
  ∀ pt va sz, T pt → ∃ pt', env.unmapN pt va sz = .ok pt' ∧ T pt'

theorem keptByUnmap_tables {T : π → Prop} (henv : env.Unmaps T) (start len : BitVec 64) :
    KeptByUnmap env start len fun s _ => T s.pt where
  remove := by
    intro s s' v₁ p r v₂ _ ht _ _ hrem
    rcases hrem.account with ⟨pt, heq, hacc⟩
    rcases henv s.pt r.start r.size ht with ⟨pt', heq', ht'⟩
    have hpt : pt = pt' := Except.ok.inj (heq.symm.trans heq')
    have hpt' : s'.pt = pt := congrArg Account.pt hacc
    rw [hpt', hpt]
    exact ht'
  front := fun _ ht _ _ _ => ht
  last := fun _ ht _ _ => ht

def State.cutFree (s : State π) (addr : BitVec 64) : Bool :=
  s.everyRegion fun r => !vmrCanSplit r addr

/-- `mmap_unmap(start, len)` returns 0, no address of the range lies in a region afterwards, and
every other address is mapped as before. -/
def UnmapsExactly (env : Env π) (s : State π) (start len : BitVec 64) : Prop :=
  ∃ s', mmapUnmap env s start len = .ok (.ok, s') ∧
    (∀ a, InRange start len a → attrAt s' a = .ok none) ∧
    ∀ a, ¬ InRange start len a → attrAt s' a = attrAt s a

theorem validAddr_of_range (hlen : len ≠ 0) (hlim : start.toNat + len.toNat ≤ 2 ^ 47) :
    validAddr (start + len - 1) = true := by
  rw [validAddr, decide_eq_true_iff, mmapLimit]
  bv_omega

theorem Rel.unmap_exact {T : π → Prop} (h : Rel s v) (henv : env.Unmaps T) (ht : T s.pt)
    (hlen : len ≠ 0) (hlim : start.toNat + len.toNat ≤ 2 ^ 47)
    (hcut : ∀ e ∈ v, vmrCanSplit e.2 start = false) : UnmapsExactly env s start len := by
  have hM := (keptByUnmap_tables henv start len).and (keptByUnmap_outside env v hlen)
  have hF : UnmapFaults env start (fun _ => False)
      (fun s w => T s.pt ∧ KeepsOutside start len v w) v := by
    refine ⟨?_, ?_⟩
    · intro s₁ w₁ q r1 w₂ _ hm
      rcases henv s₁.pt r1.start r1.size hm.1 with ⟨pt', heq, -⟩
      rw [heq]
      trivial
    · intro e he hsplit
      exact absurd hsplit (by simp [hcut e he])
  have hsafe := h.unmap_within hM ⟨ht, fun _ _ => rfl⟩ hF
  cases heq : mmapUnmap env s start len with
  | error e =>
    rw [heq] at hsafe
    exact hsafe.elim
  | ok x =>
    rw [heq] at hsafe
    rcases hsafe with ⟨-, -, hbad⟩ | ⟨hret, -, -, w, hrel, ⟨-, hkeep⟩, hclear⟩
    · rcases hbad with hbad | hbad
      · exact absurd hbad hlen
      · rw [validAddr_of_range hlen hlim] at hbad
        exact absurd hbad (by decide)
    · refine ⟨x.2, by rw [heq, ← hret], ?_, ?_⟩
      · intro a ha
        rw [hrel.attrAt_eq, hclear.attrAt ha]
      · intro a ha
        rw [hrel.attrAt_eq, h.attrAt_eq, hkeep a ha]

theorem Rel.unmap_inside (h : Rel s (v₁ ++ (p, r) :: v₂)) (hlen : len ≠ 0)
    (hlim : start.toNat + len.toNat ≤ 2 ^ 47) (hsplit : vmrCanSplit r start = true) :
    mmapUnmap env s start len = .error .nullDeref := by
  have hreg : s.region p = r := h.region (p, r) (by simp)
  have hvalid := validAddr_of_range hlen hlim
  rw [vmrCanSplit, Bool.and_eq_true, decide_eq_true_iff, decide_eq_true_iff] at hsplit
  rcases hsplit with ⟨hlo, hhi⟩
  have hat : unmapAt env s p start len = .error .nullDeref := by
    have hne : ¬ r.start = start := by bv_omega
    have hne' : ¬ r.endAddr = start := by bv_omega
    simp only [unmapAt, hreg, if_neg hne, if_neg hne', vmrSplit, vmrCanSplit, hlo, hhi]
    rfl
  have hstep : unmapStep env s start len = .error .nullDeref := by
    rw [unmapStep_at h (by bv_omega) (by bv_omega) (by bv_omega), hat]
    rfl
  rw [mmapUnmap, if_neg hlen, hvalid, if_neg (by decide), unmapLoop, if_neg hlen, hstep]
  rfl

theorem Rel.cutFree_iff (h : Rel s v) {addr : BitVec 64} :
    s.cutFree addr = true ↔ ∀ e ∈ v, vmrCanSplit e.2 addr = false := by
  rw [State.cutFree, h.everyRegion_iff]
  simp only [Bool.not_eq_eq_eq_not, Bool.not_true]

/-- In every well-formed address space and for every range below the limit, `mmap_unmap` unmaps
exactly the range if and only if the range is not empty and does not start strictly inside a
region. -/
theorem unmap_exact_iff {π : Type} {env : Env π} {T : π → Prop} {s : State π} {v : View}
    {start len : BitVec 64} (henv : env.Unmaps T) (h : Rel s v) (ht : T s.pt)
    (hlim : start.toNat + len.toNat ≤ mmapLimit.toNat + 1) :
    UnmapsExactly env s start len ↔ len ≠ 0 ∧ s.cutFree start = true := by
  have hlim' : start.toNat + len.toNat ≤ 2 ^ 47 := hlim
  constructor
  · rintro ⟨s', heq, -⟩
    have hlen : len ≠ 0 := by
      rintro rfl
      cases heq
    refine ⟨hlen, h.cutFree_iff.2 fun e he => ?_⟩
    rw [Bool.eq_false_iff]
    intro hsplit
    rcases List.append_of_mem he with ⟨v₁, v₂, rfl⟩
    rw [h.unmap_inside hlen hlim' hsplit] at heq
    cases heq
  · rintro ⟨hlen, hcut⟩
    exact h.unmap_exact henv ht hlen hlim' (h.cutFree_iff.1 hcut)

theorem unmap_exact_iff_spread : UnmapsExactly Env.plain twoMapped 0x1000000 0x5000 := by
  rcases twoMapped_rel with ⟨v, hv⟩
  have henv : Env.plain.Unmaps fun _ => True := fun _ _ _ _ => ⟨(), rfl, trivial⟩
  exact (unmap_exact_iff henv hv trivial (by decide)).2 ⟨by decide, by decide +kernel⟩

/-- The second page of the boot region cannot be unmapped. -/
theorem unmap_inside_null :
    isAligned 0x1000 = true ∧ (∃ v, Rel bootState v) ∧
    mmapUnmap Env.plain bootState 0x1000 0x1000 = .error .nullDeref ∧
    ¬ UnmapsExactly Env.plain bootState 0x1000 0x1000 := by
  have heq : mmapUnmap Env.plain bootState 0x1000 0x1000 = .error .nullDeref := by rfl
  refine ⟨by decide, bootState_rel, heq, ?_⟩
  rintro ⟨s', hok, -⟩
  rw [heq] at hok
  cases hok

/-! ## Resizing a region -/

/-- `r'` is `r` with `incr` more bytes at the end where it grows, or fewer if `incr` is negative. -/
structure Grown (r : Region) (incr : Int) (r' : Region) : Prop where
  rest : r' = r.withBounds r'.start r'.endAddr
  up : r.growsdown = false → r'.start = r.start ∧ (r'.endAddr.toNat : Int) = r.endAddr.toNat + incr
  down : r.growsdown = true → r'.endAddr = r.endAddr ∧ (r'.start.toNat : Int) = r.start.toNat - incr

/-- What `mmap_vmr_expand` by `incr` does to the region `p` between the regions `v₁` and `v₂`. -/
inductive Expanded (env : Env π) (s : State π) (v₁ : View) (p : Nat) (r : Region) (v₂ : View)
    (incr : Int) : Ret × State π → Prop
  | refused {e : Errno} : Expanded env s v₁ p r v₂ incr (.err e, s)
  | resized {r' : Region} (grown : Grown r incr r') (size : 0 < (r.size.toNat : Int) + incr)
      (limit : r'.endAddr ≤ mmapLimit)
      (apart : ∀ e ∈ v₁ ++ v₂, e.2.endAddr < r'.start ∨ r'.endAddr < e.2.start)
      (rel : Rel (s.setRegion p r') (v₁ ++ (p, r') :: v₂)) :
      Expanded env s v₁ p r v₂ incr (.ok, s.setRegion p r')
  | removed {s' : State π} (size : (r.size.toNat : Int) + incr = 0)
      (gone : Removed env s s' p r v₁ v₂) (rel : Rel s' (v₁ ++ v₂)) :
      Expanded env s v₁ p r v₂ incr (.ok, s')

theorem Rel.grown_resized (h : Rel s (v₁ ++ (p, r) :: v₂)) {incr : BitVec 64}
    (hpos : 0 < (r.size.toNat : Int) + incr.toInt)
    (h' : Rel s' (v₁ ++ (p, r.resized incr) :: v₂)) :
    Grown r incr.toInt (r.resized incr) := by
  rcases h.size_eq with ⟨hsize, hle, hb, hend⟩
  rcases h'.size_eq with ⟨hsize', hle', hb', hend'⟩
  have hlt := incr.isLt
  rw [BitVec.toInt_eq_toNat_cond] at hpos ⊢
  cases hdir : r.growsdown with
  | false =>
    have heq : r.resized incr = r.withBounds r.start (r.endAddr + incr) := by
      simp [Region.resized, hdir]
    rw [heq] at hb' hend' ⊢
    simp only [Region.withBounds, BitVec.le_def, BitVec.toNat_add] at hb' hend'
    refine ⟨rfl, fun _ => ⟨rfl, ?_⟩, fun hdown => absurd (hdir.symm.trans hdown) (by decide)⟩
    simp only [Region.withBounds, BitVec.toNat_add]
    split_ifs at hpos ⊢ <;> omega
  | true =>
    have heq : r.resized incr = r.withBounds (r.start - incr) r.endAddr := by
      simp [Region.resized, hdir]
    rw [heq] at hb' hend' ⊢
    simp only [Region.withBounds, BitVec.le_def, BitVec.toNat_sub] at hb' hend'
    refine ⟨rfl, fun hup => absurd (hdir.symm.trans hup) (by decide), fun _ => ⟨rfl, ?_⟩⟩
    simp only [Region.withBounds, BitVec.toNat_sub]
    split_ifs at hpos ⊢ <;> omega

theorem Rel.clear_of_others (h : Rel s (v₁ ++ (p, r) :: v₂)) :
    r.endAddr ≤ mmapLimit ∧
      ∀ e ∈ v₁ ++ v₂, e.2.endAddr < r.start ∨ r.endAddr < e.2.start := by
  rcases h.around with ⟨-, hbelow, hafter⟩
  refine ⟨h.limit (p, r) (by simp), fun e he => ?_⟩
  rcases List.mem_append.1 he with he | he
  · exact .inl (hbelow e he)
  · exact .inr (hafter e he)

/-- In every well-formed address space and for every signed increment, `mmap_vmr_expand` of a region
that may be resized refuses and changes nothing, or moves the growing end of exactly that region
by the increment into free addresses below the limit, or removes it when nothing is left of it.
It faults only where the pages of a removed region cannot be unmapped. -/
theorem vmr_expand_exact {π : Type} {env : Env π} {s : State π} {v₁ v₂ : View} {p : Nat}
    {r : Region} (h : Rel s (v₁ ++ (p, r) :: v₂)) (hcan : r.dontexpand = false)
    (incr : BitVec 64) :
    Safe (fun e => env.unmapN s.pt r.start r.size = .error e) (mmapVmrExpand env s p incr)
      (Expanded env s v₁ p r v₂ incr.toInt) := by
  have hunmap : Safe (fun e => env.unmapN s.pt r.start r.size = .error e)
      (env.unmapN s.pt r.start r.size) fun _ => True := by
    cases heq : env.unmapN s.pt r.start r.size with
    | error e => rfl
    | ok pt => trivial
  have hreg : s.region p = r := h.region (p, r) (by simp)
  -- the region stands at one place of the list
  have hplace : ∀ {w₁ w₂ : View} {q : Region},
      v₁ ++ (p, r) :: v₂ = w₁ ++ (p, q) :: w₂ → v₁ = w₁ ∧ r = q ∧ v₂ = w₂ := by
    intro w₁ w₂ q hview
    rcases h.not_mem_of_split with ⟨hp₁, hp₂⟩
    have hq : (p, q) ∈ v₁ ++ (p, r) :: v₂ := by simp [hview]
    obtain rfl : q = r := (h.region _ hq).symm.trans hreg
    have hnot : (p, q) ∉ v₁ := fun hmem => hp₁ (List.mem_map_of_mem hmem)
    have hnot' : (p, q) ∉ v₂ := fun hmem => hp₂ (List.mem_map_of_mem hmem)
    rcases (List.append_cons_inj_of_notMem hnot hnot').1 hview with ⟨h₁, -, h₂⟩
    exact ⟨h₁, rfl, h₂⟩
  refine (h.expand_listed hunmap incr).mono ?_
  rintro ⟨ret, s'⟩ hout
  cases hout with
  | unchanged state hok =>
    subst state
    cases ret with
    | err e => exact .refused
    | ok =>
      -- only an increment of zero is accepted without a change
      obtain rfl : incr = 0 := hok rfl
      have hself : s'.setRegion p r = s' := by
        rw [← hreg]
        exact congrArg s'.withMem (Function.update_eq_self p s'.mem)
      have hrel : Rel (s'.setRegion p r) (v₁ ++ (p, r) :: v₂) := hself.symm ▸ h
      have hsize := h.size_eq
      have hpos : 0 < (r.size.toNat : Int) := by bv_omega
      have hgrown : Grown r 0 r := ⟨rfl, fun _ => ⟨rfl, by simp⟩, fun _ => ⟨rfl, by simp⟩⟩
      have hout : Expanded env s' v₁ p r v₂ 0 (.ok, s'.setRegion p r) :=
        .resized hgrown (by simpa using hpos) h.clear_of_others.1 h.clear_of_others.2 hrel
      rwa [hself] at hout
  | unlisted fresh rel account => exact absurd (by simp) fresh
  | resized view ret ne can state rel pos hole =>
    rcases hplace view with ⟨rfl, rfl, rfl⟩
    cases ret
    cases state
    exact .resized (h.grown_resized pos rel) pos rel.clear_of_others.1 rel.clear_of_others.2 rel
  | removed view ret can rem zero =>
    rcases hplace view with ⟨rfl, rfl, rfl⟩
    cases ret
    exact .removed zero rem (rem.rel h)

theorem vmr_expand_exact_fills :
    (twoMapped.region 1).dontexpand = false ∧
    (mmapVmrExpand Env.plain twoMapped 1 0x2000).toOption.map (·.1) = some .ok ∧
    ∃ v₁ r v₂, Safe (fun e => Env.plain.unmapN () r.start r.size = .error e)
      (mmapVmrExpand Env.plain twoMapped 1 0x2000)
      (Expanded Env.plain twoMapped v₁ 1 r v₂ (0x2000#64).toInt) := by
  have hcan : (twoMapped.region 1).dontexpand = false := by decide +kernel
  rcases twoMapped_rel with ⟨v, hv⟩
  rcases hv.mem_of_mapped (p := 1) (by decide +kernel) with ⟨v₁, v₂, rfl⟩
  exact ⟨hcan, by decide +kernel, v₁, _, v₂, vmr_expand_exact hv hcan 0x2000⟩

end Mmap
end Mm
end XytherOS
