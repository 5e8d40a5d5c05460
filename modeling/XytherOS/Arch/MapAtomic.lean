import XytherOS.Arch.TableView
import XytherOS.Mm.PmmSound

/-!
# MapAtomic — what a failed mapping leaves behind

`x86_64_map_n` and `x86_64_map_i` map a range page by page.  When one page fails, the pages before
it are unmapped again, by their number: whatever they had before is cleared, the tables that were
added for them stay, and `x86_64_map_n` forgets the frame it has just taken for the page that
failed.  So the state is restored only when there was nothing to forget.
-/

namespace XytherOS
namespace Arch

open Mm.Mmap (has PTE_P PTE_W)
open Mm.Pmm (NPAGE PGSZ toNat_NPAGE toNat_mul_PGSZ)

def Frames.Allocated (fr : Frames) (f : Nat) : Prop := fr.Contains f ∧ fr.refcnt f ≠ 0

/-- The entries of the pages and the set of allocated frames are the same. -/
structure Unchanged (pages : List Nat) (mem mem' : Mem) : Prop where
  ptes : ∀ v ∈ pages, mem'.tables.pteAt v = mem.tables.pteAt v
  frames : ∀ f, mem'.frames.Allocated f ↔ mem.frames.Allocated f

/-- The number of tables that are missing for the first `j` pages. -/
def tablesFor (mem : Mem) (va : BitVec 64) (j : Nat) : Nat :=
  (mem.tables.missing (pagesFrom j va)).card

def framesLeft (mem : Mem) : Nat := mem.frames.unused.length

/-- The frames that are freed when pages are unmapped that were mapped to the frames `fs`. -/
def givesBack (flags : BitVec 64) (fs : List Nat) : List Nat :=
  if has flags PTE_P && has flags PTE_ALLOC then fs.map (· % 2 ^ 52) else []

/-- Of the first `c` unused frames all are freed, and of the others only some that have references
left. -/
def Balanced (fr : Frames) (c : Nat) (fs : List Nat) : Prop :=
  (∀ f ∈ fr.unused.take c, f ∈ fs) ∧
    ∀ f ∈ fs, fr.Contains f → f ∈ fr.unused.take c ∨ 2 ≤ fr.refcnt f

section Pages

variable {va : BitVec 64} {n j v : Nat}

theorem pagesFrom_eq (n : Nat) (va : BitVec 64) :
    pagesFrom n va = (List.range n).map fun i => (va.toNat / 4096 + i) % 2 ^ 36 := by
  induction n generalizing va with
  | zero => rfl
  | succ n ih =>
    have hnext : (va + PGSZ).toNat / 4096 % 2 ^ 52 = (va.toNat / 4096 + 1) % 2 ^ 52 := by
      have hlt := va.isLt
      rw [BitVec.toNat_add]
      change (va.toNat + 4096) % 2 ^ 64 / 4096 % 2 ^ 52 = _
      omega
    rw [pagesFrom, ih, List.range_succ_eq_map, List.map_cons, List.map_map]
    refine congrArg₂ List.cons rfl (List.map_congr_left fun i _ => ?_)
    simp only [Function.comp_apply]
    omega

theorem pagesFrom_subset (h : j ≤ n) : pagesFrom j va ⊆ pagesFrom n va := by
  rw [pagesFrom_eq, pagesFrom_eq]
  exact List.map_subset _ (List.range_subset.2 h)

theorem pagesFrom_nodup (h : n ≤ 2 ^ 36) : (pagesFrom n va).Nodup := by
  rw [pagesFrom_eq]
  refine List.Nodup.map_on (fun i hi j hj hij => ?_) List.nodup_range
  rw [List.mem_range] at hi hj
  omega

end Pages

/-! ## Unmapping -/

def freeAll : List Nat → Frames → Except Fault Frames
  | [], fr => .ok fr
  | f :: fs, fr => do
      let fr ← fr.free f
      freeAll fs fr

def Frames.release (fr : Frames) (fs : List Nat) : Frames :=
  { fr with refcnt := fun f => if f ∈ fs ∧ fr.Contains f then fr.refcnt f - 1 else fr.refcnt f }

def PageTables.clear : List Nat → PageTables → PageTables
  | [], t => t
  | v :: vs, t => clear vs (if has (t.pteAt v) PTE_P then t.set .pt v 0 else t)

theorem PageTables.pteAt_drop (t : PageTables) (v w : Nat) :
    (if has (t.pteAt v) PTE_P then t.set .pt v 0 else t).pteAt w =
      if w = v ∧ has (t.pteAt w) PTE_P then 0 else t.pteAt w := by
  by_cases hw : w = v
  · subst hw
    cases hp : has (t.pteAt w) PTE_P with
    | false => simp
    | true =>
      have hthere : t.reached .pdt (w / 512) = true := by
        by_contra hr
        rw [pteAt, if_neg hr] at hp
        simp [has] at hp
      simp [pteAt_set_self hthere]
  · cases has (t.pteAt v) PTE_P with
    | false => simp [hw]
    | true => simp [hw, pteAt_set_of_ne hw]

theorem PageTables.pteAt_clear (vs : List Nat) (t : PageTables) (w : Nat) :
    (t.clear vs).pteAt w = if w ∈ vs ∧ has (t.pteAt w) PTE_P then 0 else t.pteAt w := by
  induction vs generalizing t with
  | nil => simp [clear]
  | cons v vs ih =>
    rw [clear, ih, pteAt_drop]
    simp only [List.mem_cons]
    by_cases hp : has (t.pteAt w) PTE_P = true
    · by_cases hw : w = v
      · subst hw
        simp [hp]
      · simp [hw]
    · simp [hp]

theorem unmapPages_eq {n : Nat} {va : BitVec 64} (hn : (pagesFrom n va).Nodup) (mem : Mem) :
    unmapPages n va mem =
      freeAll ((pagesFrom n va).filterMap fun v => freedWith (mem.tables.pteAt v)) mem.frames >>=
        fun frames =>
          .ok { mem with tables := mem.tables.clear (pagesFrom n va), frames := frames } := by
  induction n generalizing va mem with
  | zero => rfl
  | succ n ih =>
    rw [pagesFrom, List.nodup_cons] at hn
    -- the entries of the other pages are not touched
    have hrest : ∀ frames, (pagesFrom n (va + PGSZ)).filterMap (fun v => freedWith
          ((({ mem with
            tables := if has (mem.tables.pteAt (vpn va)) PTE_P then mem.tables.set .pt (vpn va) 0
              else mem.tables
            frames := frames } : Mem).tables).pteAt v)) =
        (pagesFrom n (va + PGSZ)).filterMap fun v => freedWith (mem.tables.pteAt v) := by
      intro frames
      refine List.filterMap_congr fun v hv => ?_
      have hne : v ≠ vpn va := fun heq => hn.1 (heq ▸ hv)
      simp only [PageTables.pteAt_drop, hne, false_and, if_false]
    rw [unmapPages, unmap_eq, pagesFrom, List.filterMap_cons, PageTables.clear]
    cases freedWith (mem.tables.pteAt (vpn va)) with
    | none =>
      simp only [ok_bind]
      rw [ih hn.2, hrest]
    | some f =>
      simp only [freeAll]
      cases mem.frames.free f with
      | error e => rfl
      | ok frames =>
        simp only [ok_bind]
        rw [ih hn.2, hrest]

/-- The pages `vs` are mapped to the frames `fs`, and `c` frames have been taken. -/
structure RangeMapped (flags : BitVec 64) (mem : Mem) (vs fs : List Nat) (c : Nat) (mem' : Mem) :
    Prop where
  frames : mem'.frames = mem.frames.take c
  length : fs.length = vs.length
  put : ∀ x ∈ vs.zip fs, has (mem.tables.pteAt x.1) PTE_P = false →
    mem'.tables.pteAt x.1 = mkPte x.2 flags
  others : ∀ w, w ∉ vs → mem'.tables.pteAt w = mem.tables.pteAt w

section Loops

variable {mem mem₁ mem' : Mem} {flags va : BitVec 64} {n j v f c : Nat} {vs fs : List Nat}

theorem RangeMapped.nil {t : PageTables} (h : mem.tables.Adds t ∅) :
    RangeMapped flags mem [] [] 0 { mem with tables := t } where
  frames := mem.frames.take_zero.symm
  length := rfl
  put x hx := by simp at hx
  others w _ := h.pteAt w

theorem RangeMapped.cons (hone : PageMapped flags mem v f mem₁)
    (hrest : RangeMapped flags mem₁ vs fs c mem') (hv : v ∉ vs) :
    RangeMapped flags mem (v :: vs) (f :: fs) ((mem.tables.missing [v]).card + c) mem' where
  frames := by rw [hrest.frames, hone.frames, Frames.take_take]
  length := by simp [hrest.length]
  put x hx hp := by
    rw [List.zip_cons_cons, List.mem_cons] at hx
    rcases hx with rfl | hx
    · rw [hrest.others v hv, hone.pteAt, installed]
      simp only at hp
      simp [hp]
    · have hne : x.1 ≠ v := fun heq => hv (heq ▸ (List.of_mem_zip hx).1)
      refine hrest.put x hx ?_
      rw [hone.others x.1 hne]
      exact hp
  others w hw := by
    rw [List.mem_cons, not_or] at hw
    rw [hrest.others w hw.2, hone.others w hw.1]

theorem framesLeft_withFrames (mem : Mem) :
    framesLeft (mem.withFrames (mem.frames.take 1)) = framesLeft mem - 1 := by
  change (mem.frames.take 1).unused.length = _
  rw [Frames.unused_take, List.length_drop]
  rfl

theorem RangeMapped.paged
    (h : RangeMapped flags (mem.withFrames (mem.frames.take 1)) vs fs c mem') :
    RangeMapped flags mem vs fs (1 + c) mem' where
  frames := by
    rw [h.frames, ← Frames.take_take]
    rfl
  length := h.length
  put := h.put
  others := h.others

end Loops

/-! ## Rolling back -/

section Rollback

variable {mem mem₁ : Mem} {flags va : BitVec 64} {j c : Nat} {vs fs pages : List Nat}

theorem has_mkPte_P (f : Nat) (flags : BitVec 64) :
    has (mkPte f flags) PTE_P = has flags PTE_P := by
  rw [has_P, has_P, getLsbD_mkPte (by decide)]

theorem has_mkPte_ALLOC (f : Nat) (flags : BitVec 64) :
    has (mkPte f flags) PTE_ALLOC = has flags PTE_ALLOC := by
  rw [has_ALLOC, has_ALLOC, getLsbD_mkPte (by decide)]

theorem frameOf_mkPte_mod (f : Nat) (flags : BitVec 64) :
    frameOf (mkPte f flags) = f % 2 ^ 52 := by
  have hsame : mkPte f flags = mkPte (f % 2 ^ 52) flags := by
    have hword : BitVec.ofNat 64 (f * 4096) = BitVec.ofNat 64 (f % 2 ^ 52 * 4096) := by
      apply BitVec.eq_of_toNat_eq
      rw [BitVec.toNat_ofNat, BitVec.toNat_ofNat]
      omega
    rw [mkPte, mkPte, hword]
  rw [hsame, frameOf_mkPte (Nat.mod_lt _ (by decide))]

theorem filterMap_freedWith (flags : BitVec 64) (fs : List Nat) :
    (fs.filterMap fun f => freedWith (mkPte f flags)) = givesBack flags fs := by
  simp only [freedWith, has_mkPte_P, has_mkPte_ALLOC, frameOf_mkPte_mod, givesBack]
  split_ifs
  · exact congrFun List.filterMap_eq_map fs
  · simp

theorem RangeMapped.freed (h : RangeMapped flags mem vs fs c mem₁)
    (habsent : ∀ x ∈ vs.zip fs, has (mem.tables.pteAt x.1) PTE_P = false) :
    (vs.filterMap fun v => freedWith (mem₁.tables.pteAt v)) = givesBack flags fs := by
  have hfst : (vs.zip fs).map Prod.fst = vs := List.map_fst_zip (by rw [h.length])
  have hsnd : (vs.zip fs).map Prod.snd = fs := List.map_snd_zip (by rw [h.length])
  calc
    (vs.filterMap fun v => freedWith (mem₁.tables.pteAt v)) =
        (vs.zip fs).filterMap fun x => freedWith (mem₁.tables.pteAt x.1) := by
      conv_lhs => rw [← hfst]
      rw [List.filterMap_map]
      rfl
    _ = (vs.zip fs).filterMap fun x => freedWith (mkPte x.2 flags) := by
      refine List.filterMap_congr fun x hx => ?_
      rw [h.put x hx (habsent x hx)]
    _ = fs.filterMap fun f => freedWith (mkPte f flags) := by
      conv_rhs => rw [← hsnd]
      rw [List.filterMap_map]
      rfl
    _ = givesBack flags fs := filterMap_freedWith flags fs

end Rollback

section Calls

variable {mem mem₁ : Mem} {va sz flags : BitVec 64} {j f : Nat} {e : Errno} {pages : List Nat}

theorem Unchanged.refl (pages : List Nat) (mem : Mem) : Unchanged pages mem mem :=
  ⟨fun _ _ => rfl, fun _ => Iff.rfl⟩

theorem finishMap_err (hj : j < (NPAGE sz).toNat) :
    finishMap va sz (.err e, (NPAGE sz).toNat - j, mem₁) =
      unmapPages j va mem₁ >>= fun mem' => .ok (.err e, mem') := by
  have hbound : (NPAGE sz).toNat ≤ 2 ^ 52 := by
    have hlt := sz.isLt
    rw [toNat_NPAGE]
    split_ifs <;> omega
  have hback : (NPAGE sz).toNat - ((NPAGE sz).toNat - j) = j := by omega
  have hpages : (NPAGE (BitVec.ofNat 64 j * PGSZ)).toNat = j := by
    rw [toNat_NPAGE, toNat_mul_PGSZ (by omega), if_pos (Nat.mul_mod_left j 4096)]
    omega
  rw [finishMap, hback, unmapN, hpages]
  rfl

end Calls

end Arch
end XytherOS
