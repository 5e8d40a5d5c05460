import XytherOS.Arch.KmemRun
import XytherOS.Lib.CellCopy

/-!
# MemCopy — the copies of physical memory

`x86_64_memcpypp`, `x86_64_memcpyvp` and `x86_64_memcpypv` copy piece by piece.  A piece ends where a
page of a physical side does, so that the mounted pages show all of it, and after it the addresses
are translated as before.  The pieces together are one copy, byte after byte.
-/

namespace XytherOS
namespace Arch

open Cells Function
open Mm.Mmap (has PTE_P PTE_W)
open Mm.Pmm (PGROUND PGSZ)

namespace Kmem

variable {k k' k₁ k₂ : Kmem} {pa va a : BitVec 64} {n : Nat}

/-! ## `memcpy` -/

theorem memcpy_spec {dst src : BitVec 64} {D S : Nat → BitVec 64}
    (hdst : ∀ i < n, k.physAddr (dst + BitVec.ofNat 64 i) = some (D i))
    (hsrc : ∀ i < n, k.physAddr (src + BitVec.ofNat 64 i) = some (S i)) :
    k.memcpy dst src n = .ok { k with phys := copyCells D S k.phys n } := by
  have hloop : Safe (fun _ => False) (k.memcpy dst src n) fun k' =>
      k' = { k with phys := copyCells D S k.phys n } := by
    refine Safe.each_range (I := fun i k' => k' = { k with phys := copyCells D S k.phys i })
      (fun i hi k' hk' => ?_) rfl
    subst hk'
    have hD := hdst i hi
    have hS := hsrc i hi
    rw [load, show ({ k with phys := copyCells D S k.phys i } : Kmem).physAddr = k.physAddr from rfl,
      hS]
    simp only [ok_bind]
    rw [store, show ({ k with phys := copyCells D S k.phys i } : Kmem).physAddr = k.physAddr from rfl,
      hD]
    rfl
  cases hres : k.memcpy dst src n with
  | error e =>
    rw [hres] at hloop
    exact hloop.elim
  | ok k' =>
    rw [hres] at hloop
    exact congrArg Except.ok hloop

/-! ## The pieces -/

theorem toNat_MIN (a b : BitVec 64) : (MIN a b).toNat = min a.toNat b.toNat := by
  rw [MIN]
  split_ifs with h <;> rw [BitVec.lt_def] at h <;> omega

theorem toNat_MAX (a b : BitVec 64) : (MAX a b).toNat = max a.toNat b.toNat := by
  rw [MAX]
  split_ifs with h <;> rw [BitVec.lt_def] at h <;> omega

theorem toNat_PGSZ_sub {x : BitVec 64} (h : x.toNat < 4096) : (PGSZ - x).toNat = 4096 - x.toNat := by
  rw [BitVec.toNat_sub_of_le]
  · rfl
  · rw [BitVec.le_def]
    exact Nat.le_of_lt h

theorem toNat_lenpp (pdst psrc size : BitVec 64) : (lenpp pdst psrc size).toNat =
    min (4096 - max (psrc.toNat % 4096) (pdst.toNat % 4096)) size.toNat := by
  have hpage : PGSZ.toNat = 4096 := rfl
  have hmax : (MAX (PGOFF psrc) (PGOFF pdst)).toNat =
      max (psrc.toNat % 4096) (pdst.toNat % 4096) := by
    rw [toNat_MAX, toNat_PGOFF, toNat_PGOFF]
  rw [lenpp, toNat_MIN, toNat_MIN, toNat_PGSZ_sub (by omega), hmax, hpage]
  omega

theorem toNat_lenp (pa size : BitVec 64) : (lenp pa size).toNat =
    min (4096 - pa.toNat % 4096) size.toNat := by
  rw [lenp, toNat_MIN, toNat_PGSZ_sub (by rw [toNat_PGOFF]; omega), toNat_PGOFF]

/-- A piece is not empty, is no longer than what is left, and ends in the page it begins in. -/
def InPage (p size len : BitVec 64) : Prop :=
  0 < len.toNat ∧ len.toNat ≤ size.toNat ∧ p.toNat % 4096 + len.toNat ≤ 4096

theorem lenpp_inPage {size : BitVec 64} (h : size ≠ 0) (pdst psrc : BitVec 64) :
    InPage pdst size (lenpp pdst psrc size) ∧ InPage psrc size (lenpp pdst psrc size) := by
  have hpos : 0 < size.toNat := by
    rcases exists_fuel h with ⟨m, hm⟩
    omega
  rw [InPage, InPage, toNat_lenpp]
  omega

theorem lenp_inPage {size : BitVec 64} (h : size ≠ 0) (pa : BitVec 64) :
    InPage pa size (lenp pa size) := by
  have hpos : 0 < size.toNat := by
    rcases exists_fuel h with ⟨m, hm⟩
    omega
  rw [InPage, toNat_lenp]
  omega

/-! ## One piece -/

theorem Shows.ne (h : Shows k pa va k') (ha : has (k.pte (vpn a)) PTE_P = true) : vpn a ≠ vpn va := by
  intro heq
  rw [heq, h.absent] at ha
  exact absurd ha (by decide)

theorem Shows.leave (h : Shows k pa va k') (hsound : Sound k₁)
    (hpte : k₁.pte (vpn va) = k'.pte (vpn va)) (hview : k₁.physAddr = k'.physAddr) :
    ∃ k₂, k₁.unmount va = .ok k₂ ∧ Sound k₂ ∧ k₂.physAddr = k.physAddr ∧ k₂.phys = k₁.phys ∧
      ∀ w, w ≠ vpn va → k₂.pte w = k₁.pte w := by
  have hmounted : k₁.pte (vpn va) = mkPte (frameOf pa) PTE_KRW := by
    rw [hpte, h.pte, update_self]
  rcases unmount_mounted hmounted with ⟨k₂, hok, hun, hpte2⟩
  have hothers : ∀ w, w ≠ vpn va → k₂.pte w = k₁.pte w := by
    intro w hw
    rw [hpte2, update_of_ne hw]
  refine ⟨k₂, hok, hun.sound hsound, funext fun a => ?_, hun.phys, hothers⟩
  by_cases ha : vpn a = vpn va
  · rw [physAddr_eq, physAddr_eq, ha, h.absent, hpte2, update_self,
      show has (0 : BitVec 64) PTE_P = false by decide]
    simp
  · calc
      k₂.physAddr a = k₁.physAddr a := by rw [physAddr_eq, physAddr_eq, hothers _ ha]
      _ = k'.physAddr a := by rw [hview]
      _ = k.physAddr a := by rw [physAddr_eq, physAddr_eq, h.pte, update_of_ne ha]

theorem Sound.setPhys (h : Sound k) (m : BitVec 64 → BitVec 8) : Sound { k with phys := m } :=
  ⟨h.paged, h.mapped⟩

theorem piece_pp {pdst psrc vdst vsrc size len : BitVec 64} (h₁ : Shows k (PGROUND pdst) vdst k₁)
    (h₂ : Shows k₁ (PGROUND psrc) vsrc k₂) (hdst : InPage pdst size len)
    (hsrc : InPage psrc size len) :
    ∃ k3 k4 k5, k₂.memcpy (vdst + PGOFF pdst) (vsrc + PGOFF psrc) len.toNat = .ok k3 ∧
      k3.unmount vsrc = .ok k4 ∧ k4.unmount vdst = .ok k5 ∧ Sound k5 ∧ k5.physAddr = k.physAddr ∧
      k5.phys = copyCells (fun i => pdst + BitVec.ofNat 64 i) (fun i => psrc + BitVec.ofNat 64 i)
        k.phys len.toNat := by
  have hcopy := memcpy_spec (k := k₂) (n := len.toNat)
    (fun i hi => h₂.keeps (h₁.window (i := i) (by rcases hdst with ⟨-, -, hdst⟩; omega)))
    (fun i hi => h₂.window (i := i) (by rcases hsrc with ⟨-, -, hsrc⟩; omega))
  have hphys : k₂.phys = k.phys := h₂.phys.trans h₁.phys
  rw [hphys] at hcopy
  generalize copyCells (fun i => pdst + BitVec.ofNat 64 i) (fun i => psrc + BitVec.ofNat 64 i)
    k.phys len.toNat = m at hcopy ⊢
  rcases h₂.leave (h₂.sound.setPhys m) rfl rfl with ⟨k4, hun4, hs4, hview4, hphys4, hpte4⟩
  have hmounted : has (k₁.pte (vpn vdst)) PTE_P = true := by
    rw [h₁.pte, update_self, has_mkPte_P]
    decide
  have hne := h₂.ne hmounted
  have hpte : k4.pte (vpn vdst) = k₁.pte (vpn vdst) := by
    rw [hpte4 _ hne]
    change k₂.pte _ = _
    rw [h₂.pte, update_of_ne hne]
  rcases h₁.leave hs4 hpte hview4 with ⟨k5, hun5, hs5, hview5, hphys5, -⟩
  exact ⟨_, k4, k5, hcopy, hun4, hun5, hs5, hview5, by rw [hphys5, hphys4]⟩

theorem piece_p {p len : BitVec 64} {dst src : BitVec 64} {D S : Nat → BitVec 64}
    (h : Shows k (PGROUND p) va k₁)
    (hdst : ∀ i < len.toNat, k₁.physAddr (dst + BitVec.ofNat 64 i) = some (D i))
    (hsrc : ∀ i < len.toNat, k₁.physAddr (src + BitVec.ofNat 64 i) = some (S i)) :
    ∃ k₂ k3, k₁.memcpy dst src len.toNat = .ok k₂ ∧ k₂.unmount va = .ok k3 ∧ Sound k3 ∧
      k3.physAddr = k.physAddr ∧ k3.phys = copyCells D S k.phys len.toNat := by
  have hcopy := memcpy_spec hdst hsrc
  rw [h.phys] at hcopy
  generalize copyCells D S k.phys len.toNat = m at hcopy ⊢
  rcases h.leave (h.sound.setPhys m) rfl rfl with ⟨k3, hun, hs, hview, hphys, -⟩
  exact ⟨_, k3, hcopy, hun, hs, hview, hphys⟩

/-! ## Whole copies -/

def bytesFrom (p : BitVec 64) (i : Nat) : BitVec 64 := p + BitVec.ofNat 64 i

def mappedFrom (k : Kmem) (va : BitVec 64) (i : Nat) : BitVec 64 :=
  (k.physAddr (bytesFrom va i)).getD 0

def Accessible (k : Kmem) (va size : BitVec 64) : Prop :=
  ∀ i < size.toNat, (k.physAddr (bytesFrom va i)).isSome = true

/-- The mount of `pa` does not succeed, and the call ends with it and leaves memory as it is. -/
def StopsAt (k : Kmem) (pa : BitVec 64) (res : Except Fault (Ret × Kmem)) : Prop :=
  (∃ e k' k'', k.mount pa = .ok (.error e, k') ∧ res = .ok (.err e, k'') ∧ k''.phys = k.phys) ∨
    ∃ msg, k.mount pa = .error (.assertion msg) ∧ res = .error (.assertion msg)

/-- Of `n` bytes one after the other is copied from `src i` to `dst i`, and no other byte changes.
Only a mount of one of the `pages i` can end this before, after `i` bytes. -/
def Copies (dst src : Nat → BitVec 64) (pages : Nat → List (BitVec 64)) (n : Nat) (k : Kmem)
    (res : Except Fault (Ret × Kmem)) : Prop :=
  (∃ k', res = .ok (.ok, k') ∧ k'.phys = copyCells dst src k.phys n ∧
      ∀ a, (∀ i < n, dst i ≠ a) → k'.phys a = k.phys a) ∨
    ∃ i < n, ∃ pa ∈ pages i, ∃ k₁, k₁.phys = copyCells dst src k.phys i ∧ StopsAt k₁ pa res

section Copies

variable {dst src : Nat → BitVec 64} {pages : Nat → List (BitVec 64)} {size len : BitVec 64}
  {res : Except Fault (Ret × Kmem)}

theorem bytesFrom_add (p len : BitVec 64) (i : Nat) :
    bytesFrom p (len.toNat + i) = bytesFrom (p + len) i := by
  rw [bytesFrom, bytesFrom, BitVec.ofNat_add, BitVec.ofNat_toNat, BitVec.setWidth_eq,
    BitVec.add_assoc]

theorem Copies.zero : Copies dst src pages 0 k (.ok (.ok, k)) :=
  .inl ⟨k, rfl, rfl, fun _ _ => rfl⟩

theorem Copies.next {l : Nat} (hl : l ≤ n) (hphys : k₁.phys = copyCells dst src k.phys l)
    (h : Copies (fun i => dst (l + i)) (fun i => src (l + i)) (fun i => pages (l + i)) (n - l) k₁ res) :
    Copies dst src pages n k res := by
  have hsum : l + (n - l) = n := by omega
  rcases h with ⟨k', hok, hk', -⟩ | ⟨i, hi, pa, hpa, k₂, hk2, hstop⟩
  · rw [hphys, ← copyCells_add, hsum] at hk'
    refine .inl ⟨k', hok, hk', fun a ha => ?_⟩
    rw [hk', copyCells_frame ha]
  · rw [hphys, ← copyCells_add] at hk2
    exact .inr ⟨l + i, by omega, pa, hpa, k₂, hk2, hstop⟩

theorem Copies.stop (hn : 0 < n) (hpa : pa ∈ pages 0) (hphys : k₁.phys = k.phys)
    (h : StopsAt k₁ pa res) : Copies dst src pages n k res :=
  .inr ⟨0, hn, pa, hpa, k₁, hphys, h⟩

theorem bytesFrom_zero (p : BitVec 64) : bytesFrom p 0 = p := by
  simp [bytesFrom]

theorem toNat_left (h : len.toNat ≤ size.toNat) : (size - len).toNat = size.toNat - len.toNat :=
  BitVec.toNat_sub_of_le h

theorem memcpyppLoop_copies (fuel : Nat) (pdst psrc size : BitVec 64) (hs : Sound k)
    (hfuel : size.toNat ≤ fuel) :
    Copies (bytesFrom pdst) (bytesFrom psrc)
      (fun i => [PGROUND (bytesFrom pdst i), PGROUND (bytesFrom psrc i)]) size.toNat k
      (memcpyppLoop fuel pdst psrc size k) := by
  -- induction on the fuel, of which each piece takes no more than its length
  induction fuel generalizing pdst psrc size k with
  | zero =>
    have hsize : size = 0 := BitVec.eq_of_toNat_eq (by simpa using hfuel)
    rw [hsize, memcpyppLoop_zero]
    exact .zero
  | succ fuel ih =>
    by_cases hsize : size = 0
    · rw [hsize, memcpyppLoop_zero]
      exact .zero
    rcases lenpp_inPage hsize pdst psrc with ⟨hdst, hsrc⟩
    have hpos : 0 < size.toNat := hdst.1.trans_le hdst.2.1
    rw [memcpyppLoop, if_neg hsize]
    have hfirst := hs.mount (PGROUND pdst)
    cases hmount : k.mount (PGROUND pdst) with
    | error f =>
      rw [hmount] at hfirst
      cases hfirst
      exact .stop hpos (by simp [bytesFrom_zero]) rfl (.inr ⟨_, hmount, rfl⟩)
    | ok r =>
      rw [hmount] at hfirst
      cases hfirst with
      | failed hunseen =>
        have hstop : StopsAt k (PGROUND pdst) _ := .inl ⟨_, _, _, hmount, rfl, hunseen.phys⟩
        exact .stop hpos (by simp [bytesFrom_zero]) rfl hstop
      | @done vdst k₁ hshows1 =>
        simp only [ok_bind]
        have hsecond := hshows1.sound.mount (PGROUND psrc)
        cases hmount2 : k₁.mount (PGROUND psrc) with
        | error f =>
          rw [hmount2] at hsecond
          cases hsecond
          exact .stop hpos (by simp [bytesFrom_zero]) hshows1.phys (.inr ⟨_, hmount2, rfl⟩)
        | ok r2 =>
          rw [hmount2] at hsecond
          cases hsecond with
          | @failed e k₂ hunseen =>
            rcases hshows1.leave hunseen.sound (by rw [hunseen.pte])
              (physAddr_congr hunseen.pte) with ⟨k3, hun, -, -, hphys, -⟩
            simp only [ok_bind, hun]
            have hstop : StopsAt k₁ (PGROUND psrc) _ :=
              .inl ⟨e, k₂, k3, hmount2, rfl, hphys.trans hunseen.phys⟩
            exact .stop hpos (by simp [bytesFrom_zero]) hshows1.phys hstop
          | @done vsrc k₂ hshows2 =>
            rcases piece_pp hshows1 hshows2 hdst hsrc with
              ⟨k3, k4, k5, hcopy, hun4, hun5, hs5, -, hphys⟩
            simp only [ok_bind, hcopy, hun4, hun5]
            refine .next hdst.2.1 hphys ?_
            have hleft := toNat_left hdst.2.1
            have hrest := ih (pdst + lenpp pdst psrc size) (psrc + lenpp pdst psrc size)
              (size - lenpp pdst psrc size) hs5 (by have hlen := hdst.1; omega)
            rw [hleft] at hrest
            simpa only [bytesFrom_add] using hrest

/-- The `memcpy` of the other two loops, to or from the mounted page. -/
def memcpyWith (toMounted : Bool) (mounted va : BitVec 64) (n : Nat) (k : Kmem) :
    Except Fault Kmem :=
  if toMounted then k.memcpy mounted va n else k.memcpy va mounted n

theorem memcpyLoop_copies (toMounted : Bool) (fuel : Nat) (pa va size : BitVec 64) (hs : Sound k)
    (hfuel : size.toNat ≤ fuel) (hva : k.Accessible va size) :
    Copies (if toMounted then bytesFrom pa else k.mappedFrom va)
      (if toMounted then k.mappedFrom va else bytesFrom pa)
      (fun i => [PGROUND (bytesFrom pa i)]) size.toNat k
      (memcpyLoop (memcpyWith toMounted) fuel pa va size k) := by
  induction fuel generalizing pa va size k with
  | zero =>
    have hsize : size = 0 := BitVec.eq_of_toNat_eq (by simpa using hfuel)
    rw [hsize, memcpyLoop_zero]
    exact .zero
  | succ fuel ih =>
    by_cases hsize : size = 0
    · rw [hsize, memcpyLoop_zero]
      exact .zero
    have hlen := lenp_inPage hsize pa
    have hpos : 0 < size.toNat := hlen.1.trans_le hlen.2.1
    rw [memcpyLoop, if_neg hsize]
    have hfirst := hs.mount (PGROUND pa)
    cases hmount : k.mount (PGROUND pa) with
    | error f =>
      rw [hmount] at hfirst
      cases hfirst
      exact .stop hpos (by simp [bytesFrom_zero]) rfl (.inr ⟨_, hmount, rfl⟩)
    | ok r =>
      rw [hmount] at hfirst
      cases hfirst with
      | failed hunseen =>
        have hstop : StopsAt k (PGROUND pa) _ := .inl ⟨_, _, _, hmount, rfl, hunseen.phys⟩
        exact .stop hpos (by simp [bytesFrom_zero]) rfl hstop
      | @done mounted k₁ hshows =>
        have hphysical : ∀ i < (lenp pa size).toNat,
            k₁.physAddr (mounted + PGOFF pa + BitVec.ofNat 64 i) = some (bytesFrom pa i) :=
          fun i hi => hshows.window (by have hin := hlen.2.2; omega)
        have hvirtual : ∀ i < (lenp pa size).toNat,
            k₁.physAddr (va + BitVec.ofNat 64 i) = some (k.mappedFrom va i) := by
          intro i hi
          rcases Option.isSome_iff_exists.1 (hva i (hi.trans_le hlen.2.1)) with ⟨b, hb⟩
          rw [mappedFrom, hb]
          exact hshows.keeps hb
        have hpiece : ∃ k₂ k3,
            memcpyWith toMounted (mounted + PGOFF pa) va (lenp pa size).toNat k₁ = .ok k₂ ∧
            k₂.unmount mounted = .ok k3 ∧ Sound k3 ∧ k3.physAddr = k.physAddr ∧
            k3.phys = copyCells (if toMounted then bytesFrom pa else k.mappedFrom va)
              (if toMounted then k.mappedFrom va else bytesFrom pa) k.phys
              (lenp pa size).toNat := by
          cases toMounted with
          | true => exact piece_p hshows hphysical hvirtual
          | false => exact piece_p hshows hvirtual hphysical
        rcases hpiece with ⟨k₂, k3, hcopy, hun, hs3, hview, hphys⟩
        simp only [ok_bind, hcopy, hun]
        refine .next hlen.2.1 hphys ?_
        have hleft := toNat_left hlen.2.1
        have hva3 : k3.Accessible (va + lenp pa size) (size - lenp pa size) := by
          intro i hi
          rw [hview, ← bytesFrom_add]
          exact hva _ (by omega)
        have hrest := ih (pa + lenp pa size) (va + lenp pa size) (size - lenp pa size) hs3
          (by have hlen1 := hlen.1; omega) hva3
        have hmapped : k3.mappedFrom (va + lenp pa size) =
            fun i => k.mappedFrom va ((lenp pa size).toNat + i) := by
          funext i
          rw [mappedFrom, mappedFrom, hview, bytesFrom_add]
        rw [hleft, hmapped] at hrest
        cases toMounted with
        | true => simpa only [↓reduceIte, bytesFrom_add] using hrest
        | false => simpa only [Bool.false_eq_true, ↓reduceIte, bytesFrom_add] using hrest

end Copies

/-- Whenever the mounts succeed, the three functions end, and have copied the bytes one after the
other and changed no other; the virtual addresses are those of a buffer that is mapped.  No piece
leaves the page that is mounted for it. -/
theorem physical_copies_exact (h : Reachable k) :
    (∀ pdst psrc size, Copies (bytesFrom pdst) (bytesFrom psrc)
      (fun i => [PGROUND (bytesFrom pdst i), PGROUND (bytesFrom psrc i)]) size.toNat k
      (k.memcpypp pdst psrc size)) ∧
    (∀ pa va size, k.Accessible va size → Copies (bytesFrom pa) (k.mappedFrom va)
      (fun i => [PGROUND (bytesFrom pa i)]) size.toNat k (k.memcpyvp pa va size)) ∧
    (∀ va pa size, k.Accessible va size → Copies (k.mappedFrom va) (bytesFrom pa)
      (fun i => [PGROUND (bytesFrom pa i)]) size.toNat k (k.memcpypv va pa size)) ∧
    (∀ pdst psrc size, size ≠ 0 → InPage pdst size (lenpp pdst psrc size) ∧
      InPage psrc size (lenpp pdst psrc size)) ∧
    ∀ pa size, size ≠ 0 → InPage pa size (lenp pa size) := by
  have hs := h.sound
  refine ⟨fun pdst psrc size => ?_, fun pa va size hva => ?_, fun va pa size hva => ?_,
    fun pdst psrc size hsize => ?_, fun pa size hsize => ?_⟩
  · exact memcpyppLoop_copies _ pdst psrc size hs (Nat.le_refl _)
  · exact memcpyLoop_copies true _ pa va size hs (Nat.le_refl _) hva
  · exact memcpyLoop_copies false _ pa va size hs (Nat.le_refl _) hva
  · exact lenpp_inPage hsize pdst psrc
  · exact lenp_inPage hsize pa

theorem reachable_twoPages : Reachable twoPages := by
  refine ⟨twoPages, ⟨⟨0, [1], Mm.Vmm.start_twoPages⟩, fun a _ => ?_⟩, .refl⟩
  have hzero : twoPages.pte (vpn a) = 0 := by
    change PageTables.empty.pteAt (vpn a) = 0
    rw [PageTables.pteAt]
    split_ifs <;> rfl
  rw [hzero]
  decide

theorem physical_copies_exact_twoPages :
    ∃ k', twoPages.memcpypp 0x5000 0x6ffc 4 = .ok (.ok, k') ∧
      k'.phys = copyCells (bytesFrom 0x5000) (bytesFrom 0x6ffc) twoPages.phys 4 := by
  have hret : ((twoPages.memcpypp 0x5000 0x6ffc 4).toOption.map fun x => x.1) = some .ok := by
    decide +kernel
  rcases ok_of_toOption hret with ⟨⟨ret, k'⟩, hok, rfl⟩
  rcases (physical_copies_exact reachable_twoPages).1 0x5000 0x6ffc 4 with
    ⟨k'', hok', hphys, -⟩ | ⟨_, -, _, -, _, -, ⟨_, _, _, -, herr, -⟩ | ⟨_, -, herr⟩⟩
  · exact ⟨k'', hok', hphys⟩
  · have habs := hok.symm.trans herr
    simp at habs
  · have habs := hok.symm.trans herr
    simp at habs

end Kmem

end Arch
end XytherOS
