import XytherOS.Fs.Icache

/-!
# IcacheTransparent — a file with a page cache against the same file without one

The two files are read and written by the same calls.  The cache does not look at the size of the
file when it reads, and sets the size only for a page that it allocates, to the end of what is
written to that page; a page that has been skipped can not be read.
-/

namespace XytherOS
namespace Fs

open Function

variable {env : CacheEnv} {data : ByteStore Byte} {buf : Nat → Byte} {pages : Pages}

inductive FileReply
  | none
  | read (ret : Except Errno (List Byte))
  | write (ret : Except Errno Nat)

def FileReply.count : FileReply → Option Nat
  | .read (.ok bs) => some bs.length
  | .write (.ok n) => some n
  | _ => .none

/-- A file with a page cache and one without, and what the last call has returned. -/
structure FilePair where
  cached : FileInode
  direct : FileInode
  cachedReply : FileReply
  directReply : FileReply

inductive FileAct
  | iread (env : CacheEnv) (off sz : BitVec 64)
  | iwrite (env : CacheEnv) (off : BitVec 64) (buf : Nat → Byte) (sz : BitVec 64)

def pairStep (w : FilePair) : FileAct → Except Fault FilePair
  | .iread env off sz =>
    let (ret, cached) := iread env w.cached off sz
    let (ret', direct) := iread env w.direct off sz
    return ⟨cached, direct, .read ret, .read ret'⟩
  | .iwrite env off buf sz =>
    let (ret, cached) := iwrite env w.cached off buf sz
    let (ret', direct) := iwrite env w.direct off buf sz
    return ⟨cached, direct, .write ret, .write ret'⟩

def FilePair.start (data : ByteStore Byte) (small : data.size < 2 ^ 63) : FilePair :=
  { cached := ⟨BitVec.ofNat 64 data.size, data, small, some fun _ => none⟩
    direct := ⟨BitVec.ofNat 64 data.size, data, small, none⟩
    cachedReply := .none
    directReply := .none }

/-- Both calls have returned the same, and both files have the same size. -/
def SameReply (_ : FilePair) (_ : FileAct) (w' : FilePair) : Prop :=
  w'.cachedReply = w'.directReply ∧ w'.cached.size = w'.direct.size

/-- There is memory for the pages of the call, and for the file that a write makes. -/
def hasMemory (_ : FilePair) : FileAct → Bool
  | .iread env off sz => env.quietOver off sz.toNat
  | .iwrite env off _ sz => off.toNat + sz.toNat < 2 ^ 63 && env.quietOver off sz.toNat

/-- A read inside the file finds its pages, in the cache or in the file below, and one at the end
of the file does not.  A write inside the file finds its pages; one that ends at the end of the
file, or behind it, does not find the last. -/
def seesNoCache (w : FilePair) : FileAct → Bool
  | .iread env off sz =>
    if off < w.cached.size then
      off.toNat + sz.toNat ≤ w.cached.size.toNat && w.cached.readable env off sz
    else !w.cached.readable env off sz
  | .iwrite env off _ sz =>
    off.toNat + sz.toNat ≤ w.cached.size.toNat && w.cached.readable env off sz ||
      w.cached.size.toNat ≤ off.toNat + sz.toNat && sz != 0 &&
        !w.cached.readable env (off + sz - 1) 1

structure SameFile (w : FilePair) : Prop where
  cache : ∃ pages, w.cached.cache = some pages
  direct : w.direct.cache = none
  size : w.cached.size = w.direct.size
  length : w.direct.size.toNat = w.direct.data.size
  byte : ∀ p, w.cached.byte p = w.direct.data.byte p

/-! ## Writing through the cache -/

theorem icacheWritePage_spec (data : ByteStore Byte) {pgno : Nat} (hquiet : env.quiet pgno = true)
    (pages : Pages) :
    ∃ page pages', icacheWritePage env data pgno pages =
        (.ok (page, !pages.available env data pgno), pages') ∧
      (∀ j < 4096, page j = pages.byte data (pgno * 4096 + j)) ∧
      Pages.Same env data pages pages' := by
  have hget := icacheGetpage_spec env data pgno pages
  rw [icacheWritePage]
  cases havail : pages.available env data pgno with
  | true =>
    rw [if_pos havail] at hget
    rcases hget with ⟨page, pages', heq, hbytes, hsame⟩
    simp only [heq]
    exact ⟨page, pages', rfl, hbytes, hsame⟩
  | false =>
    rw [if_neg (by simp [havail])] at hget
    rcases hget with ⟨e, heq, he⟩
    cases he hquiet
    simp only [CacheEnv.quiet, Bool.and_eq_true, Option.isNone_iff_eq_none] at hquiet
    rcases hquiet with ⟨⟨halloc, hupdate⟩, -⟩
    simp only [heq, halloc]
    -- neither the cache nor the file below has the page
    simp only [Pages.available, halloc, hupdate, Bool.or_eq_false_iff, Option.isNone_none,
      Bool.and_true, Bool.true_and, decide_eq_false_iff_not] at havail
    have hnone : pages pgno = none := by simpa using havail.1
    refine ⟨_, pages, rfl, fun j hj => ?_, .refl⟩
    have hdiv : (pgno * 4096 + j) / 4096 = pgno := by omega
    simp only [Pages.byte, hdiv, hnone]
    exact (data.beyond _ (by omega)).symm

theorem byte_memcpy {page : Nat → Byte} {off : BitVec 64} {n : Nat} (buf : Nat → Byte)
    (hn : off.toNat % 4096 + n ≤ 4096)
    (hpage : ∀ j < 4096, page j = pages.byte data (off.toNat / 4096 * 4096 + j)) (p : Nat) :
    Pages.byte (update pages (off.toNat / 4096)
        (some (memcpy page (off.toNat % 4096) n buf))) data p =
      if off.toNat ≤ p ∧ p < off.toNat + n then buf (p - off.toNat) else pages.byte data p := by
  have hdiv := Nat.div_add_mod' off.toNat 4096
  by_cases hp : p / 4096 = off.toNat / 4096
  · have hpdiv := Nat.div_add_mod' p 4096
    have hmod : p % 4096 < 4096 := Nat.mod_lt _ (by decide)
    have hpos : off.toNat / 4096 * 4096 + p % 4096 = p := by
      rw [← hp]
      exact hpdiv
    rw [Pages.byte, hp, update_self]
    simp only [memcpy]
    by_cases hin : off.toNat ≤ p ∧ p < off.toNat + n
    · have hidx : p % 4096 - off.toNat % 4096 = p - off.toNat := by omega
      rw [if_pos hin, if_pos (by omega), hidx]
    · rw [if_neg hin, if_neg (by omega), hpage _ hmod, hpos]
  · rw [if_neg (by omega), Pages.byte, update_of_ne hp]
    rfl

theorem available_update {pgno q : Nat} (page : Nat → Byte) (h : q ≠ pgno) :
    Pages.available env data (update pages pgno (some page)) q =
      pages.available env data q := by
  rw [Pages.available, update_of_ne h, Pages.available]

theorem readable_update (env : CacheEnv) (data : ByteStore Byte) (pages : Pages)
    {off off' : BitVec 64} {sz : Nat} (page : Nat → Byte)
    (h : ∀ j < sz, (off' + BitVec.ofNat 64 j).toNat / 4096 ≠ off.toNat / 4096) :
    Pages.readable env data (update pages (off.toNat / 4096) (some page)) off' sz =
      pages.readable env data off' sz := by
  apply Bool.eq_iff_iff.2
  simp only [Pages.readable, List.all_eq_true, List.mem_range]
  refine forall₂_congr fun j hj => ?_
  rw [available_update page (h j hj)]

/-- What the loop of `icache_write` does where nothing stops it: the bytes are written, and the size
is that of before when all pages were available, and otherwise at most the end of the write, which
it is when the last page is new. -/
structure Written (env : CacheEnv) (data : ByteStore Byte) (pages : Pages) (isize : BitVec 64)
    (off : BitVec 64) (sz : Nat) (buf : Nat → Byte) (pages' : Pages) (isize' : BitVec 64) :
    Prop where
  byte : ∀ p, pages'.byte data p =
    if off.toNat ≤ p ∧ p < off.toNat + sz then buf (p - off.toNat) else pages.byte data p
  kept : pages.readable env data off sz = true → isize' = isize
  bound : pages.readable env data off sz = false → isize'.toNat ≤ off.toNat + sz
  extended : pages.readable env data off sz = false →
    (isize'.toNat = off.toNat + sz ↔
      pages.available env data ((off.toNat + sz - 1) / 4096) = false)

theorem Written.nil {off isize : BitVec 64} :
    Written env data pages isize off 0 buf pages isize where
  byte p := by rw [if_neg (by omega)]
  kept _ := rfl
  bound h := absurd h (by simp [Pages.readable])
  extended h := absurd h (by simp [Pages.readable])

theorem next_page (off : BitVec 64) (sz : Nat) (h : onPage off sz < sz) :
    off.toNat + onPage off sz = (off.toNat / 4096 + 1) * 4096 := by
  rw [onPage] at h ⊢
  omega

theorem readable_last {off : BitVec 64} {sz : Nat} (hsz : sz ≠ 0) (hwrap : off.toNat + sz < 2 ^ 64)
    (h : pages.readable env data off sz = true) :
    pages.available env data ((off.toNat + sz - 1) / 4096) = true := by
  simp only [Pages.readable, List.all_eq_true, List.mem_range, Bool.and_eq_true] at h
  have hpos : (off + BitVec.ofNat 64 (sz - 1)).toNat = off.toNat + sz - 1 := by
    rw [BitVec.toNat_add, BitVec.toNat_ofNat]
    omega
  have hlast := (h (sz - 1) (by omega)).1
  rwa [hpos] at hlast

theorem Written.cons {off isize isize1 isize' : BitVec 64} {sz : Nat} {pages1 pages' : Pages}
    {page : Nat → Byte} (hsz : sz ≠ 0) (hwrap : off.toNat + sz < 2 ^ 64)
    (hcopy : (env.copy (off.toNat / 4096)).isNone = true) (hsame : Pages.Same env data pages pages1)
    (hpage : ∀ j < 4096, page j = pages.byte data (off.toNat / 4096 * 4096 + j))
    (hsize : isize1 = if !pages.available env data (off.toNat / 4096) then
      off + BitVec.ofNat 64 (onPage off sz) else isize)
    (hrest : Written env data
      (update pages1 (off.toNat / 4096)
        (some (memcpy page (off.toNat % 4096) (onPage off sz) buf)))
      isize1 (off + BitVec.ofNat 64 (onPage off sz)) (sz - onPage off sz)
      (fun j => buf (onPage off sz + j)) pages' isize') :
    Written env data pages isize off sz buf pages' isize' := by
  have hle := onPage_le off sz
  have hnext : (off + BitVec.ofNat 64 (onPage off sz)).toNat = off.toNat + onPage off sz := by
    rw [BitVec.toNat_add, BitVec.toNat_ofNat]
    omega
  have hpage1 : ∀ j < 4096, page j = pages1.byte data (off.toNat / 4096 * 4096 + j) := by
    intro j hj
    rw [hsame.byte]
    exact hpage j hj
  have hfit : off.toNat % 4096 + onPage off sz ≤ 4096 := by
    have hmod := Nat.mod_lt off.toNat (show 0 < 4096 by decide)
    rw [onPage]
    omega
  -- what comes behind the first page does not depend on it
  have hbehind : ∀ j < sz - onPage off sz,
      (off + BitVec.ofNat 64 (onPage off sz) + BitVec.ofNat 64 j).toNat / 4096 ≠
        off.toNat / 4096 := by
    intro j hj
    have hstart := next_page off sz (by omega)
    have hpos : (off + BitVec.ofNat 64 (onPage off sz) + BitVec.ofNat 64 j).toNat =
        off.toNat + onPage off sz + j := by
      rw [BitVec.toNat_add, hnext, BitVec.toNat_ofNat]
      omega
    rw [hpos]
    omega
  have hread := readable_update env data pages1
    (memcpy page (off.toNat % 4096) (onPage off sz) buf) hbehind
  rw [hsame.readable] at hread
  have hsplit : pages.readable env data off sz = _ := pages.readable_split hsz
  rw [hcopy, Bool.and_true, ← hread] at hsplit
  have hlast : (off + BitVec.ofNat 64 (onPage off sz)).toNat + (sz - onPage off sz) =
      off.toNat + sz := by omega
  constructor
  case byte =>
    intro p
    rw [hrest.byte, hlast, hnext, byte_memcpy buf hfit hpage1, hsame.byte]
    by_cases hfirst : off.toNat ≤ p ∧ p < off.toNat + onPage off sz
    · rw [if_neg (by omega), if_pos hfirst, if_pos (by omega)]
    · rw [if_neg hfirst]
      by_cases hin : off.toNat ≤ p ∧ p < off.toNat + sz
      · have hidx : onPage off sz + (p - (off.toNat + onPage off sz)) = p - off.toNat := by omega
        rw [if_pos (by omega), if_pos hin, hidx]
      · rw [if_neg (by omega), if_neg hin]
  case kept =>
    intro hall
    rw [hsplit, Bool.and_eq_true] at hall
    rw [hrest.kept hall.2, hsize, if_neg (by simp [hall.1])]
  case bound =>
    intro hnot
    rw [hsplit, Bool.and_eq_false_iff] at hnot
    cases hr : Pages.readable env data _ (off + BitVec.ofNat 64 (onPage off sz))
        (sz - onPage off sz) with
    | false =>
      have hbound := hrest.bound hr
      omega
    | true =>
      -- the first page is the only new one
      have hfirst : pages.available env data (off.toNat / 4096) = false :=
        hnot.resolve_right (by rw [hr]; simp)
      rw [hrest.kept hr, hsize, if_pos (by simp [hfirst]), hnext]
      omega
  case extended =>
    intro hnot
    rw [hsplit, Bool.and_eq_false_iff] at hnot
    cases hr : Pages.readable env data _ (off + BitVec.ofNat 64 (onPage off sz))
        (sz - onPage off sz) with
    | false =>
      have hne : sz - onPage off sz ≠ 0 := by
        intro hzero
        rw [hzero] at hr
        simp [Pages.readable] at hr
      have hend := hrest.extended hr
      have hstart := next_page off sz (by omega)
      rw [hlast, available_update _ (by omega), hsame.available] at hend
      exact hend
    | true =>
      have hfirst : pages.available env data (off.toNat / 4096) = false :=
        hnot.resolve_right (by rw [hr]; simp)
      rw [hrest.kept hr, hsize, if_pos (by simp [hfirst]), hnext]
      by_cases hwhole : sz - onPage off sz = 0
      · -- the write ends on the first page
        have hpage' : (off.toNat + sz - 1) / 4096 = off.toNat / 4096 := by
          rw [onPage] at hwhole
          omega
        rw [hpage', hfirst]
        exact iff_of_true (by omega) rfl
      · have hstart := next_page off sz (by omega)
        have hthere := readable_last hwhole (by omega) hr
        rw [hlast, available_update _ (by omega), hsame.available] at hthere
        rw [hthere]
        exact iff_of_false (by omega) (by simp)

theorem icacheWrite_spec (data : ByteStore Byte) (buf : Nat → Byte) {k : Nat} (off : BitVec 64)
    (sz total : Nat) (hk : sz ≤ k) (hwrap : off.toNat + sz < 2 ^ 64)
    (hquiet : env.quietOver off sz = true) (pages : Pages) (isize : BitVec 64) :
    ∃ pages' isize', icacheWrite env data buf k off total sz pages isize =
        (.ok (total + sz), pages', isize') ∧
      Written env data pages isize off sz (fun j => buf (total + j)) pages' isize' := by
  induction k generalizing off sz total pages isize with
  | zero =>
    have hsz : sz = 0 := by omega
    subst hsz
    exact ⟨pages, isize, rfl, .nil⟩
  | succ k ih =>
    rw [icacheWrite]
    by_cases hsz : sz = 0
    · subst hsz
      rw [if_pos rfl]
      exact ⟨pages, isize, rfl, .nil⟩
    rw [if_neg hsz]
    rcases CacheEnv.quietOver_split hsz hquiet with ⟨hfirst, hothers⟩
    rcases icacheWritePage_spec data hfirst pages with ⟨page, pages1, hget, hpage, hsame⟩
    simp only [CacheEnv.quiet, Bool.and_eq_true, Option.isNone_iff_eq_none] at hfirst
    rcases hfirst with ⟨⟨-, hupdate⟩, hcopy⟩
    have hpos := onPage_pos off hsz
    have hle := onPage_le off sz
    have hfold : min (4096 - off.toNat % 4096) sz = onPage off sz := rfl
    simp only [hget, hcopy, hupdate, ite_self, hfold]
    have hnext : (off + BitVec.ofNat 64 (onPage off sz)).toNat = off.toNat + onPage off sz := by
      rw [BitVec.toNat_add, BitVec.toNat_ofNat]
      omega
    rcases ih (off + BitVec.ofNat 64 (onPage off sz)) (sz - onPage off sz) (total + onPage off sz)
      (by omega) (by omega) hothers
      (update pages1 (off.toNat / 4096)
        (some (memcpy page (off.toNat % 4096) (onPage off sz) fun j => buf (total + j))))
      (if (!pages.available env data (off.toNat / 4096)) = true then
        off + BitVec.ofNat 64 (onPage off sz) else isize) with ⟨pages', isize', heq, hrest⟩
    have htotal : total + onPage off sz + (sz - onPage off sz) = total + sz := by omega
    rw [htotal] at heq
    simp only [Nat.add_assoc] at hrest
    exact ⟨pages', isize', heq, .cons hsz hwrap (by simp [hcopy]) hsame hpage rfl hrest⟩

theorem eq_of_getD {l l' : List Byte} (hlen : l.length = l'.length)
    (h : ∀ j < l.length, l.getD j 0 = l'.getD j 0) : l = l' := by
  refine List.ext_getElem hlen fun j hj hj' => ?_
  have hbyte := h j hj
  rwa [List.getD_eq_getElem?_getD, List.getD_eq_getElem?_getD, List.getElem?_eq_getElem hj,
    List.getElem?_eq_getElem hj'] at hbyte

theorem ireadData_ok {off sz : Nat} (h : off < data.size) :
    ireadData data off sz = .ok (data.read off sz) := if_neg (Nat.not_le.2 h)

theorem ireadData_error {off sz : Nat} (h : data.size ≤ off) :
    ireadData data off sz = .error .EPERM := if_pos h

section Pair

variable {w : FilePair} {ddata : ByteStore Byte} {off sz isize : BitVec 64}

theorem iread_same_iff (hsize : isize.toNat = ddata.size)
    (hbyte : ∀ p, pages.byte data p = ddata.byte p) (hquiet : env.quietOver off sz.toNat = true) :
    (icacheRead env data sz.toNat off sz.toNat pages).1 = ireadData ddata off.toNat sz.toNat ↔
      if off < isize then
        off.toNat + sz.toNat ≤ isize.toNat ∧ pages.readable env data off sz.toNat = true
      else pages.readable env data off sz.toNat = false := by
  have hread := icacheRead_spec env data off sz.toNat le_rfl pages
  have hbound := isize.isLt
  by_cases hr : pages.readable env data off sz.toNat = true
  · rw [if_pos hr] at hread
    rcases hread with ⟨bs, pages', heq, hlen, hbytes, -⟩
    rw [heq]
    by_cases hlt : off < isize
    · have hlt' : off.toNat < ddata.size := hsize ▸ hlt
      rw [if_pos hlt, ireadData_ok hlt', Except.ok.injEq]
      constructor
      · -- the direct read ends at the end of the file
        intro heq'
        have hlen' := congrArg List.length heq'
        rw [hlen, ByteStore.read_length] at hlen'
        exact ⟨by omega, hr⟩
      · rintro ⟨hend, -⟩
        refine eq_of_getD ?_ fun j hj => ?_
        · rw [hlen, ByteStore.read_length]
          omega
        · have hpos : (off + BitVec.ofNat 64 j).toNat = off.toNat + j := by
            rw [BitVec.toNat_add, BitVec.toNat_ofNat]
            omega
          rw [hbytes j (by omega), hbyte, hpos, getD_read ddata (by omega)]
    · have hge : ddata.size ≤ off.toNat := by
        rw [BitVec.lt_def] at hlt
        omega
      rw [if_neg hlt, ireadData_error hge, hr]
      simp
  · rw [if_neg hr] at hread
    rcases hread with ⟨e, pages', heq, he, -⟩
    rw [heq, he hquiet]
    rw [Bool.not_eq_true] at hr
    by_cases hlt : off < isize
    · have hlt' : off.toNat < ddata.size := hsize ▸ hlt
      rw [if_pos hlt, ireadData_ok hlt', hr]
      simp
    · have hge : ddata.size ≤ off.toNat := by
        rw [BitVec.lt_def] at hlt
        omega
      rw [if_neg hlt, ireadData_error hge, hr]
      simp

theorem icacheRead_byte (env : CacheEnv) (data : ByteStore Byte) (off : BitVec 64) (sz : Nat)
    (pages : Pages) (p : Nat) :
    (icacheRead env data sz off sz pages).2.byte data p = pages.byte data p := by
  have hread := icacheRead_spec env data off sz le_rfl pages
  by_cases hr : pages.readable env data off sz = true
  · rw [if_pos hr] at hread
    rcases hread with ⟨bs, pages', heq, -, -, hsame⟩
    rw [heq]
    exact hsame.byte p
  · rw [if_neg hr] at hread
    rcases hread with ⟨e, pages', heq, -, hsame⟩
    rw [heq]
    exact hsame.byte p

theorem iwrite_size_iff {pages' : Pages} {isize' : BitVec 64} {buf : Nat → Byte}
    (hwritten : Written env data pages isize off sz.toNat buf pages' isize')
    (hmem : off.toNat + sz.toNat < 2 ^ 63) :
    isize' = (if isize.toNat < off.toNat + sz.toNat then
        BitVec.ofNat 64 (off.toNat + sz.toNat) else isize) ↔
      (off.toNat + sz.toNat ≤ isize.toNat ∧ pages.readable env data off sz.toNat = true) ∨
        (isize.toNat ≤ off.toNat + sz.toNat ∧ sz ≠ 0 ∧
          pages.available env data ((off.toNat + sz.toNat - 1) / 4096) = false) := by
  have hbound := isize.isLt
  have hend : (BitVec.ofNat 64 (off.toNat + sz.toNat)).toNat = off.toNat + sz.toNat := by
    rw [BitVec.toNat_ofNat]
    omega
  cases hr : pages.readable env data off sz.toNat with
  | true =>
    rw [hwritten.kept hr]
    have hlast : sz ≠ 0 →
        pages.available env data ((off.toNat + sz.toNat - 1) / 4096) = true := by
      intro hsz
      exact readable_last (by simpa [BitVec.toNat_eq] using hsz) (by omega) hr
    by_cases hlt : isize.toNat < off.toNat + sz.toNat
    · -- the size stays behind
      rw [if_pos hlt]
      refine iff_of_false ?_ ?_
      · intro heq
        rw [heq, hend] at hlt
        omega
      · rintro (⟨hle, -⟩ | ⟨-, hsz, hnew⟩)
        · omega
        · exact absurd (hlast hsz) (by simp [hnew])
    · rw [if_neg hlt]
      exact iff_of_true rfl (.inl ⟨Nat.not_lt.1 hlt, rfl⟩)
  | false =>
    have hsz : sz ≠ 0 := by
      rintro rfl
      simp [Pages.readable] at hr
    have hbound' := hwritten.bound hr
    have hext := hwritten.extended hr
    by_cases hlt : isize.toNat < off.toNat + sz.toNat
    · rw [if_pos hlt]
      constructor
      · intro heq
        exact .inr ⟨hlt.le, hsz, hext.1 (heq ▸ hend)⟩
      · rintro (⟨-, hnot⟩ | ⟨-, -, hnew⟩)
        · exact absurd hnot (by simp)
        · exact BitVec.eq_of_toNat_eq ((hext.2 hnew).trans hend.symm)
    · rw [if_neg hlt]
      constructor
      · rintro rfl
        have hall : isize'.toNat = off.toNat + sz.toNat := by omega
        exact .inr ⟨hall.le, hsz, hext.1 hall⟩
      · rintro (⟨-, hnot⟩ | ⟨hle, -, hnew⟩)
        · exact absurd hnot (by simp)
        · refine BitVec.eq_of_toNat_eq ((hext.2 hnew).trans ?_)
          omega

theorem readable_one (data : ByteStore Byte) (pages : Pages) {q : Nat}
    (hq : (off + sz - 1).toNat / 4096 = q) (hcopy : env.quiet q = true) :
    pages.readable env data (off + sz - 1) 1 = pages.available env data q := by
  simp only [CacheEnv.quiet, Bool.and_eq_true] at hcopy
  have hzero : off + sz - 1 + BitVec.ofNat 64 0 = off + sz - 1 := BitVec.add_zero _
  simp only [Pages.readable, List.range_one, List.all_cons, List.all_nil, Bool.and_true, hzero, hq,
    hcopy.2]

theorem quiet_last (hsz : sz ≠ 0) (hmem : off.toNat + sz.toNat < 2 ^ 63)
    (hquiet : env.quietOver off sz.toNat = true) :
    (off + sz - 1).toNat = off.toNat + sz.toNat - 1 ∧
      env.quiet ((off.toNat + sz.toNat - 1) / 4096) = true := by
  have hpos : sz.toNat ≠ 0 := by simpa [BitVec.toNat_eq] using hsz
  simp only [CacheEnv.quietOver, List.all_eq_true, List.mem_range] at hquiet
  have hlast := hquiet (sz.toNat - 1) (by omega)
  have hend : (off + BitVec.ofNat 64 (sz.toNat - 1)).toNat = off.toNat + sz.toNat - 1 := by
    rw [BitVec.toNat_add, BitVec.toNat_ofNat]
    omega
  rw [hend] at hlast
  refine ⟨?_, hlast⟩
  rw [BitVec.toNat_sub, BitVec.toNat_add]
  have hone : (1 : BitVec 64).toNat = 1 := rfl
  rw [hone]
  omega

end Pair

theorem pairStep_iread {w : FilePair} (h : SameFile w) {off sz : BitVec 64}
    (hmem : hasMemory w (.iread env off sz) = true) :
    ∃ w', pairStep w (.iread env off sz) = .ok w' ∧ SameFile w' ∧
      (SameReply w (.iread env off sz) w' ↔ seesNoCache w (.iread env off sz) = true) := by
  rcases w with ⟨⟨size, data, small, cache⟩, ⟨dsize, ddata, dsmall, dcache⟩, r, r'⟩
  rcases h with ⟨⟨pages, hcache⟩, hdirect, hsize, hlength, hbyte⟩
  simp only at hcache hdirect hsize hlength hbyte
  subst hcache hdirect hsize
  have hsame := iread_same_iff hlength hbyte hmem
  refine ⟨_, rfl, ⟨⟨_, rfl⟩, rfl, rfl, hlength, fun p => ?_⟩, ?_⟩
  · exact (icacheRead_byte env data off sz.toNat pages p).trans (hbyte p)
  · simp only [SameReply, seesNoCache, FileInode.readable, FileReply.read.injEq, and_true,
      hsame]
    split_ifs <;> simp

theorem pairStep_iwrite {w : FilePair} (h : SameFile w) {off sz : BitVec 64} {buf : Nat → Byte}
    (hmem : hasMemory w (.iwrite env off buf sz) = true) :
    ∃ w', pairStep w (.iwrite env off buf sz) = .ok w' ∧
      (seesNoCache w (.iwrite env off buf sz) = true → SameFile w') ∧
      (SameReply w (.iwrite env off buf sz) w' ↔
        seesNoCache w (.iwrite env off buf sz) = true) := by
  rcases w with ⟨⟨size, data, small, cache⟩, ⟨dsize, ddata, dsmall, dcache⟩, r, r'⟩
  rcases h with ⟨⟨pages, hcache⟩, hdirect, hsize, hlength, hbyte⟩
  simp only at hcache hdirect hsize hlength hbyte
  subst hcache hdirect hsize
  simp only [hasMemory, Bool.and_eq_true, decide_eq_true_eq] at hmem
  rcases hmem with ⟨hend, hquiet⟩
  rcases icacheWrite_spec data buf off sz.toNat 0 le_rfl (by omega) hquiet pages size with
    ⟨pages', size', heq, hwritten⟩
  simp only [Nat.zero_add] at heq hwritten
  have hsizes := iwrite_size_iff hwritten hend
  have hsee : seesNoCache ⟨⟨size, data, small, some pages⟩, ⟨size, ddata, dsmall, none⟩, r, r'⟩
      (.iwrite env off buf sz) = true ↔
      (off.toNat + sz.toNat ≤ size.toNat ∧ pages.readable env data off sz.toNat = true) ∨
        (size.toNat ≤ off.toNat + sz.toNat ∧ sz ≠ 0 ∧
          pages.available env data ((off.toNat + sz.toNat - 1) / 4096) = false) := by
    simp only [seesNoCache, FileInode.readable, Bool.or_eq_true, Bool.and_eq_true,
      decide_eq_true_eq, bne_iff_ne, Bool.not_eq_true', and_assoc]
    refine or_congr Iff.rfl (and_congr_right fun _ => and_congr_right fun hsz => ?_)
    rcases quiet_last hsz hend hquiet with ⟨hlast, hone⟩
    have hsingle := readable_one data pages (congrArg (· / 4096) hlast) hone
    change Pages.readable env data pages (off + sz - 1) 1 = false ↔ _
    rw [hsingle]
  rw [hlength] at hsizes
  have hstep : pairStep ⟨⟨size, data, small, some pages⟩, ⟨size, ddata, dsmall, none⟩, r, r'⟩
      (.iwrite env off buf sz) =
      .ok ⟨⟨size', data, small, some pages'⟩,
        ⟨if ddata.size < off.toNat + sz.toNat then BitVec.ofNat 64 (off.toNat + sz.toNat) else size,
          ddata.write off.toNat sz.toNat buf, max_lt dsmall hend, none⟩,
        .write (.ok sz.toNat), .write (.ok sz.toNat)⟩ := by
    simp only [pairStep, iwrite, heq, iwriteData, hend, dif_pos, pure_eq_ok]
  refine ⟨_, hstep, fun hgood => ⟨⟨pages', rfl⟩, rfl, ?_, ?_, fun p => ?_⟩, ?_⟩
  · exact hsizes.2 (hlength ▸ hsee.1 hgood)
  · change (if ddata.size < off.toNat + sz.toNat then BitVec.ofNat 64 (off.toNat + sz.toNat)
      else size).toNat = max ddata.size (off.toNat + sz.toNat)
    split_ifs with hlt
    · rw [BitVec.toNat_ofNat]
      omega
    · omega
  · have hp : pages.byte data p = ddata.byte p := hbyte p
    change pages'.byte data p = _
    rw [hwritten.byte, hp]
    rfl
  · rw [hsee, hlength]
    simp only [SameReply, true_and]
    exact hsizes

/-- What the files return, and their sizes, are the same in a run with memory exactly as long as the
calls see no cache. -/
theorem page_cache_transparent_iff (data : ByteStore Byte) (small : data.size < 2 ^ 63)
    (acts : List FileAct) (hmem : guarded pairStep hasMemory (.start data small) acts = true) :
    Stepwise (fun _ => False) pairStep SameReply (.start data small) acts ↔
      guarded pairStep seesNoCache (.start data small) acts = true := by
  have hlength : (BitVec.ofNat 64 data.size).toNat = data.size := by
    rw [BitVec.toNat_ofNat]
    omega
  have hstart : SameFile (.start data small) := ⟨⟨_, rfl⟩, rfl, rfl, hlength, fun p => rfl⟩
  refine stepwise_iff_guarded_of ?_ ?_ hstart hmem
  · intro w a hw hpre hok
    cases a with
    | iread env off sz =>
      rcases pairStep_iread hw hpre with ⟨w', hstep, hsame, hiff⟩
      rw [hstep]
      exact ⟨hiff.2 hok, hsame⟩
    | iwrite env off buf sz =>
      rcases pairStep_iwrite hw hpre with ⟨w', hstep, hsame, hiff⟩
      rw [hstep]
      exact ⟨hiff.2 hok, hsame hok⟩
  · intro w a hw hpre hbad hsafe
    cases a with
    | iread env off sz =>
      rcases pairStep_iread hw hpre with ⟨w', hstep, -, hiff⟩
      rw [hstep] at hsafe
      exact absurd (hiff.1 hsafe) (by simp [hbad])
    | iwrite env off buf sz =>
      rcases pairStep_iwrite hw hpre with ⟨w', hstep, -, hiff⟩
      rw [hstep] at hsafe
      exact absurd (hiff.1 hsafe) (by simp [hbad])

/-! ## Two runs -/

/-- The calls of a program that writes three bytes, reads them back, changes one of them and looks
behind the end of the page. -/
def wholeActs : List FileAct :=
  [.iwrite .plain 0 (fun _ => 0x41) 3, .iread .plain 0 3, .iwrite .plain 1 (fun _ => 0x42) 1,
    .iread .plain 0x1000 3]

theorem page_cache_transparent_iff_whole :
    guarded pairStep seesNoCache (.start .empty (by decide)) wholeActs = true ∧
    (Stepwise (fun _ => False) pairStep SameReply (.start .empty (by decide)) wholeActs ↔
      guarded pairStep seesNoCache (.start .empty (by decide)) wholeActs = true) :=
  ⟨by decide +kernel,
    page_cache_transparent_iff .empty (by decide) wholeActs (by decide +kernel)⟩

def appendActs : List FileAct :=
  [.iwrite .plain 0 (fun _ => 0x41) 3, .iwrite .plain 3 (fun _ => 0x42) 3]

def pairAfter (a : FileAct) : FilePair :=
  outcome (pairStep (.start .empty (by decide)) a) (.start .empty (by decide))

/-- The file with a page cache keeps the size of the first one.  And a read behind the end of a file
returns as many bytes as were asked for. -/
theorem page_cache_visible :
    (guarded pairStep hasMemory (.start .empty (by decide)) appendActs = true ∧
      ¬ Stepwise (fun _ => False) pairStep SameReply (.start .empty (by decide)) appendActs) ∧
    (guarded pairStep hasMemory (.start .empty (by decide))
        [.iwrite .plain 0 (fun _ => 0x41) 3, .iread .plain 0 10] = true ∧
      ¬ Stepwise (fun _ => False) pairStep SameReply (.start .empty (by decide))
        [.iwrite .plain 0 (fun _ => 0x41) 3, .iread .plain 0 10]) := by
  have hsecond : ∀ a a', Stepwise (fun _ => False) pairStep SameReply
      (.start .empty (by decide)) [a, a'] →
      SameReply (pairAfter a) a' (outcome (pairStep (pairAfter a) a') (pairAfter a)) := by
    intro a a' h
    cases a <;> cases a' <;> exact h.2.1
  refine ⟨⟨by decide +kernel, fun h => ?_⟩, by decide +kernel, fun h => ?_⟩
  · exact absurd (hsecond _ _ h).2 (by decide +kernel)
  · exact absurd (congrArg FileReply.count (hsecond _ _ h).1) (by decide +kernel)

end Fs
end XytherOS
