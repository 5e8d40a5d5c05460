import XytherOS.Fs.TmpfsStore

/-!
# Icache — the page cache of `fs/icache.c`

A regular file with a page cache is read and written through it, page by page.  A page that is
missing is read from the file below, which fails when the page begins behind its end, and is filled
up with zeros.  A write takes a new page then.  Nothing is ever written to the file below.

* The file below is a byte store that fails at its end, as `tmpfs_iread` does.
* A page is marked valid before the lock of the cache is released, so that every page of the tree is
  valid.
* The size of the inode is its `i_size`, which need not be the size of the file below.
-/

namespace XytherOS
namespace Fs

open Function

abbrev Pages := Nat → Option (Nat → Byte)

/-- The `inode_t` of a regular file, with the bytes that the file system has of it. -/
structure FileInode where
  size : BitVec 64
  data : ByteStore Byte
  small : data.size < 2 ^ 63
  cache : Option Pages

/-- What stops the cache at the page `pgno`: no page is found for it, it cannot be filled or
inserted, or nothing can be copied from or to it. -/
structure CacheEnv where
  alloc : Nat → Option Errno
  update : Nat → Option Errno
  copy : Nat → Option Errno

def CacheEnv.plain : CacheEnv := ⟨fun _ => none, fun _ => none, fun _ => none⟩

/-! ## Reading -/

def ireadData (data : ByteStore Byte) (off sz : Nat) : Except Errno (List Byte) :=
  if data.size ≤ off then .error .EPERM else .ok (data.read off sz)

def icacheGetpage (env : CacheEnv) (data : ByteStore Byte) (pgno : Nat) (pages : Pages) :
    Except Errno (Nat → Byte) × Pages :=
  match pages pgno with
  | some page => (.ok page, pages)
  | none =>
    match env.alloc pgno with
    | some e => (.error e, pages)
    | none =>
      match ireadData data (pgno * 4096) 4096 with
      | .error e => (.error e, pages)
      | .ok bs =>
        match env.update pgno with
        | some e => (.error e, pages)
        | none =>
          let page := fun j => bs.getD j 0
          (.ok page, update pages pgno (some page))

/-- The loop of `icache_read`.  Every turn reads at least one byte, so that `sz` turns are
enough. -/
def icacheRead (env : CacheEnv) (data : ByteStore Byte) :
    Nat → BitVec 64 → Nat → Pages → Except Errno (List Byte) × Pages
  | 0, _, _, pages => (.ok [], pages)
  | k + 1, offset, sz, pages =>
    if sz = 0 then (.ok [], pages)
    else
      let pgno := offset.toNat / 4096
      match icacheGetpage env data pgno pages with
      | (.error e, pages) => (.error e, pages)
      | (.ok page, pages) =>
        let size := min (4096 - offset.toNat % 4096) sz
        match env.copy pgno with
        | some e => (.error e, pages)
        | none =>
          let (rest, pages) :=
            icacheRead env data k (offset + BitVec.ofNat 64 size) (sz - size) pages
          (rest.map fun bs =>
            (List.range size).map (fun j => page (offset.toNat % 4096 + j)) ++ bs, pages)

def iread (env : CacheEnv) (ip : FileInode) (off sz : BitVec 64) :
    Except Errno (List Byte) × FileInode :=
  match ip.cache with
  | none => (ireadData ip.data off.toNat sz.toNat, ip)
  | some pages =>
    let (res, pages) := icacheRead env ip.data sz.toNat off sz.toNat pages
    (res, { ip with cache := some pages })

/-! ## Writing -/

/-- `iwrite_data` of a file that behaves as a byte array.  It has no memory for an array of half the
address space. -/
def iwriteData (ip : FileInode) (off : Nat) (buf : Nat → Byte) (sz : Nat) :
    Except Errno Nat × FileInode :=
  if h : off + sz < 2 ^ 63 then
    (.ok sz, { ip with
      size := if ip.data.size < off + sz then BitVec.ofNat 64 (off + sz) else ip.size
      data := ip.data.write off sz buf
      small := max_lt ip.small h })
  else (.error .EAGAIN, ip)

/-- The page that `icache_write` writes to, and whether it is new: at the end of the file below
`icache_getpage` fails, and a page is allocated. -/
def icacheWritePage (env : CacheEnv) (data : ByteStore Byte) (pgno : Nat) (pages : Pages) :
    Except Errno ((Nat → Byte) × Bool) × Pages :=
  match icacheGetpage env data pgno pages with
  | (.ok page, pages) => (.ok (page, false), pages)
  | (.error .EPERM, pages) =>
    match env.alloc pgno with
    | some e => (.error e, pages)
    | none => (.ok (fun _ => 0, true), pages)
  | (.error e, pages) => (.error e, pages)

/-- The loop of `icache_write`, of the bytes of `buf` from `total` on.  The size of the inode is set
for a new page only. -/
def icacheWrite (env : CacheEnv) (data : ByteStore Byte) (buf : Nat → Byte) :
    Nat → BitVec 64 → Nat → Nat → Pages → BitVec 64 → Except Errno Nat × Pages × BitVec 64
  | 0, _, total, _, pages, isize => (.ok total, pages, isize)
  | k + 1, offset, total, sz, pages, isize =>
    if sz = 0 then (.ok total, pages, isize)
    else
      let pgno := offset.toNat / 4096
      match icacheWritePage env data pgno pages with
      | (.error e, pages) => (.error e, pages, isize)
      | (.ok (page, new), pages) =>
        let size := min (4096 - offset.toNat % 4096) sz
        match env.copy pgno, if new then env.update pgno else none with
        | some e, _ => (.error e, pages, isize)
        | none, some e => (.error e, pages, isize)
        | none, none =>
          let page := memcpy page (offset.toNat % 4096) size fun j => buf (total + j)
          let isize := if new then offset + BitVec.ofNat 64 size else isize
          icacheWrite env data buf k (offset + BitVec.ofNat 64 size) (total + size)
            (sz - size) (update pages pgno (some page)) isize

def iwrite (env : CacheEnv) (ip : FileInode) (off : BitVec 64) (buf : Nat → Byte) (sz : BitVec 64) :
    Except Errno Nat × FileInode :=
  match ip.cache with
  | none => iwriteData ip off.toNat buf sz.toNat
  | some pages =>
    let (res, pages, isize) := icacheWrite env ip.data buf sz.toNat off 0 sz.toNat pages ip.size
    (res, { ip with size := isize, cache := some pages })

/-! ## What is read -/

/-- The byte at the offset `p`: that of the cached page, or that of the file below. -/
def Pages.byte (pages : Pages) (data : ByteStore Byte) (p : Nat) : Byte :=
  match pages (p / 4096) with
  | some page => page (p % 4096)
  | none => data.byte p

def Pages.available (env : CacheEnv) (data : ByteStore Byte) (pages : Pages) (pgno : Nat) : Bool :=
  (pages pgno).isSome ||
    (env.alloc pgno).isNone && decide (pgno * 4096 < data.size) && (env.update pgno).isNone

def Pages.readable (env : CacheEnv) (data : ByteStore Byte) (pages : Pages) (off : BitVec 64)
    (sz : Nat) : Bool :=
  (List.range sz).all fun j =>
    let pgno := (off + BitVec.ofNat 64 j).toNat / 4096
    pages.available env data pgno && (env.copy pgno).isNone

namespace FileInode

def byte (ip : FileInode) (p : Nat) : Byte :=
  match ip.cache with
  | none => ip.data.byte p
  | some pages => pages.byte ip.data p

/-- The byte that a read at `off` finds `j` bytes further.  The offsets of the page cache wrap. -/
def byteFrom (ip : FileInode) (off : BitVec 64) (j : Nat) : Byte :=
  match ip.cache with
  | none => ip.data.byte (off.toNat + j)
  | some pages => pages.byte ip.data (off + BitVec.ofNat 64 j).toNat

theorem byteFrom_eq (ip : FileInode) {off : BitVec 64} {j : Nat} (h : off.toNat + j < 2 ^ 64) :
    ip.byteFrom off j = ip.byte (off.toNat + j) := by
  have hpos : (off + BitVec.ofNat 64 j).toNat = off.toNat + j := by
    rw [BitVec.toNat_add, BitVec.toNat_ofNat]
    omega
  rw [byteFrom, byte, hpos]

def readable (env : CacheEnv) (ip : FileInode) (off sz : BitVec 64) : Bool :=
  match ip.cache with
  | none => decide (off.toNat < ip.data.size)
  | some pages => pages.readable env ip.data off sz.toNat

end FileInode

variable {env : CacheEnv} {data : ByteStore Byte} {pages pages' : Pages}

structure Pages.Same (env : CacheEnv) (data : ByteStore Byte) (pages pages' : Pages) : Prop where
  byte : ∀ p, pages'.byte data p = pages.byte data p
  available : ∀ pgno, pages'.available env data pgno = pages.available env data pgno

theorem Pages.Same.refl : Pages.Same env data pages pages := ⟨fun _ => rfl, fun _ => rfl⟩

theorem Pages.Same.trans {pages'' : Pages} (h : Pages.Same env data pages pages')
    (h' : Pages.Same env data pages' pages'') : Pages.Same env data pages pages'' :=
  ⟨fun p => (h'.byte p).trans (h.byte p), fun n => (h'.available n).trans (h.available n)⟩

theorem Pages.Same.readable (h : Pages.Same env data pages pages') (off : BitVec 64) (sz : Nat) :
    pages'.readable env data off sz = pages.readable env data off sz := by
  simp only [Pages.readable, h.available]

variable {sz : Nat} {off : BitVec 64}

theorem getD_read (data : ByteStore Byte) {off j : Nat} (hj : j < sz) :
    (data.read off sz).getD j 0 = data.byte (off + j) := by
  rw [List.getD_eq_getElem?_getD, ByteStore.read, List.getElem?_map]
  by_cases hin : j < min (off + sz) data.size - off
  · rw [List.getElem?_range hin]
    rfl
  · rw [List.getElem?_eq_none (by simpa using hin)]
    exact (data.beyond _ (by omega)).symm

def CacheEnv.quiet (env : CacheEnv) (pgno : Nat) : Bool :=
  (env.alloc pgno).isNone && (env.update pgno).isNone && (env.copy pgno).isNone

/-- Nothing stops it at the pages of `sz` bytes from `off` on. -/
def CacheEnv.quietOver (env : CacheEnv) (off : BitVec 64) (sz : Nat) : Bool :=
  (List.range sz).all fun j => env.quiet ((off + BitVec.ofNat 64 j).toNat / 4096)

theorem icacheGetpage_spec (env : CacheEnv) (data : ByteStore Byte) (pgno : Nat) (pages : Pages) :
    if pages.available env data pgno then
      ∃ page pages', icacheGetpage env data pgno pages = (.ok page, pages') ∧
        (∀ j < 4096, page j = pages.byte data (pgno * 4096 + j)) ∧ Pages.Same env data pages pages'
    else ∃ e, icacheGetpage env data pgno pages = (.error e, pages) ∧
      (env.quiet pgno = true → e = .EPERM) := by
  have hdiv : ∀ j, j < 4096 → (pgno * 4096 + j) / 4096 = pgno := by omega
  have hmod : ∀ j, j < 4096 → (pgno * 4096 + j) % 4096 = j := by omega
  rw [icacheGetpage, Pages.available]
  cases hpage : pages pgno with
  | some page =>
    refine ⟨page, pages, rfl, fun j hj => ?_, .refl⟩
    simp only [Pages.byte, hdiv j hj, hmod j hj, hpage]
  | none =>
    cases halloc : env.alloc pgno with
    | some e => exact ⟨e, rfl, fun hquiet => by simp [CacheEnv.quiet, halloc] at hquiet⟩
    | none =>
      by_cases hend : data.size ≤ pgno * 4096
      · -- the page begins behind the end of the file below
        simp [ireadData, hend]
      · cases hupdate : env.update pgno with
        | some e => simp [ireadData, hend, CacheEnv.quiet, hupdate]
        | none =>
          simp only [ireadData, if_neg hend]
          rw [if_pos (by simpa using hend)]
          refine ⟨_, _, rfl, fun j hj => ?_, ?_, ?_⟩
          · rw [getD_read data hj]
            simp only [Pages.byte, hdiv j hj, hpage]
          · -- the new page has the bytes of the file below
            intro p
            by_cases hp : p / 4096 = pgno
            · have hlt : p % 4096 < 4096 := Nat.mod_lt _ (by decide)
              simp only [Pages.byte, hp, update_self, hpage, getD_read data hlt]
              congr 1
              omega
            · simp only [Pages.byte, update_of_ne hp]
          · intro p
            by_cases hp : p = pgno
            · subst hp
              simp [Pages.available, halloc, hupdate, Nat.not_le.1 hend]
            · simp only [Pages.available, update_of_ne hp]

def onPage (off : BitVec 64) (sz : Nat) : Nat := min (4096 - off.toNat % 4096) sz

theorem onPage_pos (off : BitVec 64) (hsz : sz ≠ 0) : 0 < onPage off sz := by
  have hmod := Nat.mod_lt off.toNat (show 0 < 4096 by decide)
  rw [onPage]
  omega

theorem onPage_le (off : BitVec 64) (sz : Nat) : onPage off sz ≤ sz := Nat.min_le_right ..

theorem toNat_onPage {j : Nat} (hj : j < onPage off sz) :
    (off + BitVec.ofNat 64 j).toNat = off.toNat + j := by
  have hlt := off.isLt
  rw [onPage] at hj
  rw [BitVec.toNat_add, BitVec.toNat_ofNat]
  omega

theorem ofNat_add_ofNat (off : BitVec 64) (n j : Nat) :
    off + BitVec.ofNat 64 n + BitVec.ofNat 64 j = off + BitVec.ofNat 64 (n + j) := by
  rw [BitVec.ofNat_add, BitVec.add_assoc]

theorem Pages.readable_split (pages : Pages) (hsz : sz ≠ 0) :
    pages.readable env data off sz =
      (pages.available env data (off.toNat / 4096) && (env.copy (off.toNat / 4096)).isNone &&
        pages.readable env data (off + BitVec.ofNat 64 (onPage off sz)) (sz - onPage off sz)) := by
  have hpos := onPage_pos off hsz
  have hle := onPage_le off sz
  have hpage : ∀ j, j < onPage off sz →
      (off + BitVec.ofNat 64 j).toNat / 4096 = off.toNat / 4096 := by
    intro j hj
    rw [toNat_onPage hj]
    rw [onPage] at hj
    omega
  apply Bool.eq_iff_iff.2
  simp only [Pages.readable, Bool.and_eq_true, List.all_eq_true, List.mem_range]
  constructor
  · intro h
    refine ⟨?_, fun j hj => ?_⟩
    · have hfirst := h 0 (by omega)
      rwa [hpage 0 hpos] at hfirst
    · rw [ofNat_add_ofNat]
      exact h _ (by omega)
  · rintro ⟨hfirst, hrest⟩ j hj
    by_cases hin : j < onPage off sz
    · rwa [hpage j hin]
    · have hlater := hrest (j - onPage off sz) (by omega)
      rwa [ofNat_add_ofNat, Nat.add_sub_cancel' (Nat.not_lt.1 hin)] at hlater

theorem CacheEnv.quietOver_split (hsz : sz ≠ 0)
    (h : env.quietOver off sz = true) :
    env.quiet (off.toNat / 4096) = true ∧
      env.quietOver (off + BitVec.ofNat 64 (onPage off sz)) (sz - onPage off sz) = true := by
  have hle := onPage_le off sz
  simp only [quietOver, List.all_eq_true, List.mem_range] at h ⊢
  constructor
  · have hfirst := h 0 (by omega)
    rwa [BitVec.add_zero] at hfirst
  · intro j hj
    rw [ofNat_add_ofNat]
    exact h _ (by omega)

theorem icacheRead_spec (env : CacheEnv) (data : ByteStore Byte) {k : Nat} (off : BitVec 64)
    (sz : Nat) (hk : sz ≤ k) (pages : Pages) :
    if pages.readable env data off sz then
      ∃ bs pages', icacheRead env data k off sz pages = (.ok bs, pages') ∧ bs.length = sz ∧
        (∀ j < sz, bs.getD j 0 = pages.byte data (off + BitVec.ofNat 64 j).toNat) ∧
        Pages.Same env data pages pages'
    else ∃ e pages', icacheRead env data k off sz pages = (.error e, pages') ∧
      (env.quietOver off sz = true → e = .EPERM) ∧ Pages.Same env data pages pages' := by
  induction k generalizing off sz pages with
  | zero =>
    have hsz : sz = 0 := by omega
    subst hsz
    exact ⟨[], pages, rfl, rfl, fun j hj => absurd hj (by omega), .refl⟩
  | succ k ih =>
    by_cases hsz : sz = 0
    · subst hsz
      rw [icacheRead, if_pos rfl]
      exact ⟨[], pages, rfl, rfl, fun j hj => absurd hj (by omega), .refl⟩
    rw [icacheRead, if_neg hsz, pages.readable_split hsz]
    have hpage := icacheGetpage_spec env data (off.toNat / 4096) pages
    by_cases havail : pages.available env data (off.toNat / 4096) = true
    swap
    · -- the first page cannot be had
      rw [if_neg havail] at hpage
      rcases hpage with ⟨e, hget, hquiet⟩
      rw [if_neg (by simp [havail])]
      simp only [hget]
      exact ⟨e, pages, rfl, fun h => hquiet (CacheEnv.quietOver_split hsz h).1, .refl⟩
    rw [if_pos havail] at hpage
    rcases hpage with ⟨page, pages1, hget, hbytes, hsame⟩
    simp only [hget]
    cases hcopy : env.copy (off.toNat / 4096) with
    | some e =>
      rw [if_neg (by simp)]
      refine ⟨e, pages1, rfl, fun h => ?_, hsame⟩
      have hfirst := (CacheEnv.quietOver_split hsz h).1
      simp [CacheEnv.quiet, hcopy] at hfirst
    | none =>
      have hpos := onPage_pos off hsz
      have hrest := ih (off + BitVec.ofNat 64 (onPage off sz)) (sz - onPage off sz)
        (by omega) pages1
      rw [hsame.readable] at hrest
      have hfold : min (4096 - off.toNat % 4096) sz = onPage off sz := rfl
      simp only [havail, Option.isNone_none, Bool.true_and, hfold]
      by_cases hread : pages.readable env data (off + BitVec.ofNat 64 (onPage off sz))
          (sz - onPage off sz) = true
      swap
      · rw [if_neg hread] at hrest ⊢
        rcases hrest with ⟨e, pages', heq, hquiet, hsame'⟩
        simp only [heq]
        refine ⟨e, pages', rfl, fun h => ?_, hsame.trans hsame'⟩
        exact hquiet (CacheEnv.quietOver_split hsz h).2
      rw [if_pos hread] at hrest ⊢
      rcases hrest with ⟨bs, pages', heq, hlen, hbs, hsame'⟩
      simp only [heq]
      refine ⟨_, pages', rfl, ?_, fun j hj => ?_, hsame.trans hsame'⟩
      · have hle := onPage_le off sz
        rw [List.length_append, List.length_map, List.length_range, hlen]
        omega
      rw [List.getD_eq_getElem?_getD, List.getElem?_append]
      simp only [List.length_map, List.length_range]
      by_cases hin : j < onPage off sz
      · -- the byte is on the first page
        rw [if_pos hin, List.getElem?_map, List.getElem?_range hin]
        have hfit : off.toNat % 4096 + j < 4096 := by
          rw [onPage] at hin
          omega
        rw [Option.map_some, Option.getD_some, hbytes _ hfit, toNat_onPage hin]
        congr 1
        omega
      · rw [if_neg hin, ← List.getD_eq_getElem?_getD, hbs _ (by omega), hsame.byte,
          ofNat_add_ofNat, Nat.add_sub_cancel' (Nat.not_lt.1 hin)]

theorem iread_spec (env : CacheEnv) (ip : FileInode) (off sz : BitVec 64) :
    if ip.readable env off sz then
      ∃ bs ip', iread env ip off sz = (.ok bs, ip') ∧ bs.length ≤ sz.toNat ∧
        ∀ j < sz.toNat, bs.getD j 0 = ip.byteFrom off j
    else ∃ e ip', iread env ip off sz = (.error e, ip') := by
  by_cases hr : ip.readable env off sz = true
  · rw [if_pos hr]
    rcases ip with ⟨size, data, hsmall, _ | pages⟩
    · have hlt : off.toNat < data.size := of_decide_eq_true hr
      rw [iread, ireadData, if_neg (Nat.not_le.2 hlt)]
      refine ⟨_, _, rfl, ?_, fun j hj => getD_read data hj⟩
      rw [ByteStore.read_length]
      omega
    · have hread := icacheRead_spec env data off sz.toNat le_rfl pages
      rw [if_pos (show pages.readable env data off sz.toNat = true from hr)] at hread
      rcases hread with ⟨bs, pages', heq, hlen, hbytes, -⟩
      simp only [iread, heq]
      exact ⟨bs, _, rfl, hlen.le, hbytes⟩
  · rw [if_neg hr]
    rcases ip with ⟨size, data, hsmall, _ | pages⟩
    · have hend : data.size ≤ off.toNat := Nat.not_lt.1 fun hlt => hr (decide_eq_true hlt)
      rw [iread, ireadData, if_pos hend]
      exact ⟨_, _, rfl⟩
    · have hread := icacheRead_spec env data off sz.toNat le_rfl pages
      rw [if_neg (show ¬ pages.readable env data off sz.toNat = true from hr)] at hread
      rcases hread with ⟨e, pages', heq, -, -⟩
      simp only [iread, heq]
      exact ⟨e, _, rfl⟩

end Fs
end XytherOS
