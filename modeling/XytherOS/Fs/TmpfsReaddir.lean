import XytherOS.Ds.HashMapIter
import XytherOS.Fs.TmpfsNames

/-!
# TmpfsReaddir — the listing of a tmpfs directory

`tmpfs_ireaddir` fills an iterator with the dirents of the directory, passes over the first `off` of
them and writes a record for each of the others.  Its `count` is compared with zero alone.
-/

namespace XytherOS
namespace Fs
namespace TmpfsDir

open Ds.HashMap SearchTree

variable {E P D I : Type} [DecidableEq E] [DecidableEq P] [DecidableEq D] [DecidableEq I]
  [Fintype E] [Fintype P]

/-! ## The function -/

structure DirentRecord where
  d_ino : Nat
  d_type : Nat
  d_off : Nat
  d_reclen : Nat
  d_size : Nat
  d_name : FileName
  deriving DecidableEq, Repr

def tmpfsDirentType : IType → Nat
  | .FS_DIR => 4
  | .FS_RGL => 8
  | .FS_BLK => 6
  | .FS_CHR => 2
  | .FS_FIFO => 1
  | _ => 0

/-- `safestrncpy` into `d_name`, with one byte less than its size. -/
def safestrncpyName (name : FileName) : FileName := name.take 253

omit [DecidableEq E] [DecidableEq P] [DecidableEq D] [DecidableEq I] [Fintype E] [Fintype P] in
def direntRecord (s : Dir E P D I) (dirent : D) (off : Nat) : Except Fault DirentRecord := do
  if !s.direntLive dirent then throw .wildAccess
  match (s.dirent dirent).inode with
  | none => throw .nullDeref
  | some ip =>
    return ⟨(s.inode ip).ino, tmpfsDirentType (s.inode ip).type, off, 296, (s.inode ip).size,
      safestrncpyName (s.dirent dirent).name⟩

omit [DecidableEq E] [DecidableEq P] [DecidableEq D] [DecidableEq I] [Fintype E] [Fintype P] in
/-- The loop over the iterator: the records written from `buf[ncount]` on, each with its dirent. -/
def readdirLoop (s : Dir E P D I) (off : Nat) :
    Nat → Nat → List (Option D) → Except Fault (List (D × DirentRecord))
  | _, _, [] => .ok []
  | pos, ncount, item :: items =>
    if pos < off then readdirLoop s off (pos + 1) ncount items
    else
      match item with
      | none => throw .nullDeref
      | some dirent => do
          let record ← direntRecord s dirent (off + ncount)
          let records ← readdirLoop s off (pos + 1) (ncount + 1) items
          return (dirent, record) :: records

/-- `tmpfs_ireaddir`: what it writes into `buf`.  The number of the records is returned. -/
def tmpfsIreaddir (s : Dir E P D I) (off count : Nat) (mem : Nat → Bool) :
    Except Fault (Except Errno (List (D × DirentRecord))) := do
  if count = 0 then return .error .EINVAL
  if s.hmap.size ≤ off then return .error .EFAULT
  let (err, iter) ← hashMapIterValueInit s.hmap mem
  if err ≠ .ok then return .ok []
  return .ok (← readdirLoop s off 0 0 iter.queue)

/-! ## What a listing should do -/

omit [DecidableEq E] [DecidableEq P] [DecidableEq D] [DecidableEq I] [Fintype E] [Fintype P] in
def Entry (s : Dir E P D I) (dirent : D) : Prop :=
  ∃ e, s.hmap.live e = true ∧ (s.hmap.entry e).value = some dirent

/-- The calls one after the other, each from the offset that the one before has reached, up to the
first that fails or finds nothing: none writes more than `count` records. -/
def Reads (s : Dir E P D I) (count : Nat) :
    (Nat → Nat → Bool) → Nat → List (List (D × DirentRecord)) → Prop
  | mems, off, [] =>
    tmpfsIreaddir s off count (mems 0) = .ok (.ok []) ∨
      ∃ e, tmpfsIreaddir s off count (mems 0) = .ok (.error e)
  | mems, off, records :: rest =>
    tmpfsIreaddir s off count (mems 0) = .ok (.ok records) ∧ records ≠ [] ∧
      records.length ≤ count ∧ Reads s count (fun k => mems (k + 1)) (off + records.length) rest

/-- The calls from offset 0 on list every entry of the directory exactly once. -/
def Listed (s : Dir E P D I) (count : Nat) (mems : Nat → Nat → Bool) : Prop :=
  ∃ calls, Reads s count mems 0 calls ∧ (calls.flatten.map Prod.fst).Nodup ∧
    ∀ d, d ∈ calls.flatten.map Prod.fst ↔ Entry s d

variable {s : Dir E P D I} {g : BinaryTree (Ds.Btree.Item P Nat E)}
  {m : MapState E P Nat FileName D} {off count : Nat} {mem : Nat → Bool}

def listing (g : BinaryTree (Ds.Btree.Item P Nat E)) (m : MapState E P Nat FileName D) :
    List (Option D) :=
  (walk tmpfsHashctx.hash g m.entries).map HItem.value

theorem map_some_fst (records : List (D × DirentRecord)) :
    records.map (fun r => some r.1) = (records.map Prod.fst).map some := by
  rw [List.map_map]
  rfl

theorem readdirLoop_spec (off pos ncount : Nat) {items : List (Option D)}
    (hitems : ∀ item ∈ items, ∃ d i, item = some d ∧ s.direntLive d = true ∧
      (s.dirent d).inode = some i) :
    ∃ records, readdirLoop s off pos ncount items = .ok records ∧
      records.map (fun r => some r.1) = items.drop (off - pos) := by
  induction items generalizing pos ncount with
  | nil => exact ⟨[], by simp [readdirLoop], by simp⟩
  | cons item items ih =>
    have hrest := fun item h => hitems item (List.mem_cons_of_mem _ h)
    by_cases hpos : pos < off
    · rcases ih (pos + 1) ncount hrest with ⟨records, hrun, hrecords⟩
      refine ⟨records, by simp only [readdirLoop, hpos, if_true, hrun], ?_⟩
      have hdrop : off - pos = off - (pos + 1) + 1 := by omega
      rw [hrecords, hdrop, List.drop_succ_cons]
    · rcases ih (pos + 1) (ncount + 1) hrest with ⟨records, hrun, hrecords⟩
      rcases hitems item List.mem_cons_self with ⟨d, i, rfl, hlive, hinode⟩
      have hzero : off - pos = 0 := by omega
      have hzero' : off - (pos + 1) = 0 := by omega
      rw [hzero', List.drop_zero] at hrecords
      simp only [readdirLoop, hpos, if_false, direntRecord, hlive, hinode, Bool.not_true,
        Bool.false_eq_true, hrun]
      refine ⟨_, rfl, ?_⟩
      rw [hzero, List.drop_zero, List.map_cons, hrecords]

theorem Sound.listing (h : Sound s g m) :
    (listing g m).Nodup ∧ (listing g m).length = s.hmap.size ∧
      ∀ d, some d ∈ listing g m ↔ Entry s d := by
  have hstored := h.keeps.stored
  have hperm : (TmpfsDir.listing g m).Perm (m.entries.map HItem.value) :=
    (hstored.walk_perm).map _
  refine ⟨hperm.nodup_iff.2 h.values, ?_, fun d => ?_⟩
  · rw [hperm.length_eq, List.length_map, hstored.size]
  · rw [hperm.mem_iff, List.mem_map]
    constructor
    · rintro ⟨a, ha, hvalue⟩
      have ha' := hstored.toLinked.stored ha
      exact ⟨a.addr, ha'.1, ha'.2.2.trans hvalue⟩
    · rintro ⟨e, hlive, hvalue⟩
      rcases List.mem_map.1 ((hstored.live e).1 hlive) with ⟨a, ha, rfl⟩
      exact ⟨a, ha, (hstored.toLinked.stored ha).2.2.symm.trans hvalue⟩

theorem Sound.items (h : Sound s g m) {item : Option D} (hitem : item ∈ TmpfsDir.listing g m) :
    ∃ d i, item = some d ∧ s.direntLive d = true ∧ (s.dirent d).inode = some i := by
  have hstored := h.keeps.stored
  rcases List.mem_map.1 hitem with ⟨e, he, rfl⟩
  have hmem : e ∈ m.entries :=
    (hstored.walk_perm).mem_iff.1 he
  rcases h.dirents e hmem with ⟨d, i, hvalue, hlive, hdirent, -⟩
  exact ⟨d, i, hvalue, hlive, by rw [hdirent]⟩

theorem tmpfsIreaddir_spec (h : Sound s g m) (hcount : count ≠ 0) (hoff : off < s.hmap.size)
    (mem : Nat → Bool) :
    ∃ records, tmpfsIreaddir s off count mem = .ok (.ok records) ∧
      ((∀ i < s.hmap.size, mem i = true) ∧
          records.map (fun r => some r.1) = (listing g m).drop off ∨
        (∃ i < s.hmap.size, mem i = false) ∧
          (records.map fun r => some r.1).Sublist (listing g m).tail) := by
  have hstored := h.keeps.stored
  have hdata {l : List (HItem E FileName D)} (hl : ∀ e ∈ l, e ∈ m.entries) :
      l.map (dataOf s.hmap fun _ entry => entry.value) = l.map HItem.value :=
    List.map_congr_left fun e he => (hstored.toLinked.stored (hl e he)).2.2
  rcases hstored.iterInit (fun _ entry => entry.value)
    (by rw [hdata fun _ he => he]; exact h.values) mem with ⟨ret, it, hrun, hout⟩
  rw [hdata fun e he => hstored.walk_perm.mem_iff.1 he] at hout
  change _ ∧ Full mem _ (TmpfsDir.listing g m) it ∨ Lost mem _ (TmpfsDir.listing g m) it at hout
  rcases h.listing with ⟨-, hlen, -⟩
  have hne : m.entries ≠ [] := fun hnil => by
    rw [hstored.size, hnil] at hoff
    simp at hoff
  have hcall : tmpfsIreaddir s off count mem =
      if ret = .ok then (readdirLoop s off 0 0 it.queue).map .ok else .ok (.ok []) := by
    rw [tmpfsIreaddir, if_neg hcount, if_neg (Nat.not_le.2 hoff), hashMapIterValueInit, hrun]
    by_cases hret : ret = .ok
    · simp only [ok_bind, hret, ne_eq, not_true, if_false, if_true]
      cases readdirLoop s off 0 0 it.queue <;> rfl
    · simp only [ok_bind, ne_eq, hret, not_false_eq_true, if_true, if_false]
      rfl
  rw [hcall]
  rcases hout with ⟨hret, hmem, rfl⟩ | ⟨hmem, front, rest, hsplit, hfront, hsub⟩
  · -- the iterator holds every dirent
    rw [if_neg hne] at hret
    rw [if_pos hret]
    simp only [Nat.zero_add, hlen] at hmem
    have hqueue : (Iter.more ⟨[], 0⟩ (TmpfsDir.listing g m)).queue = TmpfsDir.listing g m := rfl
    rcases readdirLoop_spec off 0 0 fun item hitem =>
      h.items (hqueue ▸ hitem) with ⟨records, hloop, hrecords⟩
    exact ⟨records, by rw [hloop]; rfl, .inl ⟨hmem, hrecords⟩⟩
  · -- it holds at most those behind the one that found no memory
    simp only [Nat.zero_add, hlen] at hmem
    have htail : it.queue.Sublist (TmpfsDir.listing g m).tail := by
      cases front with
      | nil => exact absurd rfl hfront
      | cons x front =>
        rw [List.nil_append] at hsplit
        rw [hsplit]
        exact hsub.trans (List.sublist_append_right _ _)
    by_cases hret : ret = .ok
    · rw [if_pos hret]
      rcases readdirLoop_spec off 0 0 fun item hitem =>
        h.items ((htail.trans (List.tail_sublist _)).subset hitem) with ⟨records, hloop, hrecords⟩
      refine ⟨records, by rw [hloop]; rfl, .inr ⟨hmem, ?_⟩⟩
      rw [hrecords]
      exact (List.drop_sublist _ _).trans htail
    · rw [if_neg hret]
      exact ⟨[], rfl, .inr ⟨hmem, List.nil_sublist _⟩⟩

theorem tmpfsIreaddir_end (hcount : count ≠ 0) (hoff : s.hmap.size ≤ off) (mem : Nat → Bool) :
    tmpfsIreaddir s off count mem = .ok (.error .EFAULT) := by
  rw [tmpfsIreaddir, if_neg hcount, if_pos hoff]
  rfl

/-! ## The calls of a listing -/

theorem Reads.tail (h : Sound s g m) (hcount : count ≠ 0) {mems : Nat → Nat → Bool}
    {calls : List (List (D × DirentRecord))} (hreads : Reads s count mems off calls)
    (hoff : 0 < off) : ∀ d ∈ calls.flatten.map Prod.fst, some d ∈ (listing g m).tail := by
  induction calls generalizing off mems with
  | nil => simp
  | cons records rest ih =>
    rcases hreads with ⟨hcall, -, -, hreads⟩
    intro d hd
    rw [List.flatten_cons, List.map_append, List.mem_append] at hd
    rcases hd with hd | hd
    · rcases Nat.lt_or_ge off s.hmap.size with hlt | hge
      · rcases tmpfsIreaddir_spec h hcount hlt (mems 0) with ⟨records', hcall', hout⟩
        rw [hcall] at hcall'
        cases hcall'
        have hmem : some d ∈ records.map fun r => some r.1 := by
          rw [map_some_fst]
          exact List.mem_map_of_mem hd
        rcases hout with ⟨-, hout⟩ | ⟨-, hout⟩
        · rw [hout] at hmem
          rw [← List.drop_one]
          exact (List.drop_sublist_drop_left _ hoff).subset hmem
        · exact hout.subset hmem
      · rw [tmpfsIreaddir_end hcount hge] at hcall
        cases hcall
    · exact ih hreads (Nat.add_pos_left hoff _) d hd

theorem Sound.listed_iff (h : Sound s g m) (hcount : count ≠ 0) (mems : Nat → Nat → Bool) :
    Listed s count mems ↔ s.hmap.size ≤ count ∧ ∀ i < s.hmap.size, mems 0 i = true := by
  rcases h.listing with ⟨hnd, hlen, hentry⟩
  rcases Nat.eq_zero_or_pos s.hmap.size with hzero | hpos
  · -- an empty directory: the first call is refused
    refine iff_of_true ⟨[], .inr ⟨.EFAULT, tmpfsIreaddir_end hcount (by omega) _⟩, by simp, ?_⟩ ?_
    · intro d
      rw [← hentry, List.eq_nil_of_length_eq_zero (hlen.trans hzero)]
      simp
    · simp [hzero]
  rcases tmpfsIreaddir_spec h hcount hpos (mems 0) with ⟨records, hcall, hout⟩
  constructor
  · rintro ⟨calls, hreads, -, hall⟩
    cases hlist : TmpfsDir.listing g m with
    | nil => simp [hlist, ← hlen] at hpos
    | cons head tail =>
      rcases h.items (show head ∈ _ by simp [hlist]) with ⟨d, i, rfl, -⟩
      have hd := (hall d).2 ((hentry d).1 (by simp [hlist]))
      have hhead : some d ∉ (TmpfsDir.listing g m).tail := by
        rw [hlist] at hnd ⊢
        exact (List.nodup_cons.1 hnd).1
      cases calls with
      | nil => simp at hd
      | cons records' rest =>
        rcases hreads with ⟨hcall', hne, hle, hreads⟩
        rw [hcall] at hcall'
        cases hcall'
        rcases hout with ⟨hmem, hout⟩ | ⟨-, hout⟩
        · refine ⟨?_, hmem⟩
          have hlength := congrArg List.length hout
          simp only [List.length_map, List.drop_zero, hlen] at hlength
          exact hlength ▸ hle
        · -- a dirent that the first call has not listed does not come later
          rw [List.flatten_cons, List.map_append, List.mem_append] at hd
          rcases hd with hd | hd
          · refine absurd (hout.subset ?_) hhead
            rw [map_some_fst]
            exact List.mem_map_of_mem hd
          · have hoff : 0 < 0 + records.length := by
              rw [Nat.zero_add]
              exact List.length_pos_iff.2 hne
            exact absurd (hreads.tail h hcount hoff d hd) hhead
  · rintro ⟨hle, hmem⟩
    rcases hout with ⟨-, hout⟩ | ⟨⟨i, hi, hno⟩, -⟩
    · rw [List.drop_zero] at hout
      have hlength := congrArg List.length hout
      simp only [List.length_map, hlen] at hlength
      refine ⟨[records], ⟨hcall, ?_, hlength ▸ hle, .inr ⟨.EFAULT, ?_⟩⟩, ?_, fun d => ?_⟩
      · exact List.length_pos_iff.1 (hlength ▸ hpos)
      · exact tmpfsIreaddir_end hcount (by omega) _
      · rw [List.flatten_singleton]
        rw [← hout, map_some_fst] at hnd
        exact hnd.of_map _
      · rw [List.flatten_singleton, ← hentry, ← hout, map_some_fst]
        simp
    · rw [hmem i hi] at hno
      exact absurd hno (by simp)

/-! ## Every directory -/

theorem sound_runs (memory : Dir E P D I) {cs : List (Call × Memory E P D I)}
    (hrun : runs step (emptyDir memory) cs = .ok s) : ∃ g m, Sound s g m := by
  suffices hgen : ∀ s₀ : Dir E P D I, (∃ g m, Sound s₀ g m) → runs step s₀ cs = .ok s →
      ∃ g m, Sound s g m from hgen _ ⟨_, _, sound_empty memory⟩ hrun
  clear hrun
  induction cs with
  | nil =>
    intro s₀ h hrun
    cases hrun
    exact h
  | cons c cs ih =>
    rintro s₀ ⟨g, m, h⟩ hrun
    rcases c with ⟨c, mem⟩
    rcases tmpfsCreateNode_spec h c.name c.mode c.type c.dev mem with
      ⟨ret, s', g', m', hcreate, h', -, -⟩
    have hstep : step s₀ (c, mem) = .ok s' := by
      rw [step, create_eq, hcreate]
      rfl
    rw [runs, hstep] at hrun
    exact ih s' ⟨g', m', h'⟩ hrun

/-- A listing gives every entry once, at most `count` a call, exactly when the directory has at most
`count` entries and the first call finds memory for its iterator. -/
theorem listed_iff_fits (memory : Dir E P D I) {cs : List (Call × Memory E P D I)}
    (hrun : runs step (emptyDir memory) cs = .ok s) (hcount : count ≠ 0)
    (mems : Nat → Nat → Bool) :
    Listed s count mems ↔ s.hmap.size ≤ count ∧ ∀ i < s.hmap.size, mems 0 i = true := by
  rcases sound_runs memory hrun with ⟨g, m, h⟩
  exact h.listed_iff hcount mems

def blank : Dir (Fin 2) (Fin 2) (Fin 2) (Fin 2) :=
  ⟨hashMapInit (fun _ => ⟨[], none, none⟩) fun _ => ⟨0, 0, none, none, none, none⟩,
    fun _ => ⟨[], none⟩, fun _ => false, fun _ => ⟨0, 0, 0, 0, .FS_INV, 0, 0, 0⟩,
    fun _ => false, 0⟩

def twoFiles : List (Call × Memory (Fin 2) (Fin 2) (Fin 2) (Fin 2)) :=
  [(.icreate [97] 0, ⟨some 0, true, true, some 0, some 0, .ok, some 0⟩),
    (.icreate [98] 0, ⟨some 1, true, true, some 1, some 1, .ok, some 1⟩)]

theorem listed_two : ∃ s, runs step (emptyDir blank) twoFiles = .ok s ∧ s.hmap.size = 2 ∧
    Listed s 2 fun _ _ => true := by
  have hsize : ((runs step (emptyDir blank) twoFiles).toOption.map fun s => s.hmap.size) =
      some 2 := by
    decide +kernel
  cases hrun : runs step (emptyDir blank) twoFiles with
  | error e => simp [hrun, Except.toOption] at hsize
  | ok s =>
    have hs : s.hmap.size = 2 := by simpa [hrun, Except.toOption] using hsize
    exact ⟨s, rfl, hs,
      (listed_iff_fits blank hrun (by decide) _).2 ⟨Nat.le_of_eq hs, fun _ _ => rfl⟩⟩

/-- Two files, and room for one record, as in `vfs_dirlist`. -/
theorem two_not_listed :
    ¬∀ (memory : Dir (Fin 2) (Fin 2) (Fin 2) (Fin 2))
      (cs : List (Call × Memory (Fin 2) (Fin 2) (Fin 2) (Fin 2)))
      (s : Dir (Fin 2) (Fin 2) (Fin 2) (Fin 2)) (count : Nat),
      runs step (emptyDir memory) cs = .ok s → count ≠ 0 → Listed s count fun _ _ => true := by
  intro h
  have hsize : ((runs step (emptyDir blank) twoFiles).toOption.map fun s => s.hmap.size) =
      some 2 := by
    decide +kernel
  cases hrun : runs step (emptyDir blank) twoFiles with
  | error e => simp [hrun, Except.toOption] at hsize
  | ok s =>
    have hs : s.hmap.size = 2 := by simpa [hrun, Except.toOption] using hsize
    rcases sound_runs blank hrun with ⟨g, m, hsound⟩
    have hle := ((hsound.listed_iff (Nat.succ_ne_zero 0) _).1
      (h blank twoFiles s 1 hrun (by decide))).1
    rw [hs] at hle
    exact absurd hle (by decide)

end TmpfsDir
end Fs
end XytherOS
