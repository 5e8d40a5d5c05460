import XytherOS.Fs.TmpfsDir

/-!
# TmpfsNames — the names in a tmpfs directory

`hashMap_insert` puts an entry behind all entries of its hash, also behind one with the same key,
and a lookup finds the first of them.  So the names of a directory are different, and every new node is
found, as long as no name is created that is there already.
-/

namespace XytherOS
namespace Fs
namespace TmpfsDir

open Ds.HashMap SearchTree

variable {E P D I : Type} [DecidableEq E] [DecidableEq P] [DecidableEq D] [DecidableEq I]

/-! ## The entries of a directory -/

/-- The map of the directory holds the entries of `m`; each of them is a dirent of its own, with the
name of the entry and an inode. -/
structure Sound (s : Dir E P D I) (g : BinaryTree (Ds.Btree.Item P Nat E))
    (m : MapState E P Nat FileName D) : Prop where
  keeps : Keeps tmpfsHashctx s.hmap g m
  dirents : ∀ e ∈ m.entries, ∃ d i, e.value = some d ∧ s.direntLive d = true ∧
    s.dirent d = ⟨e.key, some i⟩ ∧ s.inodeLive i = true
  values : (m.entries.map HItem.value).Nodup

structure Agrees (s s' : Dir E P D I) : Prop where
  dirent : ∀ d, s.direntLive d = true → s'.direntLive d = true ∧ s'.dirent d = s.dirent d
  inode : ∀ i, s.inodeLive i = true → s'.inodeLive i = true ∧ s'.inode i = s.inode i

theorem Agrees.refl (s : Dir E P D I) : Agrees s s :=
  ⟨fun _ h => ⟨h, rfl⟩, fun _ h => ⟨h, rfl⟩⟩

theorem Agrees.trans {s s' s'' : Dir E P D I} (h : Agrees s s') (h' : Agrees s' s'') :
    Agrees s s'' := by
  refine ⟨fun d hd => ?_, fun i hi => ?_⟩
  · have hd' := h.dirent d hd
    have hd'' := h'.dirent d hd'.1
    exact ⟨hd''.1, hd''.2.trans hd'.2⟩
  · have hi' := h.inode i hi
    have hi'' := h'.inode i hi'.1
    exact ⟨hi''.1, hi''.2.trans hi'.2⟩

theorem sound_empty (memory : Dir E P D I) :
    Sound (emptyDir memory) .nil ⟨[], []⟩ where
  keeps := ⟨(holds_init _ _).toStored, by simp [nodesOf]⟩
  dirents e he := by simp at he
  values := List.nodup_nil

/-! ## The parts of a creation -/

section Create

variable [Fintype E] [Fintype P] {s s' : Dir E P D I} {g : BinaryTree (Ds.Btree.Item P Nat E)}
  {m : MapState E P Nat FileName D} {fname : FileName} {mode : Mode} {type : IType} {dev : Nat}
  {mem : Memory E P D I} {ip : I} {d : D}

theorem tmpfsIalloc_ok (h : tmpfsIalloc s type mem = .ok (ip, s')) :
    s.inodeLive ip = false ∧ Agrees s s' ∧ s'.hmap = s.hmap ∧ s'.direntLive = s.direntLive ∧
      s'.inodeLive ip = true ∧ s'.inode ip = ⟨0, 0, 0, s.inos, type, 0, 0, 1⟩ := by
  rw [tmpfsIalloc] at h
  cases hfilter : mem.inode.filter fun i => !s.inodeLive i with
  | none => simp [hfilter] at h
  | some i =>
    have hfree : s.inodeLive i = false := by
      simpa using (Option.filter_eq_some_iff.1 hfilter).2
    rw [hfilter] at h
    split_ifs at h
    cases h
    refine ⟨hfree, ⟨fun d hd => ⟨hd, rfl⟩, fun j hj => ?_⟩, rfl, rfl, by simp, by simp⟩
    have hne : j ≠ ip := by
      rintro rfl
      rw [hfree] at hj
      exact absurd hj (by simp)
    simp [hne, hj]

theorem tmpfsDirentAlloc_ok (h : tmpfsDirentAlloc s fname ip mem = .ok (d, s')) :
    s.direntLive d = false ∧ Agrees s s' ∧ s'.hmap = s.hmap ∧ s'.direntLive d = true ∧
      s'.dirent d = ⟨fname, some ip⟩ := by
  rw [tmpfsDirentAlloc] at h
  split_ifs at h
  cases hfilter : mem.dirent.filter fun d => !s.direntLive d with
  | none => simp [hfilter] at h
  | some tde =>
    have hfree : s.direntLive tde = false := by
      simpa using (Option.filter_eq_some_iff.1 hfilter).2
    rw [hfilter] at h
    cases h
    refine ⟨hfree, ⟨fun d' hd' => ?_, fun i hi => ⟨hi, rfl⟩⟩, rfl, by simp, by simp⟩
    have hne : d' ≠ d := by
      rintro rfl
      rw [hfree] at hd'
      exact absurd hd' (by simp)
    simp [hne, hd']

/-- What a creation does to the entries: it adds one with a new inode, or it fails and adds none. -/
inductive Effect (s s' : Dir E P D I) (m m' : MapState E P Nat FileName D) (fname : FileName)
    (mode : Mode) (type : IType) (dev : Nat) : Ret → Prop
  | created {p : E} {d : D} {ip : I} (ino : Nat)
      (hentries : m'.entries = m.entries ++ [⟨p, fname, some d⟩])
      (hnew : s.inodeLive ip = false) (hdirent : s'.dirent d = ⟨fname, some ip⟩)
      (hinode : s'.inode ip = ⟨0, 0, mode, ino, type, dev, 0, 1⟩) :
      Effect s s' m m' fname mode type dev .ok
  | failed {e : Errno} (hentries : m'.entries = m.entries) :
      Effect s s' m m' fname mode type dev (.err e)

theorem Sound.agrees (h : Sound s g m) (hagrees : Agrees s s')
    {g' : BinaryTree (Ds.Btree.Item P Nat E)} {m' : MapState E P Nat FileName D}
    (hkeeps : Keeps tmpfsHashctx s'.hmap g' m') (hentries : m'.entries = m.entries) :
    Sound s' g' m' := by
  refine ⟨hkeeps, ?_, by rw [hentries]; exact h.values⟩
  intro e he
  rw [hentries] at he
  rcases h.dirents e he with ⟨d, i, hvalue, hlive, hdirent, hinode⟩
  have hd := hagrees.dirent d hlive
  exact ⟨d, i, hvalue, hd.1, hd.2.trans hdirent, (hagrees.inode i hinode).1⟩

theorem agrees_undo {s₁ s₂ : Dir E P D I} (hip : s.inodeLive ip = false) (h₁ : Agrees s s₁)
    (hd : s₁.direntLive d = false) (h₂ : Agrees s₁ s₂) (hdirent : s₂.dirent d = ⟨fname, some ip⟩) :
    Agrees s (tmpfsIfree (tmpfsDirentFree s₂ d) ip) := by
  have hagrees := h₁.trans h₂
  refine ⟨fun d' hd' => ?_, fun i hi => ?_⟩
  · have hne : d' ≠ d := by
      rintro rfl
      rw [(h₁.dirent _ hd').1] at hd
      exact absurd hd (by simp)
    have hold := hagrees.dirent d' hd'
    simp [tmpfsIfree, tmpfsDirentFree, hdirent, hne, hold.1, hold.2]
  · have hne : i ≠ ip := by
      rintro rfl
      rw [hip] at hi
      exact absurd hi (by simp)
    have hold := hagrees.inode i hi
    simp [tmpfsIfree, tmpfsDirentFree, hdirent, hne, hold.1, hold.2]

theorem tmpfsCreateNode_spec (h : Sound s g m) (fname : FileName) (mode : Mode) (type : IType)
    (dev : Nat) (mem : Memory E P D I) :
    ∃ ret s' g' m', tmpfsCreateNode s fname mode type dev mem = .ok (ret, s') ∧ Sound s' g' m' ∧
      Agrees s s' ∧ Effect s s' m m' fname mode type dev ret := by
  cases hialloc : tmpfsIalloc s type mem with
  | error e =>
    refine ⟨.err e, s, g, m, ?_, h, Agrees.refl s, .failed rfl⟩
    simp [tmpfsCreateNode, hialloc]
  | ok x =>
    rcases x with ⟨ip, s₁⟩
    rcases tmpfsIalloc_ok hialloc with ⟨hip, h₁, hmap1, hdlive, hlive, hinode⟩
    have hkeeps1 : Keeps tmpfsHashctx s₁.hmap g m := by
      rw [hmap1]
      exact h.keeps
    cases hdalloc : tmpfsDirentAlloc s₁ fname ip mem with
    | error e =>
      -- the new inode is given back
      have hagrees : Agrees s (tmpfsIfree s₁ ip) := by
        refine ⟨fun d hd => h₁.dirent d hd, fun i hi => ?_⟩
        have hne : i ≠ ip := by
          rintro rfl
          rw [hip] at hi
          exact absurd hi (by simp)
        have hold := h₁.inode i hi
        simp [tmpfsIfree, hne, hold.1, hold.2]
      refine ⟨.err e, tmpfsIfree s₁ ip, g, m, ?_, h.agrees hagrees hkeeps1 rfl, hagrees,
        .failed rfl⟩
      simp [tmpfsCreateNode, hialloc, hdalloc]
    | ok y =>
      rcases y with ⟨d, s₂⟩
      rcases tmpfsDirentAlloc_ok hdalloc with ⟨hd, h₂, hmap2, hdlive2, hdirent⟩
      have hkeeps2 : Keeps tmpfsHashctx s₂.hmap g m := by
        rw [hmap2]
        exact hkeeps1
      rcases hkeeps2.insert fname (some d) mem.entry mem.copy mem.node with
        ⟨hmap, g', hrun, hkeeps⟩
      rcases mapInsert_entries tmpfsHashctx.hash m fname (some d) mem.entry mem.copy mem.node
        with ⟨hok, p, -, -, hentries⟩ | ⟨herr, hentries⟩
      · -- the node is in the map, and its inode gets its mode and device
        have hold2 := h₂.inode ip hlive
        have hagrees : Agrees s
            { s₂ with
              hmap := hmap
              inode := Function.update s₂.inode ip
                { s₂.inode ip with mode := mode, rdev := dev } } := by
          refine ⟨fun d' hd' => (h₁.trans h₂).dirent d' hd', fun i hi => ?_⟩
          have hne : i ≠ ip := by
            rintro rfl
            rw [hip] at hi
            exact absurd hi (by simp)
          have hold := (h₁.trans h₂).inode i hi
          simp [hne, hold.1, hold.2]
        rw [hok] at hrun
        refine ⟨.ok, _, g', _, ?_, ⟨hkeeps, ?_, ?_⟩, hagrees,
          .created s.inos hentries hip hdirent ?_⟩
        · simp only [tmpfsCreateNode, hialloc, hdalloc, hrun, ok_bind]
          rfl
        · intro e he
          rw [hentries, List.mem_append, List.mem_singleton] at he
          rcases he with he | he
          · rcases h.dirents e he with ⟨d', i, hvalue, hdl, hde, hil⟩
            have hold := hagrees.dirent d' hdl
            exact ⟨d', i, hvalue, hold.1, hold.2.trans hde, (hagrees.inode i hil).1⟩
          · subst he
            exact ⟨d, ip, rfl, hdlive2, hdirent, hold2.1⟩
        · rw [hentries, List.map_append]
          refine List.nodup_append.2 ⟨h.values, by simp, ?_⟩
          -- the new dirent was not in use
          rintro v hv w hw heq
          rcases List.mem_map.1 hv with ⟨e, he, hev⟩
          rcases h.dirents e he with ⟨d', i, hvalue, hdl, -, -⟩
          rw [List.map_singleton, List.mem_singleton] at hw
          have hsame : d' = d := by
            have hsome : some d' = some d := by rw [← hvalue, hev, heq, hw]
            exact Option.some.inj hsome
          rw [← hsame, (h₁.dirent d' hdl).1] at hd
          exact absurd hd (by simp)
        · simp [hold2.2, hinode]
      · -- the dirent and the inode are given back
        cases hret : (mapInsert tmpfsHashctx.hash m fname (some d) mem.entry mem.copy
            mem.node).1 with
        | ok => exact absurd hret herr
        | err e =>
          have hundo := agrees_undo hip h₁ hd
            (show Agrees s₁ { s₂ with hmap := hmap } from ⟨h₂.dirent, h₂.inode⟩) hdirent
          rw [hret] at hrun
          refine ⟨.err e, _, g', _, ?_, h.agrees hundo ?_ hentries, hundo,
            .failed hentries⟩
          · simp only [tmpfsCreateNode, hialloc, hdalloc, hrun, ok_bind]
            rfl
          · simp only [tmpfsIfree, tmpfsDirentFree, hdirent]
            exact hkeeps

end Create

/-! ## Lookups -/

section Lookup

variable [Fintype E] [Fintype P] {s s' : Dir E P D I} {g g' : BinaryTree (Ds.Btree.Item P Nat E)}
  {m m' : MapState E P Nat FileName D} {fname : FileName}

def answer (s : Dir E P D I) (ialloc : Ret) : Option (HItem E FileName D) →
    Except Errno (Inode I)
  | none => .error .ENOENT
  | some e =>
    match e.value.bind fun d => (s.dirent d).inode, ialloc with
    | none, _ => .error .EINVAL
    | some _, .err e => .error e
    | some ip, .ok =>
      .ok ⟨ip, (s.inode ip).ino, (s.inode ip).type, (s.inode ip).size, (s.inode ip).hlink,
        (s.inode ip).gid, (s.inode ip).uid, (s.inode ip).mode, (s.inode ip).rdev⟩

theorem Sound.ilookup (h : Sound s g m) (fname : FileName) (ialloc : Ret) :
    tmpfsIlookup s fname ialloc = .ok (answer s ialloc (m.find fname)) := by
  have hlookup := h.keeps.lookup (fun a b => by simp [tmpfsHashctx]) fname
  cases hf : m.find fname with
  | none => simp [tmpfsIlookup, hlookup, mapLookup, hf, answer]
  | some e =>
    rcases h.dirents e (MapState.find_some hf).1 with ⟨d, i, hvalue, hlive, hdirent, -⟩
    simp only [tmpfsIlookup, hlookup, mapLookup, hf, hvalue, ok_bind, hlive, hdirent, answer,
      Option.bind_some, Bool.not_true, Bool.false_eq_true, if_false]
    cases ialloc <;> rfl

theorem Sound.answer_eq (h : Sound s g m) (hagrees : Agrees s s') (ialloc : Ret)
    {o : Option (HItem E FileName D)} (ho : ∀ e, o = some e → e ∈ m.entries) :
    answer s' ialloc o = answer s ialloc o := by
  cases o with
  | none => rfl
  | some e =>
    rcases h.dirents e (ho e rfl) with ⟨d, i, hvalue, hlive, hdirent, hinode⟩
    have hd := (hagrees.dirent d hlive).2
    have hi := (hagrees.inode i hinode).2
    simp only [answer, hvalue, Option.bind_some, hd, hdirent]
    cases ialloc with
    | ok => simp only [hi]
    | err e => rfl

omit [DecidableEq E] [DecidableEq P] [DecidableEq D] [DecidableEq I] [Fintype P] in
def has (s : Dir E P D I) (fname : FileName) : Bool :=
  decide (∃ e, s.hmap.live e = true ∧ (s.hmap.entry e).key = fname)

def UniqueNames (s : Dir E P D I) : Prop :=
  ∀ e e', s.hmap.live e = true → s.hmap.live e' = true →
    (s.hmap.entry e).key = (s.hmap.entry e').key → e = e'

theorem Sound.has_iff (h : Sound s g m) :
    has s fname = true ↔ fname ∈ m.entries.map HItem.key := by
  rw [has, decide_eq_true_iff, List.mem_map]
  constructor
  · rintro ⟨e, hlive, hkey⟩
    rcases List.mem_map.1 ((h.keeps.stored.live e).1 hlive) with ⟨a, ha, haddr⟩
    exact ⟨a, ha, by rw [← (h.keeps.stored.toLinked.stored ha).2.1, haddr, hkey]⟩
  · rintro ⟨a, ha, hkey⟩
    have hstored := h.keeps.stored.toLinked.stored ha
    exact ⟨a.addr, hstored.1, hstored.2.1.trans hkey⟩

theorem Sound.uniqueNames_iff (h : Sound s g m) :
    UniqueNames s ↔ (m.entries.map HItem.key).Nodup := by
  have hstored := h.keeps.stored
  constructor
  · intro hunique
    refine List.pairwise_map.2 (List.Pairwise.imp_of_mem ?_ (List.pairwise_map.1 hstored.addrs))
    intro a b ha hb hne hab
    have ha' := hstored.toLinked.stored ha
    have hb' := hstored.toLinked.stored hb
    refine hne (hunique a.addr b.addr ha'.1 hb'.1 ?_)
    rw [ha'.2.1, hb'.2.1, hab]
  · intro hnodup e e' hlive hlive' hkey
    rcases List.mem_map.1 ((hstored.live e).1 hlive) with ⟨a, ha, rfl⟩
    rcases List.mem_map.1 ((hstored.live e').1 hlive') with ⟨b, hb, rfl⟩
    rw [(hstored.toLinked.stored ha).2.1, (hstored.toLinked.stored hb).2.1] at hkey
    rw [List.inj_on_of_nodup_map hnodup ha hb hkey]

theorem uniqueNames_empty (memory : Dir E P D I) : UniqueNames (emptyDir memory) :=
  (sound_empty memory).uniqueNames_iff.2 List.nodup_nil

end Lookup

/-! ## Creations -/

section Calls

variable [Fintype E] [Fintype P]

def Call.name : Call → FileName
  | .icreate fname _ => fname
  | .imkdir fname _ => fname
  | .imknod name _ _ => name

def Call.mode : Call → Mode
  | .icreate _ mode => mode
  | .imkdir _ mode => mode
  | .imknod _ mode _ => if mode &&& S_IFMT = 0 then mode ||| S_IFREG else mode

def Call.type : Call → IType
  | .icreate _ _ => .FS_RGL
  | .imkdir _ _ => .FS_DIR
  | .imknod name mode devid => iextractType (Call.imknod name mode devid).mode

def Call.dev : Call → Nat
  | .icreate _ _ => 0
  | .imkdir _ _ => 0
  | .imknod _ _ devid => devid

theorem create_eq (s : Dir E P D I) (c : Call) (mem : Memory E P D I) :
    create s (c, mem) = tmpfsCreateNode s c.name c.mode c.type c.dev mem := by
  cases c <;> rfl

def step (s : Dir E P D I) (c : Call × Memory E P D I) : Except Fault (Dir E P D I) := do
  let (_, s) ← create s c
  return s

/-- The directory has the same entries, and all lookups give the same answers. -/
def Unchanged (s s' : Dir E P D I) : Prop :=
  (∀ e, s'.hmap.live e = s.hmap.live e ∧ (s.hmap.live e = true →
    (s'.hmap.entry e).key = (s.hmap.entry e).key ∧
      (s'.hmap.entry e).value = (s.hmap.entry e).value)) ∧
  ∀ fname ialloc, tmpfsIlookup s' fname ialloc = tmpfsIlookup s fname ialloc

/-- What a creation should do: the names stay different; a name that is there is refused and changes
nothing; a new node is found under its name, and lookups of other names answer as before. -/
def Orderly (s : Dir E P D I) (c : Call × Memory E P D I) (s' : Dir E P D I) : Prop :=
  ∃ ret, create s c = .ok (ret, s') ∧ UniqueNames s' ∧
    (has s c.1.name = true → ret ≠ .ok ∧ Unchanged s s') ∧
    (ret = .ok →
      (∃ ip, tmpfsIlookup s' c.1.name .ok = .ok (.ok ip) ∧ s.inodeLive ip.i_priv = false ∧
        ip.i_type = c.1.type ∧ ip.i_mode = c.1.mode ∧ ip.i_rdev = c.1.dev) ∧
      ∀ fname ialloc, fname ≠ c.1.name →
        tmpfsIlookup s' fname ialloc = tmpfsIlookup s fname ialloc)

def Memory.found (mem : Memory E P D I) (s : Dir E P D I) (type : IType) : Bool :=
  (mem.inode.filter fun i => !s.inodeLive i).isSome && !(type = .FS_DIR && !mem.hashMap) &&
    mem.name && (mem.dirent.filter fun d => !s.direntLive d).isSome &&
    (mem.entry.filter fun e => !s.hmap.live e).isSome && mem.copy = .ok

def fresh (s : Dir E P D I) (c : Call × Memory E P D I) : Bool :=
  !(has s c.1.name && c.2.found s c.1.type)

variable {s s' : Dir E P D I} {g : BinaryTree (Ds.Btree.Item P Nat E)}
  {m : MapState E P Nat FileName D}

theorem created_iff_found (h : Sound s g m) {fname : FileName} {mode : Mode} {type : IType}
    {dev : Nat} {mem : Memory E P D I} (hhas : has s fname = true) {ret : Ret}
    (hrun : tmpfsCreateNode s fname mode type dev mem = .ok (ret, s')) :
    ret = .ok ↔ mem.found s type = true := by
  rw [Memory.found]
  rw [tmpfsCreateNode, tmpfsIalloc] at hrun
  cases hinode : mem.inode.filter fun i => !s.inodeLive i with
  | none =>
    simp only [hinode, pure_eq_ok, Except.ok.injEq, Prod.mk.injEq] at hrun
    simp [← hrun.1]
  | some ip =>
    cases htype : decide (type = .FS_DIR) && !mem.hashMap with
    | true =>
      simp only [hinode, htype, if_true, pure_eq_ok, Except.ok.injEq, Prod.mk.injEq] at hrun
      simp [← hrun.1]
    | false =>
      simp only [hinode, htype, Bool.false_eq_true, if_false, tmpfsDirentAlloc] at hrun
      cases hname : mem.name with
      | false =>
        simp only [hname, Bool.not_false, if_true, pure_eq_ok, Except.ok.injEq,
          Prod.mk.injEq] at hrun
        simp [← hrun.1]
      | true =>
        simp only [hname, Bool.not_true, Bool.false_eq_true, if_false] at hrun
        cases hdirent : mem.dirent.filter fun d => !s.direntLive d with
        | none =>
          simp only [hdirent, pure_eq_ok, Except.ok.injEq, Prod.mk.injEq] at hrun
          simp [← hrun.1]
        | some d =>
          rcases h.keeps.insert fname (some d) mem.entry mem.copy mem.node with
            ⟨hmap, g', hinsert, -⟩
          have hkey : fname ∈ m.entries.map HItem.key := h.has_iff.1 hhas
          have hb : bucket tmpfsHashctx.hash m.entries (tmpfsHashctx.hash fname) ≠ [] := by
            rcases List.mem_map.1 hkey with ⟨e, he, heq⟩
            exact List.ne_nil_of_mem (mem_bucket.2 ⟨he, by rw [heq]⟩)
          have hok := mapInsert_ok_iff hb (some d) mem.entry mem.copy mem.node
          rw [h.keeps.filter_place] at hok
          simp only [hdirent, hinsert, ok_bind] at hrun
          have hret : ret = .ok ↔ (mapInsert tmpfsHashctx.hash m fname (some d) mem.entry
              mem.copy mem.node).1 = .ok := by
            split_ifs at hrun with herr
            · simp only [pure_eq_ok, Except.ok.injEq, Prod.mk.injEq] at hrun
              rw [hrun.1]
            · simp only [pure_eq_ok, Except.ok.injEq, Prod.mk.injEq] at hrun
              rw [← hrun.1]
              exact iff_of_true rfl (not_not.1 herr)
          rw [hret, hok]
          simp

theorem Sound.unchanged (h : Sound s g m) (hagrees : Agrees s s')
    {g' : BinaryTree (Ds.Btree.Item P Nat E)} {m' : MapState E P Nat FileName D}
    (h' : Sound s' g' m') (hentries : m'.entries = m.entries) : Unchanged s s' := by
  have hlive (e : E) : s'.hmap.live e = true ↔ s.hmap.live e = true := by
    rw [h'.keeps.stored.live, h.keeps.stored.live, hentries]
  refine ⟨fun e => ⟨Bool.eq_iff_iff.2 (hlive e), fun he => ?_⟩, fun fname ialloc => ?_⟩
  · rcases List.mem_map.1 ((h.keeps.stored.live e).1 he) with ⟨a, ha, rfl⟩
    have hold := h.keeps.stored.toLinked.stored ha
    have hnew := h'.keeps.stored.toLinked.stored (e := a) (by rw [hentries]; exact ha)
    exact ⟨hnew.2.1.trans hold.2.1.symm, hnew.2.2.trans hold.2.2.symm⟩
  · have hfind : m'.find fname = m.find fname := by
      rw [MapState.find, MapState.find, hentries]
    rw [h'.ilookup, h.ilookup, hfind,
      h.answer_eq hagrees ialloc fun e he => (MapState.find_some he).1]

theorem step_orderly (h : Sound s g m) (hunique : UniqueNames s) {c : Call × Memory E P D I}
    (hfresh : fresh s c = true) :
    ∃ s' g' m', step s c = .ok s' ∧ Orderly s c s' ∧ Sound s' g' m' := by
  rcases c with ⟨c, mem⟩
  rcases tmpfsCreateNode_spec h c.name c.mode c.type c.dev mem with
    ⟨ret, s', g', m', hrun, h', hagrees, heffect⟩
  have hcreate : create s (c, mem) = .ok (ret, s') := (create_eq s c mem).trans hrun
  refine ⟨s', g', m', by rw [step, hcreate]; rfl, ⟨ret, hcreate, ?_⟩, h'⟩
  cases heffect with
  | failed hentries =>
    refine ⟨?_, fun _ => ⟨by simp, h.unchanged hagrees h' hentries⟩, by simp⟩
    rw [h'.uniqueNames_iff, hentries, ← h.uniqueNames_iff]
    exact hunique
  | @created p d ip ino hentries hnew hdirent hinode =>
    -- the name was not there
    have hhas : has s c.name = false := by
      rw [Bool.eq_false_iff]
      intro hhas
      have hfound := (created_iff_found h hhas hrun).1 rfl
      simp [fresh, hhas, hfound] at hfresh
    have hkey : c.name ∉ m.entries.map HItem.key := fun hmem => by
      rw [h.has_iff.2 hmem] at hhas
      exact absurd hhas (by simp)
    have hnone : m.find c.name = none := by
      rw [MapState.find, List.find?_eq_none]
      intro e he heq
      exact hkey (List.mem_map.2 ⟨e, he, by simpa using heq⟩)
    refine ⟨?_, by simp [hhas], fun _ => ⟨?_, ?_⟩⟩
    · rw [h'.uniqueNames_iff, hentries, List.map_append]
      refine List.nodup_append.2 ⟨h.uniqueNames_iff.1 hunique, by simp, ?_⟩
      intro k hk k' hk' heq
      rw [List.map_singleton, List.mem_singleton] at hk'
      rw [heq, hk'] at hk
      exact hkey hk
    · have hfind : m'.find c.name = some ⟨p, c.name, some d⟩ := by
        rw [MapState.find] at hnone
        rw [MapState.find, hentries, List.find?_append, hnone]
        simp
      refine ⟨⟨ip, ino, c.type, 0, 1, 0, 0, c.mode, c.dev⟩, ?_, hnew, rfl, rfl, rfl⟩
      rw [h'.ilookup, hfind]
      simp [answer, hdirent, hinode]
    · intro fname ialloc hne
      have hfind : m'.find fname = m.find fname := by
        have hlast : ([⟨p, c.name, some d⟩] : List (HItem E FileName D)).find?
            (fun e => decide (e.key = fname)) = none := by
          simp [Ne.symm hne]
        rw [MapState.find, MapState.find, hentries, List.find?_append, hlast, Option.or_none]
      rw [h'.ilookup, h.ilookup, hfind,
        h.answer_eq hagrees ialloc fun e he => (MapState.find_some he).1]

theorem step_not_orderly (h : Sound s g m) {c : Call × Memory E P D I}
    (hfresh : fresh s c = false) : ¬Safe (fun _ => False) (step s c) (Orderly s c) := by
  rcases c with ⟨c, mem⟩
  rcases tmpfsCreateNode_spec h c.name c.mode c.type c.dev mem with ⟨ret, s', g', m', hrun, -, -, -⟩
  have hcreate : create s (c, mem) = .ok (ret, s') := (create_eq s c mem).trans hrun
  simp only [fresh, Bool.not_eq_false', Bool.and_eq_true] at hfresh
  have hok : ret = .ok := (created_iff_found h hfresh.1 hrun).2 hfresh.2
  have hstep : step s (c, mem) = .ok s' := by
    rw [step, hcreate]
    rfl
  rw [hstep]
  rintro ⟨ret', hcreate', -, hrefused, -⟩
  rw [hcreate] at hcreate'
  cases hcreate'
  exact (hrefused hfresh.1).1 hok

/-- Every creation does what it should exactly when no name is created that is there already, unless
memory is missing. -/
theorem orderly_iff_fresh (memory : Dir E P D I) (cs : List (Call × Memory E P D I)) :
    Stepwise (fun _ => False) step Orderly (emptyDir memory) cs ↔
      guarded step fresh (emptyDir memory) cs = true := by
  refine stepwise_iff_guarded (I := fun s => (∃ g m, Sound s g m) ∧ UniqueNames s) ?_ ?_ ?_
  · rintro s c ⟨⟨g, m, h⟩, hunique⟩ hfresh
    rcases step_orderly h hunique hfresh with ⟨s', g', m', hstep, horderly, h'⟩
    rw [hstep]
    have hunique' : UniqueNames s' := horderly.choose_spec.2.1
    exact ⟨horderly, ⟨g', m', h'⟩, hunique'⟩
  · rintro s c ⟨⟨g, m, h⟩, -⟩ hfresh
    exact step_not_orderly h hfresh
  · exact ⟨⟨.nil, ⟨[], []⟩, sound_empty memory⟩, uniqueNames_empty memory⟩

/-- The same name is created twice: the directory gets a second entry with it. -/
theorem twice_not_orderly :
    ¬∀ (memory : Dir (Fin 2) (Fin 1) (Fin 2) (Fin 2))
      (cs : List (Call × Memory (Fin 2) (Fin 1) (Fin 2) (Fin 2))),
      Stepwise (fun _ => False) step Orderly (emptyDir memory) cs := by
  intro h
  let memory : Dir (Fin 2) (Fin 1) (Fin 2) (Fin 2) :=
    ⟨hashMapInit (fun _ => ⟨[], none, none⟩) fun _ => ⟨0, 0, none, none, none, none⟩,
      fun _ => ⟨[], none⟩, fun _ => false, fun _ => ⟨0, 0, 0, 0, .FS_INV, 0, 0, 0⟩,
      fun _ => false, 0⟩
  let first : Call × Memory (Fin 2) (Fin 1) (Fin 2) (Fin 2) :=
    (.icreate [97] 0, ⟨some 0, true, true, some 0, some 0, .ok, some 0⟩)
  let second : Call × Memory (Fin 2) (Fin 1) (Fin 2) (Fin 2) :=
    (.icreate [97] 0, ⟨some 1, true, true, some 1, some 1, .ok, none⟩)
  rcases step_orderly (sound_empty memory) (uniqueNames_empty memory) (c := first)
    (by decide +kernel) with ⟨s, g, m, hstep, -, hsound⟩
  have hfresh : (step (emptyDir memory) first).toOption.map (fun s => fresh s second) =
      some false := by
    decide +kernel
  rw [hstep] at hfresh
  have hrun := h memory [first, second]
  rw [Stepwise, hstep] at hrun
  exact step_not_orderly hsound (by simpa [Except.toOption] using hfresh) hrun.2.head

end Calls

end TmpfsDir
end Fs
end XytherOS
