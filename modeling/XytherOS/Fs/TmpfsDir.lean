import XytherOS.Ds.HashMapRefine

/-!
# TmpfsDir — the directories of `fs/tmpfs/tmpfs.c`

A tmpfs directory is a hash map from file names to `tmpfs_dirent_t`s, which point to the
`tmpfs_inode_t`s.  A new node is put into the map of its directory by `hashMap_insert`; nothing
looks whether the name is there already.

The directory is a valid one, its lock is held, and the names are C strings: they hold no NUL.  Every
directory has a map of its own, so that creations in other directories do not meet this one.
-/

namespace XytherOS
namespace Fs
namespace TmpfsDir

open Ds.HashMap Function

abbrev FileName := List (BitVec 8)

def tmpfsHash (key : FileName) : Nat :=
  (key.foldl (fun (hash : BitVec 64) c => (hash <<< 5) + hash + c.signExtend 64) 5381).toNat

def tmpfsHashctx : HashMapContext Nat FileName := ⟨tmpfsHash, fun a b => decide (a = b)⟩

inductive IType
  | FS_INV
  | FS_RGL
  | FS_DIR
  | FS_CHR
  | FS_LNK
  | FS_BLK
  | FS_FIFO
  | FS_PIPE
  | FS_SOCK
  deriving DecidableEq, Repr

abbrev Mode := BitVec 32

def S_IFMT : Mode := 0o170000

def S_IFREG : Mode := 0o100000

def iextractType (mode : Mode) : IType :=
  if mode &&& S_IFMT = 0o040000 then .FS_DIR
  else if mode &&& S_IFMT = 0o020000 then .FS_CHR
  else if mode &&& S_IFMT = 0o060000 then .FS_BLK
  else if mode &&& S_IFMT = S_IFREG then .FS_RGL
  else if mode &&& S_IFMT = 0o010000 then .FS_FIFO
  else if mode &&& S_IFMT = 0o120000 then .FS_LNK
  else if mode &&& S_IFMT = 0o140000 then .FS_SOCK
  else .FS_INV

structure TmpfsInode where
  uid : Nat
  gid : Nat
  mode : Mode
  ino : Nat
  type : IType
  rdev : Nat
  size : Nat
  hlink : Int
  deriving DecidableEq, Repr

structure Dirent (I : Type) where
  name : FileName
  inode : Option I
  deriving DecidableEq

/-- A directory: its hash map, the memory of the dirents and inodes, and the counter of the inode
numbers. -/
structure Dir (E P D I : Type) where
  hmap : HMap E P Nat FileName D
  dirent : D → Dirent I
  direntLive : D → Bool
  inode : I → TmpfsInode
  inodeLive : I → Bool
  inos : Nat

/-- What the allocations of a creation find: the inode, its hash map where it is a directory, the
copy of the name, the dirent, and for `hashMap_insert` the entry, the copy of the key and the tree
node. -/
structure Memory (E P D I : Type) where
  inode : Option I
  hashMap : Bool
  name : Bool
  dirent : Option D
  entry : Option E
  copy : Ret
  node : Option P

variable {E P D I : Type} [DecidableEq E] [DecidableEq P] [DecidableEq D] [DecidableEq I]
  [Fintype E] [Fintype P]

omit [DecidableEq E] [DecidableEq P] [DecidableEq D] [Fintype E] [Fintype P] in
def tmpfsIalloc (s : Dir E P D I) (type : IType) (mem : Memory E P D I) :
    Except Errno (I × Dir E P D I) :=
  match mem.inode.filter fun i => !s.inodeLive i with
  | none => .error .ENOMEM
  | some ip =>
    if type = .FS_DIR && !mem.hashMap then .error .ENOMEM
    else
      .ok (ip,
        { s with
          inode := update s.inode ip ⟨0, 0, 0, s.inos, type, 0, 0, 1⟩
          inodeLive := update s.inodeLive ip true
          inos := s.inos + 1 })

omit [DecidableEq E] [DecidableEq P] [DecidableEq D] [Fintype E] [Fintype P] in
def tmpfsIfree (s : Dir E P D I) (ip : I) : Dir E P D I :=
  { s with
    inode := update s.inode ip { s.inode ip with hlink := (s.inode ip).hlink - 1 } }

omit [DecidableEq E] [DecidableEq P] [DecidableEq I] [Fintype E] [Fintype P] in
def tmpfsDirentAlloc (s : Dir E P D I) (fname : FileName) (ip : I) (mem : Memory E P D I) :
    Except Errno (D × Dir E P D I) :=
  if !mem.name then .error .ENOMEM
  else
    match mem.dirent.filter fun d => !s.direntLive d with
    | none => .error .ENOMEM
    | some tde =>
      .ok (tde,
        { s with
          dirent := update s.dirent tde ⟨fname, some ip⟩
          direntLive := update s.direntLive tde true })

omit [DecidableEq E] [DecidableEq P] [Fintype E] [Fintype P] in
def tmpfsDirentFree (s : Dir E P D I) (dirent : D) : Dir E P D I :=
  let s :=
    match (s.dirent dirent).inode with
    | none => s
    | some ip =>
      { s with
        inode := update s.inode ip
          { s.inode ip with hlink := (s.inode ip).hlink - 1 } }
  { s with direntLive := update s.direntLive dirent false }

def tmpfsCreateNode (s : Dir E P D I) (fname : FileName) (mode : Mode) (type : IType) (dev : Nat)
    (mem : Memory E P D I) : Except Fault (Ret × Dir E P D I) := do
  match tmpfsIalloc s type mem with
  | .error e => return (.err e, s)
  | .ok (ip, s) =>
    match tmpfsDirentAlloc s fname ip mem with
    | .error e => return (.err e, tmpfsIfree s ip)
    | .ok (dirent, s) =>
      let (err, hmap) ←
        hashMapInsert tmpfsHashctx s.hmap fname (some dirent) mem.entry mem.copy mem.node
      let s := { s with hmap := hmap }
      if err ≠ .ok then return (err, tmpfsIfree (tmpfsDirentFree s dirent) ip)
      return (.ok,
        { s with
          inode := update s.inode ip { s.inode ip with mode := mode, rdev := dev } })

def tmpfsImkdir (s : Dir E P D I) (fname : FileName) (mode : Mode) (mem : Memory E P D I) :
    Except Fault (Ret × Dir E P D I) :=
  tmpfsCreateNode s fname mode .FS_DIR 0 mem

def tmpfsIcreate (s : Dir E P D I) (fname : FileName) (mode : Mode) (mem : Memory E P D I) :
    Except Fault (Ret × Dir E P D I) :=
  tmpfsCreateNode s fname mode .FS_RGL 0 mem

def tmpfsImknod (s : Dir E P D I) (name : FileName) (mode : Mode) (devid : Nat)
    (mem : Memory E P D I) : Except Fault (Ret × Dir E P D I) :=
  let mode := if mode &&& S_IFMT = 0 then mode ||| S_IFREG else mode
  tmpfsCreateNode s name mode (iextractType mode) devid mem

structure Inode (I : Type) where
  i_priv : I
  i_ino : Nat
  i_type : IType
  i_size : Nat
  i_hlinks : Int
  i_gid : Nat
  i_uid : Nat
  i_mode : Mode
  i_rdev : Nat
  deriving DecidableEq

omit [DecidableEq E] [DecidableEq P] [DecidableEq D] [DecidableEq I] in
def tmpfsIlookup (s : Dir E P D I) (fname : FileName) (ialloc : Ret) :
    Except Fault (Except Errno (Inode I)) := do
  match ← hashMapLookup tmpfsHashctx s.hmap fname with
  | (.err e, _) => return .error e
  | (.ok, none) => throw .nullDeref
  | (.ok, some dirent) =>
    if !s.direntLive dirent then throw .wildAccess
    match (s.dirent dirent).inode, ialloc with
    | none, _ => return .error .EINVAL
    | some _, .err e => return .error e
    | some ip, .ok =>
      let tino := s.inode ip
      return .ok ⟨ip, tino.ino, tino.type, tino.size, tino.hlink, tino.gid, tino.uid,
        tino.mode, tino.rdev⟩

omit [DecidableEq E] [DecidableEq P] [DecidableEq D] [DecidableEq I] [Fintype E] [Fintype P] in
/-- A directory after its `hashMap_alloc`, with whatever the memory holds. -/
def emptyDir (memory : Dir E P D I) : Dir E P D I :=
  { memory with hmap := hashMapInit memory.hmap.entry memory.hmap.bucketTree.node }

inductive Call
  | icreate (fname : FileName) (mode : Mode)
  | imkdir (fname : FileName) (mode : Mode)
  | imknod (name : FileName) (mode : Mode) (devid : Nat)

def create (s : Dir E P D I) (c : Call × Memory E P D I) : Except Fault (Ret × Dir E P D I) :=
  match c.1 with
  | .icreate fname mode => tmpfsIcreate s fname mode c.2
  | .imkdir fname mode => tmpfsImkdir s fname mode c.2
  | .imknod name mode devid => tmpfsImknod s name mode devid c.2

end TmpfsDir
end Fs
end XytherOS
