import XytherOS.Fs.Path
import Mathlib.Logic.Function.Basic

/-!
# Traverse — `vfs_traverse_path` of `fs/vfs_traverse.c`

A directory tree is what the file systems answer to `ilookup`.  The dentries are a second copy of
a part of it: each one has its children on a list, and a lock.  `vfs_traverse_path` looks for the
tokens of a path among the dentries, and from the first one that is missing on asks the file system
and makes the dentries itself.

* Every permission check succeeds, memory is found for every dentry, and every dentry has an inode.
* The reference counts stay above zero for as long as the tree holds a dentry, so that `dclose` is
  the release of the lock.  The locks of the inodes are released where they are taken.
-/

namespace XytherOS
namespace Fs

open Function

/-! ## Directory trees -/

/-- A directory tree: which nodes are directories, what `ilookup` finds in them, and how far a node
is below the root. -/
structure Tree where
  isdir : Nat → Bool
  child : Nat → Name → Option Nat
  depth : Nat → Nat
  deeper : ∀ {n : Nat} {name : Name} {c : Nat}, child n name = some c → depth c = depth n + 1

namespace Tree

def ilookup (t : Tree) (dir : Nat) (fname : Name) : Except Errno Nat :=
  if !t.isdir dir then .error .ENOTDIR
  else match t.child dir fname with
    | none => .error .ENOENT
    | some ip => .ok ip

/-- What a path means: follow the names one by one, and for a path that ends in `/` ask for a
directory. -/
def follow (t : Tree) (slash : Bool) (n : Nat) : List Name → Except Errno Nat
  | [] => if slash && !t.isdir n then .error .ENOTDIR else .ok n
  | name :: names =>
    match t.ilookup n name with
    | .error e => .error e
    | .ok c => follow t slash c names

end Tree

/-! ## Dentries -/

/-- A `dentry_t`: `d_name`, `d_inode` and `d_children`, the newest child first. -/
structure Dentry where
  name : Name
  inode : Nat
  children : List Nat

/-- The dentries below the number `next`, and which locks the thread holds. -/
structure Dcache where
  dentry : Nat → Dentry
  next : Nat
  locked : Nat → Bool

namespace Dcache

def dlock (c : Dcache) (d : Nat) : Except Fault Dcache := do
  assert (c.locked d = false) "Spinlock already held"
  return { c with locked := update c.locked d true }

def dunlock (c : Dcache) (d : Nat) : Except Fault Dcache := do
  assert (c.locked d = true) "Spinlock must be held."
  return { c with locked := update c.locked d false }

def dlookup (name : Name) : List Nat → Dcache → Except Fault (Option Nat × Dcache)
  | [], c => .ok (none, c)
  | d :: ds, c => do
      let c ← c.dlock d
      if (c.dentry d).name = name then return (some d, c)
      let c ← c.dunlock d
      dlookup name ds c

/-- `imkalias` and `dbind`: a new dentry, which is locked, before the other children. -/
def bindNew (c : Dcache) (dir : Nat) (name : Name) (ip : Nat) : Dcache :=
  let parent := c.dentry dir
  { dentry := update
      (update c.dentry dir { parent with children := c.next :: parent.children })
      c.next ⟨name, ip, []⟩
    next := c.next + 1
    locked := update c.locked c.next true }

end Dcache

/-- `fc_root` and `fc_cwd` of the thread.  A thread without a `fctx` starts at `droot`, as if both
were `droot`. -/
structure Fctx where
  root : Nat
  cwd : Nat

/-- The part of a `vfspath_t` that changes while the path is traversed, with the dentries. -/
structure Traversal where
  cache : Dcache
  directory : Nat
  dentry : Option Nat
  token : Name
  tokIndex : Nat
  tokenIslast : Bool

namespace Traversal

def inode (w : Traversal) : Nat := (w.cache.dentry w.directory).inode

def next (w : Traversal) (token : Name) : Traversal := { w with dentry := none, token := token }

end Traversal

/-- What happens to the dentry of a token, with the test for the last token. -/
def arrive (t : Tree) (p : Vfspath) (token : Name) (d : Nat) (w : Traversal) :
    Except Fault (Ret × Traversal) :=
  let nondir := !t.isdir (w.cache.dentry d).inode
  if token = p.lasttoken then
    if p.isdir && nondir then do
      let cache ← w.cache.dunlock d
      return (.err .ENOTDIR, { w with cache := cache, tokenIslast := true })
    else return (.ok, { w with dentry := some d, tokenIslast := true })
  else if nondir then do
    let cache ← w.cache.dunlock d
    return (.err .ENOTDIR, { w with cache := cache })
  else do
    let cache ← w.cache.dunlock w.directory
    return (.ok, { w with cache := cache, directory := d, tokIndex := w.tokIndex + 1 })

def lookupLoop (t : Tree) (p : Vfspath) : List Name → Traversal → Except Fault (Ret × Traversal)
  | [], w => .ok (.ok, w)
  | token :: ts, w => do
      let w := w.next token
      match t.ilookup w.inode token with
      | .error e =>
        return (.err e, { w with tokenIslast := w.tokenIslast || token == p.lasttoken })
      | .ok ip =>
        let d := w.cache.next
        let w := { w with cache := w.cache.bindNew w.directory token ip }
        match ← arrive t p token d w with
        | (.err e, w) => return (.err e, w)
        | (.ok, w) => lookupLoop t p ts w

/-- The outer loop, which looks among the dentries.  The inner loop takes over from `tok_index`
on. -/
def traverseLoop (t : Tree) (p : Vfspath) : List Name → Traversal → Except Fault (Ret × Traversal)
  | [], w => .ok (.ok, w)
  | token :: ts, w => do
      let w := w.next token
      if !t.isdir w.inode then return (.err .ENOTDIR, w)
      match ← Dcache.dlookup token (w.cache.dentry w.directory).children w.cache with
      | (none, cache) => lookupLoop t p (p.tokenized.drop w.tokIndex) { w with cache := cache }
      | (some d, cache) =>
        match ← arrive t p token d { w with cache := cache } with
        | (.err e, w) => return (.err e, w)
        | (.ok, w) => traverseLoop t p ts w

/-! ## The traversal -/

/-- The end of a traversal: `path->dentry` where it returns 0, which also sets `path->directory` to
null; the error and the state of the path elsewhere. -/
inductive Lookup
  | found (dentry : Option Nat) (cache : Dcache)
  | failed (e : Errno) (w : Traversal)

def vfsAttachRootdir (f : Fctx) (p : Vfspath) : Nat := if p.isabsolute then f.root else f.cwd

def vfsTraversePath (t : Tree) (f : Fctx) (p : Vfspath) (c : Dcache) : Except Fault Lookup := do
  let directory := vfsAttachRootdir f p
  let c ← c.dlock directory
  if p.absolute = ['/'] then
    if directory = f.root then return .found (some directory) c
    let c ← c.dunlock directory
    let c ← c.dlock f.root
    return .found (some f.root) c
  match ← traverseLoop t p p.tokenized ⟨c, directory, none, [], 0, false⟩ with
  | (.err e, w) => return .failed e w
  | (.ok, w) =>
    let cache ← w.cache.dunlock w.directory
    return .found w.dentry cache

end Fs
end XytherOS
