import XytherOS.Ds.Btree

/-!
# HashMap — the hash maps of `ds/hashMap.c`

The entries whose keys have the same hash form a chain; a binary tree holds the head of the chain
of every hash that occurs.  `hash` and `compare` are the functions of the map's context, whichever
they are; what the context's `copy` returns is part of the call.  Keys are given, not NULL; a value
may be NULL.  The locks are held throughout.
-/

namespace XytherOS
namespace Ds
namespace HashMap

open Function Btree

structure HashEntry (E K V : Type) where
  key : K
  next : Option E
  value : Option V
  deriving DecidableEq

structure HashMapContext (H K : Type) where
  hash : K → H
  compare : K → K → Bool

structure HMap (E P H K V : Type) where
  entry : E → HashEntry E K V
  live : E → Bool
  size : Nat
  bucketTree : Btrees P Unit H E

variable {E P H K V : Type}

def hashMapInit (entries : E → HashEntry E K V) (nodes : P → BtreeNode P Unit H E) :
    HMap E P H K V :=
  { entry := entries, live := fun _ => false, size := 0, bucketTree := btreeInit nodes }

namespace HMap

def read (s : HMap E P H K V) (e : E) : Except Fault (HashEntry E K V) :=
  if s.live e then .ok (s.entry e) else throw .wildAccess

def modify [DecidableEq E] (s : HMap E P H K V) (e : E)
    (f : HashEntry E K V → HashEntry E K V) : Except Fault (HMap E P H K V) := do
  let n ← s.read e
  return { s with entry := update s.entry e (f n) }

/-- The loops over a chain: the last entry that was passed, and the entry that passes the test. -/
def seek (s : HMap E P H K V) (test : E → HashEntry E K V → Bool) :
    Nat → Option E → Option E → Except Fault (Option E × Option E)
  | _, last, none => .ok (last, none)
  | 0, _, some _ => throw .hang
  | n + 1, last, some e => do
      let node ← s.read e
      if test e node then return (last, some e) else seek s test n (some e) node.next

end HMap

section Functions

variable [DecidableEq E] [DecidableEq P] [LinearOrder H] [Fintype E] [Fintype P]
  (ctx : HashMapContext H K)

omit [DecidableEq P] [LinearOrder H] [Fintype E] [Fintype P] in
def hashEntryDestroy (s : HMap E P H K V) (e : E) : HMap E P H K V :=
  { s with live := update s.live e false }

/-- `hashEntry_alloc`, given an entry that is not in use and what `copy` returns: the return code,
and the entry. -/
def hashEntryAlloc (s : HMap E P H K V) (key : K) (value : Option V) (place : Option E)
    (copy : Ret) : Ret × Option E × HMap E P H K V :=
  match place.filter fun e => !s.live e with
  | none => (.err .ENOMEM, none, s)
  | some e =>
    if copy ≠ .ok then (copy, none, s)
    else
      (.ok, some e,
        { s with
          entry := update s.entry e ⟨key, none, value⟩
          live := update s.live e true })

def hashMapInsertEntry (s : HMap E P H K V) (e : E) (node : Option P) :
    Except Fault (Ret × HMap E P H K V) := do
  let hashKey := ctx.hash (← s.read e).key
  match ← btreeSearch s.bucketTree () hashKey with
  | (.ok, some head) =>
    match ← s.seek (fun _ _ => false) (Fintype.card E) none (some head) with
    | (none, _) => throw .nullDeref
    | (some tail, _) =>
      let s ← s.modify tail fun n => { n with next := some e }
      return (.ok, { s with size := s.size + 1 })
  | (.err .ENOENT, _) =>
    let (err, tree) ← btreeInsert s.bucketTree () hashKey e node
    let s := { s with bucketTree := tree }
    if err = .ok then return (.ok, { s with size := s.size + 1 }) else return (err, s)
  | (err, _) => return (err, s)

def hashMapInsert (s : HMap E P H K V) (key : K) (value : Option V) (place : Option E)
    (copy : Ret) (node : Option P) : Except Fault (Ret × HMap E P H K V) := do
  match hashEntryAlloc s key value place copy with
  | (err, none, s) => return (err, s)
  | (_, some e, s) =>
    let (err, s) ← hashMapInsertEntry ctx s e node
    if err = .ok then return (.ok, s) else return (err, hashEntryDestroy s e)

def hashMapLookupEntry (s : HMap E P H K V) (key : K) : Except Fault (Option E) := do
  match ← btreeSearch s.bucketTree () (ctx.hash key) with
  | (.ok, some head) =>
    let (_, found) ← s.seek (fun _ n => ctx.compare n.key key) (Fintype.card E) none (some head)
    return found
  | _ => return none

def hashMapLookup (s : HMap E P H K V) (key : K) : Except Fault (Ret × Option V) := do
  match ← hashMapLookupEntry ctx s key with
  | none => return (.err .ENOENT, none)
  | some e => return (.ok, (← s.read e).value)

def hashMapUpdate (s : HMap E P H K V) (key : K) (newValue : Option V) :
    Except Fault (Ret × HMap E P H K V) := do
  if newValue.isNone then return (.err .EINVAL, s)
  match ← hashMapLookupEntry ctx s key with
  | none => return (.err .ENOENT, s)
  | some e => return (.ok, ← s.modify e fun n => { n with value := newValue })

/-- The part of `hashMap_remove_internal_entry` that takes the first matching entry out of the
chain at a tree node. -/
def unchain (s : HMap E P H K V) (node : P) (matchEntry : E → HashEntry E K V → Bool) :
    Except Fault (Option E × HMap E P H K V) := do
  let head := (← s.bucketTree.read node).data
  let first ← s.read head
  if matchEntry head first then
    match first.next with
    | none =>
      let tree ← btreeDeleteNode s.bucketTree () (some node)
      return (some head, { s with bucketTree := tree })
    | some next =>
      let tree ← s.bucketTree.modify node fun n => { n with data := next }
      return (some head, { s with bucketTree := tree })
  else
    match ← s.seek matchEntry (Fintype.card E) (some head) first.next with
    | (_, none) => return (none, s)
    | (none, some _) => throw .nullDeref
    | (some prev, some e) =>
      let next := (← s.read e).next
      let s ← s.modify prev fun n => { n with next := next }
      return (some e, s)

def hashMapRemoveInternalEntry (s : HMap E P H K V) (hashKey : H)
    (matchEntry : E → HashEntry E K V → Bool) : Except Fault (Ret × HMap E P H K V) := do
  match ← btreeLookup s.bucketTree () hashKey with
  | none => return (.err .ENOENT, s)
  | some node =>
    match ← unchain s node matchEntry with
    | (none, s) => return (.err .ENOENT, s)
    | (some e, s) => return (.ok, hashEntryDestroy { s with size := s.size - 1 } e)

def hashMapRemoveEntry (s : HMap E P H K V) (e : E) : Except Fault (Ret × HMap E P H K V) := do
  let hashKey := ctx.hash (← s.read e).key
  hashMapRemoveInternalEntry s hashKey fun entry _ => decide (entry = e)

def hashMapRemove (s : HMap E P H K V) (key : K) : Except Fault (Ret × HMap E P H K V) :=
  hashMapRemoveInternalEntry s (ctx.hash key) fun _ n => ctx.compare n.key key

omit [DecidableEq E] [DecidableEq P] [LinearOrder H] [Fintype E] [Fintype P] in
/-- The loop over one chain in `hashMap_into_iter_internal`. -/
def chainIter (cb : HMap E P H K V → E → Except Fault (Ret × HMap E P H K V)) :
    Nat → HMap E P H K V → Option E → Except Fault (Ret × HMap E P H K V)
  | _, s, none => .ok (.ok, s)
  | 0, _, some _ => throw .hang
  | n + 1, s, some e => do
      let next := (← s.read e).next
      let (err, s) ← cb s e
      if err ≠ .ok then return (err, s) else chainIter cb n s next

omit [DecidableEq E] [DecidableEq P] [LinearOrder H] [Fintype P] in
def hashMapIntoIterInternal (cb : HMap E P H K V → E → Except Fault (Ret × HMap E P H K V)) :
    Nat → HMap E P H K V → Option P → Except Fault (Ret × HMap E P H K V)
  | _, s, none => .ok (.ok, s)
  | 0, _, some _ => throw .hang
  | fuel + 1, s, some p => do
      match (← s.bucketTree.read p).btree with
      | none => throw (.assertion "No Btree")
      | some _ =>
        let (_, s) ← hashMapIntoIterInternal cb fuel s (← s.bucketTree.read p).left
        let node ← s.bucketTree.read p
        let (err, s) ← chainIter cb (Fintype.card E) s (some node.data)
        if err ≠ .ok then return (err, s)
        let (_, s) ← hashMapIntoIterInternal cb fuel s node.right
        return (.ok, s)

def hashMapFlush (s : HMap E P H K V) : Except Fault (HMap E P H K V) := do
  let (_, s) ← hashMapIntoIterInternal (hashMapRemoveEntry ctx) (Fintype.card P) s
    (s.bucketTree.root ())
  return s

end Functions

inductive HCall (E P K V : Type)
  | insert (key : K) (value : Option V) (place : Option E) (copy : Ret) (node : Option P)
  | update (key : K) (newValue : Option V)
  | remove (key : K)
  | removeEntry (entry : E)
  | lookup (key : K)
  | flush

/-- What a call gives back: its return code, and the value stored through `ref`. -/
structure Reply (V : Type) where
  ret : Ret
  value : Option V
  deriving DecidableEq

section Calls

variable [DecidableEq E] [DecidableEq P] [LinearOrder H] [Fintype E] [Fintype P]
  (ctx : HashMapContext H K)

def call (s : HMap E P H K V) : HCall E P K V → Except Fault (Reply V × HMap E P H K V)
  | .insert key value place copy node => do
      let (ret, s) ← hashMapInsert ctx s key value place copy node
      return (⟨ret, none⟩, s)
  | .update key newValue => do
      let (ret, s) ← hashMapUpdate ctx s key newValue
      return (⟨ret, none⟩, s)
  | .remove key => do
      let (ret, s) ← hashMapRemove ctx s key
      return (⟨ret, none⟩, s)
  | .removeEntry e => do
      let (ret, s) ← hashMapRemoveEntry ctx s e
      return (⟨ret, none⟩, s)
  | .lookup key => do
      let (ret, value) ← hashMapLookup ctx s key
      return (⟨ret, value⟩, s)
  | .flush => do return (⟨.ok, none⟩, ← hashMapFlush ctx s)

def run (s : HMap E P H K V) :
    List (HCall E P K V) → Except Fault (List (Reply V) × HMap E P H K V)
  | [] => .ok ([], s)
  | c :: cs => do
      let (reply, s) ← call ctx s c
      let (replies, s) ← run s cs
      return (reply :: replies, s)

end Calls

end HashMap
end Ds
end XytherOS
