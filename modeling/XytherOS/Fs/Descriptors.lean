import Mathlib
import XytherOS.Core.Status

/-!
# Descriptors — the descriptor tables of `fs/sysfile.c`

Every thread has a file context with a table of open files, which grows by one slot at a time or, for
`dup2`, up to the descriptor that is asked for.  An open file counts the references to it, and
`fclose` frees it with the last one.

* The files have no `fops`, as `open` makes them, so that `fclose` is the generic one.
* The directories of a context, which `file_copy` copies too, are left out.
* A descriptor is an integer of any size: a table of `2 ^ 31` slots is never found memory for.
-/

namespace XytherOS
namespace Fs
namespace Descriptors

open Function

variable {C F : Type} [DecidableEq C] [DecidableEq F]

structure FileCtx (F : Type) where
  fcFiles : Option (List (Option F))
  fcNfile : Int

/-- The contexts `C`, with the `f_refcnt` of the files `F` and whether they are allocated. -/
structure State (C F : Type) where
  fctx : C → FileCtx F
  refcnt : F → Int
  live : F → Bool

/-- What the allocator does during a call: the block for a new file, whether it finds memory for a
table, and what is in a block that is not cleared. -/
structure Memory (F : Type) where
  place : Option F
  room : Bool
  junk : Nat → Option F

/-! ## Tables -/

def kmalloc (m : Memory F) (n : Int) : Option (List (Option F)) :=
  if m.room = true ∧ n < 2 ^ 31 then some ((List.range n.toNat).map m.junk) else none

def krealloc (m : Memory F) (files : List (Option F)) (n : Int) : Option (List (Option F)) :=
  if m.room = true ∧ n < 2 ^ 31 then
    some ((List.range n.toNat).map fun i => files[i]?.getD (m.junk i))
  else none

def clearFrom (files : List (Option F)) (n : Int) : List (Option F) :=
  files.take n.toNat ++ List.replicate (files.length - n.toNat) none

def readSlot (files : List (Option F)) (fd : Int) : Except Fault (Option F) :=
  if 0 ≤ fd then
    match files[fd.toNat]? with
    | some file => .ok file
    | none => .error .wildAccess
  else .error .wildAccess

def writeSlot (files : List (Option F)) (fd : Int) (file : Option F) :
    Except Fault (List (Option F)) :=
  if 0 ≤ fd ∧ fd < files.length then .ok (files.set fd.toNat file) else .error .wildAccess

def freeSlot (files : List (Option F)) : Nat → Int → Except Fault (Option Int)
  | 0, _ => .ok none
  | n + 1, fd => do
      match ← readSlot files fd with
      | none => return some fd
      | some _ => freeSlot files n (fd + 1)

namespace State

/-! ## Files -/

def flock (s : State C F) (file : F) : Except Fault Unit :=
  if s.live file then .ok () else .error .wildAccess

def falloc (s : State C F) (file : F) : State C F :=
  { s with refcnt := update s.refcnt file 1, live := update s.live file true }

def fdestroy (s : State C F) (file : F) : State C F :=
  { s with live := update s.live file false }

def fdup (s : State C F) (file : F) : State C F :=
  { s with refcnt := update s.refcnt file (s.refcnt file + 1) }

def fput (s : State C F) (file : F) : State C F :=
  { s with refcnt := update s.refcnt file (s.refcnt file - 1) }

def fclose (s : State C F) (file : F) : State C F :=
  let put := s.fput file
  if put.refcnt file ≤ 0 then put.fdestroy file else put

/-! ## Contexts -/

def setCtx (s : State C F) (c : C) (ctx : FileCtx F) : State C F :=
  { s with fctx := update s.fctx c ctx }

def setSlot (s : State C F) (c : C) (fd : Int) (file : Option F) : Except Fault (State C F) :=
  match (s.fctx c).fcFiles with
  | none => .error .nullDeref
  | some files => do
      let files ← writeSlot files fd file
      return s.setCtx c ⟨some files, (s.fctx c).fcNfile⟩

def fileGet (s : State C F) (c : C) (fd : Int) : Except Fault (Except Errno F) :=
  match (s.fctx c).fcFiles with
  | none => .ok (.error .EBADFD)
  | some files =>
    if fd < 0 ∨ (s.fctx c).fcNfile ≤ fd then .ok (.error .EBADFD)
    else do
      match ← readSlot files fd with
      | none => return .error .EBADFD
      | some file =>
        s.flock file
        return .ok file

def fileFree (s : State C F) (c : C) (fd : Int) : Except Fault (Except Errno Int × State C F) :=
  match (s.fctx c).fcFiles with
  | none => .ok (.error .EBADFD, s)
  | some _ =>
    if fd < 0 ∨ (s.fctx c).fcNfile ≤ fd then .ok (.error .EBADFD, s)
    else do
      let s ← s.setSlot c fd none
      return (.ok 0, s)

def close (s : State C F) (c : C) (fd : Int) : Except Fault (Except Errno Int × State C F) := do
  match ← s.fileGet c fd with
  | .error e => return (.error e, s)
  | .ok file => (s.fclose file).fileFree c fd

/-- The table of `file_alloc`, which is made with one slot when there is none. -/
def openTable (s : State C F) (c : C) (m : Memory F) : Option (List (Option F) × Int) :=
  match (s.fctx c).fcFiles with
  | some files => some (files, (s.fctx c).fcNfile)
  | none => if m.room then some ([none], 1) else none

def fileAlloc (s : State C F) (c : C) (m : Memory F) :
    Except Fault (Except Errno Int × State C F) :=
  match m.place with
  | none => .ok (.error .ENOMEM, s)
  | some file =>
    let opened := s.falloc file
    match s.openTable c m with
    | none => .ok (.error .ENOMEM, opened.fdestroy file)
    | some (files, nfile) => do
        match ← freeSlot files nfile.toNat 0 with
        | some fd =>
          let files ← writeSlot files fd (some file)
          return (.ok fd, opened.setCtx c ⟨some files, nfile⟩)
        | none =>
          match krealloc m files (nfile + 1) with
          | none => return (.error .ENOMEM, (opened.setCtx c ⟨some files, nfile⟩).fdestroy file)
          | some tmp =>
            let files ← writeSlot tmp nfile (some file)
            return (.ok nfile, opened.setCtx c ⟨some files, nfile + 1⟩)

/-- The first half of the `if (fd2 > 0)` of `file_dup`: a table with a slot `fd2`. -/
def growTable (s : State C F) (c : C) (files : List (Option F)) (fd2 : Int) (m : Memory F) :
    Option (State C F) :=
  if fd2 < (s.fctx c).fcNfile then some s
  else match krealloc m files (fd2 + 1) with
    | none => none
    | some tmp => some (s.setCtx c ⟨some (clearFrom tmp (s.fctx c).fcNfile), fd2 + 1⟩)

/-- The second half: the file that the slot `fd2` holds is closed. -/
def vacate (s : State C F) (c : C) (fd2 : Int) : Except Fault (State C F) := do
  match ← readSlot ((s.fctx c).fcFiles.getD []) fd2 with
  | none => return s
  | some file =>
    s.flock file
    (s.fclose file).setSlot c fd2 none

def takeSlot (s : State C F) (c : C) (files : List (Option F)) (fd2 : Int) (m : Memory F) :
    Except Fault (Option (State C F)) :=
  if 0 < fd2 then
    match s.growTable c files fd2 m with
    | none => .ok none
    | some s => do
        let s ← s.vacate c fd2
        return some s
  else .ok (some s)

def fileDup (s : State C F) (c : C) (fd1 fd2 : Int) (m : Memory F) :
    Except Fault (Except Errno Int × State C F) :=
  match (s.fctx c).fcFiles with
  | none => .ok (.error .EBADFD, s)
  | some files => do
      -- the slot is read before `fd1` is looked at
      match ← readSlot files fd1 with
      | none => return (.error .EBADFD, s)
      | some file =>
        if fd1 < 0 ∨ (s.fctx c).fcNfile ≤ fd1 then return (.error .EBADFD, s)
        let fd2 := if fd2 < 0 then (s.fctx c).fcNfile else fd2
        if fd1 = fd2 then return (.ok fd1, s)
        match ← s.takeSlot c files fd2 m with
        | none => return (.error .ENOMEM, s)
        | some s =>
          s.flock file
          let s ← (s.fdup file).setSlot c fd2 (some file)
          return (.ok fd2, s)

def copySlot (dst src : C) (fd : Nat) (s : State C F) : Except Fault (State C F) :=
  match (s.fctx src).fcFiles with
  | none => .error .nullDeref
  | some files => do
      match ← readSlot files fd with
      | none => return s
      | some file =>
        s.flock file
        (s.fdup file).setSlot dst fd (some file)

def fileCopy (s : State C F) (dst src : C) (m : Memory F) :
    Except Fault (Except Errno Int × State C F) :=
  let nfile := (s.fctx src).fcNfile
  match if nfile ≠ 0 then (kmalloc m nfile).map some else some none with
  | none => .ok (.error .ENOMEM, s)
  | some files => do
      let s ← each (copySlot dst src) (List.range nfile.toNat) (s.setCtx dst ⟨files, nfile⟩)
      return (.ok 0, s)

end State

inductive Call (C F : Type)
  | openFile (c : C) (m : Memory F)
  | dup (c : C) (fd : Int) (m : Memory F)
  | dup2 (c : C) (fd1 fd2 : Int) (m : Memory F)
  | close (c : C) (fd : Int)
  | fork (dst src : C) (m : Memory F)

def call (s : State C F) : Call C F → Except Fault (Except Errno Int × State C F)
  | .openFile c m => s.fileAlloc c m
  | .dup c fd m => s.fileDup c fd (-1) m
  | .dup2 c fd1 fd2 m => s.fileDup c fd1 fd2 m
  | .close c fd => s.close c fd
  | .fork dst src m => s.fileCopy dst src m

def step (s : State C F) (a : Call C F) : Except Fault (State C F) := do
  let out ← call s a
  return out.2

/-- The allocator returns no block that is in use, and `fork` copies to the context of another
thread, which is as `fctx_alloc` makes it. -/
def allowed (s : State C F) : Call C F → Bool
  | .openFile _ m => m.place.all fun f => !s.live f
  | .fork dst src _ =>
    decide (dst ≠ src) && (s.fctx dst).fcFiles.isNone && decide ((s.fctx dst).fcNfile = 0)
  | _ => true

def State.init : State C F where
  fctx _ := ⟨none, 0⟩
  refcnt _ := 0
  live _ := false

end Descriptors
end Fs
end XytherOS
