import XytherOS.Core.Status
import XytherOS.Ds.Bitmap

/-!
# Devices — the device tables of `dev/dev.c`

A table has a bitmap of minors for every major and the devices that are registered.  A device counts
its references: one for the table, and one for every operation that is in progress on it.

* The locks are left out, and the fields `private` and `inode`.  The pointer to a position that
  `dev_alloc_minor` hands on points to an `int`, of which the model keeps the value.
* What the functions of a driver return is a part of the call, and so is the block that `kzalloc`
  finds.  An access to a device that has been freed is a fault.
-/

namespace XytherOS
namespace Dev

open Function

open Ds (Bitmap)

/-! ## Numbers -/

inductive Kind
  | chr
  | blk
  deriving DecidableEq, Repr

def CHRDEV : Int := 3

def BLKDEV : Int := 5

def MAX_MAJOR : Nat := 256

def MAX_MINOR : Nat := 256

def kindOf (type : Int) : Option Kind :=
  if type = CHRDEV then some .chr else if type = BLKDEV then some .blk else none

def devno (num : Int) (limit : Nat) : Option (Fin limit) :=
  if h : 0 ≤ num ∧ num < limit then some ⟨num.toNat, by omega⟩ else none

structure Slot where
  kind : Kind
  major : Fin MAX_MAJOR
  minor : Fin MAX_MINOR
  deriving DecidableEq, Repr

structure Devid where
  type : Int
  major : Int
  minor : Int
  deriving DecidableEq, Repr

def Devid.slot (dd : Devid) : Option Slot :=
  (kindOf dd.type).bind fun kind =>
    (devno dd.major MAX_MAJOR).bind fun major =>
      (devno dd.minor MAX_MINOR).map fun minor => ⟨kind, major, minor⟩

def devToMajor (dev : BitVec 16) : Nat := (dev &&& 0xff).toNat

def devToMinor (dev : BitVec 16) : Nat := (dev >>> 8 &&& 0xff).toNat

def devT (major minor : Nat) : BitVec 16 :=
  BitVec.ofNat 16 minor <<< 8 &&& 0xff00 ||| BitVec.ofNat 16 major &&& 0xff

def devidOf (type : Int) (dev : BitVec 16) : Devid := ⟨type, devToMajor dev, devToMinor dev⟩

/-! ## Devices -/

inductive DevOp
  | probe
  | fini
  | close
  | open'
  | getinfo
  | mmap
  | ioctl
  | lseek
  | read
  | write
  deriving DecidableEq, Repr

structure Device where
  devid : Devid
  devops : DevOp → Bool
  refcnt : Int
  name : List (BitVec 8)

/-- The tables, the devices at their addresses, and the addresses of those that `kdevice_create` has
made. -/
structure Registry where
  minorMap : Kind → Fin MAX_MAJOR → Bitmap
  devices : Slot → Option Nat
  heap : Nat → Option Device
  made : List Nat

namespace Registry

def use (r : Registry) (d : Nat) : Except Fault Device :=
  match r.heap d with
  | some dev => .ok dev
  | none => .error .wildAccess

def put (r : Registry) (d : Nat) (dev : Option Device) : Registry :=
  { r with heap := update r.heap d dev }

def setMap (r : Registry) (kind : Kind) (major : Fin MAX_MAJOR) (b : Bitmap) : Registry :=
  { r with minorMap := update r.minorMap kind (update (r.minorMap kind) major b) }

def setSlot (r : Registry) (slot : Slot) (d : Option Nat) : Registry :=
  { r with devices := update r.devices slot d }

/-- `bitmap_set` of one minor, whose result is not looked at. -/
def setMinor (r : Registry) (slot : Slot) : Registry :=
  r.setMap slot.kind slot.major ((r.minorMap slot.kind slot.major).bitmapSet slot.minor 1).2

/-- `bitmap_unset` of one minor, whose result is not looked at. -/
def unsetMinor (r : Registry) (slot : Slot) : Registry :=
  r.setMap slot.kind slot.major ((r.minorMap slot.kind slot.major).bitmapUnset slot.minor 1).2

/-- The device that is registered under a number, if the number is valid. -/
def find (r : Registry) (dd : Option Devid) : Option Nat := (dd.bind Devid.slot).bind r.devices

/-! ## Making devices -/

def devAllocMinor (r : Registry) (type major : Int) : Except Errno Nat × Registry :=
  match kindOf type, devno major MAX_MAJOR with
  | some kind, some major =>
    match (r.minorMap kind major).bitmapAllocRange 1 with
    | (.ok, pos, b) => (.ok (pos.getD 0), r.setMap kind major b)
    | (.err e, _, b) => (.error e, r.setMap kind major b)
  | _, _ => (.error .EINVAL, r)

def deviceAlreadyRegistered (r : Registry) (type : Int) (dev : BitVec 16) : Ret :=
  match (devidOf type dev).slot with
  | none => .err .EINVAL
  | some slot => if (r.devices slot).isSome then .ok else .err .ENODEV

def kdeviceCreate (r : Registry) (name : Option (List (BitVec 8))) (type : Int) (dev : BitVec 16)
    (devops : Option (DevOp → Bool)) (place : Option Nat) : Except Errno Nat × Registry :=
  match name with
  | none => (.error .EINVAL, r)
  | some name =>
    if 32 ≤ name.length then (.error .ENAMETOOLONG, r)
    else
      match place with
      | none => (.error .ENOMEM, r)
      | some d =>
        match r.deviceAlreadyRegistered type dev, (devidOf type dev).slot with
        | .err .ENODEV, some slot =>
          let device : Device :=
            { devid := devidOf type dev
              devops := devops.getD fun _ => false
              refcnt := 0
              name := name }
          (.ok d, { (r.setMinor slot).put d (some device) with made := d :: r.made })
        | .ok, _ => (.error .EEXIST, r)
        | .err e, _ => (.error e, r)

def deviceCreate (r : Registry) (name : Option (List (BitVec 8))) (type major : Int)
    (devops : Option (DevOp → Bool)) (place : Option Nat) : Except Errno Nat × Registry :=
  match r.devAllocMinor type major with
  | (.error e, r) => (.error e, r)
  | (.ok minor, r) =>
    match r.kdeviceCreate name type (devT major.toNat minor) devops place with
    | (.ok d, r) => (.ok d, r)
    | (.error e, r) =>
      match (devidOf type (devT major.toNat minor)).slot with
      | some slot => (.error e, r.unsetMinor slot)
      | none => (.error e, r)

def deviceDestroy (r : Registry) (dev : Option Nat) : Except Fault Registry :=
  match dev with
  | none => .ok r
  | some d => do
      let device ← r.use d
      let r := r.put d (some { device with refcnt := device.refcnt - 1 })
      if device.refcnt ≤ 0 then return r
      else return r.put d none

/-! ## Registering devices -/

def deviceRegister (r : Registry) (dev : Option Nat) (probe : Ret) : Except Fault (Ret × Registry) :=
  match dev with
  | none => .ok (.err .EINVAL, r)
  | some d => do
      let device ← r.use d
      match device.devid.slot with
      | none => return (.err .EINVAL, r)
      | some slot =>
        if device.devops .probe ∧ probe ≠ .ok then return (probe, r)
        else if (r.devices slot).isSome then return (.err .EEXIST, r)
        else
          let r := (r.setSlot slot (some d)).put d (some { device with refcnt := device.refcnt + 1 })
          return (.ok, r.setMinor slot)

def deviceUnregister (r : Registry) (dd : Option Devid) (fini : Ret) :
    Except Fault (Ret × Registry) :=
  match dd.bind Devid.slot with
  | none => .ok (.err .EINVAL, r)
  | some slot =>
    match r.devices slot with
    | none => .ok (.err .ENODEV, r)
    | some d => do
        let device ← r.use d
        let r := (r.setSlot slot none).put d (some { device with refcnt := device.refcnt - 1 })
        return (if device.devops .fini then fini else .ok, r)

/-! ## Operations -/

def getDeviceByDevid (r : Registry) (dd : Option Devid) :
    Except Fault (Option Device × Registry) :=
  match r.find dd with
  | none => .ok (none, r)
  | some d => do
      let device ← r.use d
      return (some device, r.put d (some { device with refcnt := device.refcnt + 1 }))

/-- An operation on a device, for which the driver returns `result`; `arg` tells whether the pointer
that the operation looks at is there. -/
def operate (r : Registry) (op : DevOp) (arg : Bool) (dd : Option Devid) (result : Except Errno Int) :
    Except Fault (Except Errno Int × Registry) := do
  match ← r.getDeviceByDevid dd with
  | (none, r) => return (.error Errno.ENXIO, r)
  | (some device, r) =>
    if !arg then return (.error .EFAULT, r)
    else if device.devops op then return (result, r)
    else return (.error .ENOSYS, r)

def deviceProbe (r : Registry) := r.operate .probe true

def deviceFini (r : Registry) := r.operate .fini true

def deviceClose (r : Registry) := r.operate .close true

def deviceOpen (r : Registry) := r.operate .open' true

def deviceGetinfo (r : Registry) (info : Bool) := r.operate .getinfo info

def deviceMmap (r : Registry) (vmregion : Bool) := r.operate .mmap vmregion

def deviceIoctl (r : Registry) := r.operate .ioctl true

def deviceLseek (r : Registry) := r.operate .lseek true

def deviceRead (r : Registry) := r.operate .read true

def deviceWrite (r : Registry) := r.operate .write true

end Registry

inductive Act
  | kdeviceCreate (name : Option (List (BitVec 8))) (type : Int) (dev : BitVec 16)
      (devops : Option (DevOp → Bool)) (place : Option Nat)
  | deviceCreate (name : Option (List (BitVec 8))) (type major : Int)
      (devops : Option (DevOp → Bool)) (place : Option Nat)
  | deviceRegister (dev : Option Nat) (probe : Ret)
  | deviceUnregister (dd : Option Devid) (fini : Ret)
  | deviceDestroy (dev : Option Nat)
  | operate (op : DevOp) (arg : Bool) (dd : Option Devid) (result : Except Errno Int)

def Registry.operation (r : Registry) (arg : Bool) : DevOp →
    Option Devid → Except Errno Int → Except Fault (Except Errno Int × Registry)
  | .probe => r.deviceProbe
  | .fini => r.deviceFini
  | .close => r.deviceClose
  | .open' => r.deviceOpen
  | .getinfo => r.deviceGetinfo arg
  | .mmap => r.deviceMmap arg
  | .ioctl => r.deviceIoctl
  | .lseek => r.deviceLseek
  | .read => r.deviceRead
  | .write => r.deviceWrite

def resultOf : Ret → Except Errno Int
  | .ok => .ok 0
  | .err e => .error e

def Registry.call (r : Registry) : Act → Except Fault (Except Errno Int × Registry)
  | .kdeviceCreate name type dev devops place =>
    let (out, r) := r.kdeviceCreate name type dev devops place
    .ok (out.map fun _ => 0, r)
  | .deviceCreate name type major devops place =>
    let (out, r) := r.deviceCreate name type major devops place
    .ok (out.map fun _ => 0, r)
  | .deviceRegister dev probe => do
      let (ret, r) ← r.deviceRegister dev probe
      return (resultOf ret, r)
  | .deviceUnregister dd fini => do
      let (ret, r) ← r.deviceUnregister dd fini
      return (resultOf ret, r)
  | .deviceDestroy dev => do
      let r ← r.deviceDestroy dev
      return (.ok 0, r)
  | .operate op arg dd result => r.operation arg op dd result

/-- The tables behind `device_mux_init`, with the devices of the drivers at their addresses. -/
def Registry.init (drivers : List (Devid × (DevOp → Bool))) : Registry where
  minorMap _ _ := .bitmapInit MAX_MINOR
  devices _ := none
  heap d := drivers[d]?.map fun driver => ⟨driver.1, driver.2, 0, []⟩
  made := []

end Dev
end XytherOS
