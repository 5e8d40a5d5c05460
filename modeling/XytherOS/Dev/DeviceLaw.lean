import XytherOS.Dev.Devices

/-!
# DeviceLaw — what keeps the device tables, their bitmaps and the reference counts together

Creating and registering devices does.  The operations do not: each of them takes a reference that
nobody gives back.  `device_destroy` compares the old count the wrong way round: it frees a device that
has a reference and keeps one that has none.  `device_unregister` leaves the bit of the minor, as is
right for a device that was created, but not for one that a driver owns.
-/

namespace XytherOS
namespace Dev

open Function

open Ds (Bitmap)

namespace Registry

def bit (r : Registry) (slot : Slot) : Bool := (r.minorMap slot.kind slot.major).bits slot.minor

def Registered (r : Registry) (d : Nat) : Prop := ∃ slot, r.devices slot = some d

/-- A device with that number is registered, or has been created and not yet freed. -/
def Taken (r : Registry) (slot : Slot) : Prop :=
  ∃ d dev, r.heap d = some dev ∧ dev.devid.slot = some slot ∧
    (d ∈ r.made ∨ r.devices slot = some d)

/-- A reference count between two calls, when no operation is in progress. -/
def CountOk (r : Registry) (d : Nat) (dev : Device) : Prop :=
  (r.Registered d → dev.refcnt = 1) ∧ (¬ r.Registered d → dev.refcnt = 0)

end Registry

structure Law (r : Registry) (a : Act) (r' : Registry) : Prop where
  bits : ∀ slot, r'.bit slot = true ↔ r'.Taken slot
  failing : ∀ e, r.call a = .ok (.error e, r') → r'.devices = r.devices ∧ r'.minorMap = r.minorMap
  refcnt : ∀ d dev, r'.heap d = some dev → r'.CountOk d dev
  destroy : ∀ d, a = .deviceDestroy (some d) → (r'.heap d = none ↔ ¬ r.Registered d)

def step (r : Registry) (a : Act) : Except Fault Registry := do
  let out ← r.call a
  return out.2

/-- What the callers see to: `kzalloc` finds a block that is not in use, and the devices are live. -/
def allowed (r : Registry) : Act → Bool
  | .kdeviceCreate _ _ _ _ place => place.all fun d => (r.heap d).isNone
  | .deviceCreate _ _ _ _ place => place.all fun d => (r.heap d).isNone
  | .deviceRegister dev _ => dev.all fun d => (r.heap d).isSome
  | .deviceDestroy dev => dev.all fun d => (r.heap d).isSome
  | .deviceUnregister _ _ => true
  | .operate _ _ _ _ => true

/-- The device that is taken out of its table has no `fini` that fails, and a device with its number
has been created. -/
def unregisterFine (r : Registry) (d : Nat) (fini : Ret) : Bool :=
  match r.heap d with
  | none => true
  | some dev => (!dev.devops .fini || fini = .ok) &&
      r.made.any fun d' => (r.heap d').any fun dev' => dev'.devid.slot = dev.devid.slot

def fine (r : Registry) : Act → Bool
  | .operate _ _ dd _ => (r.find dd).isNone
  | .deviceDestroy dev => dev.isNone
  | .deviceUnregister dd fini => (r.find dd).all fun d => unregisterFine r d fini
  | _ => true

structure Sound (r : Registry) : Prop where
  size : ∀ kind major, (r.minorMap kind major).size = MAX_MINOR
  bits : ∀ slot, r.bit slot = true ↔ r.Taken slot
  refcnt : ∀ d dev, r.heap d = some dev → r.CountOk d dev
  placed : ∀ slot d, r.devices slot = some d → ∃ dev, r.heap d = some dev ∧ dev.devid.slot = some slot

theorem Sound.init (drivers : List (Devid × (DevOp → Bool))) : Sound (Registry.init drivers) := by
  refine ⟨fun _ _ => rfl, fun slot => ?_, fun d dev hdev => ?_, fun slot d h => by cases h⟩
  · refine iff_of_false (by simp [Registry.bit, Registry.init, Bitmap.bitmapInit]) ?_
    rintro ⟨d, dev, -, -, hmade | hslot⟩
    · cases hmade
    · cases hslot
  · refine ⟨fun hreg => ?_, fun _ => ?_⟩
    · rcases hreg with ⟨slot, hslot⟩
      cases hslot
    · rw [Registry.init] at hdev
      cases hdriver : drivers[d]? with
      | none => simp [hdriver] at hdev
      | some driver =>
        simp only [hdriver, Option.map_some, Option.some.injEq] at hdev
        rw [← hdev]

/-! ## Numbers -/

theorem devno_natCast {n limit : Nat} (h : n < limit) : devno (n : Int) limit = some ⟨n, h⟩ := by
  rw [devno, dif_pos ⟨by omega, by omega⟩]
  simp

theorem devToMajor_lt (dev : BitVec 16) : devToMajor dev < MAX_MAJOR := by
  rw [devToMajor, BitVec.toNat_and]
  exact Nat.lt_of_le_of_lt Nat.and_le_right (by decide)

theorem devToMinor_lt (dev : BitVec 16) : devToMinor dev < MAX_MINOR := by
  rw [devToMinor, BitVec.toNat_and]
  exact Nat.lt_of_le_of_lt Nat.and_le_right (by decide)

theorem low_getLsbD {i : Nat} (hi : i < 16) : (0xff : BitVec 16).getLsbD i = decide (i < 8) := by
  revert i
  decide

theorem high_getLsbD {i : Nat} (hi : i < 16) :
    (0xff00 : BitVec 16).getLsbD i = decide (8 ≤ i) := by
  revert i
  decide

theorem byte_getLsbD {n i : Nat} (hn : n < 256) :
    (BitVec.ofNat 16 n).getLsbD i = (decide (i < 8) && n.testBit i) := by
  rw [BitVec.getLsbD_ofNat]
  by_cases hi : i < 8
  · have hi' : i < 16 := by omega
    rw [decide_eq_true hi, decide_eq_true hi']
  · have hpow : 2 ^ 8 ≤ 2 ^ i := Nat.pow_le_pow_right (by decide) (Nat.le_of_not_lt hi)
    have hlt : n < 2 ^ i := Nat.lt_of_lt_of_le hn hpow
    rw [Nat.testBit_lt_two_pow hlt, Bool.and_false, Bool.and_false]

theorem toNat_of_byte {n : Nat} (hn : n < 256) {x : BitVec 16}
    (h : ∀ i < 16, x.getLsbD i = (decide (i < 8) && n.testBit i)) : x.toNat = n := by
  have heq : x = BitVec.ofNat 16 n :=
    BitVec.eq_of_getLsbD_eq fun i hi => by rw [h i hi, byte_getLsbD hn]
  rw [heq, BitVec.toNat_ofNat]
  omega

theorem devT_numbers {major minor : Nat} (hmajor : major < MAX_MAJOR) (hminor : minor < MAX_MINOR) :
    devToMajor (devT major minor) = major ∧ devToMinor (devT major minor) = minor := by
  refine ⟨toNat_of_byte hmajor fun i hi => ?_, toNat_of_byte hminor fun i hi => ?_⟩
  · rw [devT, BitVec.getLsbD_and, BitVec.getLsbD_or, BitVec.getLsbD_and, BitVec.getLsbD_and,
      low_getLsbD hi, high_getLsbD hi, byte_getLsbD hmajor]
    by_cases hlow : i < 8
    · have hhigh : ¬ 8 ≤ i := by omega
      simp [hlow, hhigh]
    · simp [hlow]
  · rw [BitVec.getLsbD_and, BitVec.getLsbD_ushiftRight, devT, BitVec.getLsbD_or, BitVec.getLsbD_and,
      BitVec.getLsbD_and, BitVec.getLsbD_shiftLeft, low_getLsbD hi]
    by_cases hlow : i < 8
    · rw [low_getLsbD (by omega), high_getLsbD (by omega), Nat.add_sub_cancel_left,
        byte_getLsbD hminor]
      have hup : ¬ 8 + i < 8 := by omega
      have hin : 8 + i < 16 := by omega
      simp [hlow, hup, hin]
    · simp [hlow]

theorem slot_devidOf {type : Int} {kind : Kind} (hkind : kindOf type = some kind) (dev : BitVec 16) :
    (devidOf type dev).slot =
      some ⟨kind, ⟨devToMajor dev, devToMajor_lt dev⟩, ⟨devToMinor dev, devToMinor_lt dev⟩⟩ := by
  rw [Devid.slot, devidOf, hkind, devno_natCast (devToMajor_lt dev), devno_natCast (devToMinor_lt dev)]
  rfl

/-! ## Bits -/

section Bits

variable {r : Registry} {slot : Slot}

theorem setMap_minorMap (r : Registry) (kind kind' : Kind) (major major' : Fin MAX_MAJOR)
    (b : Bitmap) : (r.setMap kind major b).minorMap kind' major' =
      if kind' = kind ∧ major' = major then b else r.minorMap kind' major' := by
  show update r.minorMap kind (update (r.minorMap kind) major b) kind' major' = _
  by_cases hkind : kind' = kind
  · subst hkind
    by_cases hmajor : major' = major
    · subst hmajor
      simp
    · simp [hmajor]
  · simp [hkind]

theorem bitmapSet_bits {b : Bitmap} {pos : Nat} (hpos : pos < b.size) :
    (b.bitmapSet pos 1).2 = { b with bits := update b.bits pos true } := by
  rw [Bitmap.bitmapSet, if_neg (by omega), Bitmap.anyBit_one, Bitmap.fill_one]
  split
  · rename_i hset
    rw [beq_true] at hset
    rw [← hset, update_eq_self]
  · rfl

theorem setMinor_minorMap (hsize : (r.minorMap slot.kind slot.major).size = MAX_MINOR) :
    r.setMinor slot = r.setMap slot.kind slot.major
      { r.minorMap slot.kind slot.major with
        bits := update (r.minorMap slot.kind slot.major).bits slot.minor true } := by
  rw [Registry.setMinor, bitmapSet_bits]
  rw [hsize]
  exact slot.minor.isLt

theorem setMinor_bit (hsize : (r.minorMap slot.kind slot.major).size = MAX_MINOR) (slot' : Slot) :
    (r.setMinor slot).bit slot' = (decide (slot' = slot) || r.bit slot') := by
  rw [setMinor_minorMap hsize, Registry.bit, setMap_minorMap]
  by_cases heq : slot' = slot
  · subst heq
    simp
  · rw [decide_eq_false heq, Bool.false_or]
    split
    · rename_i hsame
      have hminor : slot'.minor.val ≠ slot.minor.val := by
        rintro hminor
        refine heq ?_
        cases slot
        cases slot'
        simp_all [Fin.ext_iff]
      show update (r.minorMap slot.kind slot.major).bits slot.minor.val true slot'.minor.val =
        r.bit slot'
      rw [update_of_ne hminor, Registry.bit, hsame.1, hsame.2]
    · rfl

theorem setMinor_size (hsize : ∀ kind major, (r.minorMap kind major).size = MAX_MINOR) (kind : Kind)
    (major : Fin MAX_MAJOR) : ((r.setMinor slot).minorMap kind major).size = MAX_MINOR := by
  rw [setMinor_minorMap (hsize _ _), setMap_minorMap]
  split
  · exact hsize _ _
  · exact hsize _ _

theorem setMap_setMap (r : Registry) (kind : Kind) (major : Fin MAX_MAJOR) (b b' : Bitmap) :
    (r.setMap kind major b).setMap kind major b' = r.setMap kind major b' := by
  simp [Registry.setMap]

theorem setMap_self (r : Registry) (kind : Kind) (major : Fin MAX_MAJOR) :
    r.setMap kind major (r.minorMap kind major) = r := by
  simp [Registry.setMap]

theorem setMinor_setMinor (hsize : (r.minorMap slot.kind slot.major).size = MAX_MINOR) :
    (r.setMinor slot).setMinor slot = r.setMinor slot := by
  have hmap : (r.setMinor slot).minorMap slot.kind slot.major =
      { r.minorMap slot.kind slot.major with
        bits := update (r.minorMap slot.kind slot.major).bits slot.minor true } := by
    rw [setMinor_minorMap hsize, setMap_minorMap, if_pos ⟨rfl, rfl⟩]
  rw [setMinor_minorMap (r := r.setMinor slot) (by rw [hmap]; exact hsize), hmap,
    setMinor_minorMap hsize, setMap_setMap, update_idem]

theorem unsetMinor_setMinor (hsize : (r.minorMap slot.kind slot.major).size = MAX_MINOR)
    (hbit : r.bit slot = false) : (r.setMinor slot).unsetMinor slot = r := by
  have hpos : slot.minor.val < (r.minorMap slot.kind slot.major).size := by
    rw [hsize]
    exact slot.minor.isLt
  have hclear : update (r.minorMap slot.kind slot.major).bits slot.minor.val false =
      (r.minorMap slot.kind slot.major).bits := by
    rw [← hbit]
    exact update_eq_self _ _
  have hunset : (Bitmap.bitmapUnset
      { r.minorMap slot.kind slot.major with
        bits := update (r.minorMap slot.kind slot.major).bits slot.minor true }
      slot.minor 1).2 = r.minorMap slot.kind slot.major := by
    rw [Bitmap.bitmapUnset_one]
    · dsimp only
      rw [update_idem, hclear]
    · exact hpos
    · exact update_self _ _ _
  rw [Registry.unsetMinor, setMinor_minorMap hsize, setMap_setMap, setMap_minorMap,
    if_pos ⟨rfl, rfl⟩, hunset]
  exact setMap_self r _ _

end Bits

/-! ## Making devices -/

section Make

variable {r : Registry} {name : Option (List (BitVec 8))} {type : Int} {dev : BitVec 16}
  {devops : Option (DevOp → Bool)} {place : Option Nat}

def Registry.make (r : Registry) (slot : Slot) (d : Nat) (device : Device) : Registry :=
  { (r.setMinor slot).put d (some device) with made := d :: r.made }

theorem Sound.made (h : Sound r) {slot : Slot} {d : Nat} {device : Device} (hfree : r.heap d = none)
    (hslot : device.devid.slot = some slot) (hcount : device.refcnt = 0) :
    Sound (r.make slot d device) := by
  have hother {e : Nat} {dev : Device} (he : r.heap e = some dev) :
      (r.make slot d device).heap e = some dev := by
    have hne : e ≠ d := by
      rintro rfl
      rw [hfree] at he
      cases he
    exact (update_of_ne hne _ _).trans he
  have hcases {e : Nat} {dev : Device} (he : (r.make slot d device).heap e = some dev) :
      e = d ∧ dev = device ∨ e ≠ d ∧ r.heap e = some dev := by
    by_cases hed : e = d
    · subst hed
      exact Or.inl ⟨rfl, by simpa [Registry.make, Registry.put] using he.symm⟩
    · exact Or.inr ⟨hed, (update_of_ne hed _ _).symm.trans he⟩
  refine ⟨fun kind major => setMinor_size h.size kind major, fun slot' => ?_, fun e dev he => ?_, ?_⟩
  · show (r.setMinor slot).bit slot' = true ↔ _
    rw [setMinor_bit (h.size _ _), Bool.or_eq_true, decide_eq_true_iff, h.bits]
    constructor
    · rintro (rfl | ⟨e, dev, he, hdev, hor⟩)
      · exact ⟨d, device, update_self _ _ _, hslot, Or.inl (List.mem_cons_self ..)⟩
      · exact ⟨e, dev, hother he, hdev, hor.imp (List.mem_cons_of_mem _) id⟩
    · rintro ⟨e, dev, he, hdev, hor⟩
      rcases hcases he with ⟨rfl, rfl⟩ | ⟨hne, he⟩
      · left
        rw [hslot] at hdev
        exact (Option.some.inj hdev).symm
      · exact Or.inr ⟨e, dev, he, hdev, hor.imp (fun hm => (List.mem_cons.1 hm).resolve_left hne) id⟩
  · rcases hcases he with ⟨rfl, rfl⟩ | ⟨hne, he⟩
    · refine ⟨fun ⟨slot', hreg⟩ => ?_, fun _ => hcount⟩
      rcases h.placed slot' e hreg with ⟨dev', hdev', -⟩
      rw [hfree] at hdev'
      cases hdev'
    · exact h.refcnt e dev he
  · intro slot' e hreg
    rcases h.placed slot' e hreg with ⟨dev', hdev', hslot'⟩
    exact ⟨dev', hother hdev', hslot'⟩

theorem kdeviceCreate_cases (r : Registry) (name : Option (List (BitVec 8))) (type : Int)
    (dev : BitVec 16) (devops : Option (DevOp → Bool)) (place : Option Nat) :
    (∃ e, r.kdeviceCreate name type dev devops place = (.error e, r) ∧
        ∀ slot, (r.setMinor slot).kdeviceCreate name type dev devops place =
          (.error e, r.setMinor slot)) ∨
      ∃ slot d device, (devidOf type dev).slot = some slot ∧ place = some d ∧
        device.devid.slot = some slot ∧ device.refcnt = 0 ∧
        r.kdeviceCreate name type dev devops place = (.ok d, r.make slot d device) ∧
        (r.setMinor slot).kdeviceCreate name type dev devops place =
          (.ok d, Registry.make (r.setMinor slot) slot d device) := by
  cases name with
  | none => exact Or.inl ⟨.EINVAL, rfl, fun _ => rfl⟩
  | some name =>
    by_cases hlen : 32 ≤ name.length
    · exact Or.inl ⟨.ENAMETOOLONG, by simp [Registry.kdeviceCreate, hlen],
        fun _ => by simp [Registry.kdeviceCreate, hlen]⟩
    · cases place with
      | none => exact Or.inl ⟨.ENOMEM, by simp [Registry.kdeviceCreate, hlen],
          fun _ => by simp [Registry.kdeviceCreate, hlen]⟩
      | some d =>
        have hsame (slot : Slot) : (r.setMinor slot).devices = r.devices := rfl
        cases hslot : (devidOf type dev).slot with
        | none =>
          exact Or.inl ⟨.EINVAL,
            by simp [Registry.kdeviceCreate, hlen, Registry.deviceAlreadyRegistered, hslot],
            fun _ => by
              simp [Registry.kdeviceCreate, hlen, Registry.deviceAlreadyRegistered, hslot]⟩
        | some slot =>
          by_cases htaken : (r.devices slot).isSome = true
          · exact Or.inl ⟨.EEXIST,
              by simp [Registry.kdeviceCreate, hlen, Registry.deviceAlreadyRegistered, hslot,
                htaken],
              fun _ => by
                simp [Registry.kdeviceCreate, hlen, Registry.deviceAlreadyRegistered, hslot,
                  htaken, hsame]⟩
          · right
            refine ⟨slot, d, ⟨devidOf type dev, devops.getD fun _ => false, 0, name⟩, rfl, rfl,
              hslot, rfl, ?_, ?_⟩
            · simp [Registry.kdeviceCreate, hlen, Registry.deviceAlreadyRegistered, hslot,
                htaken, Registry.make]
            · simp [Registry.kdeviceCreate, hlen, Registry.deviceAlreadyRegistered, hslot,
                htaken, hsame, Registry.make]

theorem kdeviceCreate_law (h : Sound r) (hplace : place.all fun d => (r.heap d).isNone) :
    Sound (r.kdeviceCreate name type dev devops place).2 ∧
      ∀ e, (r.kdeviceCreate name type dev devops place).1 = .error e →
        (r.kdeviceCreate name type dev devops place).2 = r := by
  rcases kdeviceCreate_cases r name type dev devops place with
    ⟨e, heq, -⟩ | ⟨slot, d, device, -, rfl, hslot, hcount, heq, -⟩
  · rw [heq]
    exact ⟨h, fun _ _ => rfl⟩
  · rw [heq]
    have hfree : r.heap d = none := by simpa using hplace
    exact ⟨h.made hfree hslot hcount, fun e he => by cases he⟩

theorem allocOne_cases (b : Bitmap) :
    (∃ e, b.bitmapAllocRange 1 = (.err e, none, b)) ∨
      ∃ i < b.size, b.bits i = false ∧ b.bitmapAllocRange 1 =
        (.ok, some i, { b with bits := update b.bits i true }) := by
  rw [Bitmap.bitmapAllocRange]
  split
  · exact Or.inl ⟨.EINVAL, rfl⟩
  · cases hfind : (List.range (b.size - 1 + 1)).find? fun i => !Bitmap.anyBit b.bits i 1 true with
    | none => exact Or.inl ⟨.ENOSPC, rfl⟩
    | some i =>
      have hmem := List.mem_range.1 (List.mem_of_find?_eq_some hfind)
      have hclear : b.bits i = false := by
        simpa [Bitmap.anyBit_one] using List.find?_some hfind
      refine Or.inr ⟨i, by omega, hclear, ?_⟩
      simp only [Bitmap.fill_one]

theorem devAllocMinor_cases (h : Sound r) (type major : Int) :
    (∃ e, r.devAllocMinor type major = (.error e, r)) ∨
      ∃ slot : Slot, kindOf type = some slot.kind ∧ major = slot.major.val ∧ r.bit slot = false ∧
        r.devAllocMinor type major = (.ok slot.minor.val, r.setMinor slot) := by
  rw [Registry.devAllocMinor]
  cases hkind : kindOf type with
  | none => exact Or.inl ⟨.EINVAL, rfl⟩
  | some kind =>
    cases hmajor : devno major MAX_MAJOR with
    | none => exact Or.inl ⟨.EINVAL, rfl⟩
    | some index =>
      have hvalue : major = index.val := by
        rw [devno] at hmajor
        split at hmajor
        · cases hmajor
          simp only [Int.ofNat_toNat]
          omega
        · cases hmajor
      rcases allocOne_cases (r.minorMap kind index) with ⟨e, heq⟩ | ⟨i, hi, hclear, heq⟩
      · left
        refine ⟨e, ?_⟩
        simp only [heq, setMap_self]
      · right
        rw [h.size] at hi
        refine ⟨⟨kind, index, ⟨i, hi⟩⟩, rfl, hvalue, hclear, ?_⟩
        rw [setMinor_minorMap (h.size _ _)]
        simp only [heq, Option.getD_some]

theorem deviceCreate_law (h : Sound r) (major : Int)
    (hplace : place.all fun d => (r.heap d).isNone) :
    Sound (r.deviceCreate name type major devops place).2 ∧
      ∀ e, (r.deviceCreate name type major devops place).1 = .error e →
        (r.deviceCreate name type major devops place).2 = r := by
  rcases devAllocMinor_cases h type major with
    ⟨e, halloc⟩ | ⟨slot, hkind, rfl, hbit, halloc⟩
  · rw [Registry.deviceCreate, halloc]
    exact ⟨h, fun _ _ => rfl⟩
  have hnumbers := devT_numbers slot.major.isLt slot.minor.isLt
  have hslot' : (devidOf type (devT slot.major.val slot.minor.val)).slot = some slot := by
    rw [slot_devidOf hkind]
    simp [hnumbers]
  rw [Registry.deviceCreate, halloc, Int.toNat_natCast]
  dsimp only
  rcases kdeviceCreate_cases r name type (devT slot.major.val slot.minor.val) devops place with
    ⟨e, -, heq⟩ | ⟨slot', d, device, hdev, rfl, hslot, hcount, -, heq⟩
  · rw [heq slot, hslot']
    dsimp only
    rw [unsetMinor_setMinor (h.size _ _) hbit]
    exact ⟨h, fun _ _ => rfl⟩
  · have hsame : slot' = slot := by
      rw [hslot'] at hdev
      exact (Option.some.inj hdev).symm
    subst hsame
    have hmade : Registry.make (r.setMinor slot') slot' d device = r.make slot' d device := by
      rw [Registry.make, setMinor_setMinor (h.size _ _)]
      rfl
    rw [heq, hmade]
    have hfree : r.heap d = none := by simpa using hplace
    exact ⟨h.made hfree hslot hcount, fun e he => by cases he⟩

end Make

/-! ## Registering devices -/

section Register

variable {r : Registry} {d : Nat} {device : Device}

theorem use_eq (hd : r.heap d = some device) : r.use d = .ok device := by
  rw [Registry.use, hd]

/-- The registry with the device at its number, or without, and with its count. -/
def Registry.place (r : Registry) (slot : Slot) (entry : Option Nat) (d : Nat) (device : Device) (n : Int) :
    Registry :=
  (r.setSlot slot entry).put d (some { device with refcnt := n })

theorem place_heap (hd : r.heap d = some device) (slot : Slot) (entry : Option Nat) (n : Int)
    {e : Nat} {dev : Device} :
    (r.place slot entry d device n).heap e = some dev ↔
      e = d ∧ dev = { device with refcnt := n } ∨ e ≠ d ∧ r.heap e = some dev := by
  show update r.heap d (some { device with refcnt := n }) e = some dev ↔ _
  by_cases hed : e = d
  · subst hed
    simp [eq_comm]
  · simp [hed]

theorem Sound.register (h : Sound r) (hd : r.heap d = some device) {slot : Slot}
    (hslot : device.devid.slot = some slot) (hempty : r.devices slot = none) :
    Sound ((r.place slot (some d) d device (device.refcnt + 1)).setMinor slot) := by
  have hentry (slot' : Slot) : ((r.place slot (some d) d device (device.refcnt + 1)).setMinor
      slot).devices slot' = if slot' = slot then some d else r.devices slot' := by
    show update r.devices slot (some d) slot' = _
    rw [update_apply]
  have hunreg : ¬ r.Registered d := by
    rintro ⟨slot', hreg⟩
    rcases h.placed slot' d hreg with ⟨dev', hdev', hslot'⟩
    rw [hd] at hdev'
    cases hdev'
    rw [hslot] at hslot'
    cases hslot'
    rw [hempty] at hreg
    cases hreg
  have hcount : device.refcnt = 0 := (h.refcnt d device hd).2 hunreg
  refine ⟨fun kind major => setMinor_size h.size kind major, fun slot' => ?_, fun e dev he => ?_, ?_⟩
  · rw [setMinor_bit (r := r.place slot (some d) d device (device.refcnt + 1)) (h.size _ _),
      Bool.or_eq_true, decide_eq_true_iff]
    show _ ∨ r.bit slot' = true ↔ _
    rw [h.bits]
    constructor
    · rintro (rfl | ⟨e, dev, he, hdev, hor⟩)
      · exact ⟨d, _, (place_heap hd _ _ _).2 (Or.inl ⟨rfl, rfl⟩), hslot,
          Or.inr ((hentry _).trans (if_pos rfl))⟩
      · by_cases hed : e = d
        · subst hed
          rw [hd] at he
          cases he
          refine ⟨e, _, (place_heap hd _ _ _).2 (Or.inl ⟨rfl, rfl⟩), hdev, ?_⟩
          exact hor.imp id fun hreg => absurd ⟨slot', hreg⟩ hunreg
        · refine ⟨e, dev, (place_heap hd _ _ _).2 (Or.inr ⟨hed, he⟩), hdev, ?_⟩
          refine hor.imp id fun hreg => (hentry _).trans ?_
          rw [if_neg, hreg]
          rintro rfl
          rw [hempty] at hreg
          cases hreg
    · rintro ⟨e, dev, he, hdev, hor⟩
      rcases (place_heap hd _ _ _).1 he with ⟨rfl, rfl⟩ | ⟨hne, he⟩
      · left
        rw [hslot] at hdev
        exact (Option.some.inj hdev).symm
      · by_cases hsame : slot' = slot
        · exact Or.inl hsame
        · refine Or.inr ⟨e, dev, he, hdev, hor.imp id fun hreg => ?_⟩
          rwa [hentry, if_neg hsame] at hreg
  · rcases (place_heap hd _ _ _).1 he with ⟨rfl, rfl⟩ | ⟨hne, he⟩
    · have hreg : Registry.Registered _ e := ⟨slot, (hentry slot).trans (if_pos rfl)⟩
      refine ⟨fun _ => ?_, fun hno => absurd hreg hno⟩
      show device.refcnt + 1 = 1
      omega
    · have hreg : Registry.Registered ((r.place slot (some d) d device
          (device.refcnt + 1)).setMinor slot) e ↔ r.Registered e := by
        refine exists_congr fun slot' => ?_
        rw [hentry]
        by_cases hsame : slot' = slot
        · subst hsame
          simp [hempty, hne.symm]
        · rw [if_neg hsame]
      rw [Registry.CountOk, hreg]
      exact h.refcnt e dev he
  · intro slot' e hreg
    rw [hentry] at hreg
    split at hreg
    · cases hreg
      rename_i hsame
      exact ⟨_, (place_heap hd _ _ _).2 (Or.inl ⟨rfl, rfl⟩), hsame ▸ hslot⟩
    · rcases h.placed slot' e hreg with ⟨dev, he, hdev⟩
      have hne : e ≠ d := by
        rintro rfl
        exact hunreg ⟨slot', hreg⟩
      exact ⟨dev, (place_heap hd _ _ _).2 (Or.inr ⟨hne, he⟩), hdev⟩

theorem deviceRegister_law (h : Sound r) {dev : Option Nat} (probe : Ret)
    (hlive : dev.all fun d => (r.heap d).isSome) :
    ∃ ret r', r.deviceRegister dev probe = .ok (ret, r') ∧ Sound r' ∧ (ret ≠ .ok → r' = r) := by
  cases dev with
  | none => exact ⟨.err .EINVAL, r, rfl, h, fun _ => rfl⟩
  | some d =>
    rcases Option.isSome_iff_exists.1 (show (r.heap d).isSome = true by simpa using hlive) with
      ⟨device, hd⟩
    rw [Registry.deviceRegister, use_eq hd, ok_bind]
    cases hslot : device.devid.slot with
    | none => exact ⟨.err .EINVAL, r, rfl, h, fun _ => rfl⟩
    | some slot =>
      dsimp only
      split
      · exact ⟨probe, r, rfl, h, fun _ => rfl⟩
      split
      · exact ⟨.err .EEXIST, r, rfl, h, fun _ => rfl⟩
      · have hempty : r.devices slot = none := by simpa using ‹¬ (r.devices slot).isSome = true›
        exact ⟨.ok, _, rfl, h.register hd hslot hempty, fun hne => absurd rfl hne⟩

end Register

/-! ## Taking devices out -/

section Unregister

variable {r : Registry} {d : Nat} {device : Device}

theorem Sound.found (h : Sound r) {slot : Slot} (hentry : r.devices slot = some d) :
    ∃ device, r.heap d = some device ∧ device.devid.slot = some slot ∧ device.refcnt = 1 := by
  rcases h.placed slot d hentry with ⟨device, hd, hslot⟩
  exact ⟨device, hd, hslot, (h.refcnt d device hd).1 ⟨slot, hentry⟩⟩

theorem Sound.unregister (h : Sound r) (hd : r.heap d = some device) {slot : Slot}
    (hslot : device.devid.slot = some slot) (hentry : r.devices slot = some d)
    (hmade : ∃ d' dev', d' ∈ r.made ∧ r.heap d' = some dev' ∧ dev'.devid.slot = some slot) :
    Sound (r.place slot none d device (device.refcnt - 1)) := by
  have hentry' (slot' : Slot) : (r.place slot none d device (device.refcnt - 1)).devices slot' =
      if slot' = slot then none else r.devices slot' := by
    show update r.devices slot none slot' = _
    rw [update_apply]
  -- the device is in no other entry
  have honly {slot' : Slot} (hreg : r.devices slot' = some d) : slot' = slot := by
    rcases h.placed slot' d hreg with ⟨dev, hdev, hslot'⟩
    rw [hd] at hdev
    cases hdev
    rw [hslot] at hslot'
    exact (Option.some.inj hslot').symm
  have hlive {e : Nat} {dev : Device} (he : r.heap e = some dev) :
      ∃ dev', (r.place slot none d device (device.refcnt - 1)).heap e = some dev' ∧
        dev'.devid = dev.devid := by
    by_cases hed : e = d
    · subst hed
      rw [hd] at he
      cases he
      exact ⟨_, (place_heap hd _ _ _).2 (Or.inl ⟨rfl, rfl⟩), rfl⟩
    · exact ⟨dev, (place_heap hd _ _ _).2 (Or.inr ⟨hed, he⟩), rfl⟩
  refine ⟨h.size, fun slot' => ?_, fun e dev he => ?_, fun slot' e hreg => ?_⟩
  · show r.bit slot' = true ↔ _
    rw [h.bits]
    constructor
    · intro htaken
      by_cases hsame : slot' = slot
      · rcases hmade with ⟨d', dev', hmem, hd', hdev'⟩
        rcases hlive hd' with ⟨dev'', hd'', hdevid⟩
        exact ⟨d', dev'', hd'', by rw [hdevid, hdev', hsame], Or.inl hmem⟩
      · rcases htaken with ⟨e, dev, he, hdev, hor⟩
        rcases hlive he with ⟨dev', he', hdevid⟩
        refine ⟨e, dev', he', by rw [hdevid, hdev], hor.imp id fun hreg => ?_⟩
        rw [hentry', if_neg hsame, hreg]
    · rintro ⟨e, dev, he, hdev, hor⟩
      have hreg : (r.place slot none d device (device.refcnt - 1)).devices slot' = some e →
          r.devices slot' = some e := by
        intro hreg
        rw [hentry'] at hreg
        split at hreg
        · cases hreg
        · exact hreg
      rcases (place_heap hd _ _ _).1 he with ⟨rfl, rfl⟩ | ⟨-, he⟩
      · exact ⟨e, device, hd, hdev, hor.imp id hreg⟩
      · exact ⟨e, dev, he, hdev, hor.imp id hreg⟩
  · rcases (place_heap hd _ _ _).1 he with ⟨rfl, rfl⟩ | ⟨hne, he⟩
    · have hone : device.refcnt = 1 := (h.refcnt e device hd).1 ⟨slot, hentry⟩
      refine ⟨fun ⟨slot', hreg⟩ => ?_, fun _ => ?_⟩
      · rw [hentry'] at hreg
        split at hreg
        · cases hreg
        · exact absurd (honly hreg) ‹_›
      · show device.refcnt - 1 = 0
        omega
    · have hreg : Registry.Registered (r.place slot none d device (device.refcnt - 1)) e ↔
          r.Registered e := by
        refine exists_congr fun slot' => ?_
        rw [hentry']
        by_cases hsame : slot' = slot
        · subst hsame
          simp [hentry, hne.symm]
        · rw [if_neg hsame]
      rw [Registry.CountOk, hreg]
      exact h.refcnt e dev he
  · rw [hentry'] at hreg
    split at hreg
    · cases hreg
    · rcases h.placed slot' e hreg with ⟨dev, he, hdev⟩
      have hne : e ≠ d := by
        rintro rfl
        exact absurd (honly hreg) ‹_›
      exact ⟨dev, (place_heap hd _ _ _).2 (Or.inr ⟨hne, he⟩), hdev⟩

theorem deviceUnregister_cases (h : Sound r) (dd : Option Devid) (fini : Ret) :
    (∃ e, r.find dd = none ∧ r.deviceUnregister dd fini = .ok (.err e, r)) ∨
      ∃ slot d device, r.find dd = some d ∧ r.devices slot = some d ∧ r.heap d = some device ∧
        device.devid.slot = some slot ∧
        r.deviceUnregister dd fini = .ok (if device.devops .fini then fini else .ok,
          r.place slot none d device (device.refcnt - 1)) := by
  rw [Registry.find, Registry.deviceUnregister]
  cases hslot : dd.bind Devid.slot with
  | none => exact Or.inl ⟨.EINVAL, rfl, rfl⟩
  | some slot =>
    dsimp only
    cases hentry : r.devices slot with
    | none => exact Or.inl ⟨.ENODEV, hentry, rfl⟩
    | some d =>
      rcases h.found hentry with ⟨device, hd, hdevid, -⟩
      refine Or.inr ⟨slot, d, device, hentry, hentry, hd, hdevid, ?_⟩
      dsimp only
      rw [use_eq hd, ok_bind]
      rfl

theorem unregister_call {dd : Option Devid} {fini ret : Ret} {r' : Registry}
    (heq : r.deviceUnregister dd fini = .ok (ret, r')) :
    r.call (.deviceUnregister dd fini) = .ok (resultOf ret, r') := by
  rw [Registry.call, heq]
  rfl

end Unregister

section Runs

variable {r : Registry} {a : Act}

theorem law_of_sound {out : Except Errno Int} {r' : Registry} (heq : r.call a = .ok (out, r'))
    (h : Sound r') (hfail : ∀ e, out = .error e → r' = r)
    (hdestroy : ∀ d, a ≠ .deviceDestroy (some d)) :
    Safe (fun _ => False) (step r a) fun r' => Law r a r' ∧ Sound r' := by
  rw [step, heq]
  refine ⟨⟨h.bits, fun e he => ?_, h.refcnt, fun d hd => absurd hd (hdestroy d)⟩, h⟩
  rw [heq] at he
  have hout : out = .error e := congrArg Prod.fst (Except.ok.inj he)
  rw [hfail e hout]
  exact ⟨rfl, rfl⟩

theorem error_of_map {α β : Type} {f : α → β} {x : Except Errno α} {e : Errno}
    (h : x.map f = .error e) : x = .error e := by
  cases x with
  | ok x => cases h
  | error e' => exact congrArg Except.error (Except.error.inj h)

variable {dd : Option Devid}

theorem operation_absent (hfind : r.find dd = none) (op : DevOp) (arg : Bool)
    (result : Except Errno Int) : r.operation arg op dd result = .ok (.error Errno.ENXIO, r) := by
  cases op <;> simp [Registry.operation, Registry.deviceProbe, Registry.deviceFini,
    Registry.deviceClose, Registry.deviceOpen, Registry.deviceGetinfo, Registry.deviceMmap,
    Registry.deviceIoctl, Registry.deviceLseek, Registry.deviceRead, Registry.deviceWrite,
    Registry.operate, Registry.getDeviceByDevid, hfind]

theorem step_law (h : Sound r) (hallowed : allowed r a = true) (hfine : fine r a = true) :
    Safe (fun _ => False) (step r a) fun r' => Law r a r' ∧ Sound r' := by
  cases a with
  | kdeviceCreate name type dev devops place =>
    rcases kdeviceCreate_law h hallowed with ⟨hsound, hfail⟩
    exact law_of_sound rfl hsound (fun e he => hfail e (error_of_map he)) fun d hd => by cases hd
  | deviceCreate name type major devops place =>
    rcases deviceCreate_law h major hallowed with ⟨hsound, hfail⟩
    exact law_of_sound rfl hsound (fun e he => hfail e (error_of_map he)) fun d hd => by cases hd
  | deviceRegister dev probe =>
    rcases deviceRegister_law h probe hallowed with ⟨ret, r', heq, hsound, hfail⟩
    have hcall : r.call (.deviceRegister dev probe) = .ok (resultOf ret, r') := by
      rw [Registry.call, heq]
      rfl
    refine law_of_sound hcall hsound (fun e he => hfail ?_) fun d hd => by cases hd
    rintro rfl
    cases he
  | deviceUnregister dd fini =>
    rcases deviceUnregister_cases h dd fini with
      ⟨ret, hfind, heq⟩ | ⟨slot, d, device, hfind, hentry, hd, hslot, heq⟩
    · have hcall : r.call (.deviceUnregister dd fini) = .ok (.error ret, r) := by
        rw [Registry.call, heq]
        rfl
      exact law_of_sound hcall h (fun _ _ => rfl) fun d hd => by cases hd
    · have hcall := unregister_call heq
      rw [fine, hfind, Option.all_some, unregisterFine, hd, Bool.and_eq_true] at hfine
      have hok : (if device.devops .fini then fini else .ok) = .ok := by
        cases hfini : device.devops .fini with
        | false => rfl
        | true => simpa [hfini] using hfine.1
      rw [hok] at hcall
      refine law_of_sound hcall (h.unregister hd hslot hentry ?_) (fun e he => by cases he)
        fun d hd => by cases hd
      rcases List.any_eq_true.1 hfine.2 with ⟨d', hmem, hany⟩
      cases hd' : r.heap d' with
      | none => simp [hd'] at hany
      | some dev' =>
        refine ⟨d', dev', hmem, hd', ?_⟩
        simpa [hd', hslot] using hany
  | deviceDestroy dev =>
    have hnone : dev = none := by simpa [fine] using hfine
    subst hnone
    exact law_of_sound rfl h (fun e he => by cases he) fun d hd => by cases hd
  | operate op arg dd result =>
    have hfind : r.find dd = none := by simpa [fine] using hfine
    exact law_of_sound (operation_absent hfind op arg result) h (fun _ _ => rfl)
      fun d hd => by cases hd

theorem find_eq_some {d : Nat} (hfind : r.find dd = some d) :
    ∃ slot, r.devices slot = some d := by
  rw [Registry.find, Option.bind_eq_some_iff] at hfind
  rcases hfind with ⟨slot, -, hentry⟩
  exact ⟨slot, hentry⟩

theorem operate_present {d : Nat} {device : Device} (hfind : r.find dd = some d)
    (hd : r.heap d = some device) (op : DevOp) (arg : Bool) (result : Except Errno Int) :
    ∃ out, r.operate op arg dd result =
      .ok (out, r.put d (some { device with refcnt := device.refcnt + 1 })) := by
  rw [Registry.operate, Registry.getDeviceByDevid, hfind]
  dsimp only
  rw [use_eq hd, ok_bind, pure_eq_ok, ok_bind]
  dsimp only
  split
  · exact ⟨_, rfl⟩
  split
  · exact ⟨_, rfl⟩
  · exact ⟨_, rfl⟩

theorem operation_present {d : Nat} {device : Device}
    (hfind : r.find dd = some d) (hd : r.heap d = some device) (op : DevOp) (arg : Bool)
    (result : Except Errno Int) : ∃ out, r.operation arg op dd result =
      .ok (out, r.put d (some { device with refcnt := device.refcnt + 1 })) := by
  cases op <;> exact operate_present hfind hd _ _ result

theorem operate_wrong (h : Sound r) {op : DevOp} {arg : Bool}
    {result : Except Errno Int} (hfine : fine r (.operate op arg dd result) = false) :
    ¬ Safe (fun _ => False) (step r (.operate op arg dd result))
      (Law r (.operate op arg dd result)) := by
  cases hfind : r.find dd with
  | none =>
    rw [fine, hfind] at hfine
    cases hfine
  | some d =>
    rcases find_eq_some hfind with ⟨slot, hentry⟩
    rcases h.found hentry with ⟨device, hd, -, hone⟩
    rcases operation_present hfind hd op arg result with ⟨out, heq⟩
    intro hsafe
    rw [step, Registry.call, heq] at hsafe
    -- the reference is not given back
    have hcount := (hsafe.refcnt d _ (update_self _ _ _)).1 ⟨slot, hentry⟩
    change device.refcnt + 1 = 1 at hcount
    omega

theorem destroy_wrong (h : Sound r) {d : Nat} (hlive : (r.heap d).isSome = true) :
    ¬ Safe (fun _ => False) (step r (.deviceDestroy (some d)))
      (Law r (.deviceDestroy (some d))) := by
  rcases Option.isSome_iff_exists.1 hlive with ⟨device, hd⟩
  intro hsafe
  by_cases hreg : r.Registered d
  · -- the count is one: the device is freed, and its table has it
    have hone : device.refcnt = 1 := (h.refcnt d device hd).1 hreg
    have hcall : r.deviceDestroy (some d) =
        .ok ((r.put d (some { device with refcnt := device.refcnt - 1 })).put d none) := by
      rw [Registry.deviceDestroy, use_eq hd, ok_bind, if_neg (by omega)]
      rfl
    rw [step, Registry.call, hcall] at hsafe
    exact (hsafe.destroy d rfl).1 (update_self _ _ _) hreg
  · -- the count is zero: the device is kept
    have hzero : device.refcnt = 0 := (h.refcnt d device hd).2 hreg
    have hcall : r.deviceDestroy (some d) =
        .ok (r.put d (some { device with refcnt := device.refcnt - 1 })) := by
      rw [Registry.deviceDestroy, use_eq hd, ok_bind, if_pos (by omega)]
      rfl
    rw [step, Registry.call, hcall] at hsafe
    have hfreed := (hsafe.destroy d rfl).2 hreg
    have hkept : (r.put d (some { device with refcnt := device.refcnt - 1 })).heap d =
        some { device with refcnt := device.refcnt - 1 } := update_self _ _ _
    rw [hkept] at hfreed
    cases hfreed

theorem unregister_wrong (h : Sound r) {fini : Ret}
    (hfine : fine r (.deviceUnregister dd fini) = false) :
    ¬ Safe (fun _ => False) (step r (.deviceUnregister dd fini))
      (Law r (.deviceUnregister dd fini)) := by
  rcases deviceUnregister_cases h dd fini with
    ⟨e, hfind, -⟩ | ⟨slot, d, device, hfind, hentry, hd, hslot, heq⟩
  · rw [fine, hfind] at hfine
    cases hfine
  have hcall := unregister_call heq
  have hgone : (r.place slot none d device (device.refcnt - 1)).devices slot = none :=
    update_self _ _ _
  intro hsafe
  rw [step, hcall] at hsafe
  rw [fine, hfind, Option.all_some, unregisterFine, hd, Bool.and_eq_false_iff] at hfine
  rcases hfine with hfini | hmade
  · -- the call fails, and the device is gone from the table
    rw [Bool.or_eq_false_iff, Bool.not_eq_false', decide_eq_false_iff_not] at hfini
    rw [hfini.1, if_pos rfl] at hcall
    cases hret : fini with
    | ok => exact hfini.2 hret
    | err e =>
      rw [hret] at hcall
      have hsame := (hsafe.failing e (hret ▸ hcall)).1
      rw [hsame, hentry] at hgone
      cases hgone
  · -- the bit stays, and nothing has the number
    have hbit : r.bit slot = true := (h.bits slot).2 ⟨d, device, hd, hslot, Or.inr hentry⟩
    rcases (hsafe.bits slot).1 hbit with ⟨e, dev, he, hdev, hor⟩
    have hmem : e ∈ r.made := by
      rcases hor with hmem | hreg
      · exact hmem
      · rw [hgone] at hreg
        cases hreg
    have hany := List.any_eq_false.1 hmade e hmem
    rcases (place_heap hd _ _ _).1 he with ⟨rfl, rfl⟩ | ⟨-, he⟩
    · simp [hd] at hany
    · simp [he, hdev, hslot] at hany

theorem step_wrong (h : Sound r) (hallowed : allowed r a = true) (hfine : fine r a = false) :
    ¬ Safe (fun _ => False) (step r a) (Law r a) := by
  cases a with
  | operate op arg dd result => exact operate_wrong h hfine
  | deviceDestroy dev =>
    cases dev with
    | none => cases hfine
    | some d => exact destroy_wrong h (by simpa [allowed] using hallowed)
  | deviceUnregister dd fini => exact unregister_wrong h hfine
  | kdeviceCreate name type dev devops place => cases hfine
  | deviceCreate name type major devops place => cases hfine
  | deviceRegister dev probe => cases hfine

end Runs

/-- Over every run of calls: bitmaps, tables and reference counts agree behind every call, a call that
fails changes neither tables nor bitmaps, and a device is freed exactly when it has no reference, if and
only if no operation finds a device, no device is destroyed, and a device that is taken out of its
table has no failing `fini` and a number for which a device has been created. -/
theorem device_registry_iff (drivers : List (Devid × (DevOp → Bool))) (acts : List Act)
    (hallowed : guarded step allowed (Registry.init drivers) acts = true) :
    Stepwise (fun _ => False) step Law (Registry.init drivers) acts ↔
      guarded step fine (Registry.init drivers) acts = true :=
  stepwise_iff_guarded_of (fun _ _ h hpre hok => step_law h hpre hok)
    (fun _ _ h hpre hok => step_wrong h hpre hok) (Sound.init drivers) hallowed

theorem device_registry_taken_out :
    Stepwise (fun _ => False) step Law (Registry.init [(⟨CHRDEV, 1, 3⟩, fun _ => true)])
      [.deviceRegister (some 0) .ok, .deviceCreate (some [0x70]) BLKDEV 1 none (some 1),
        .deviceRegister (some 1) .ok, .deviceUnregister (some ⟨BLKDEV, 1, 0⟩) .ok,
        .operate .read true (some ⟨BLKDEV, 1, 0⟩) (.ok 4)] :=
  (device_registry_iff _ _ (by decide +kernel)).2 (by decide +kernel)

/-- A device that has been opened has two references, and one that has been made and destroyed is not
freed; a device that is destroyed while it is in its table is. -/
theorem device_registry_broken :
    (¬ Stepwise (fun _ => False) step Law (Registry.init [(⟨CHRDEV, 1, 3⟩, fun _ => true)])
      [.deviceRegister (some 0) .ok, .operate .open' true (some ⟨CHRDEV, 1, 3⟩) (.ok 0)]) ∧
    (¬ Stepwise (fun _ => False) step Law (Registry.init [])
      [.deviceCreate (some [0x70]) BLKDEV 1 none (some 1), .deviceDestroy (some 1)]) ∧
    ¬ Stepwise (fun _ => False) step Law (Registry.init [])
      [.deviceCreate (some [0x70]) BLKDEV 1 none (some 1), .deviceRegister (some 1) .ok,
        .deviceDestroy (some 1)] := by
  refine ⟨fun h => ?_, fun h => ?_, fun h => ?_⟩
  · have hlaw : Law _ _ _ := h.2.1
    have hcount := (hlaw.refcnt 0 _ rfl).1 ⟨⟨.chr, ⟨1, by decide⟩, ⟨3, by decide⟩⟩, rfl⟩
    exact absurd hcount (by decide +kernel)
  · have hlaw : Law _ _ _ := h.2.1
    have hfreed := (hlaw.destroy 1 rfl).2 fun hreg => by
      rcases hreg with ⟨slot, hslot⟩
      cases hslot
    cases hfreed
  · have hlaw : Law _ _ _ := h.2.2.1
    exact (hlaw.destroy 1 rfl).1 rfl ⟨⟨.blk, ⟨1, by decide⟩, ⟨0, by decide⟩⟩, rfl⟩

end Dev
end XytherOS
