import XytherOS.Arch.Pagefault
import XytherOS.Mm.MmapRefine

/-!
# Machine — address spaces over one physical memory

The machine has any number of address spaces, each with its regions and its page tables, over the
frames of one memory.  Processes create and fork address spaces, call the region interface on them,
fault in them and clean them up, in any order.  A failed fault ends in a panic, as
`arch_do_page_fault` does not deliver signals yet.
-/

namespace XytherOS

open Function

namespace Mm
namespace Mmap

def State.retable {α β : Type} (s : State α) (pt : β) : State β :=
  { refs := s.refs
    usedSpace := s.usedSpace
    brk := s.brk
    heap := s.heap
    arg := s.arg
    env := s.env
    pt := pt
    mem := s.mem
    allocs := s.allocs
    head := s.head
    tail := s.tail }

theorem Listed.retable {α β : Type} {s : State α} {v : View} (h : Listed s v) (pt : β) :
    Listed (s.retable pt) v :=
  ⟨h.chain, h.head, h.tail, h.alloc, h.region, h.ascending, h.limit⟩

theorem Rel.retable {α β : Type} {s : State α} {v : View} (h : Rel s v) (pt : β) :
    Rel (s.retable pt) v :=
  ⟨h.toListed.retable pt, h.mapped⟩

end Mmap
end Mm

namespace Arch

open Mm.Mmap (State Region Call has bitIf PTE_P PTE_W PTE_U mmapFind mmapMapin mmapUnmap mmapInit vmrAlloc
  vmrFree mmapLimit)

/-- What the machine asks of its environment: `vmrOom n` says that the `n`-th `vmr_alloc` of an
address space finds no memory, and `mmapOom` whether there is none for a new `mmap_t`. -/
structure MachineEnv extends FsEnv where
  vmrOom : Nat → Bool
  mmapOom : Nat → Bool

def MachineEnv.mmapEnv (env : MachineEnv) : Mm.Mmap.Env Mem :=
  { oom := env.vmrOom
    unmapN := unmapN
    mprotect := fun mem va sz flags => .ok (mprotect mem va sz flags) }

/-- The address spaces `0 .. nspaces - 1`, each with the frame of its `pgdir`, over the frames of the
normal zone and the page caches. -/
structure Machine where
  frames : Frames
  ticks : Nat
  cache : Nat → Nat → Option Nat
  nspaces : Nat
  space : Nat → State PageTables
  root : Nat → Nat

namespace Machine

def boot (frames : Frames) : Machine :=
  { frames := frames
    ticks := 0
    cache := fun _ _ => none
    nspaces := 0
    space := fun _ => Mm.Mmap.mmapClean .empty
    root := fun _ => 0 }

def tables (m : Machine) (i : Nat) : PageTables := (m.space i).pt

/-- The memory as the paging code sees it when the address space `i` is active. -/
def mem (m : Machine) (i : Nat) : Mem := ⟨m.tables i, m.frames, m.ticks⟩

def kern (m : Machine) (i : Nat) : Kern := ⟨m.mem i, m.cache⟩

def active (m : Machine) (i : Nat) : State Mem := (m.space i).retable (m.mem i)

def store (m : Machine) (i : Nat) (s : State Mem) : Machine :=
  { m with
    frames := s.pt.frames
    ticks := s.pt.ticks
    space := update m.space i (s.retable s.pt.tables) }

/-- Put the memory of the address space `i` back, with the page caches. -/
def storeKern (m : Machine) (i : Nat) (k : Kern) : Machine :=
  { m.store i ((m.space i).retable k.toMem) with cache := k.cache }

def add (m : Machine) (f : Nat) (s : State Mem) : Machine :=
  { m.store m.nspaces s with
    nspaces := m.nspaces + 1
    root := update m.root m.nspaces f }

end Machine

/-! ## Page faults -/

def iskernelAddr (addr : BitVec 64) : Bool := Mm.Pmm.VMA_BASE ≤ addr

/-- The handler of the region that contains `addr`, if there is one. -/
def handleVmrFault (env : MachineEnv) (held : Held) (m : Machine) (i : Nat)
    (addr errCode : BitVec 64) : Except Fault (Option (Ret × Kern)) := do
  match ← mmapFind (m.space i) addr with
  | none => return none
  | some r =>
    let res ← defaultPgfHandler env.toFsEnv held ((m.space i).region r)
      ⟨addr, ((m.tables i).getmapping addr).toOption, errCode⟩ (m.kern i)
    return some res

def archDoPageFault (env : MachineEnv) (held : Held) (m : Machine) (i : Nat)
    (addr errCode : BitVec 64) : Except Fault Machine :=
  if iskernelAddr addr then
    throw (.assertion "%s(): %s:%d: @[0x%p], err_code: %x : undef, from '%s' space\n")
  else do
    match ← handleVmrFault env held m i addr errCode with
    | some (.ok, k) => return m.storeKern i k
    | some (.err .EFAULT, _) =>
      throw (.assertion "%s(): %s:%d: @[0x%p], err_code: %x : SIGBUS, from '%s' space\n")
    | _ => throw (.assertion "%s(): %s:%d: @[0x%p], err_code: %x : SIGSEGV, from '%s' space\n")

def canonical (addr : BitVec 64) : Bool := addr ≤ mmapLimit || iskernelAddr addr

/-- The error code that the processor reports for an access to `addr`. -/
def pfErrCode (t : PageTables) (addr : BitVec 64) (write user : Bool) : BitVec 64 :=
  bitIf (t.reached .pt (vpn addr)) PTE_P ||| bitIf write PTE_W ||| bitIf user PTE_U

/-! ## Creating and copying address spaces -/

/-- `mmap_init` of the new address space with the root table `f`; after an error the table is
freed. -/
def mmapInitNew (env : MachineEnv) (m : Machine) (f : Nat) (mem : Mem) :
    Except Fault (Ret × Machine) := do
  match ← mmapInit env.mmapEnv mem with
  | (.ok, s) => return (.ok, m.add f s)
  | (.err e, s) => do
      let frames ← s.pt.frames.free f
      return (.err e, { m with frames := frames, ticks := s.pt.ticks })

def mmapAlloc (env : MachineEnv) (m : Machine) : Except Fault (Ret × Machine) :=
  match m.frames.getPage with
  | .error e => return (.err e, m)
  | .ok (f, frames) =>
    match mount env.toEnv ⟨.empty, frames, m.ticks⟩ with
    | (.err e, mem) => do
        -- `x86_64_kvmcpy` could not mount the new root table
        let frames ← mem.frames.free f
        return (.err e, { m with frames := frames, ticks := mem.ticks })
    | (.ok, mem) =>
      if env.mmapOom mem.ticks then do
        let frames ← mem.frames.free f
        return (.err .ENOMEM, { m with frames := frames, ticks := mem.ticks + 1 })
      else
        mmapInitNew env m f mem.tick

def resetList (dst : State Mem) : State Mem :=
  { dst with
    refs := 0
    usedSpace := 0
    head := none
    tail := none
    heap := none
    arg := none
    env := none }

/-- The loop of `mmap_copy` over the regions of `src`; `vmr_clone` copies the contents of a
region. -/
def copyRegions (env : MachineEnv) (src : State PageTables) :
    Nat → Option Nat → State Mem → Except Fault (Ret × State Mem)
  | 0, _, _ => throw .hang
  | _ + 1, none, dst => .ok (.ok, dst)
  | n + 1, some tmp, dst =>
    match vmrAlloc env.mmapEnv dst (src.region tmp) with
    | (none, dst) => .ok (.err .ENOMEM, dst)
    | (some vmr, dst) => do
        match ← mmapMapin dst vmr with
        | (.err e, dst) => return (.err e, vmrFree dst vmr)
        | (.ok, dst) => copyRegions env src n (src.mem tmp).next dst

/-- `src->arg ? mmap_find(dst, src->arg->start) : NULL`, and the same for the other two. -/
def findCopy (src : State PageTables) (dst : State Mem) (r : Option Nat) :
    Except Fault (Option Nat) :=
  match r with
  | none => .ok none
  | some r => mmapFind dst (src.region r).start

def copySpecial (src : State PageTables) (dst : State Mem) : Except Fault (State Mem) := do
  let arg ← findCopy src dst src.arg
  let env ← findCopy src dst src.env
  let heap ← findCopy src dst src.heap
  return dst.withAccount { dst.toAccount with arg := arg, env := env, heap := heap }

def mmapCopy (env : MachineEnv) (m : Machine) (j i : Nat) : Except Fault (Ret × Machine) := do
  match ← copyRegions env (m.space i) ((m.space i).allocs + 1) (m.space i).head
      (resetList (m.active j)) with
  | (.err e, dst) => return (.err e, m.store j dst)
  | (.ok, dst) => do
      let dst ← copySpecial (m.space i) dst
      let (err, c) ← lazycpy env.toEnv ⟨m.tables i, dst.pt⟩
      let m := m.store j (dst.retable c.mem)
      return (err, { m with space := update m.space i ((m.space i).retable c.src) })

def fork (env : MachineEnv) (m : Machine) (i : Nat) : Except Fault (Ret × Machine) := do
  match ← mmapAlloc env m with
  | (.err e, m) => return (.err e, m)
  | (.ok, m) => mmapCopy env m (m.nspaces - 1) i

def clean (env : MachineEnv) (m : Machine) (i : Nat) : Except Fault (Ret × Machine) := do
  match ← mmapUnmap env.mmapEnv (m.active i) 0 (mmapLimit + 1) with
  | (.err e, s) => return (.err e, m.store i s)
  | (.ok, s) => do
      let mem ← unmapFull s.pt
      return (.ok, m.store i ((resetList { s with brk := 0 }).retable mem))

inductive Op
  | create
  | fork (i : Nat)
  | call (i : Nat) (c : Call)
  | fault (i : Nat) (addr : BitVec 64) (write user : Bool) (held : Held)
  | clean (i : Nat)

def stepIn (m : Machine) (i : Nat) (step : Except Fault Machine) :
    Except Fault Machine :=
  if i < m.nspaces then step else .ok m

def step (env : MachineEnv) (m : Machine) : Op → Except Fault Machine
  | .create => do
      let (_, m) ← mmapAlloc env m
      return m
  | .fork i => stepIn m i do
      let (_, m) ← fork env m i
      return m
  | .call i c => stepIn m i do
      let s ← Mm.Mmap.call env.mmapEnv (m.active i) c
      return m.store i s
  | .fault i addr write user held => stepIn m i
      (if canonical addr then
        archDoPageFault env held m i addr (pfErrCode (m.tables i) addr write user)
      else .ok m)
  | .clean i => stepIn m i do
      let (_, m) ← clean env m i
      return m

def run (env : MachineEnv) : Machine → List Op → Except Fault Machine := runs (step env)

/-- The page `v` of the address space `i` is mapped to the frame `f`. -/
def Machine.Maps (m : Machine) (i v f : Nat) : Prop :=
  i < m.nspaces ∧ (m.tables i).reached .pt v = true ∧ frameOf ((m.tables i).entry .pt v) = f

def Machine.MapsWritable (m : Machine) (i v f : Nat) : Prop :=
  m.Maps i v f ∧ has ((m.tables i).entry .pt v) PTE_W = true

end Arch
end XytherOS
