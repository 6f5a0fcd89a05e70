import Eris.Loader.Constructors
import Eris.Loader.Lifecycle

namespace Eris.Machine

open Loader Mm Mm.Memory Modules

def heapReserved : ℕ := 64 * 1024 * 1024

def heapGrowthStep : ℕ := 2 * 1024 * 1024

def blockHeaderSize : ℕ := 32

def stackPages : ℕ := 8

def apStackPages : ℕ := 8

def trampolinePage : ℕ := 0x8000

/-- The reservation of the heap and the part of it that is backed. The blocks in it are left out. -/
structure Heap where
  base : ℕ
  committed : ℕ

/-- The kernel and its heap. -/
structure State where
  kernel : Kernel
  heap : Heap

/-- How many bytes `grow` commits at once. -/
def growth (wanted : ℕ) : ℕ :=
  heapGrowthStep * max 1 ((wanted + blockHeaderSize + heapGrowthStep - 1) / heapGrowthStep)

def grow (wanted : ℕ) (heap : Heap) (m : Memory) : Heap × Memory × Bool :=
  if heapReserved < heap.committed + growth wanted then (heap, m, false)
  else
    match mapImage (growth wanted / pageSize) (heap.base + heap.committed) m with
    | (m, false) => (heap, m, false)
    | (m, true) => ({ heap with committed := heap.committed + growth wanted }, m, true)

/-- `none` where the kernel panics. -/
def heapInit (m : Memory) : Option (Heap × Memory) :=
  let reserved := m.vmalloc.reserve heapReserved
  if reserved.2 = 0 then none
  else
    match grow pageSize ⟨reserved.2, 0⟩ { m with vmalloc := reserved.1 } with
    | (_, _, false) => none
    | (heap, m, true) => some (heap, m)

/-- The loop of `Thread::spawn` over the pages of the stack. -/
def mapStackPages : ℕ → ℕ → Memory → Memory × Bool
  | 0, _, m => (m, true)
  | left + 1, address, m =>
    let taken := m.allocPage
    if taken.2 = 0 then (taken.1, false)
    else
      mapStackPages left (address + pageSize)
        (taken.1.map address taken.2 pageSize { write := true, noExecute := true }).1

def spawnStack (m : Memory) : Memory × ℕ :=
  let reserved := m.vmalloc.reserve ((stackPages + 1) * pageSize)
  let m := { m with vmalloc := reserved.1 }
  if reserved.2 = 0 then (m, 0)
  else
    match mapStackPages stackPages (reserved.2 + pageSize) m with
    | (m, false) => (releaseWindow reserved.2 ((stackPages + 1) * pageSize) m, 0)
    | (m, true) => (m, reserved.2 + pageSize)

def mapDevice (address length : ℕ) (m : Memory) : Memory × ℕ :=
  let aligned := address / pageSize * pageSize
  let span := roundUp (length + (address - aligned))
  let reserved := m.vmalloc.reserve span
  let m := { m with vmalloc := reserved.1 }
  if reserved.2 = 0 then (m, 0)
  else
    match m.map reserved.2 aligned span { write := true, noExecute := true, noCache := true } with
    | (m, false) => (releaseWindow reserved.2 span m, 0)
    | (m, true) => (m, reserved.2 + (address - aligned))

/-- The length is the one that was asked for: where in its page the device starts does not enter. -/
def unmapDevice (window length : ℕ) (m : Memory) : Memory :=
  if window = 0 then m
  else
    let address := window / pageSize * pageSize
    let span := roundUp length
    releaseWindow address span (m.unmap address span).1

def allocateStacks : ℕ → Memory → Memory
  | 0, m => m
  | left + 1, m =>
    let taken := m.frames.allocPages apStackPages
    let m := { m with frames := taken.1 }
    if taken.2 = 0 then m else allocateStacks left m

def installTrampoline (m : Memory) : Memory := (m.protect trampolinePage pageSize { write := true }).1

def retireTrampoline (m : Memory) : Memory :=
  (m.protect trampolinePage pageSize { write := true, noExecute := true }).1

def smpInit (others : ℕ) (m : Memory) : Memory :=
  if others = 0 then m else retireTrampoline (allocateStacks others (installTrampoline m))

inductive Op
  | heapInit
  | smpInit (others : ℕ)
  | loadImage (code : Code) (image : Image)
  | load (drivers : Drivers) (name : CString)
  | unload (drivers : Drivers) (name : CString)
  | spawn
  | mapDevice (address length : ℕ)
  | grow (wanted : ℕ)

def State.withMemory (s : State) (m : Memory) : State := { s with kernel := { s.kernel with memory := m } }

def State.withHeap (s : State) (out : Heap × Memory × Bool) : State := { s.withMemory out.2.1 with heap := out.1 }

/-- What an operation leaves, `none` where the kernel stops. -/
def step (s : State) : Op → Option State
  | .heapInit => (heapInit s.kernel.memory).map fun (heap, m) ↦ { s.withMemory m with heap := heap }
  | .smpInit others => some (s.withMemory (smpInit others s.kernel.memory))
  | .loadImage code image => (moduleLoadImage code image s.kernel).toOption.map fun out ↦ { s with kernel := out.1 }
  | .load drivers name => some { s with kernel := (s.kernel.moduleLoad drivers name).1 }
  | .unload drivers name => (s.kernel.moduleUnload drivers name).toOption.map fun out ↦ { s with kernel := out.1 }
  | .spawn => some (s.withMemory (spawnStack s.kernel.memory).1)
  | .mapDevice address length => some (s.withMemory (mapDevice address length s.kernel.memory).1)
  | .grow wanted => some (s.withHeap (grow wanted s.heap s.kernel.memory))

/-- The states that the kernel gets into after `paging_init`, by operations that are allowed. -/
inductive Reachable (allowed : State → Op → Prop) : State → Prop
  | boot {image : KernelImage} {m₀ m : Memory} {symbols : Symbols} {modules : Table} {heap : Heap} :
      m₀.frames.bitmap 0 = true → m₀.pagingInit image = some m → m.vmalloc.initialised = false →
      (∀ x ∈ modules.live, x.imageBase = 0) → Reachable allowed ⟨⟨m, symbols, modules⟩, heap⟩
  | step {s s' : State} {op : Op} : Reachable allowed s → allowed s op → step s op = some s' → Reachable allowed s'

end Eris.Machine
