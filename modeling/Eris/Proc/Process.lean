import Eris.Library.Words
import Eris.Mm.Stores

namespace Eris.Proc

open Mm Library.Words

def userBase : ℕ := 2 ^ 39

def userStackTop : ℕ := userBase + 0x40000000

def userStackPages : ℕ := 16

/-- A program handed to `load`: `length` bytes from a pointer on. Its headers may lead past them, to
whatever else the memory holds there. -/
structure Program where
  bytes : ℕ → UInt8
  length : ℕ

structure ProgramHeader where
  type : ℕ
  flags : ℕ
  offset : ℕ
  virtualAddress : ℕ
  fileSize : ℕ
  memorySize : ℕ

def programLoad : ℕ := 1

def programHeaderSize : ℕ := 56

/-- The fields of a process that `load` sets. -/
structure Process where
  root : ℕ := 0
  entry : ℕ := 0
  brk : ℕ := 0
  pageCount : ℕ := 0

namespace Program

def word (p : Program) (width offset : ℕ) : ℕ :=
  fromBytes ((List.range width).map fun i ↦ p.bytes ((offset + i) % 2 ^ 64))

def looksSane (p : Program) : Bool :=
  64 ≤ p.length ∧ p.bytes 0 = 0x7F ∧ p.bytes 1 = 0x45 ∧ p.bytes 2 = 0x4C ∧ p.bytes 3 = 0x46 ∧
    p.word 2 18 = 62 ∧ p.word 2 16 = 2

def entry (p : Program) : ℕ := p.word 8 24

def programHeaderOffset (p : Program) : ℕ := p.word 8 32

def programHeaderCount (p : Program) : ℕ := p.word 2 56

def programHeader (p : Program) (i : ℕ) : ProgramHeader :=
  let base := p.programHeaderOffset + i * programHeaderSize
  { type := p.word 4 base
    flags := p.word 4 (base + 4)
    offset := p.word 8 (base + 8)
    virtualAddress := p.word 8 (base + 16)
    fileSize := p.word 8 (base + 32)
    memorySize := p.word 8 (base + 40) }

end Program

namespace ProgramHeader

variable (segment : ProgramHeader)

def loads : Bool := segment.type = programLoad ∧ segment.memorySize ≠ 0

def executes : Bool := segment.flags.testBit 0

def writes : Bool := segment.flags.testBit 1

def start : ℕ := segment.virtualAddress / pageSize * pageSize

def pages : ℕ :=
  (segment.memorySize + (segment.virtualAddress - segment.start) + pageSize - 1) % 2 ^ 64 / pageSize

def mapFlags : PageFlags := { write := true, user := true, noExecute := !segment.executes }

def finalFlags : PageFlags := { user := true, noExecute := !segment.executes }

end ProgramHeader

def Program.ofSegments (segments : List ProgramHeader) : Program :=
  let header := [0x7F, 0x45, 0x4C, 0x46] ++ toBytes 12 0 ++ toBytes 2 2 ++ toBytes 2 62 ++ toBytes 4 1 ++
    toBytes 8 userBase ++ toBytes 8 64 ++ toBytes 8 0 ++ toBytes 4 0 ++ toBytes 2 64 ++
    toBytes 2 programHeaderSize ++ toBytes 2 segments.length ++ toBytes 6 0
  let bytes := header ++ segments.flatMap fun segment ↦
    toBytes 4 segment.type ++ toBytes 4 segment.flags ++ toBytes 8 segment.offset ++
      toBytes 8 segment.virtualAddress ++ toBytes 8 0 ++ toBytes 8 segment.fileSize ++
      toBytes 8 segment.memorySize ++ toBytes 8 0
  ⟨fun i ↦ bytes.getD i 0, bytes.length⟩

/-- An operation on the address space of a process, the kernel's being the one in use. -/
def within (r : ℕ) (op : Memory → Memory × Bool) (m : Memory) : Memory × Bool :=
  let out := op (m.under r)
  (out.1.under m.root, out.2)

def mapFresh (flags : PageFlags) : ℕ → ℕ → Memory → Process → Memory × Process × Bool
  | 0, _, m, process => (m, process, true)
  | left + 1, address, m, process =>
    let (m, page) := m.allocPage
    if page = 0 then (m, process, false)
    else
      let m := m.clearFrame (page / pageSize)
      match within process.root (·.map address page pageSize flags) m with
      | (m, false) => (m, process, false)
      | (m, true) =>
        mapFresh flags left (address + pageSize) m { process with pageCount := process.pageCount + 1 }

def copyBytes (program : Program) (root : ℕ) : ℕ → ℕ → ℕ → Memory → Memory × Bool
  | 0, _, _, m => (m, true)
  | left + 1, source, address, m =>
    let frame := (m.under root).translate address
    if frame = 0 then (m, false)
    else copyBytes program root left (source + 1) (address + 1)
      (m.store frame (program.bytes (source % 2 ^ 64)))

def loadSegment (program : Program) (segment : ProgramHeader) (m : Memory) (process : Process) :
    Memory × Process × Bool :=
  if segment.virtualAddress < userBase then (m, process, false)
  else
    match mapFresh segment.mapFlags segment.pages segment.start m process with
    | (m, process, false) => (m, process, false)
    | (m, process, true) =>
      match copyBytes program process.root segment.fileSize segment.offset segment.virtualAddress m with
      | (m, false) => (m, process, false)
      | (m, true) =>
        let last := (segment.virtualAddress + segment.memorySize) % 2 ^ 64
        let process := { process with brk := max process.brk last }
        if segment.writes then (m, process, true)
        else
          ((within process.root (·.protect segment.start (segment.pages * pageSize) segment.finalFlags) m).1,
            process, true)

/-- The loop over the program headers; the first argument is the number of those still to come. -/
def loadSegments (program : Program) : ℕ → ℕ → Memory → Process → Memory × Process × Bool
  | 0, _, m, process => (m, process, true)
  | left + 1, i, m, process =>
    if (program.programHeader i).loads then
      match loadSegment program (program.programHeader i) m process with
      | (m, process, false) => (m, process, false)
      | (m, process, true) => loadSegments program left (i + 1) m process
    else loadSegments program left (i + 1) m process

/-- `ProcessTable::load`, with the memory seen through the kernel's root. -/
def load (program : Program) (m : Memory) (process : Process) : Memory × Process × Bool :=
  if program.looksSane then
    let (m, page) := m.allocPage
    if page = 0 then (m, process, false)
    else
      let root := page / pageSize
      let m := m.clearFrame root
      let m := m.setEntry root 0 (m.entry m.root 0)
      loadSegments program program.programHeaderCount 0 m { process with root := root, entry := program.entry }
  else (m, process, false)

def mapStack (m : Memory) (process : Process) : Memory × Process × Bool :=
  mapFresh { write := true, user := true, noExecute := true } userStackPages
    (userStackTop - userStackPages * pageSize) m process

end Eris.Proc
