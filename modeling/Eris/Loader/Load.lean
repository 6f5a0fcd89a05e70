import Eris.Loader.Elf

namespace Eris.Loader

open Library.Words Mm Modules

def maxSections : ℕ := 64

def moduleInfoSize : ℕ := 72

structure Placement where
  address : ℕ := 0
  executable : Bool := false
  writable : Bool := false

structure LoadedImage where
  base : ℕ
  pages : ℕ
  placement : ℕ → Placement := fun _ ↦ {}

/-- Why an image is refused. A symbol table index or a section index out of range is refused
without a message. -/
inductive Refusal
  | tooSmall
  | notRelocatable
  | tooManySections (count : ℕ)
  | nothingToLoad
  | noMemory
  | unresolved
  | nothingExports (name : CString)
  | doesNotReach
  | doesNotFit
  | typeNotHandled (type : ℕ)
  | noDescriptor
  deriving DecidableEq

/-- What code that a constructor calls does: it writes into the pages of the image only. -/
structure Code where
  run : (entry base pages : ℕ) → Memory → ℕ → UInt8
  confined : ∀ entry base pages m p,
    (∀ a, base ≤ a → a < base + pages * pageSize → m.translate a ≠ p) →
    run entry base pages m p = m.bytes p

def roundUpPages (bytes : ℕ) : ℕ := (bytes + pageSize - 1) % 2 ^ 64 / pageSize

/-- The loop of `allocate_image`, for the pages that are left. -/
def mapImage : ℕ → ℕ → Memory → Memory × Bool
  | 0, _, m => (m, true)
  | left + 1, address, m =>
    let taken := m.allocPage
    if taken.2 = 0 then (taken.1, false)
    else
      match taken.1.map address taken.2 pageSize { write := true, noExecute := true } with
      | (m, false) => (m.freePage taken.2, false)
      | (m, true) => mapImage left (address + pageSize) m

def releaseWindow (address length : ℕ) (m : Memory) : Memory :=
  { m with vmalloc := m.vmalloc.release address length }

def allocateImage (bytes : ℕ) (m : Memory) : Memory × Option LoadedImage :=
  let pages := roundUpPages bytes
  let reserved := m.vmalloc.reserve (pages * pageSize)
  let m := { m with vmalloc := reserved.1 }
  if reserved.2 = 0 then (m, none)
  else
    match mapImage pages reserved.2 m with
    | (m, false) => (releaseWindow reserved.2 (pages * pageSize) m, none)
    | (m, true) => (m, some { base := reserved.2, pages := pages })

/-- The loop of `release_image`: the frames are found by translating the pages. -/
def releasePages : ℕ → ℕ → Memory → Memory
  | 0, _, m => m
  | left + 1, page, m =>
    let frame := m.translate page
    let m := (m.unmap page pageSize).1
    let m := if frame ≠ 0 then m.freePage (frame / pageSize * pageSize) else m
    releasePages left (page + pageSize) m

def releaseImage (base pages : ℕ) (m : Memory) : Memory :=
  if base = 0 then m else releaseWindow base (pages * pageSize) (releasePages pages base m)

namespace LoadedImage

def place (loaded : LoadedImage) (i : ℕ) (p : Placement) : LoadedImage :=
  { loaded with placement := Function.update loaded.placement i p }

/-- Where a section was put. The table has `maxSections` entries. -/
def addressOf (loaded : LoadedImage) (i : ℕ) : Except Fault ℕ :=
  if i < maxSections then .ok (loaded.placement i).address else .error (.placement i)

def store (loaded : LoadedImage) (address : ℕ) (data : List UInt8) (m : Memory) :
    Except Fault Memory :=
  if loaded.base ≤ address ∧ address + data.length ≤ loaded.base + loaded.pages * pageSize then
    .ok (m.write data address)
  else .error (.write address data.length)

end LoadedImage

def totalSize (s : Sections) : Except Fault ℕ :=
  (List.range s.count).foldlM (fun total i ↦ do
    match ← s.toPlace i with
    | none => return total
    | some size => return (total + roundUpPages size * pageSize) % 2 ^ 64) 0

def sectionData (s : Sections) (i size : ℕ) : Except Fault (List UInt8) := do
  if (← s.type i) = sectionNobits then return List.replicate size 0
  else s.image.slice (← s.offset i) size

def placeSection (s : Sections) (st : LoadedImage × ℕ × Memory) (i : ℕ) :
    Except Fault (LoadedImage × ℕ × Memory) := do
  let (loaded, cursor, m) := st
  match ← s.toPlace i with
  | none => return st
  | some size =>
    let address := (loaded.base + cursor) % 2 ^ 64
    let flags ← s.flags i
    let data ← sectionData s i size
    let m ← loaded.store address data m
    return (loaded.place i ⟨address, flags.testBit 2, flags.testBit 0⟩,
      (cursor + roundUpPages size * pageSize) % 2 ^ 64, m)

def placeSections (s : Sections) (loaded : LoadedImage) (m : Memory) :
    Except Fault (LoadedImage × ℕ × Memory) :=
  (List.range s.count).foldlM (placeSection s) (loaded, 0, m)

/-- The address a symbol stands for. The symbol table and its strings are given by the
indices of their sections. -/
def symbolAddress (s : Sections) (loaded : LoadedImage) (exports : Symbols) (m : Memory)
    (symbols strings index : ℕ) : Except Fault (Except Refusal ℕ) := do
  let table ← s.offset symbols
  let size ← s.size symbols
  if index ≥ size / symbolSize then return .error .unresolved
  let symbol := table + index * symbolSize
  let section' ← s.image.word 2 (symbol + 6)
  if section' = sectionUndefined then
    let names ← s.offset strings
    let name ← s.image.string (names + (← s.image.word 4 symbol))
    let address ← exports.lookup m name
    if address = 0 then return .error (.nothingExports name)
    return .ok address
  else if section' ≥ maxSections then return .error .unresolved
  else
    let value ← s.image.word 8 (symbol + 8)
    return .ok (((loaded.placement section').address + value) % 2 ^ 64)

inductive RelocationType
  | r64
  | pc32
  | plt32
  | r32
  | r32s
  | pc64
  deriving DecidableEq

def relaType (info : ℕ) : ℕ := info % 2 ^ 32

def relaSymbol (info : ℕ) : ℕ := info / 2 ^ 32

def RelocationType.ofCode : ℕ → Option RelocationType
  | 1 => some .r64
  | 2 => some .pc32
  | 4 => some .plt32
  | 10 => some .r32
  | 11 => some .r32s
  | 24 => some .pc64
  | _ => none

def fits32 (value : ℤ) : Bool := -0x80000000 ≤ value ∧ value ≤ 0x7FFFFFFF

/-- The bytes a relocation writes. All sums are modulo `2 ^ 64`. -/
def relocate (symbol addend place : ℕ) : RelocationType → Except Refusal (List UInt8)
  | .r64 => .ok (toBytes 8 ((symbol + addend) % 2 ^ 64))
  | .pc32 | .plt32 =>
    let value := (symbol + addend + (2 ^ 64 - place)) % 2 ^ 64
    if fits32 (signed 64 value) then .ok (toBytes 4 value) else .error .doesNotReach
  | .r32 | .r32s =>
    let value := (symbol + addend) % 2 ^ 64
    if fits32 (signed 64 value) then .ok (toBytes 4 value) else .error .doesNotFit
  | .pc64 => .ok (toBytes 8 ((symbol + addend + (2 ^ 64 - place)) % 2 ^ 64))

/-- One entry of a relocation section that applies to section `target`. -/
def applyEntry (s : Sections) (loaded : LoadedImage) (exports : Symbols) (target symbols strings : ℕ)
    (m : Memory) (entry : ℕ) : Except Fault (Memory × Option Refusal) := do
  let info ← s.image.word 8 (entry + 8)
  match ← symbolAddress s loaded exports m symbols strings (relaSymbol info) with
  | .error e => return (m, some e)
  | .ok symbol =>
    let address ← loaded.addressOf target
    let offset ← s.image.word 8 entry
    let addend ← s.image.word 8 (entry + 16)
    let place := (address + offset) % 2 ^ 64
    match RelocationType.ofCode (relaType info) with
    | none => return (m, some (.typeNotHandled (relaType info)))
    | some type =>
      match relocate symbol addend place type with
      | .error e => return (m, some e)
      | .ok data =>
        let m ← loaded.store place data m
        return (m, none)

def applyEntries (s : Sections) (loaded : LoadedImage) (exports : Symbols)
    (target symbols strings : ℕ) : ℕ → ℕ → Memory → Except Fault (Memory × Option Refusal)
  | 0, _, m => .ok (m, none)
  | left + 1, entry, m => do
    match ← applyEntry s loaded exports target symbols strings m entry with
    | (m, some e) => return (m, some e)
    | (m, none) => applyEntries s loaded exports target symbols strings left (entry + relaSize) m

def applySection (s : Sections) (loaded : LoadedImage) (exports : Symbols) (m : Memory) (i : ℕ) :
    Except Fault (Memory × Option Refusal) := do
  if (← s.type i) ≠ sectionRela then return (m, none)
  let target ← s.info i
  if !(← s.allocated target) then return (m, none)
  let symbols ← s.link i
  let strings ← s.link symbols
  let entries ← s.offset i
  let size ← s.size i
  applyEntries s loaded exports target symbols strings (size / relaSize) entries m

def applySections (s : Sections) (loaded : LoadedImage) (exports : Symbols) :
    List ℕ → Memory → Except Fault (Memory × Option Refusal)
  | [], m => .ok (m, none)
  | i :: rest, m => do
    match ← applySection s loaded exports m i with
    | (m, some e) => return (m, some e)
    | (m, none) => applySections s loaded exports rest m

def applyRelocations (s : Sections) (loaded : LoadedImage) (exports : Symbols) (m : Memory) :
    Except Fault (Memory × Option Refusal) :=
  applySections s loaded exports (List.range s.count) m

def protectSection (s : Sections) (loaded : LoadedImage) (m : Memory) (i : ℕ) :
    Except Fault Memory := do
  match ← s.toPlace i with
  | none => return m
  | some size =>
    let p := loaded.placement i
    return (m.protect (p.address / pageSize * pageSize) (roundUpPages size * pageSize)
      { write := p.writable, noExecute := !p.executable }).1

def applyProtections (s : Sections) (loaded : LoadedImage) (m : Memory) : Except Fault Memory :=
  (List.range s.count).foldlM (protectSection s loaded) m

/-- Call what a pointer of `.init_array` or `.ctors` leads to. -/
def callConstructor (code : Code) (loaded : LoadedImage) (m : Memory) (pointer : ℕ) :
    Except Fault Memory := do
  let entry ← m.readWord 8 pointer
  if entry = 0 then return m
  else if m.executable entry then
    return { m with bytes := code.run entry loaded.base loaded.pages m }
  else throw (.execute entry)

def callConstructors (code : Code) (loaded : LoadedImage) : ℕ → ℕ → Memory → Except Fault Memory
  | 0, _, m => .ok m
  | left + 1, pointer, m => do
    let m ← callConstructor code loaded m pointer
    callConstructors code loaded left (pointer + 8) m

def Sections.hasConstructors (s : Sections) (i : ℕ) : Except Fault Bool := do
  if ← s.named i (cstring ".init_array") then return true else s.named i (cstring ".ctors")

def constructSection (code : Code) (s : Sections) (loaded : LoadedImage) (m : Memory) (i : ℕ) :
    Except Fault Memory := do
  if ← s.hasConstructors i then
    let size ← s.size i
    callConstructors code loaded (size / 8) (loaded.placement i).address m
  else return m

def runConstructors (code : Code) (s : Sections) (loaded : LoadedImage) (m : Memory) :
    Except Fault Memory :=
  (List.range s.count).foldlM (constructSection code s loaded) m

def exportSection (s : Sections) (loaded : LoadedImage) (exports : Symbols) (i : ℕ) :
    Except Fault Symbols := do
  if ← s.named i (cstring ".eris_symtab") then
    let size ← s.size i
    return (exports.registerTable (loaded.placement i).address (size / exportedSymbolSize)
      loaded.base).1
  else return exports

def registerExports (s : Sections) (loaded : LoadedImage) (exports : Symbols) :
    Except Fault Symbols :=
  (List.range s.count).foldlM (exportSection s loaded) exports

def readDeps (m : Memory) : ℕ → ℕ → List CString
  | 0, _ => []
  | left + 1, pointer =>
    match (do m.readString (2 ^ 64) (← m.readWord 8 pointer) : Except Fault CString) with
    | .error _ => []
    | .ok name => name :: readDeps m left (pointer + 8)

def readText (m : Memory) (pointer : ℕ) : CString :=
  match m.readString (2 ^ 64) pointer with
  | .error _ => []
  | .ok text => text

def readInfo (m : Memory) (address : ℕ) : Except Fault ModuleInfo := do
  let abi ← m.readWord 4 address
  let name ← m.readWord 8 (address + 8)
  let version ← m.readWord 8 (address + 16)
  let license ← m.readWord 8 (address + 32)
  let init ← m.readWord 8 (address + 40)
  let exit ← m.readWord 8 (address + 48)
  let deps ← m.readWord 8 (address + 56)
  let depCount ← m.readWord 8 (address + 64)
  return {
    address := address
    abi := abi
    name := ← if abi ≠ moduleAbiVersion ∧ name = 0 then pure (cstring "?")
      else m.readString (2 ^ 64) name
    version := readText m version
    license := if license = 0 then none else some (readText m license)
    init := if init = 0 then none else some init
    exit := if exit = 0 then none else some exit
    deps := readDeps m depCount deps }

def registerDescriptor (loaded : LoadedImage) (m : Memory) (st : Table × ℕ) (address : ℕ) :
    Except Fault (Table × ℕ) :=
  if address = 0 then .ok st
  else do
    let info ← readInfo m address
    let out := moduleRegisterLoaded info loaded.base loaded.pages st.1
    return (out.1, if out.2 = 0 then st.2 + 1 else st.2)

def registerMany (loaded : LoadedImage) (m : Memory) :
    ℕ → ℕ → Table × ℕ → Except Fault (Table × ℕ)
  | 0, _, st => .ok st
  | left + 1, address, st => do
    let st ← registerDescriptor loaded m st address
    registerMany loaded m left ((address + moduleInfoSize) % 2 ^ 64) st

def describeSection (s : Sections) (loaded : LoadedImage) (m : Memory) (st : Table × ℕ) (i : ℕ) :
    Except Fault (Table × ℕ) := do
  if ← s.named i (cstring ".eris_modules") then
    let size ← s.size i
    registerMany loaded m (size / moduleInfoSize) (loaded.placement i).address st
  else return st

def registerDescriptors (s : Sections) (loaded : LoadedImage) (m : Memory) (t : Table) :
    Except Fault (Table × ℕ) :=
  (List.range s.count).foldlM (describeSection s loaded m) (t, 0)

/-- An image that stays: where it is, and how many of its descriptors were accepted. -/
structure Loaded where
  base : ℕ
  pages : ℕ
  descriptors : ℕ
  deriving DecidableEq

def finishImage (code : Code) (s : Sections) (loaded : LoadedImage) (k : Kernel) :
    Except Fault (Kernel × Except Refusal Loaded) := do
  let m ← runConstructors code s loaded k.memory
  let symbols ← registerExports s loaded k.symbols
  let m ← applyProtections s loaded m
  let (modules, registered) ← registerDescriptors s loaded m k.modules
  if registered = 0 then
    return (⟨releaseImage loaded.base loaded.pages m, symbols, modules⟩, .error .noDescriptor)
  else return (⟨m, symbols, modules⟩, .ok ⟨loaded.base, loaded.pages, registered⟩)

def buildImage (code : Code) (s : Sections) (loaded : LoadedImage) (k : Kernel) :
    Except Fault (Kernel × Except Refusal Loaded) := do
  let (loaded, _, m) ← placeSections s loaded k.memory
  match ← applyRelocations s loaded k.symbols m with
  | (m, some e) =>
    return ({ k with memory := releaseImage loaded.base loaded.pages m }, .error e)
  | (m, none) => finishImage code s loaded { k with memory := m }

/-- The result is `0` for an image that stays and `-1` for one that is refused. -/
def moduleLoadImage (code : Code) (image : Image) (k : Kernel) :
    Except Fault (Kernel × Except Refusal Loaded) := do
  if image.length < headerSize then return (k, .error .tooSmall)
  let header ← Image.header image
  if !headerLooksSane header image.length then return (k, .error .notRelocatable)
  if header.sectionHeaderCount > maxSections then
    return (k, .error (.tooManySections header.sectionHeaderCount))
  let s : Sections := ⟨image, header⟩
  let total ← totalSize s
  if total = 0 then return (k, .error .nothingToLoad)
  match allocateImage total k.memory with
  | (m, none) => return ({ k with memory := m }, .error .noMemory)
  | (m, some loaded) => buildImage code s loaded { k with memory := m }

end Eris.Loader
