import Eris.Mm.Vmalloc

namespace Eris.Mm

open Function

def hugePageSize : ℕ := 2 * 1024 * 1024

def entriesPerTable : ℕ := 512

structure PageFlags where
  write : Bool := false
  user : Bool := false
  noExecute : Bool := false
  global : Bool := false
  noCache : Bool := false
  deriving DecidableEq

/-- An entry of a page table, its address bits as the number of a frame. -/
structure Entry where
  present : Bool := false
  write : Bool := false
  user : Bool := false
  writeThrough : Bool := false
  noCache : Bool := false
  huge : Bool := false
  global : Bool := false
  noExecute : Bool := false
  frame : ℕ := 0
  deriving DecidableEq

def encode (flags : PageFlags) (frame : ℕ) : Entry where
  present := true
  write := flags.write
  user := flags.user
  noExecute := flags.noExecute
  global := flags.global
  noCache := flags.noCache
  writeThrough := flags.noCache
  frame := frame

def Entry.table (frame : ℕ) : Entry where
  present := true
  write := true
  frame := frame

def Entry.link (e : Entry) : Prop := e.present ∧ ¬ e.huge

instance (e : Entry) : Decidable e.link := inferInstanceAs (Decidable (_ ∧ _))

/-- Entry `i` of the table that takes the place of a huge page. -/
def Entry.part (e : Entry) (i : ℕ) : Entry := { e with huge := false, frame := e.frame + i }

/-- The memory of the machine. A frame is used as a table or for bytes, and the two contents
are kept apart: `tables` is indexed by the number of a frame, `bytes` by a physical address. -/
structure Memory where
  frames : Frames
  vmalloc : Vmalloc
  root : ℕ
  tables : ℕ → ℕ → Entry
  bytes : ℕ → UInt8

def indexOf (address level : ℕ) : ℕ := address / 2 ^ (12 + 9 * level) % entriesPerTable

namespace Memory

def entry (m : Memory) (table i : ℕ) : Entry := m.tables table i

def setEntry (table i : ℕ) (e : Entry) (m : Memory) : Memory :=
  { m with tables := update m.tables table (update (m.tables table) i e) }

def allocPage (m : Memory) : Memory × ℕ :=
  ({ m with frames := m.frames.allocPage.1 }, m.frames.allocPage.2)

def freePage (page : ℕ) (m : Memory) : Memory := { m with frames := m.frames.freePage page }

def allocateTable (m : Memory) : Memory × Option ℕ :=
  let out := m.allocPage
  if out.2 = 0 then (out.1, none)
  else
    ({ out.1 with tables := update out.1.tables (out.2 / pageSize) fun _ ↦ {} },
      some (out.2 / pageSize))

def splitHugePage (table i : ℕ) (m : Memory) : Memory × Bool :=
  let e := m.entry table i
  match m.allocateTable with
  | (m', none) => (m', false)
  | (m', some next) =>
    ({ m' with tables := update m'.tables next e.part }.setEntry table i (.table next), true)

def enterTable (create : Bool) (table i : ℕ) (m : Memory) : Memory × Bool :=
  if (m.entry table i).present then (m, true)
  else if create then
    match m.allocateTable with
    | (m', none) => (m', false)
    | (m', some next) => (m'.setEntry table i (.table next), true)
  else (m, false)

def allowUser (user : Bool) (table i : ℕ) (m : Memory) : Memory :=
  if user then m.setEntry table i { m.entry table i with user := true } else m

/-- The walk of `table_for` from a table of level `level` down to the last one. -/
def tableFor (address : ℕ) (create user : Bool) : ℕ → ℕ → Memory → Memory × Option ℕ
  | 0, table, m => (m, some table)
  | level + 1, table, m =>
    let i := indexOf address (level + 1)
    match m.enterTable create table i with
    | (m, false) => (m, none)
    | (m, true) =>
      let m := m.allowUser user table i
      if level = 0 ∧ (m.entry table i).huge then
        if create then
          match m.splitHugePage table i with
          | (m, false) => (m, none)
          | (m, true) => tableFor address create user level (m.entry table i).frame m
        else (m, none)
      else tableFor address create user level (m.entry table i).frame m

/-- The loop of `map`, for a number of pages. The result says whether all were mapped. -/
def mapPages (flags : PageFlags) : ℕ → ℕ → ℕ → Memory → Memory × Bool
  | 0, _, _, m => (m, true)
  | pages + 1, address, frame, m =>
    match m.tableFor address true flags.user 3 m.root with
    | (m, none) => (m, false)
    | (m, some table) =>
      mapPages flags pages (address + pageSize) (frame + pageSize)
        (m.setEntry table (indexOf address 0) (encode flags (frame / pageSize % 2 ^ 40)))

def pagesOf (length : ℕ) : ℕ := (length + pageSize - 1) / pageSize

def map (address frame length : ℕ) (flags : PageFlags) (m : Memory) : Memory × Bool :=
  m.mapPages flags (pagesOf length) address frame

def unmapPages : ℕ → ℕ → Memory → Memory × Bool
  | 0, _, m => (m, true)
  | pages + 1, address, m =>
    match m.tableFor address true false 3 m.root with
    | (m, none) => (m, false)
    | (m, some table) => unmapPages pages (address + pageSize) (m.setEntry table (indexOf address 0) {})

def unmap (address length : ℕ) (m : Memory) : Memory × Bool := m.unmapPages (pagesOf length) address

def protectPages (flags : PageFlags) : ℕ → ℕ → Memory → Memory × Bool
  | 0, _, m => (m, true)
  | pages + 1, address, m =>
    match m.tableFor address true flags.user 3 m.root with
    | (m, none) => (m, false)
    | (m, some table) =>
      let e := m.entry table (indexOf address 0)
      if e.present then
        protectPages flags pages (address + pageSize)
          (m.setEntry table (indexOf address 0) (encode flags e.frame))
      else (m, false)

def protect (address length : ℕ) (flags : PageFlags) (m : Memory) : Memory × Bool :=
  m.protectPages flags (pagesOf length) address

def translateFrom (address : ℕ) (m : Memory) : ℕ → ℕ → ℕ
  | 0, table =>
    let e := m.entry table (indexOf address 0)
    if e.present then e.frame * pageSize + address % pageSize else 0
  | level + 1, table =>
    let e := m.entry table (indexOf address (level + 1))
    if e.present then
      if e.huge then e.frame * pageSize + address % hugePageSize
      else translateFrom address m level e.frame
    else 0

def translate (address : ℕ) (m : Memory) : ℕ := m.translateFrom address 3 m.root

def mapped (address : ℕ) (m : Memory) : Bool := m.translate address ≠ 0 ∨ address = 0

end Memory

end Eris.Mm
