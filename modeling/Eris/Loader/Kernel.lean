import Eris.Library.Words
import Eris.Mm.Paging
import Eris.Modules.Framework

namespace Eris.Loader

open Library.Words Library.Slots Mm Modules

/-- The accesses that go wrong: a read outside the file, a write outside the pages of the
image, an index past the placement table, and what the processor refuses. -/
inductive Fault
  | imageRead (offset width : ℕ)
  | write (address width : ℕ)
  | placement (index : ℕ)
  | page (address : ℕ)
  | execute (address : ℕ)
  deriving DecidableEq

end Eris.Loader

namespace Eris.Mm.Memory

open Loader Library.Words Modules

def read (address : ℕ) (m : Memory) : Except Fault UInt8 :=
  if m.mapped address then .ok (m.bytes (m.translate address)) else .error (.page address)

def readBytes : ℕ → ℕ → Memory → Except Fault (List UInt8)
  | 0, _, _ => .ok []
  | width + 1, address, m => do
    let b ← m.read address
    let bs ← readBytes width (address + 1) m
    return b :: bs

def readWord (width address : ℕ) (m : Memory) : Except Fault ℕ :=
  (m.readBytes width address).map fromBytes

def readString : ℕ → ℕ → Memory → Except Fault CString
  | 0, address, _ => .error (.page address)
  | bound + 1, address, m => do
    let b ← m.read address
    if b = 0 then return []
    let bs ← readString bound (address + 1) m
    return b :: bs

/-- `strcmp` of what lies in memory with a name: it reads up to the first difference. -/
def matchesAt (m : Memory) : CString → ℕ → Except Fault Bool
  | [], address => do
    let b ← m.read address
    return b == 0
  | c :: cs, address => do
    let b ← m.read address
    if b = c then matchesAt m cs (address + 1) else return false

def setByte (p : ℕ) (b : UInt8) (m : Memory) : Memory :=
  { m with bytes := Function.update m.bytes p b }

def write : List UInt8 → ℕ → Memory → Memory
  | [], _, m => m
  | b :: bs, address, m => write bs (address + 1) (m.setByte (m.translate address) b)

/-- Whether an instruction may be fetched, which every level of the walk has a say in. -/
def executableFrom (address : ℕ) (m : Memory) : ℕ → ℕ → Bool
  | 0, table =>
    let e := m.entry table (indexOf address 0)
    e.present && !e.noExecute
  | level + 1, table =>
    let e := m.entry table (indexOf address (level + 1))
    e.present && !e.noExecute && (e.huge || executableFrom address m level e.frame)

def executable (address : ℕ) (m : Memory) : Bool := m.executableFrom address 3 m.root

end Eris.Mm.Memory

namespace Eris.Loader

open Library.Slots Mm Modules

def maxTables : ℕ := 16

/-- A table of exported symbols that an image brought along. -/
structure RegisteredTable where
  table : ℕ
  count : ℕ
  owner : ℕ
  deriving DecidableEq

/-- The exports of the kernel itself, and the array `tables` up to `table_count`. -/
structure Symbols where
  symtab : List (CString × ℕ)
  tables : List RegisteredTable
  fits : tables.length ≤ maxTables

structure Kernel where
  memory : Memory
  symbols : Symbols
  modules : Table

def exportedSymbolSize : ℕ := 16

namespace Symbols

def registerTable (table count owner : ℕ) (s : Symbols) : Symbols × Bool :=
  if table = 0 ∨ count = 0 then (s, false)
  else if h : s.tables.length < maxTables then
    ({ s with
      tables := s.tables ++ [⟨table, count, owner⟩]
      fits := by rw [List.length_append, List.length_singleton]; omega }, true)
  else (s, false)

/-- The loop of `symbol_unregister_owner` from index `i`. Its first argument is the number of
entries it has still to look at. -/
def dropOwner (owner : ℕ) : ℕ → ℕ → List RegisteredTable → List RegisteredTable
  | 0, _, ts => ts
  | left + 1, i, ts =>
    match ts[i]? with
    | none => ts
    | some t =>
      if t.owner = owner then dropOwner owner left i (swapRemove ts i)
      else dropOwner owner left (i + 1) ts

theorem length_dropOwner_le (owner left i : ℕ) (ts : List RegisteredTable) :
    (dropOwner owner left i ts).length ≤ ts.length := by
  induction left generalizing i ts with
  | zero => exact le_rfl
  | succ left ih =>
    rw [dropOwner]
    split
    · exact le_rfl
    · split
      · refine (ih i _).trans ?_
        rw [length_swapRemove]
        omega
      · exact ih (i + 1) ts

def unregisterOwner (owner : ℕ) (s : Symbols) : Symbols :=
  { s with
    tables := dropOwner owner s.tables.length 0 s.tables
    fits := (length_dropOwner_le ..).trans s.fits }

def lookupIn (m : Memory) (name : CString) : ℕ → ℕ → Except Fault (Option ℕ)
  | 0, _ => .ok none
  | count + 1, entry => do
    let s ← m.readWord 8 entry
    if s ≠ 0 then
      if ← m.matchesAt name s then return some (← m.readWord 8 (entry + 8))
    lookupIn m name count (entry + exportedSymbolSize)

def lookupTables (m : Memory) (name : CString) : List RegisteredTable → Except Fault ℕ
  | [] => .ok 0
  | t :: ts => do
    match ← lookupIn m name t.count t.table with
    | some address => return address
    | none => lookupTables m name ts

def lookup (s : Symbols) (m : Memory) (name : CString) : Except Fault ℕ :=
  match s.symtab.find? (fun symbol ↦ symbol.1 == name) with
  | some symbol => .ok symbol.2
  | none => lookupTables m name s.tables

end Symbols

def Kernel.symbolLookup (k : Kernel) (name : CString) : Except Fault ℕ :=
  k.symbols.lookup k.memory name

end Eris.Loader
