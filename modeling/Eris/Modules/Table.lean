import Mathlib

namespace Eris.Modules

/-- A terminated byte string, without its terminator. -/
abbrev CString := List UInt8

def cstring (s : String) : CString := s.toList.map (fun c ↦ c.toNat.toUInt8)

def maxModules : ℕ := 64

def moduleAbiVersion : ℕ := 1

def freeLicenses : List CString :=
  ["GPL-2.0-only", "GPL-2.0-or-later", "GPL-3.0-only", "GPL-3.0-or-later", "LGPL-2.1-or-later",
    "MIT", "BSD-2-Clause", "BSD-3-Clause", "Apache-2.0"].map cstring

inductive ModuleState
  | registered
  | loading
  | ready
  | failed
  deriving DecidableEq

/-- A descriptor. `address` is where it lies, `init` and `exit` are entry points and
absent when the pointer is null. The author is never read. -/
structure ModuleInfo where
  address : ℕ
  abi : ℕ
  name : CString
  version : CString
  license : Option CString
  init : Option ℕ
  exit : Option ℕ
  deps : List CString
  deriving DecidableEq

/-- A descriptor with nothing but a name, an `init` and dependencies. -/
def plainInfo (name : String) (deps : List String) : ModuleInfo :=
  ⟨0, moduleAbiVersion, cstring name, [], none, some 1, none, deps.map cstring⟩

/-- A slot of the table. Both counts are 32 bit counters. `users` keeps the width, since
`module_get` can be called any number of times; each unit of `dependents` is an entry of a
dependency list kept in memory, and no memory holds `2 ^ 32` of them. -/
structure Module where
  info : ModuleInfo
  state : ModuleState
  dependents : ℕ
  users : UInt32
  error : ℤ
  imageBase : ℕ
  imagePages : ℕ
  deriving DecidableEq

/-- What the framework prints, and the calls it makes into a module. -/
inductive Event
  | missingDependency (module dependency : CString)
  | chainTooDeep (module : CString)
  | dependencyCycle (module : CString)
  | tainted (module : CString) (license : Option CString)
  | initReturned (module : CString) (result : ℤ)
  | initFailed (module : CString) (result : ℤ)
  | loaded (module version : CString) (license : Option CString)
  | wrongAbi (module : CString) (abi : ℕ)
  | alreadyInTable (module : CString)
  | tableFull (module : CString)
  | skippedTableFull (module : CString)
  | skippedAbi (module : CString) (abi : ℕ)
  | builtinRegistered (count : ℕ)
  | stillInUse (module : CString) (dependents : ℕ) (users : UInt32)
  | exitCalled (module : CString)
  | unloaded (module : CString) (pages : ℕ)
  | blacklisted (module : CString)
  deriving DecidableEq

/-- The array `modules` split at `registered`. The spare slots keep what was last written
to them, and a registration takes the first of them over. -/
structure Table where
  live : List Module
  spare : List Module
  fits : live.length + spare.length = maxModules
  tainted : Bool
  log : List Event

def Module.zero : Module :=
  ⟨⟨0, 0, [], [], none, none, none, []⟩, .registered, 0, 0, 0, 0, 0⟩

def Table.empty : Table := ⟨[], List.replicate maxModules Module.zero, by simp, false, []⟩

namespace Table

variable (t : Table)

def registered : ℕ := t.live.length

def find (name : CString) : Option ℕ := t.live.findIdx? (fun m ↦ m.info.name == name)

def print (e : Event) : Table := { t with log := t.log ++ [e] }

def modify (i : ℕ) (f : Module → Module) : Table :=
  { t with live := t.live.modify i f, fits := by simpa using t.fits }

end Table

def moduleLicenseIsFree : Option CString → Bool
  | none => false
  | some license => freeLicenses.contains license

end Eris.Modules
