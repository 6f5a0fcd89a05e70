import Eris.Library.Slots
import Eris.Modules.Table

namespace Eris.Modules

open Library.Slots

/-- The reasons for which the framework stops the kernel. -/
inductive Panic
  | noReferenceLeft (module dependency : CString)
  | putWithoutGet (module : CString)
  deriving DecidableEq

/-- What `init` of a module returns when it is called after the events of a log. -/
abbrev InitResult := List Event → ModuleInfo → ℤ

def Module.setState (s : ModuleState) (m : Module) : Module := { m with state := s }

def Module.fail (error : ℤ) (m : Module) : Module := { m with state := .failed, error := error }

def Module.succeed (m : Module) : Module := { m with state := .ready, error := 0 }

def Module.takeDependent (m : Module) : Module := { m with dependents := m.dependents + 1 }

def Module.dropDependent (m : Module) : Module := { m with dependents := m.dependents - 1 }

def Module.takeUser (m : Module) : Module := { m with users := m.users + 1 }

def Module.dropUser (m : Module) : Module := { m with users := m.users - 1 }

def loadDependencies (load : Table → ℕ → Table × ℤ) (name : CString) :
    List CString → Table → Table × ℤ
  | [], t => (t, 0)
  | dep :: deps, t =>
    match t.find dep with
    | none => (t.print (.missingDependency name dep), -1)
    | some j =>
      if (load t j).2 ≠ 0 then load t j else loadDependencies load name deps (load t j).1

/-- `find` does not fail here: `loadDependencies` has found every name of the list. -/
def acquireDependencies : List CString → Table → Table
  | [], t => t
  | dep :: deps, t =>
    match t.find dep with
    | none => acquireDependencies deps t
    | some j => acquireDependencies deps (t.modify j Module.takeDependent)

def checkLicense (info : ModuleInfo) (t : Table) : Table :=
  if moduleLicenseIsFree info.license then t
  else { t.print (.tainted info.name info.license) with tainted := true }

def callInit (init : InitResult) (info : ModuleInfo) (t : Table) : Table × ℤ :=
  match info.init with
  | none => (t, 0)
  | some _ => (t.print (.initReturned info.name (init t.log info)), init t.log info)

/-- The end of `load_locked`, once the dependencies are up. -/
def startModule (init : InitResult) (i : ℕ) (info : ModuleInfo) (t : Table) : Table × ℤ :=
  let called := callInit init info (checkLicense info t)
  if called.2 ≠ 0 then
    ((called.1.modify i (Module.fail called.2)).print (.initFailed info.name called.2), called.2)
  else
    (((acquireDependencies info.deps called.1).modify i Module.succeed).print
      (.loaded info.name info.version info.license), 0)

/-- The structural argument is the room left below the deepest allowed call: at depth `d`
it is `maxModules + 1 - d`. -/
def loadLocked (init : InitResult) : ℕ → Table → ℕ → Table × ℤ
  | 0, t, i => (t.print (.chainTooDeep ((t.live[i]?.getD Module.zero).info.name)), -1)
  | room + 1, t, i =>
    match t.live[i]? with
    | none => (t, -1)
    | some m =>
      match m.state with
      | .ready => (t, 0)
      | .loading => (t.print (.dependencyCycle m.info.name), -1)
      | .failed => (t, m.error)
      | .registered =>
        let deps := loadDependencies (loadLocked init room) m.info.name m.info.deps
          (t.modify i (Module.setState .loading))
        if deps.2 ≠ 0 then (deps.1.modify i (Module.fail (-1)), -1)
        else startModule init i m.info deps.1

def releaseDependencies (name : CString) : List CString → Table → Except Panic Table
  | [], t => .ok t
  | dep :: deps, t =>
    match t.find dep with
    | none => releaseDependencies name deps t
    | some j =>
      if (t.live[j]?.getD Module.zero).dependents = 0 then .error (.noReferenceLeft name dep)
      else releaseDependencies name deps (t.modify j Module.dropDependent)

/-- A registration writes five of the fields of the slot it takes and leaves both counts. -/
def Module.assign (info : ModuleInfo) (base pages : ℕ) (slot : Module) : Module :=
  { slot with
    info := info, state := .registered, error := 0, imageBase := base, imagePages := pages }

def Table.push (t : Table) (info : ModuleInfo) (base pages : ℕ) : Option Table :=
  match h : t.spare with
  | [] => none
  | slot :: spare => some { t with
      live := t.live ++ [slot.assign info base pages]
      spare := spare
      fits := by have hf := t.fits; simp only [h, List.length_cons] at hf; simp; omega }

def moduleRegisterLoaded (info : ModuleInfo) (base pages : ℕ) (t : Table) : Table × ℤ :=
  if info.abi ≠ moduleAbiVersion then (t.print (.wrongAbi info.name info.abi), -1)
  else if (t.find info.name).isSome then (t.print (.alreadyInTable info.name), -1)
  else
    match t.push info base pages with
    | none => (t.print (.tableFull info.name), -1)
    | some t' => (t', 0)

def registerBuiltin (t : Table) (info : ModuleInfo) : Table :=
  match t.push info 0 0 with
  | none => t.print (.skippedTableFull info.name)
  | some t' => if info.abi ≠ moduleAbiVersion then t.print (.skippedAbi info.name info.abi) else t'

/-- The loop at the end of `module_init_builtin`. -/
def loadRegistered (init : InitResult) (t : Table) : Table :=
  (List.range t.registered).foldl (fun t i ↦ (loadLocked init (maxModules + 1) t i).1) t

def moduleInitBuiltin (init : InitResult) (builtins : List ModuleInfo) (t : Table) : Table :=
  let t' := builtins.foldl registerBuiltin t
  loadRegistered init (t'.print (.builtinRegistered t'.registered))

def moduleLoad (init : InitResult) (name : CString) (t : Table) : Table × ℤ :=
  match t.find name with
  | none => (t, -1)
  | some i => loadLocked init (maxModules + 1) t i

/-- Move the last entry into slot `i`. The slot it leaves keeps its contents. -/
def Table.vacate (t : Table) (i : ℕ) : Table :=
  match h : t.live.getLast? with
  | none => t
  | some last => { t with
      live := swapRemove t.live i
      spare := last :: t.spare
      fits := by
        have hf := t.fits
        have hp : 0 < t.live.length := List.length_pos_iff.mpr (by rintro hn; simp [hn] at h)
        rw [length_swapRemove, List.length_cons]
        omega }

def callExit (info : ModuleInfo) (t : Table) : Table :=
  if info.exit.isSome then t.print (.exitCalled info.name) else t

def Module.detach (m : Module) : Module := { m with imageBase := 0, imagePages := 0 }

/-- The end of `module_unload`, once the references are dropped: the new table, the result,
and the image that has to be released, given by its base and its number of pages. -/
def stopModule (name : CString) (i : ℕ) (m : Module) (t : Table) : Table × ℤ × Option (ℕ × ℕ) :=
  let t' := t.modify i (Module.setState .registered)
  if m.imageBase ≠ 0 then
    (((t'.modify i Module.detach).vacate i).print (.unloaded name m.imagePages), 0, some (m.imageBase, m.imagePages))
  else (t'.print (.unloaded name 0), 0, none)

def moduleUnload (name : CString) (t : Table) : Except Panic (Table × ℤ × Option (ℕ × ℕ)) :=
  match t.find name with
  | none => .ok (t, -1, none)
  | some i =>
    let m := t.live[i]?.getD Module.zero
    if m.state ≠ .ready then .ok (t, 0, none)
    else if m.dependents ≠ 0 ∨ m.users ≠ 0 then
      .ok (t.print (.stillInUse name m.dependents m.users), -1, none)
    else do
      let t' ← releaseDependencies m.info.name m.info.deps (callExit m.info t)
      return stopModule name i m t'

def moduleGet (name : CString) (t : Table) : Table × Bool :=
  match t.find name with
  | none => (t, false)
  | some i =>
    if (t.live[i]?.getD Module.zero).state ≠ .ready then (t, false)
    else (t.modify i Module.takeUser, true)

def modulePut (name : CString) (t : Table) : Except Panic Table :=
  match t.find name with
  | none => .error (.putWithoutGet name)
  | some i =>
    if (t.live[i]?.getD Module.zero).users = 0 then .error (.putWithoutGet name)
    else .ok (t.modify i Module.dropUser)

end Eris.Modules
