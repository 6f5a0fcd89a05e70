import Eris.Library.Transition
import Eris.Mm.Translation

namespace Eris.Mm

open Library Function

def pageAt (address : ℕ) : Fin (2 ^ 36) := ⟨pageOf address, pageOf_lt address⟩

def Call.page : Call → ℕ → Call
  | .map address frame _ flags, k => .map (address + k * pageSize) (frame + k * pageSize) pageSize flags
  | .unmap address _, k => .unmap (address + k * pageSize) pageSize
  | .protect address _ flags, k => .protect (address + k * pageSize) pageSize flags

/-- A CPU does nothing, runs with paging on, is counted as online, and takes interrupts. -/
inductive Life
  | off
  | paging
  | counted
  | listening
  deriving DecidableEq

/-- The places in a call that edits the tables. A page has its entry written first and is invalidated after that. -/
inductive Place
  | outside
  | lock
  | write (k : ℕ)
  | invalidate (k : ℕ)
  | broadcast
  | leave
  deriving DecidableEq

/-- A call in progress on a CPU. -/
structure Editor where
  place : Place
  call : Call
  shared : Bool

/-- The tables, the lock on them, and for each CPU how far it has come up, its call, the translations it has cached by
page, and the interrupts under way from it to the others. -/
structure Cores (ι : Type) where
  memory : Memory
  tableLock : Option ι
  lapic : Bool
  life : ι → Life
  editors : ι → Editor
  cached : ι → Fin (2 ^ 36) → Option ℕ
  flight : ι → ι → ℕ

inductive Action (ι : Type)
  | call (i : ι) (c : Call)
  | advance (i : ι)
  | fill (i : ι) (page : Fin (2 ^ 36))
  | forget (i : ι) (page : Fin (2 ^ 36))
  | handle (i j : ι)
  | start (i : ι)
  | count (i : ι)
  | listen (i : ι)
  | others (frames : Frames)

namespace Cores

variable {ι : Type} [DecidableEq ι] [Fintype ι] (s : Cores ι)

def cpuOnlineCount : ℕ := (Finset.univ.filter fun i ↦ s.life i = .counted ∨ s.life i = .listening).card

def put (i : ι) (e : Editor) : Cores ι := { s with editors := update s.editors i e }

def uncache (i : ι) (page : Fin (2 ^ 36)) : Cores ι :=
  { s with cached := update s.cached i (update (s.cached i) page none) }

def lapicBroadcastIpi (i : ι) : Cores ι :=
  if s.lapic then
    { s with flight := update s.flight i fun j ↦
        if j ≠ i ∧ s.life j = .listening then s.flight i j + 1 else s.flight i j }
  else s

/-- A call up to the lock. Only `unmap` asks how many CPUs there are. -/
def begin (i : ι) (c : Call) : Cores ι :=
  s.put i ⟨.lock, c, match c with | .unmap _ _ => decide (1 < s.cpuOnlineCount) | _ => false⟩

def advance (i : ι) : Option (Cores ι) :=
  let e := s.editors i
  match e.place with
  | .outside => none
  | .lock =>
    if s.tableLock = none then some { s.put i { e with place := .write 0 } with tableLock := some i } else some s
  | .write k =>
    if k < Memory.pagesOf e.call.length then
      let written := (e.call.page k).run s.memory
      if written.2 then some { s.put i { e with place := .invalidate k } with memory := written.1 }
      else some { s.put i { e with place := .outside } with memory := written.1, tableLock := none }
    else some (s.put i { e with place := .broadcast })
  | .invalidate k =>
    some ((s.uncache i (pageAt (e.call.address + k * pageSize))).put i { e with place := .write (k + 1) })
  | .broadcast =>
    some ((if e.shared then s.lapicBroadcastIpi i else s).put i { e with place := .leave })
  | .leave => some { s.put i { e with place := .outside } with tableLock := none }

def setLife (i : ι) (life : Life) : Cores ι := { s with life := update s.life i life }

def fill (i : ι) (page : Fin (2 ^ 36)) : Option (Cores ι) :=
  match s.memory.pageMap page with
  | none => none
  | some frame => some { s with cached := update s.cached i (update (s.cached i) page (some frame)) }

def handle (i j : ι) : Option (Cores ι) :=
  if 0 < s.flight j i then
    some { s with
      cached := update s.cached i fun _ ↦ none
      flight := update s.flight j (update (s.flight j) i (s.flight j i - 1)) }
  else none

def step (s : Cores ι) : Action ι → Option (Cores ι)
  | .call i c => some (s.begin i c)
  | .advance i => s.advance i
  | .fill i page => s.fill i page
  | .forget i page => some (s.uncache i page)
  | .handle i j => s.handle i j
  | .start i => some (s.setLife i .paging)
  | .count i => some (s.setLife i .counted)
  | .listen i => some (s.setLife i .listening)
  | .others frames => some { s with memory := { s.memory with frames := frames } }

/-- A CPU comes up in three steps, after the boot CPU has found its APIC. The rest of the kernel leaves the tables
alone. -/
def Enabled (s : Cores ι) : Action ι → Prop
  | .call i _ => (s.editors i).place = .outside ∧ s.life i ≠ .off
  | .fill i _ => s.life i ≠ .off
  | .start i => s.lapic = true ∧ s.life i = .off
  | .count i => s.life i = .paging
  | .listen i => s.life i = .counted
  | .others frames => frames.bitmap 0 = true ∧ ∀ f, s.memory.IsTable f → frames.bitmap f = true
  | _ => True

end Cores

/-- One CPU, on tables that `paging_init` has built. -/
def aloneOn {ι : Type} [DecidableEq ι] (boot : ι) (lapic : Bool) (m : Memory) : Cores ι where
  memory := m
  tableLock := none
  lapic := lapic
  life := update (fun _ ↦ .off) boot .listening
  editors _ := ⟨.outside, .unmap 0 0, false⟩
  cached _ _ := none
  flight _ _ := 0

def coresOn {ι : Type} [DecidableEq ι] [Fintype ι] (boot : ι) : System (Cores ι) (Action ι) where
  init s := ∃ m m' : Memory, ∃ image lapic, m.frames.bitmap 0 = true ∧ m.pagingInit image = some m' ∧
    s = aloneOn boot lapic m'
  enabled := Cores.Enabled
  step := Cores.step

end Eris.Mm
