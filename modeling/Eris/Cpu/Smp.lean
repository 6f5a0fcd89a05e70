import Eris.Library.Transition
import Eris.Mm.Frames
import Eris.Sched.Scheduler

namespace Eris.Cpu

open Library Mm Sched Function

def apStackPages : ℕ := 8

/-- What the firmware tells about the processors, and where the kernel is. -/
structure Platform where
  apicIds : List UInt32
  nodup : apicIds.Nodup
  lapicId : UInt32
  lapicPresent : Bool
  root : ℕ
  apEntry : ℕ

def Platform.cpuApicId (p : Platform) (i : ℕ) : UInt32 := p.apicIds.getD i 0

/-- The values at the end of the trampoline page. -/
structure Slots where
  root : ℕ
  stack : ℕ
  entry : ℕ
  ready : ℕ
  index : ℕ
  apicId : ℕ
  consumed : ℕ
  deriving DecidableEq

structure PerCpu where
  index : ℕ
  apicId : UInt32
  kernelStackTop : ℕ
  online : Bool
  deriving DecidableEq

/-- The places in `smp_init` between two accesses to what the cores can see. -/
inductive Phase
  | head
  | allocate
  | stack
  | entry
  | ready
  | index
  | apicId
  | consumed
  | init
  | startup
  | check
  | again
  | wait
  | settle
  | retired
  deriving DecidableEq

def Phase.rank : Phase → ℕ
  | .head => 0
  | .allocate => 1
  | .stack => 2
  | .entry => 3
  | .ready => 4
  | .index => 5
  | .apicId => 6
  | .consumed => 7
  | .init => 8
  | .startup => 9
  | .check => 10
  | .again => 11
  | .wait => 12
  | .settle => 13
  | .retired => 14

structure Boot where
  phase : Phase
  i : ℕ
  stack : ℕ
  started : ℕ
  deriving DecidableEq

/-- How far a core has come: the trampoline up to `entered`, then `ap_entry`. -/
inductive Stage
  | off
  | waiting
  | started
  | rooted
  | stacked
  | entered
  | called
  | indexed
  | identified
  | released
  | placed
  | topped
  | running
  deriving DecidableEq

def Stage.rank : Stage → ℕ
  | .off => 0
  | .waiting => 1
  | .started => 2
  | .rooted => 3
  | .stacked => 4
  | .entered => 5
  | .called => 6
  | .indexed => 7
  | .identified => 8
  | .released => 9
  | .placed => 10
  | .topped => 11
  | .running => 12

structure Core where
  stage : Stage
  root : ℕ
  rsp : ℕ
  entry : ℕ
  index : ℕ
  apicId : UInt32
  deriving DecidableEq

/-- What `smp_init` has set aside for a core. -/
structure Prepared where
  index : ℕ
  stack : ℕ
  deriving DecidableEq

/-- The boot CPU, the cores by their APIC ids, and what they share. The last two fields only record for which core
the slots were last written and what was written for each of them. -/
structure State where
  slots : Slots
  boot : Boot
  cores : UInt32 → Core
  blocks : ℕ → PerCpu
  frames : Frames
  cpusOnline : ℕ
  owner : Option UInt32
  prepared : UInt32 → Option Prepared

inductive Action
  | boot
  | deadline
  | core (a : UInt32)
  | others (frames : Frames)

namespace State

variable (p : Platform) (s : State)

def current : UInt32 := p.cpuApicId s.boot.i

def goto (phase : Phase) : State := { s with boot := { s.boot with phase := phase } }

def next : State := { s with boot := { s.boot with phase := .head, i := s.boot.i + 1 } }

def lapicSendInit (a : UInt32) : State :=
  { s with cores := update s.cores a ⟨.waiting, 0, 0, 0, 0, 0⟩ }

def lapicSendStartup (a : UInt32) : State :=
  if (s.cores a).stage = .waiting then
    { s with cores := update s.cores a { s.cores a with stage := .started } }
  else s

def smpInit : Option State :=
  let a := s.current p
  match s.boot.phase with
  | .head =>
    if s.boot.i < p.apicIds.length ∧ s.boot.i < maxCpus then
      if a = p.lapicId then some s.next else some (s.goto .allocate)
    else some (s.goto .settle)
  | .allocate =>
    let taken := s.frames.allocPages apStackPages
    if taken.2 = 0 then some { s.goto .settle with frames := taken.1 }
    else some { s with
      frames := taken.1
      boot := { s.boot with phase := .stack, stack := taken.2 + apStackPages * pageSize } }
  | .stack =>
    some { s.goto .entry with
      slots := { s.slots with stack := s.boot.stack }
      owner := some a
      prepared := update s.prepared a (some ⟨s.boot.i, s.boot.stack⟩) }
  | .entry => some { s.goto .ready with slots := { s.slots with entry := p.apEntry } }
  | .ready => some { s.goto .index with slots := { s.slots with ready := 0 } }
  | .index => some { s.goto .apicId with slots := { s.slots with index := s.boot.i } }
  | .apicId => some { s.goto .consumed with slots := { s.slots with apicId := a.toNat } }
  | .consumed => some { s.goto .init with slots := { s.slots with consumed := 0 } }
  | .init => some ((s.goto .startup).lapicSendInit a)
  | .startup => some ((s.goto .check).lapicSendStartup a)
  | .check => some (s.goto (if s.slots.ready = 0 then .again else .wait))
  | .again => some ((s.goto .wait).lapicSendStartup a)
  | .wait =>
    if s.slots.consumed = 0 then some s
    else some { s.next with boot := { s.next.boot with started := s.boot.started + 1 } }
  | .settle => if s.cpusOnline < s.boot.started then some s else some (s.goto .retired)
  | .retired => none

/-- A wait of `smp_init` takes too long. -/
def deadline : Option State :=
  match s.boot.phase with
  | .wait => if s.slots.consumed = 0 then some s.next else none
  | .settle => some (s.goto .retired)
  | _ => none

def put (a : UInt32) (c : Core) : State := { s with cores := update s.cores a c }

/-- A core takes one step. Once the trampoline page is data again the code in it faults. -/
def run (a : UInt32) : Option State :=
  let c := s.cores a
  match c.stage with
  | .off => none
  | .waiting => none
  | .started => some (s.put a { c with stage := .rooted, root := s.slots.root })
  | .rooted =>
    if s.boot.phase = .retired then none else some (s.put a { c with stage := .stacked, rsp := s.slots.stack })
  | .stacked =>
    if s.boot.phase = .retired then none else some (s.put a { c with stage := .entered, entry := s.slots.entry })
  | .entered =>
    if s.boot.phase = .retired then none
    else some { s.put a { c with stage := .called } with slots := { s.slots with ready := 1 } }
  | .called =>
    if c.entry = p.apEntry then some (s.put a { c with stage := .indexed, index := s.slots.index % 2 ^ 32 }) else none
  | .indexed => some (s.put a { c with stage := .identified, apicId := UInt32.ofNat s.slots.apicId })
  | .identified => some { s.put a { c with stage := .released } with slots := { s.slots with consumed := 1 } }
  | .released =>
    if c.index < maxCpus then
      some { s.put a { c with stage := .placed } with
        blocks := update s.blocks c.index ⟨c.index, c.apicId, 0, true⟩ }
    else none
  | .placed =>
    some { s.put a { c with stage := .topped } with
      blocks := update s.blocks c.index { s.blocks c.index with kernelStackTop := s.slots.stack } }
  | .topped =>
    some { s.put a { c with stage := .running } with
      cpusOnline := s.cpusOnline + 1
      blocks := update s.blocks c.index { s.blocks c.index with online := true } }
  | .running => none

def step (s : State) : Action → Option State
  | .boot => s.smpInit p
  | .deadline => s.deadline
  | .core a => s.run p a
  | .others frames => some { s with frames := frames }

def Lives (stack : ℕ) : Prop := s.boot.phase = .stack ∧ s.boot.stack = stack ∨ ∃ a q, s.prepared a = some q ∧ q.stack = stack

def Enabled (s : State) : Action → Prop
  | .others frames => frames.bitmap 0 = true ∧ ∀ stack, s.Lives stack → ∀ f, f * pageSize < stack →
    stack ≤ (f + apStackPages) * pageSize → frames.bitmap f = true
  | _ => True

end State

/-- The state in which `smp_init` has copied the trampoline. -/
def start (p : Platform) (frames : Frames) : State where
  slots := ⟨p.root, 0, 0, 0, 0, 0, 0⟩
  boot := ⟨if p.apicIds.length ≤ 1 ∨ p.lapicPresent = false then .retired else .head, 1, 0, 1⟩
  cores _ := ⟨.off, 0, 0, 0, 0, 0⟩
  blocks i := if i = 0 then ⟨0, p.lapicId, 0, true⟩ else ⟨0, 0, 0, false⟩
  frames := frames
  cpusOnline := 1
  owner := none
  prepared _ := none

def system (p : Platform) : System State Action where
  init s := ∃ frames : Frames, frames.bitmap 0 = true ∧ s = start p frames
  enabled := State.Enabled
  step := State.step p

end Eris.Cpu
