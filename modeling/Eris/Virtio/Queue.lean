import Eris.Library.Ring
import Eris.Library.Transition
import Eris.Mm.Frames

namespace Eris.Virtio

open Library Mm Function

def indexSize : ℕ := 2 ^ 16

def descriptorNext : ℕ := 1

def descriptorWrite : ℕ := 2

def requestIn : ℕ := 0

def requestOut : ℕ := 1

def sectorSize : ℕ := 512

def headerSize : ℕ := 16

def statusOffset : ℕ := 256

structure Descriptor where
  address : ℕ
  length : ℕ
  flags : ℕ
  next : ℕ
  deriving DecidableEq

structure UsedElement where
  id : ℕ
  length : ℕ
  deriving DecidableEq

structure RequestHeader where
  type : ℕ
  reserved : ℕ
  sector : ℕ
  deriving DecidableEq

/-- What `submit` is called with, the buffer by its physical address. -/
structure Arguments where
  type : ℕ
  sector : ℕ
  payload : ℕ
  length : ℕ
  write : Bool
  deriving DecidableEq

def virtioBlkRead (sector payload sectors : ℕ) : Option Arguments :=
  if sectors = 0 then none else some ⟨requestIn, sector, payload, sectors * sectorSize % 2 ^ 64, false⟩

def virtioBlkWrite (sector payload sectors : ℕ) : Option Arguments :=
  if sectors = 0 then none else some ⟨requestOut, sector, payload, sectors * sectorSize % 2 ^ 64, true⟩

/-- A call with the page of its header. -/
structure Job where
  args : Arguments
  page : ℕ
  deriving DecidableEq

namespace Job

def header (job : Job) : RequestHeader := ⟨job.args.type, 0, job.args.sector⟩

def descriptor (job : Job) (size first : ℕ) : ℕ → Descriptor
  | 0 => ⟨job.page, headerSize, descriptorNext, (first + 1) % size⟩
  | 1 => ⟨job.args.payload, job.args.length % 2 ^ 32,
      if job.args.write then descriptorNext else descriptorNext + descriptorWrite, (first + 2) % size⟩
  | _ => ⟨job.page + statusOffset, 1, descriptorWrite, 0⟩

end Job

/-- The places in `submit` between two accesses to what others can see. -/
inductive Stage
  | outside
  | fill
  | take
  | bump
  | header
  | payload
  | status
  | offer
  | store
  | count
  | publish
  | poll
  | accept
  | judge
  | leave
  deriving DecidableEq

def Stage.rank : Stage → ℕ
  | .outside => 0
  | .fill => 1
  | .take => 2
  | .bump => 3
  | .header => 4
  | .payload => 5
  | .status => 6
  | .offer => 7
  | .store => 8
  | .count => 9
  | .publish => 10
  | .poll => 11
  | .accept => 12
  | .judge => 13
  | .leave => 14

/-- A caller with its local variables. The ticket only records which entry of the available ring is its own. -/
structure Caller where
  stage : Stage
  job : Job
  first : ℕ
  index : ℕ
  ticket : ℕ
  ok : Bool
  deriving DecidableEq

/-- What the device finds when it follows an entry of the available ring. -/
structure Seen where
  header : RequestHeader
  chain : List (ℕ × Descriptor)
  deriving DecidableEq

/-- A chain that the device has taken and not completed. -/
structure Held where
  ticket : ℕ
  head : ℕ
  seen : Seen
  deriving DecidableEq

/-- The record of an entry of the available ring. -/
structure Entry (ι : Type) where
  caller : ι
  job : Job
  first : ℕ
  seen : Option Seen
  status : Option UInt8

/-- The queue, the memory it shares with the device, the callers and the device. The last fields only record
what has happened: how many entries were offered, fetched and completed and how many completions were accepted,
in which order, what each entry was, and for each caller what its last call returned and which entry it made. -/
structure State (ι : Type) where
  size : ℕ
  nextDescriptor : ℕ
  lastUsed : ℕ
  descriptors : ℕ → Descriptor
  availableIndex : ℕ
  availableRing : ℕ → ℕ
  usedIndex : ℕ
  usedRing : ℕ → UsedElement
  frames : Frames
  headers : ℕ → RequestHeader
  statuses : ℕ → UInt8
  callers : ι → Caller
  lastAvailable : ℕ
  held : List Held
  offered : ℕ
  fetched : ℕ
  completed : ℕ
  accepted : ℕ
  order : ℕ → ℕ
  log : ℕ → Entry ι
  value : ι → Option Bool
  last : ι → Option ℕ
  calls : List Arguments

def readChain (descriptors : ℕ → Descriptor) : ℕ → ℕ → List (ℕ × Descriptor)
  | 0, _ => []
  | left + 1, id =>
    (id, descriptors id) ::
      if (descriptors id).flags % 2 = 1 then readChain descriptors left (descriptors id).next else []

inductive Action (ι : Type)
  | submit (i : ι) (args : Arguments)
  | advance (i : ι)
  | timeout (i : ι)
  | fetch
  | complete (n : ℕ) (status : UInt8)
  | others (frames : Frames)

namespace State

variable {ι : Type} [DecidableEq ι] (s : State ι)

def put (i : ι) (c : Caller) : State ι := { s with callers := update s.callers i c }

def submit (i : ι) (args : Arguments) : State ι :=
  let s := { s with last := update s.last i none, calls := s.calls ++ [args] }
  let refused := { s with value := update s.value i (some false) }
  if s.size < 3 then refused
  else
    let taken := s.frames.allocPages 1
    if taken.2 = 0 then { refused with frames := taken.1 }
    else
      { s.put i ⟨.fill, ⟨args, taken.2⟩, 0, 0, 0, false⟩ with
        frames := taken.1, value := update s.value i none }

def finish (i : ι) (c : Caller) (ok : Bool) : State ι :=
  { s.put i { c with stage := .outside } with
    frames := s.frames.freePages c.job.page 1
    value := update s.value i (some ok) }

def advance (i : ι) : Option (State ι) :=
  let c := s.callers i
  match c.stage with
  | .outside => none
  | .fill =>
    some { s.put i { c with stage := .take } with
      headers := update s.headers c.job.page c.job.header
      statuses := update s.statuses (c.job.page + statusOffset) 0xff }
  | .take => some (s.put i { c with stage := .bump, first := s.nextDescriptor })
  | .bump => some { s.put i { c with stage := .header } with nextDescriptor := (c.first + 3) % s.size }
  | .header =>
    some { s.put i { c with stage := .payload } with
      descriptors := update s.descriptors c.first (c.job.descriptor s.size c.first 0) }
  | .payload =>
    some { s.put i { c with stage := .status } with
      descriptors := update s.descriptors ((c.first + 1) % s.size) (c.job.descriptor s.size c.first 1) }
  | .status =>
    some { s.put i { c with stage := .offer } with
      descriptors := update s.descriptors ((c.first + 2) % s.size) (c.job.descriptor s.size c.first 2) }
  | .offer => some (s.put i { c with stage := .store, index := s.availableIndex })
  | .store =>
    some { s.put i { c with stage := .count } with
      availableRing := update s.availableRing (c.index % s.size) c.first }
  | .count => some (s.put i { c with stage := .publish, index := s.availableIndex })
  | .publish =>
    some { s.put i { c with stage := .poll, ticket := s.offered } with
      availableIndex := (c.index + 1) % indexSize
      offered := s.offered + 1
      log := update s.log s.offered ⟨i, c.job, c.first, none, none⟩
      last := update s.last i (some s.offered) }
  | .poll => if s.usedIndex = s.lastUsed then some s else some (s.put i { c with stage := .accept })
  | .accept => some { s.put i { c with stage := .judge } with lastUsed := s.usedIndex, accepted := s.completed }
  | .judge =>
    some (s.put i { c with stage := .leave, ok := s.statuses (c.job.page + statusOffset) = 0 })
  | .leave => some (s.finish i c c.ok)

def timeout (i : ι) : Option (State ι) :=
  let c := s.callers i
  if c.stage = .poll ∧ s.usedIndex = s.lastUsed then some (s.finish i c false) else none

def fetch : Option (State ι) :=
  if s.lastAvailable = s.availableIndex then none
  else
    let head := s.availableRing (s.lastAvailable % s.size)
    let chain := readChain s.descriptors s.size head
    let seen : Seen := ⟨s.headers (s.descriptors head).address, chain⟩
    some { s with
      lastAvailable := (s.lastAvailable + 1) % indexSize
      held := ⟨s.fetched, head, seen⟩ :: s.held
      fetched := s.fetched + 1
      log := update s.log s.fetched { s.log s.fetched with seen := some seen } }

/-- The device writes the status byte, which the last descriptor of a chain is for, and hands the chain back. -/
def complete (n : ℕ) (status : UInt8) : Option (State ι) := do
  let chain ← s.held[n]?
  let final ← chain.seen.chain.getLast?
  return { s with
    statuses := update s.statuses final.2.address status
    usedRing := update s.usedRing (s.usedIndex % s.size) ⟨chain.head, 1⟩
    usedIndex := (s.usedIndex + 1) % indexSize
    held := s.held.eraseIdx n
    completed := s.completed + 1
    order := update s.order s.completed chain.ticket
    log := update s.log chain.ticket { s.log chain.ticket with status := some status } }

def step (s : State ι) : Action ι → Option (State ι)
  | .submit i args => some (s.submit i args)
  | .advance i => s.advance i
  | .timeout i => s.timeout i
  | .fetch => s.fetch
  | .complete n status => s.complete n status
  | .others frames => some { s with frames := frames }

/-- A thread makes one call at a time. The rest of the kernel keeps its hands off the pages of the callers. -/
def Enabled (s : State ι) : Action ι → Prop
  | .submit i _ => (s.callers i).stage = .outside
  | .others frames => frames.bitmap 0 = true ∧
    ∀ i, (s.callers i).stage ≠ .outside → frames.bitmap ((s.callers i).job.page / pageSize) = true
  | _ => True

end State

/-- The queue after `setup`, with some frames in use. -/
def setup {ι : Type} [Inhabited ι] (size : ℕ) (frames : Frames) : State ι where
  size := size
  nextDescriptor := 0
  lastUsed := 0
  descriptors _ := ⟨0, 0, 0, 0⟩
  availableIndex := 0
  availableRing _ := 0
  usedIndex := 0
  usedRing _ := ⟨0, 0⟩
  frames := frames
  headers _ := ⟨0, 0, 0⟩
  statuses _ := 0
  callers _ := ⟨.outside, ⟨⟨0, 0, 0, 0, false⟩, 0⟩, 0, 0, 0, false⟩
  lastAvailable := 0
  held := []
  offered := 0
  fetched := 0
  completed := 0
  accepted := 0
  order _ := 0
  log _ := ⟨default, ⟨⟨0, 0, 0, 0, false⟩, 0⟩, 0, none, none⟩
  value _ := none
  last _ := none
  calls := []

def system (ι : Type) [DecidableEq ι] [Inhabited ι] (size : ℕ) : System (State ι) (Action ι) where
  init s := ∃ frames : Frames, frames.bitmap 0 = true ∧ s = setup size frames
  enabled := State.Enabled
  step := State.step

end Eris.Virtio
