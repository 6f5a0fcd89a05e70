import Mathlib

namespace Eris.Sched

open Function

def maxThreads : ℕ := 64

def maxCpus : ℕ := 8

inductive ThreadState
  | ready
  | running
  | sleeping
  | blocked
  | dead
  deriving DecidableEq

/-- A thread object. Its name, its stacks and its address space are never looked at here. -/
structure Thread where
  id : ℕ := 0
  cpu : ℕ := 0
  state : ThreadState := .ready
  wakeAt : ℕ := 0
  queueNext : Option ℕ := none
  listNext : Option ℕ := none

/-- What a CPU knows about threads. Both pointers are null until the CPU is started. -/
structure PerCpu where
  currentThread : Option ℕ := none
  idleThread : Option ℕ := none
  preemptCount : ℕ := 0

/-- The state of the scheduler. Threads and wait queues are named by their addresses. The two
last fields only record what has gone into the run queue and what has come out of it. -/
structure Scheduler where
  threads : ℕ → Thread
  runQueueHead : Option ℕ
  runQueueTail : Option ℕ
  sleepers : Option ℕ
  waitQueues : ℕ → Option ℕ
  cpus : ℕ → PerCpu
  allThreads : Option ℕ
  threadsAlive : ℕ
  nextThreadId : ℕ
  running : Bool
  enqueued : List ℕ
  dequeued : List ℕ

/-- The scheduler before `sched_init`. -/
def boot : Scheduler where
  threads _ := {}
  runQueueHead := none
  runQueueTail := none
  sleepers := none
  waitQueues _ := none
  cpus _ := {}
  allThreads := none
  threadsAlive := 0
  nextThreadId := 1
  running := false
  enqueued := []
  dequeued := []

namespace Scheduler

variable (s : Scheduler)

def modify (t : ℕ) (f : Thread → Thread) : Scheduler :=
  { s with threads := update s.threads t (f (s.threads t)) }

def setNext (t : ℕ) (p : Option ℕ) : Scheduler := s.modify t fun x ↦ { x with queueNext := p }

def enqueue (t : ℕ) : Scheduler :=
  let s' := { s.modify t fun x ↦ { x with queueNext := none, state := .ready } with
    enqueued := s.enqueued ++ [t], runQueueTail := some t }
  match s.runQueueTail with
  | none => { s' with runQueueHead := some t }
  | some last => s'.setNext last (some t)

def dequeue : Option ℕ × Scheduler :=
  match s.runQueueHead with
  | none => (none, s)
  | some t =>
    let head := (s.threads t).queueNext
    (some t, { s.setNext t none with
      runQueueHead := head
      runQueueTail := if head = none then none else s.runQueueTail
      dequeued := s.dequeued ++ [t] })

def parkSleeperAt (t deadline : ℕ) : Scheduler :=
  { s.modify t fun x ↦ { x with wakeAt := deadline, state := .sleeping, queueNext := s.sleepers } with
    sleepers := some t }

/-- As many rounds as a walk over a list can take: no list is longer than there are threads alive and idle ones. -/
def rounds : ℕ := s.threadsAlive + maxCpus + 1

/-- The loop of `wake_expired_sleepers`, with a bound on its rounds. -/
def wakeExpired (now : ℕ) : ℕ → Option ℕ → Scheduler → Option Scheduler
  | 0, _, _ => none
  | rounds + 1, remaining, s =>
    match s.sleepers with
    | none => some { s with sleepers := remaining }
    | some t =>
      let s' := { s with sleepers := (s.threads t).queueNext }
      if (s.threads t).wakeAt ≤ now then wakeExpired now rounds remaining (s'.enqueue t)
      else wakeExpired now rounds (some t) (s'.setNext t remaining)

def wakeExpiredSleepers (now : ℕ) : Option Scheduler := wakeExpired now s.rounds none s

def setCurrent (c t : ℕ) : Scheduler :=
  { s.modify t fun x ↦ { x with cpu := c, state := .running } with
    cpus := update s.cpus c { s.cpus c with currentThread := some t } }

/-- What `switch_to` does to the state above. It saves the registers of the thread before in
its object, so there has to be one. -/
def switchTo (c t : ℕ) : Option Scheduler := do
  let _ ← (s.cpus c).currentThread
  return s.setCurrent c t

/-- The walk of `detach_from_sleepers` past the head, where it looks at the link of `p`. -/
def detachAfter (t : ℕ) : ℕ → ℕ → Option Scheduler
  | 0, _ => none
  | rounds + 1, p =>
    match (s.threads p).queueNext with
    | none => some s
    | some x =>
      if x = t then some (s.setNext p (s.threads t).queueNext) else detachAfter t rounds x

def detachFromSleepers (t : ℕ) : Option Scheduler :=
  match s.sleepers with
  | none => some s
  | some x =>
    if x = t then some { s with sleepers := (s.threads t).queueNext }
    else s.detachAfter t s.rounds x

def blockOn (q t : ℕ) : Scheduler :=
  { s.modify t fun x ↦ { x with state := .blocked, queueNext := s.waitQueues q } with
    waitQueues := update s.waitQueues q (some t) }

def takeFrom (q : ℕ) : Option ℕ × Scheduler :=
  match s.waitQueues q with
  | none => (none, s)
  | some t => (some t, { s.setNext t none with
      waitQueues := update s.waitQueues q (s.threads t).queueNext })

/-- The object comes from `kzalloc` and `prepare`. -/
def adopt (t : ℕ) : Scheduler :=
  { s with
    threads := update s.threads t { id := s.nextThreadId, listNext := s.allThreads }
    nextThreadId := (s.nextThreadId + 1) % 2 ^ 32
    allThreads := some t
    threadsAlive := s.threadsAlive + 1 }.enqueue t

def markDead (t : ℕ) : Scheduler :=
  { s.modify t fun x ↦ { x with state := .dead } with threadsAlive := s.threadsAlive - 1 }

def makeIdle (c idle : ℕ) : Scheduler :=
  { s with
    threads := update s.threads idle { cpu := c, state := .running }
    cpus := update s.cpus c
      { s.cpus c with idleThread := some idle, currentThread := some idle } }

/-- `spawn` with the count of threads it read before it took the lock, and the object and stack
it was given, if it was. -/
def spawn (seen : ℕ) (memory : Option ℕ) : Scheduler :=
  if seen ≥ maxThreads then s
  else
    match memory with
    | none => s
    | some t => s.adopt t

def wake (t : ℕ) : Option Scheduler :=
  if (s.threads t).state = .blocked ∨ (s.threads t).state = .sleeping then do
    let s ← s.detachFromSleepers t
    return s.enqueue t
  else some s

def yield (c now : ℕ) : Option Scheduler :=
  if s.running = false then some s
  else do
    let s ← s.wakeExpiredSleepers now
    match s.dequeue with
    | (none, s) => return s
    | (some next, s) =>
      match (s.cpus c).currentThread with
      | none => s.switchTo c next
      | some self =>
        if (s.cpus c).idleThread = some self then s.switchTo c next
        else (s.enqueue self).switchTo c next

/-- How `thread_sleep_ns`, `thread_exit` and `wait` end. -/
def leave (c : ℕ) : Option Scheduler :=
  match s.dequeue with
  | (some next, s) => s.switchTo c next
  | (none, s) => do
    let idle ← (s.cpus c).idleThread
    s.switchTo c idle

def threadSleepNs (c now nanoseconds : ℕ) : Option Scheduler :=
  if s.running = false then some s
  else do
    let self ← (s.cpus c).currentThread
    (s.parkSleeperAt self ((now + nanoseconds) % 2 ^ 64)).leave c

def threadExit (c : ℕ) : Option Scheduler := do
  let self ← (s.cpus c).currentThread
  (s.markDead self).leave c

def schedTick (c now : ℕ) : Option Scheduler :=
  if s.running = false ∨ (s.cpus c).preemptCount ≠ 0 then some s else s.yield c now

def wait (c q : ℕ) : Option Scheduler := do
  let self ← (s.cpus c).currentThread
  (s.blockOn q self).leave c

def wakeOne (q : ℕ) : Scheduler :=
  match s.takeFrom q with
  | (none, s) => s
  | (some t, s) => s.enqueue t

/-- The loop of `wake_all`, with a bound on its rounds. -/
def wakeEach (q : ℕ) : ℕ → Scheduler → Option Scheduler
  | 0, _ => none
  | rounds + 1, s =>
    match s.takeFrom q with
    | (none, s) => some s
    | (some t, s) => wakeEach q rounds (s.enqueue t)

def wakeAll (q : ℕ) : Option Scheduler := wakeEach q s.rounds s

def setPreemptCount (c n : ℕ) : Scheduler :=
  { s with cpus := update s.cpus c { s.cpus c with preemptCount := n } }

def preemptDisable (c : ℕ) : Scheduler := s.setPreemptCount c ((s.cpus c).preemptCount + 1)

def preemptEnable (c : ℕ) : Scheduler := s.setPreemptCount c ((s.cpus c).preemptCount - 1)

def schedStartCpu (c idle : ℕ) : Scheduler := s.makeIdle c idle

def schedInit (c idle : ℕ) : Scheduler := { s.schedStartCpu c idle with running := true }

end Scheduler

end Eris.Sched
