import Eris.Sched.Runs

namespace Eris.Sched

open Function

def workQueueSize : ℕ := 64

/-- The address of `waiting`. -/
def workWaiting : ℕ := 0

def bootCpu : ℕ := 0

structure WorkItem where
  function : ℕ
  context : ℕ

/-- The scheduler and the ring of work items. The thread that was started for them is known by its
address, and so is what each thread is at. -/
structure Work where
  sched : Scheduler
  queue : ℕ → WorkItem
  head : ℕ
  tail : ℕ
  dropped : ℕ
  kworker : Option ℕ
  runs : ℕ → Option WorkItem

namespace Work

/-- Before `sched_init`. -/
def boot : Work where
  sched := Sched.boot
  queue _ := ⟨0, 0⟩
  head := 0
  tail := 0
  dropped := 0
  kworker := none
  runs _ := none

variable (w : Work)

def withSched (s : Scheduler) : Work := { w with sched := s }

def scheduleWork (item : WorkItem) : Option (Work × Bool) :=
  if item.function = 0 then some (w, false)
  else
    let next := (w.tail + 1) % workQueueSize
    if next = w.head then some ({ w with dropped := w.dropped + 1 }, false)
    else do
      let s ← w.sched.wakeAll workWaiting
      return ({ w with queue := update w.queue w.tail item, tail := next, sched := s }, true)

/-- A round of `work_run_pending` up to the call of the function; `none` when nothing is pending. -/
def takeWork (c : ℕ) : Option Work := do
  let self ← w.sched.current c
  if w.head = w.tail then none
  else
    return { w with
      head := (w.head + 1) % workQueueSize
      runs := update w.runs self (some (w.queue w.head)) }

def finishWork (c : ℕ) : Option Work := do
  let self ← w.sched.current c
  return { w with runs := update w.runs self none }

def workStart (seen : ℕ) (memory : Option ℕ) : Work :=
  { w with sched := w.sched.spawn seen memory, kworker := if seen ≥ maxThreads then w.kworker else memory }

end Work

inductive WorkOp
  | sched (op : Op)
  | scheduleWork (item : WorkItem)
  | takeWork (c : ℕ)
  | finishWork (c : ℕ)
  | workStart (seen : ℕ) (memory : Option ℕ)

namespace WorkOp

def run (w : Work) : WorkOp → Option Work
  | .sched op => (op.run w.sched).map w.withSched
  | .scheduleWork item => (w.scheduleWork item).map Prod.fst
  | .takeWork c => w.takeWork c
  | .finishWork c => w.finishWork c
  | .workStart seen memory => some (w.workStart seen memory)

/-- A CPU that can block. The loop of an idle thread does not, a work item may do so wherever it runs. -/
def MayBlock (w : Work) (c : ℕ) : Prop :=
  ∃ self, w.sched.current c = some self ∧ (w.sched.idle c = some self → w.runs self ≠ none)

/-- When a step can be taken. Work is taken by its thread and by the idle thread of the boot CPU, one item
after the other. -/
def Enabled (w : Work) : WorkOp → Prop
  | .sched (.threadSleepNs c _ _) => MayBlock w c
  | .sched (.wait c _) => MayBlock w c
  | .sched (.wake t) => w.sched.Object t
  | .sched op => op.Legal w.sched
  | .takeWork c => ∃ self, w.sched.current c = some self ∧ w.runs self = none ∧
    (w.kworker = some self ∨ c = bootCpu ∧ w.sched.idle c = some self)
  | .workStart _ memory => ∀ t, memory = some t → w.sched.Fresh t
  | _ => True

/-- No thread that idles calls what blocks, and blocked threads are woken through their queue. -/
def Proper (w : Work) : WorkOp → Prop
  | .sched (.threadSleepNs c _ _) => w.sched.running = true → w.sched.current c ≠ w.sched.idle c
  | .sched (.wait c _) => w.sched.current c ≠ w.sched.idle c
  | .sched (.wake t) => w.sched.state t ≠ .blocked
  | _ => True

end WorkOp

/-- The states that steps of some kind lead to. -/
inductive Work.Reached (allowed : Work → WorkOp → Prop) : Work → Prop
  | boot : Reached allowed Work.boot
  | step {w w' : Work} (op : WorkOp) : Reached allowed w → op.Enabled w → allowed w op → op.run w = some w' →
      Reached allowed w'

namespace Work

open Scheduler

variable {w w' : Work} {op : WorkOp}

theorem settled_sched {o : Op} {s' : Scheduler} {all : List ℕ} (h : Settled w.sched all)
    (hon : (WorkOp.sched o).Enabled w) (hok : (WorkOp.sched o).Proper w) (hrun : o.run w.sched = some s') :
    ∃ all', Settled s' all' := by
  have hlegal : o.Legal w.sched → ∃ all', Settled s' all' := by
    intro hl
    obtain ⟨s'', all', hs'', h', -⟩ := h.step hl
    rw [hrun] at hs''
    cases hs''
    exact ⟨all', h'⟩
  cases o with
  | threadSleepNs c now nanoseconds =>
    obtain ⟨self, hself, -⟩ := hon
    have hne : w.sched.current c ≠ none := by
      rw [hself]
      nofun
    by_cases hrunning : w.sched.running = true
    · exact hlegal ⟨hne, hok hrunning⟩
    · rw [Op.run, threadSleepNs, if_pos (Bool.eq_false_iff.mpr hrunning)] at hrun
      cases hrun
      exact ⟨all, h⟩
  | wait c q =>
    obtain ⟨self, hself, -⟩ := hon
    refine hlegal ⟨?_, hok⟩
    rw [hself]
    nofun
  | wake t => exact hlegal ⟨hon, hok⟩
  | _ => exact hlegal hon

theorem settled_spawn {s : Scheduler} {all : List ℕ} (h : Settled s all) (seen : ℕ) {memory : Option ℕ}
    (hfresh : ∀ t, memory = some t → s.Fresh t) : ∃ all', Settled (s.spawn seen memory) all' := by
  obtain ⟨s', all', hs', h', -⟩ := h.step (show (Op.spawn seen memory).Legal s from hfresh)
  cases hs'
  exact ⟨all', h'⟩

theorem settled_step {all : List ℕ} (h : Settled w.sched all) (hon : op.Enabled w) (hok : op.Proper w)
    (hrun : op.run w = some w') : ∃ all', Settled w'.sched all' := by
  cases op with
  | sched o =>
    obtain ⟨s', hs', rfl⟩ := Option.map_eq_some_iff.mp hrun
    exact settled_sched h hon hok hs'
  | scheduleWork item =>
    obtain ⟨⟨w₁, ok⟩, hs', rfl⟩ := Option.map_eq_some_iff.mp hrun
    unfold scheduleWork at hs'
    split at hs'
    · cases hs'
      exact ⟨all, h⟩
    · simp only at hs'
      split at hs'
      · cases hs'
        exact ⟨all, h⟩
      · obtain ⟨s', hwake, h'⟩ := wakeAll_spec h workWaiting
        rw [hwake] at hs'
        cases hs'
        exact ⟨all, h'⟩
  | takeWork c =>
    obtain ⟨self, hself, htake⟩ := Option.bind_eq_some_iff.mp hrun
    split at htake
    · cases htake
    · cases htake
      exact ⟨all, h⟩
  | finishWork c =>
    obtain ⟨self, hself, hfinish⟩ := Option.bind_eq_some_iff.mp hrun
    cases hfinish
    exact ⟨all, h⟩
  | workStart seen memory =>
    cases hrun
    exact settled_spawn h seen hon

theorem Reached.settled (h : Reached WorkOp.Proper w) : ∃ all, Settled w.sched all := by
  induction h with
  | boot => exact ⟨[], boot_settled⟩
  | step _ _ hon hok hrun ih =>
    obtain ⟨all, ih⟩ := ih
    exact settled_step ih hon hok hrun

/-- In every run of proper steps an idle thread is on no list, and no thread is on two CPUs. -/
theorem reached_idle_apart (h : Reached WorkOp.Proper w) :
    (∀ c t, w.sched.idle c = some t → ¬ w.sched.At t .runQueue ∧ ¬ w.sched.At t .sleepers ∧
      ∀ q, ¬ w.sched.At t (.waitQueue q)) ∧
    ∀ c c' t, w.sched.current c = some t → w.sched.current c' = some t → c = c' := by
  obtain ⟨all, hs⟩ := h.settled
  have hidle := hs.placed.idle
  obtain ⟨ls, hinv⟩ := hs
  refine ⟨fun c t hi ↦ ⟨fun hat ↦ ?_, fun hat ↦ ?_, fun q hat ↦ ?_⟩, fun c c' t ↦ ?_⟩
  · cases hidle c t hi _ hat
  · cases hidle c t hi _ hat
  · cases hidle c t hi _ hat
  · exact hinv.single c c' t nofun nofun

def pending : Work :=
  { boot.withSched (Sched.boot.schedInit bootCpu 100) with queue := update boot.queue 0 ⟨1, 0⟩, tail := 1 }

theorem reached_pending (allowed : Work → WorkOp → Prop) (hinit : allowed boot (.sched (.schedInit bootCpu 100)))
    (hschedule : allowed (boot.withSched (Sched.boot.schedInit bootCpu 100)) (.scheduleWork ⟨1, 0⟩)) :
    Reached allowed pending := by
  have hstart : Reached allowed (boot.withSched (Sched.boot.schedInit bootCpu 100)) := by
    refine .step (.sched (.schedInit bootCpu 100)) .boot ?_ hinit rfl
    exact ⟨rfl, nofun, nofun⟩
  exact .step (.scheduleWork ⟨1, 0⟩) hstart trivial hschedule rfl

theorem fresh_pending {t : ℕ} (ht : t ≠ 100) : pending.sched.Fresh t := by
  refine ⟨nofun, fun c hc ↦ ?_⟩
  by_cases hboot : c = bootCpu
  · subst hboot
    exact ht (Option.some.inj hc).symm
  · simp [idle, pending, withSched, Sched.boot, schedInit, schedStartCpu, makeIdle, hboot] at hc

def asleep : Work :=
  ((((pending.workStart 0 (some 200)).withSched
    (((pending.workStart 0 (some 200)).sched.yield bootCpu 0).getD Sched.boot)).takeWork bootCpu).bind
      fun w ↦ (w.sched.threadSleepNs bootCpu 0 1000).map w.withSched).getD boot

theorem reached_asleep : Reached WorkOp.Proper asleep := by
  have hpending := reached_pending WorkOp.Proper trivial trivial
  have hspawn : Reached WorkOp.Proper (pending.workStart 0 (some 200)) := by
    refine .step (.workStart 0 (some 200)) hpending ?_ trivial rfl
    intro t ht
    cases ht
    exact fresh_pending (by decide)
  have hyield := Reached.step (.sched (.yield bootCpu 0)) hspawn
    (show (Op.yield bootCpu 0).Legal _ from by unfold Op.Legal; decide) trivial rfl
  have htake := Reached.step (.takeWork bootCpu) hyield ⟨200, rfl, rfl, .inl rfl⟩ trivial rfl
  refine .step (.sched (.threadSleepNs bootCpu 0 1000)) htake ⟨200, rfl, fun _ ↦ by decide⟩ ?_ rfl
  exact fun _ ↦ by decide

theorem reached_idle_apart_asleep :
    asleep.sched.At 200 .sleepers ∧ asleep.sched.idle bootCpu = some 100 ∧ ¬ asleep.sched.At 100 .sleepers := by
  have h := reached_idle_apart reached_asleep
  exact ⟨.here 200, rfl, (h.1 bootCpu 100 rfl).2.1⟩

/-- On a machine with another CPU the idle thread of the boot CPU has taken the item and sleeps in it. -/
def dozing : Work :=
  (((pending.withSched (pending.sched.schedStartCpu 1 101)).takeWork bootCpu).bind
    fun w ↦ (w.sched.threadSleepNs bootCpu 0 1000).map w.withSched).getD boot

def doubled : Work := dozing.withSched ((dozing.sched.yield 1 5000).getD Sched.boot)

theorem idle_sleeps_in_work :
    Reached (fun _ _ ↦ True) dozing ∧ dozing.sched.idle bootCpu = some 100 ∧ dozing.sched.At 100 .sleepers ∧
      Reached (fun _ _ ↦ True) doubled ∧ doubled.sched.current bootCpu = some 100 ∧
      doubled.sched.current 1 = some 100 := by
  have hcpu := Reached.step (.sched (.schedStartCpu 1 101)) (reached_pending (fun _ _ ↦ True) trivial trivial)
    ⟨rfl, fresh_pending (by decide)⟩ trivial rfl
  have htake := Reached.step (.takeWork bootCpu) hcpu ⟨100, rfl, rfl, .inr ⟨rfl, rfl⟩⟩ trivial rfl
  have hsleep : Reached (fun _ _ ↦ True) dozing :=
    .step (.sched (.threadSleepNs bootCpu 0 1000)) htake ⟨100, rfl, fun _ ↦ by decide⟩ trivial rfl
  have hyield : Reached (fun _ _ ↦ True) doubled :=
    .step (.sched (.yield 1 5000)) hsleep (show (Op.yield 1 5000).Legal _ from by unfold Op.Legal; decide)
      trivial rfl
  exact ⟨hsleep, rfl, .here 100, hyield, rfl, rfl⟩

end Work

end Eris.Sched
