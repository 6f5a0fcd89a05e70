import Eris.Library.Ring
import Eris.Library.Transition
import Eris.Sched.Work

namespace Eris.Sched

open Library Library.Ring List Function

/-- The ring of work items and the count of those that found no room. -/
structure WorkQueue where
  ring : Buffer WorkItem
  dropped : ℕ

namespace WorkQueue

variable (q : WorkQueue)

/-- The critical section of `schedule_work`. -/
def scheduleWork (item : WorkItem) : WorkQueue × Bool :=
  if item.function = 0 then (q, false)
  else
    match q.ring.push workQueueSize item with
    | none => ({ q with dropped := (q.dropped + 1) % 2 ^ 64 }, false)
    | some ring => ({ q with ring := ring }, true)

/-- The critical section of a round of `work_run_pending`. -/
def takeWork : Option (WorkItem × WorkQueue) :=
  (q.ring.pop workQueueSize).map fun taken ↦ (taken.1, { q with ring := taken.2 })

def workPending : ℕ := q.ring.count workQueueSize

def workDropped : ℕ := q.dropped

end WorkQueue

def Work.workQueue (w : Work) : WorkQueue := ⟨⟨w.queue, w.head, w.tail⟩, w.dropped % 2 ^ 64⟩

theorem Work.scheduleWork_workQueue {w w' : Work} {item : WorkItem} {ok : Bool}
    (h : w.scheduleWork item = some (w', ok)) : w.workQueue.scheduleWork item = (w'.workQueue, ok) := by
  unfold Work.scheduleWork at h
  unfold WorkQueue.scheduleWork
  split at h
  · rename_i hnull
    cases h
    rw [if_pos hnull]
  · rename_i hreal
    rw [if_neg hreal]
    dsimp only at h
    split at h
    · rename_i hfull
      cases h
      have hpush : w.workQueue.ring.push workQueueSize item = none := if_pos hfull
      rw [hpush]
      simp [workQueue]
    · rename_i hroom
      obtain ⟨s, -, hs⟩ := Option.bind_eq_some_iff.mp h
      cases hs
      have hpush : w.workQueue.ring.push workQueueSize item =
        some ⟨update w.queue w.tail item, w.head, (w.tail + 1) % workQueueSize⟩ := if_neg hroom
      rw [hpush]
      rfl

theorem Work.takeWork_workQueue {w w' : Work} {c : ℕ} (h : w.takeWork c = some w') :
    w.workQueue.takeWork = some (w.queue w.head, w'.workQueue) := by
  obtain ⟨self, -, h⟩ := Option.bind_eq_some_iff.mp h
  obtain ⟨hne, h⟩ := Option.ite_none_left_eq_some.mp h
  cases h
  have hpop : w.workQueue.ring.pop workQueueSize =
    some (w.queue w.head, ⟨w.queue, (w.head + 1) % workQueueSize, w.tail⟩) := if_neg hne
  rw [WorkQueue.takeWork, hpop]
  rfl

namespace Draining

/-- The queue, the items that each context is running, the innermost one first, and a record of the items that were
accepted, of those that were taken and by whom, and of the number that was refused. -/
structure State (κ : Type) where
  queue : WorkQueue
  runs : κ → List WorkItem
  accepted : List WorkItem
  taken : List (κ × WorkItem)
  refused : ℕ

inductive Action (κ : Type)
  | schedule (item : WorkItem)
  | take (c : κ)
  | finish (c : κ)

variable {κ : Type}

def start (cells : ℕ → WorkItem) : State κ where
  queue := ⟨⟨cells, 0, 0⟩, 0⟩
  runs _ := []
  accepted := []
  taken := []
  refused := 0

namespace State

variable (s : State κ)

def schedule (item : WorkItem) : State κ :=
  match s.queue.scheduleWork item with
  | (queue, true) => { s with queue := queue, accepted := s.accepted ++ [item] }
  | (queue, false) => { s with queue := queue, refused := s.refused + 1 }

variable [DecidableEq κ]

/-- A round of `work_run_pending`. The loop ends when nothing is pending. -/
def take (c : κ) : State κ :=
  match s.queue.takeWork with
  | none => s
  | some (item, queue) =>
    { s with queue := queue, taken := s.taken ++ [(c, item)], runs := update s.runs c (item :: s.runs c) }

def finish (c : κ) : State κ := { s with runs := update s.runs c (s.runs c).tail }

def step (s : State κ) : Action κ → Option (State κ)
  | .schedule item => some (s.schedule item)
  | .take c => some (s.take c)
  | .finish c => some (s.finish c)

end State

/-- Any number of contexts, each of which schedules work and drains the queue when it likes. -/
def system (κ : Type) [DecidableEq κ] : System (State κ) (Action κ) where
  init s := ∃ cells, s = start cells
  enabled _ a := ∀ item, a = .schedule item → item.function ≠ 0
  step := State.step

namespace State

variable {s s' : State κ}

/-- The items that were accepted are those that were taken and, after them, those that the ring holds. -/
structure Fifo (s : State κ) (pending : List WorkItem) : Prop where
  holds : s.queue.ring.Holds workQueueSize pending
  split : s.accepted = s.taken.map Prod.snd ++ pending
  dropped : s.queue.workDropped = s.refused % 2 ^ 64

variable {pending : List WorkItem} {item : WorkItem}

theorem Fifo.refuses_iff (h : Fifo s pending) (hreal : item.function ≠ 0) :
    (s.queue.scheduleWork item).2 = false ↔ pending.length = 63 := by
  have hfull := h.holds.push_eq_none_iff item
  rw [WorkQueue.scheduleWork, if_neg hreal]
  cases hpush : s.queue.ring.push workQueueSize item with
  | none =>
    rw [hpush] at hfull
    simpa [workQueueSize] using hfull
  | some ring =>
    rw [hpush] at hfull
    simpa [workQueueSize] using hfull

theorem Fifo.schedule (h : Fifo s pending) (hreal : item.function ≠ 0) :
    ∃ pending', Fifo (s.schedule item) pending' := by
  unfold State.schedule WorkQueue.scheduleWork
  rw [if_neg hreal]
  cases hpush : s.queue.ring.push workQueueSize item with
  | none =>
    refine ⟨pending, h.holds, h.split, ?_⟩
    have hdropped := h.dropped
    simp only [WorkQueue.workDropped] at hdropped ⊢
    rw [hdropped, Nat.mod_add_mod]
  | some ring =>
    refine ⟨pending ++ [item], h.holds.push hpush, ?_, h.dropped⟩
    rw [← append_assoc, ← h.split]

theorem Fifo.takeWork (h : Fifo s pending) : s.queue.takeWork.map Prod.fst = pending.head? := by
  cases pending with
  | nil =>
    rw [WorkQueue.takeWork, h.holds.pop_nil]
    rfl
  | cons item pending =>
    obtain ⟨ring, hpop, -⟩ := h.holds.pop_cons
    rw [WorkQueue.takeWork, hpop]
    rfl

theorem Fifo.take [DecidableEq κ] (h : Fifo s pending) (c : κ) : ∃ pending', Fifo (s.take c) pending' := by
  unfold State.take WorkQueue.takeWork
  cases pending with
  | nil =>
    rw [h.holds.pop_nil]
    exact ⟨[], h⟩
  | cons item pending =>
    obtain ⟨ring, hpop, hholds⟩ := h.holds.pop_cons
    rw [hpop]
    dsimp only [Option.map_some]
    refine ⟨pending, hholds, ?_, h.dropped⟩
    rw [map_append, append_assoc]
    exact h.split

end State

open State

variable [DecidableEq κ] {s s' : State κ}

theorem reached_holds (h : (system κ).Reached (fun _ _ ↦ True) s) : ∃ pending, Fifo s pending := by
  refine h.invariant (I := fun s ↦ ∃ pending, Fifo s pending) ?_ ?_
  · rintro s ⟨cells, rfl⟩
    exact ⟨[], Buffer.holds_nil (by decide) cells, rfl, rfl⟩
  · intro s s' a ⟨pending, hfifo⟩ hon _ hs
    cases a with
    | schedule item =>
      cases hs
      exact hfifo.schedule (hon item rfl)
    | take c =>
      cases hs
      exact hfifo.take c
    | finish c =>
      cases hs
      exact ⟨pending, hfifo.holds, hfifo.split, hfifo.dropped⟩

theorem accepted_later (h : ((system κ).goingOn s).Reached (fun _ _ ↦ True) s') : s.accepted <+: s'.accepted := by
  refine h.invariant (I := fun s' ↦ s.accepted <+: s'.accepted) ?_ ?_
  · rintro _ rfl
    exact prefix_rfl
  · intro t t' a ht _ _ hs
    cases a with
    | schedule item =>
      cases hs
      unfold State.schedule
      split
      · exact ht.trans (prefix_append _ _)
      · exact ht
    | take c =>
      cases hs
      unfold State.take
      split <;> exact ht
    | finish c =>
      cases hs
      exact ht

/-- In every run the items are taken in the order in which they were accepted, the next one is there to be taken, an item
is refused and counted when 63 are pending, and what is accepted now has been taken once as many items more have been
taken as are pending now. -/
theorem reached_fifo (h : (system κ).Reached (fun _ _ ↦ True) s) :
    ∃ pending, s.accepted = s.taken.map Prod.snd ++ pending ∧ s.queue.workPending = pending.length ∧
      (∀ item : WorkItem, item.function ≠ 0 → ((s.queue.scheduleWork item).2 = false ↔ pending.length = 63)) ∧
      s.queue.workDropped = s.refused % 2 ^ 64 ∧ s.queue.takeWork.map Prod.fst = pending.head? ∧
      ∀ s', ((system κ).goingOn s).Reached (fun _ _ ↦ True) s' →
        s.taken.length + s.queue.workPending ≤ s'.taken.length → s.accepted <+: s'.taken.map Prod.snd := by
  obtain ⟨pending, hfifo⟩ := reached_holds h
  have hcount := hfifo.holds.count_eq
  refine ⟨pending, hfifo.split, hcount, fun item ↦ hfifo.refuses_iff, hfifo.dropped, hfifo.takeWork, ?_⟩
  intro s' hlater htaken
  obtain ⟨pending', hfifo'⟩ := reached_holds (h.trans hlater)
  have htakenOf : s'.taken.map Prod.snd <+: s'.accepted := by
    rw [hfifo'.split]
    exact prefix_append _ _
  refine prefix_of_prefix_length_le (accepted_later hlater) htakenOf ?_
  rw [hfifo.split, length_append, length_map, length_map, ← hcount]
  exact htaken

/-- Two contexts drain, and the function of the first item schedules a third one. -/
theorem reached_fifo_three : ∃ s : State (Fin 2), (system (Fin 2)).Reached (fun _ _ ↦ True) s ∧
    s.accepted.length = 3 ∧ s.taken.map (fun t ↦ (t.1, t.2.function)) = [(0, 1), (1, 2)] ∧ s.queue.workPending = 1 := by
  let check (_ : State (Fin 2)) : Action (Fin 2) → Bool
    | .schedule item => item.function ≠ 0
    | _ => true
  have hcheck : ∀ s a, check s a = true → (system (Fin 2)).enabled s a ∧ True := by
    intro s a ha
    refine ⟨?_, trivial⟩
    rintro item rfl
    exact of_decide_eq_true ha
  have hstart : (system (Fin 2)).Reached (fun _ _ ↦ True) (start fun _ ↦ ⟨0, 0⟩) := .init ⟨_, rfl⟩
  obtain ⟨s, hs, haccepted, htaken⟩ := hstart.exists_of_replay hcheck
    (l := [.schedule ⟨1, 0⟩, .schedule ⟨2, 0⟩, .take 0, .schedule ⟨3, 0⟩, .take 1, .finish 0])
    (P := fun s ↦ s.accepted.length = 3 ∧ s.taken.map (fun t ↦ (t.1, t.2.function)) = [(0, 1), (1, 2)]) (by decide +kernel)
  refine ⟨s, hs, haccepted, htaken, ?_⟩
  obtain ⟨pending, hsplit, hcount, -⟩ := reached_fifo hs
  have hlen := congrArg List.length htaken
  rw [hsplit, length_append, length_map] at haccepted
  rw [length_map, length_cons, length_singleton] at hlen
  omega

end Draining

end Eris.Sched
