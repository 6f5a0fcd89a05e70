import Eris.Time.Timers

namespace Eris.Time.Timers

open List

def Due (t : Timers) (now : ℕ) (i : Fin maxTimers) : Prop :=
  (t.timers i).active = true ∧ (t.timers i).deadline ≤ now

instance (t : Timers) (now : ℕ) : DecidablePred (t.Due now) := fun _ ↦ inferInstanceAs (Decidable (_ ∧ _))

section

variable {σ : Type} (callbacks : ℕ → ℕ → σ × Timers → σ × Timers)

/-- The loop of `timers_run`, with the timers that are called. A callback gets its context, and may change the table
and the rest of the system. -/
def runSlots (now : ℕ) : List (Fin maxTimers) → σ × Timers → List Timer × (σ × Timers)
  | [], w => ([], w)
  | i :: slots, (world, t) =>
    match t.visit now i with
    | (none, t) => runSlots now slots (world, t)
    | (some timer, t) =>
      let (called, w) := runSlots now slots (callbacks timer.callback timer.context (world, t))
      (timer :: called, w)

def timersRun (clock : σ → ℕ) (w : σ × Timers) : List Timer × (σ × Timers) :=
  let (called, world, t) := runSlots callbacks (clock w.1) (List.finRange maxTimers) w
  (called, world, t.programNext (clock world))

def LeavesDue (now : ℕ) : Prop := ∀ callback context world t i,
  ((callbacks callback context (world, t)).2.Due now i ↔ t.Due now i) ∧
    (t.Due now i → ((callbacks callback context (world, t)).2.timers i).deadline = (t.timers i).deadline)

end

variable {t t' : Timers} {now : ℕ}

def dueDeadlines (t : Timers) (now : ℕ) (slots : List (Fin maxTimers)) : List ℕ :=
  (slots.filter fun i ↦ t.Due now i).map fun i ↦ (t.timers i).deadline

theorem dueDeadlines_congr {slots : List (Fin maxTimers)}
    (h : ∀ i ∈ slots, (t'.Due now i ↔ t.Due now i) ∧ (t.Due now i → (t'.timers i).deadline = (t.timers i).deadline)) :
    t'.dueDeadlines now slots = t.dueDeadlines now slots := by
  have hfilter : (slots.filter fun i ↦ t'.Due now i) = slots.filter fun i ↦ t.Due now i :=
    filter_congr fun i hi ↦ decide_eq_decide.mpr (h i hi).1
  rw [dueDeadlines, dueDeadlines, hfilter]
  apply map_congr_left
  intro i hi
  obtain ⟨hmem, hdue⟩ := mem_filter.mp hi
  exact (h i hmem).2 (of_decide_eq_true hdue)

theorem runSlots_deadlines {σ : Type} {callbacks : ℕ → ℕ → σ × Timers → σ × Timers} (hleaves : LeavesDue callbacks now)
    {slots : List (Fin maxTimers)} (hnodup : slots.Nodup) (w : σ × Timers) :
    (runSlots callbacks now slots w).1.map Timer.deadline = w.2.dueDeadlines now slots := by
  induction slots generalizing w with
  | nil => rfl
  | cons i slots ih =>
    obtain ⟨world, t⟩ := w
    obtain ⟨hi, hslots⟩ := nodup_cons.mp hnodup
    obtain ⟨hskip, hnot⟩ | ⟨hactive, hdue, timer, hfire, -⟩ := t.visit_cases now i
    · rw [runSlots, hskip, dueDeadlines, filter_cons_of_neg (by exact fun h ↦ hnot (of_decide_eq_true h))]
      exact ih hslots (world, t)
    · have hcons : t.dueDeadlines now (i :: slots) = (t.timers i).deadline :: t.dueDeadlines now slots := by
        rw [dueDeadlines, filter_cons_of_pos (by exact decide_eq_true ⟨hactive, hdue⟩), map_cons]
        rfl
      rw [runSlots, hfire, hcons]
      rw [map_cons, ih hslots]
      congr 1
      calc (callbacks (t.timers i).callback (t.timers i).context (world, t.put i timer)).2.dueDeadlines now slots
          = (t.put i timer).dueDeadlines now slots := dueDeadlines_congr fun j _ ↦ hleaves _ _ _ _ j
        _ = t.dueDeadlines now slots := by
          apply dueDeadlines_congr
          intro j hj
          have hji : j ≠ i := fun h ↦ hi (h ▸ hj)
          rw [Due, put_timers_ne hji]
          exact ⟨Iff.rfl, fun _ ↦ rfl⟩

theorem timersRun_called {σ : Type} (callbacks : ℕ → ℕ → σ × Timers → σ × Timers) (clock : σ → ℕ) (w : σ × Timers) :
    (timersRun callbacks clock w).1 = (runSlots callbacks (clock w.1) (List.finRange maxTimers) w).1 := by
  rw [timersRun]

theorem arm_leaves {clock later delay : ℕ} (hlater : now < (clock + delay) % 2 ^ 64) (period callback context : ℕ)
    (i : Fin maxTimers) :
    ((t.arm clock later delay period callback context).2.Due now i ↔ t.Due now i) ∧
      (t.Due now i → ((t.arm clock later delay period callback context).2.timers i).deadline = (t.timers i).deadline) := by
  obtain ⟨-, htable⟩ | ⟨-, j, hfree, htable⟩ := t.arm_cases clock later delay period callback context
  · rw [htable]
    exact ⟨Iff.rfl, fun _ ↦ rfl⟩
  · have hfree := findFree_eq_some hfree
    simp only [Due, htable, programNext_timers, put, Function.update_apply]
    grind

/-- A table that has been filled by some calls of `timer_after` at time zero. -/
def afterDelays (delays : List ℕ) : Timers :=
  delays.foldl (fun t delay ↦ (t.timerAfter 0 0 delay 100 0).2) ⟨fun _ ↦ {}, 1, true, none⟩

end Eris.Time.Timers
