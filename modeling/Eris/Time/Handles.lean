import Eris.Time.Timers

namespace Eris.Time

open Library Timers Function

theorem Timers.timerCancel_put (t : Timers) (later handle : ℕ) :
    t.timerCancel later handle = t ∨ ∃ i, (t.timerCancel later handle).timers =
      (t.put i { t.timers i with active := false }).timers := by
  unfold timerCancel
  split
  · exact .inl rfl
  · exact .inr ⟨_, programNext_timers ..⟩

/-- The timers, with the number of the call that filled each slot. -/
structure Numbered where
  state : State
  born : Fin maxTimers → ℕ

namespace Numbered

def arms (n : Numbered) : ℕ := n.state.armedCount

/-- The numbers after a call of `arm`. -/
def filled (n : Numbered) (callback : ℕ) : Fin maxTimers → ℕ :=
  if callback = 0 then n.born
  else
    match n.state.table.findFree with
    | none => n.born
    | some i => update n.born i (n.arms + 1)

def bornAfter (n : Numbered) : Action → Fin maxTimers → ℕ
  | .after _ callback _ _ => n.filled callback
  | .every _ callback _ _ => n.filled callback
  | _ => n.born

def step (n : Numbered) (a : Action) : Option Numbered := do
  let state ← n.state.step a
  return ⟨state, n.bornAfter a⟩

def system : System Numbered Action := ⟨fun n ↦ n.state.Initial, fun n a ↦ n.state.Enabled a, step⟩

def Active (n : Numbered) (i : Fin maxTimers) : Prop := (n.state.table.timers i).active = true

def handle (n : Numbered) (i : Fin maxTimers) : ℕ := (n.state.table.timers i).handle

/-- The number of the next timer has a handle, and no timer that is still active got the same one some rounds of the
counter ago. -/
def Fresh (n : Numbered) : Prop :=
  ¬ 2 ^ 32 ∣ n.arms + 1 ∧ ∀ i, n.Active i → ¬ 2 ^ 32 ∣ n.arms + 1 - n.born i

def Careful (n : Numbered) : Action → Prop
  | .after _ callback _ _ => n.state.Accepts callback → n.Fresh
  | .every _ callback _ _ => n.state.Accepts callback → n.Fresh
  | _ => True

/-- A timer is put into a slot under the next number. -/
structure Fills (n n' : Numbered) (i : Fin maxTimers) : Prop where
  free : ¬ n.Active i
  active : n'.Active i
  handle : n'.handle i = n.state.table.nextHandle
  others : ∀ j ≠ i, n'.state.table.timers j = n.state.table.timers j
  born : n'.born = update n.born i (n.arms + 1)
  next : n'.state.table.nextHandle = (n.state.table.nextHandle + 1) % 2 ^ 32
  arms : n'.arms = n.arms + 1

/-- Nothing is put into a slot. -/
structure Keeps (n n' : Numbered) : Prop where
  active : ∀ i, n'.Active i → n.Active i ∧ n'.handle i = n.handle i
  born : n'.born = n.born
  next : n'.state.table.nextHandle = n.state.table.nextHandle
  arms : n'.arms = n.arms

variable {n n' : Numbered}

/-- The state after a call of `arm`. -/
def armed (n : Numbered) (now later delay period callback context : ℕ) : Numbered where
  state := n.state.armed (n.state.table.arm now later delay period callback context) delay period callback context later
  born := n.filled callback

theorem arms_armed (n : Numbered) (now later delay period callback context : ℕ) :
    (n.armed now later delay period callback context).arms =
      if n.state.Accepts callback then n.arms + 1 else n.arms := by
  unfold arms armed State.armedCount State.armed
  split
  · exact List.countP_cons_of_pos rfl
  · rfl

theorem filled_of_refused {callback : ℕ} (h : ¬ n.state.Accepts callback) : n.filled callback = n.born := by
  unfold filled
  split
  · rfl
  · rename_i hcallback
    cases hfree : n.state.table.findFree with
    | none => rfl
    | some i => exact absurd ⟨hcallback, by rw [hfree]; rfl⟩ h

theorem arm_cases (n : Numbered) (now later delay period callback context : ℕ) :
    (n.state.Accepts callback ∧ ∃ i, Fills n (n.armed now later delay period callback context) i) ∨
      ¬ n.state.Accepts callback ∧ Keeps n (n.armed now later delay period callback context) := by
  have harms := n.arms_armed now later delay period callback context
  obtain ⟨hrefused, htable⟩ | ⟨haccepts, i, hfree, htable⟩ :=
    n.state.table.arm_cases now later delay period callback context
  · refine .inr ⟨hrefused, ?_, filled_of_refused hrefused, ?_, harms.trans (if_neg hrefused)⟩
    · simp only [Active, handle, armed, State.armed, htable]
      exact fun i hi ↦ ⟨hi, trivial⟩
    · simp only [armed, State.armed, htable]
  · have htimers : (n.armed now later delay period callback context).state.table.timers = update n.state.table.timers i
        ⟨(now + delay) % 2 ^ 64, period, callback, context, n.state.table.nextHandle, true⟩ := by
      simp only [armed, State.armed, htable, programNext_timers]
      rfl
    refine .inl ⟨haccepts, i, ?_, ?_, ?_, ?_, ?_, ?_, harms.trans (if_pos haccepts)⟩
    · rw [Active, findFree_eq_some hfree]
      exact Bool.false_ne_true
    · rw [Active, htimers, update_self]
    · rw [handle, htimers, update_self]
    · intro j hj
      rw [htimers, update_of_ne hj]
    · simp only [armed, filled, if_neg haccepts.1, hfree]
    · simp only [armed, State.armed, htable, programNext_nextHandle]

theorem cancel_keeps (n : Numbered) (h later : ℕ) : Keeps n ⟨n.state.cancel h later, n.born⟩ := by
  refine ⟨?_, rfl, timerCancel_nextHandle later, rfl⟩
  intro i hi
  unfold Active handle at *
  dsimp only [State.cancel] at hi ⊢
  obtain htable | ⟨j, htimers⟩ := n.state.table.timerCancel_put later h
  · rw [htable] at hi ⊢
    exact ⟨hi, rfl⟩
  · simp only [htimers, Timers.put, update_apply] at hi ⊢
    grind

theorem visit_keeps (n : Numbered) (p : Pass) (i : Fin maxTimers) : Keeps n ⟨n.state.visit p i, n.born⟩ := by
  obtain ⟨hskip, -⟩ | ⟨hactive, -, timer, hfire, hhandle, -⟩ := n.state.table.visit_cases p.now i
  · rw [State.visit, hskip]
    exact ⟨fun j hj ↦ ⟨hj, rfl⟩, rfl, rfl, rfl⟩
  · rw [State.visit, hfire]
    refine ⟨?_, rfl, rfl, rfl⟩
    intro j hj
    simp only [Active, handle, Timers.put, update_apply] at hj ⊢
    grind

def Arms : Action → Option ℕ
  | .after _ callback _ _ => some callback
  | .every _ callback _ _ => some callback
  | _ => none

theorem step_cases {a : Action} (hs : n.step a = some n') :
    (∃ callback ∈ Arms a, n.state.Accepts callback ∧ ∃ i, Fills n n' i) ∨ Keeps n n' := by
  obtain ⟨state, hstate, hn'⟩ := Option.bind_eq_some_iff.mp hs
  cases hn'
  cases a with
  | tick clock =>
    cases hstate
    exact .inr ⟨fun i hi ↦ ⟨hi, rfl⟩, rfl, rfl, rfl⟩
  | after delay callback context later =>
    cases hstate
    obtain ⟨haccepts, hfills⟩ | ⟨-, hkeeps⟩ := n.arm_cases n.state.clock later delay 0 callback context
    · exact .inl ⟨callback, rfl, haccepts, hfills⟩
    · exact .inr hkeeps
  | every period callback context later =>
    cases hstate
    obtain ⟨haccepts, hfills⟩ | ⟨-, hkeeps⟩ := n.arm_cases n.state.clock later period period callback context
    · exact .inl ⟨callback, rfl, haccepts, hfills⟩
    · exact .inr hkeeps
  | cancel h later =>
    cases hstate
    exact .inr (n.cancel_keeps h later)
  | begin =>
    cases hstate
    exact .inr ⟨fun i hi ↦ ⟨hi, rfl⟩, rfl, rfl, rfl⟩
  | visit =>
    obtain ⟨p, hp, hstate⟩ := Option.bind_eq_some_iff.mp hstate
    split at hstate
    · cases hstate
      exact .inr (n.visit_keeps p _)
    · cases hstate
  | «return» =>
    obtain ⟨p, hp, hstate⟩ := Option.bind_eq_some_iff.mp hstate
    cases hstate
    exact .inr ⟨fun i hi ↦ ⟨hi, rfl⟩, rfl, rfl, rfl⟩
  | finish later =>
    cases hstate
    refine .inr ⟨fun i hi ↦ ?_, rfl, programNext_nextHandle .., rfl⟩
    unfold Active handle at *
    rw [programNext_timers] at hi ⊢
    exact ⟨hi, rfl⟩

/-- The handles are the numbers, as far as they fit. -/
structure Counted (n : Numbered) : Prop where
  next : n.state.table.nextHandle = (n.arms + 1) % 2 ^ 32
  handles : ∀ i, n.Active i → n.handle i = n.born i % 2 ^ 32 ∧ n.born i ≤ n.arms

theorem Counted.of_fills {i : Fin maxTimers} (h : Counted n) (hfills : Fills n n' i) : Counted n' := by
  refine ⟨?_, ?_⟩
  · rw [hfills.next, hfills.arms, h.next]
    omega
  · intro j hj
    rw [hfills.born, hfills.arms, update_apply]
    split
    · rename_i hji
      rw [hji, hfills.handle, h.next]
      exact ⟨rfl, le_rfl⟩
    · rename_i hji
      unfold Active handle at *
      rw [hfills.others j hji] at hj ⊢
      exact (h.handles j hj).imp_right Nat.le_succ_of_le

theorem Counted.of_keeps (h : Counted n) (hkeeps : Keeps n n') : Counted n' := by
  refine ⟨?_, ?_⟩
  · rw [hkeeps.next, hkeeps.arms, h.next]
  · intro i hi
    obtain ⟨hactive, hhandle⟩ := hkeeps.active i hi
    rw [hkeeps.born, hkeeps.arms, hhandle]
    exact h.handles i hactive

theorem counted_of_initial (h : n.state.Initial) : Counted n := by
  obtain ⟨hempty, hnext, -, -, hlog⟩ := h
  refine ⟨?_, ?_⟩
  · rw [hnext, arms, State.armedCount, hlog]
    rfl
  · intro i hi
    rw [Active, hempty i] at hi
    cases hi

theorem reached_counted {allowed : Numbered → Action → Prop} (h : system.Reached allowed n) : Counted n := by
  refine h.invariant (fun _ ↦ counted_of_initial) ?_
  intro n n' a hn _ _ hs
  obtain ⟨_, _, _, i, hfills⟩ | hkeeps := step_cases hs
  · exact hn.of_fills hfills
  · exact hn.of_keeps hkeeps

theorem Counted.fresh_iff (h : Counted n) : (n.state.table.nextHandle ≠ invalidTimer ∧
    ∀ i, n.Active i → n.state.table.nextHandle ≠ n.handle i) ↔ n.Fresh := by
  rw [h.next, Fresh]
  refine and_congr ?_ (forall_congr' fun i ↦ forall_congr' fun hi ↦ ?_)
  · rw [Nat.dvd_iff_mod_eq_zero, invalidTimer]
  · obtain ⟨hhandle, hle⟩ := h.handles i hi
    rw [hhandle]
    omega

def Apart (n : Numbered) : Prop := ∀ i j, n.Active i → n.Active j → n.handle i = n.handle j → i = j

theorem Apart.of_keeps (h : Apart n) (hkeeps : Keeps n n') : Apart n' := by
  intro i j hi hj hij
  obtain ⟨hi, hhi⟩ := hkeeps.active i hi
  obtain ⟨hj, hhj⟩ := hkeeps.active j hj
  exact h i j hi hj (hhi.symm.trans (hij.trans hhj))

theorem Apart.of_fills {i : Fin maxTimers} (h : Apart n) (hfills : Fills n n' i)
    (hnew : ∀ j, n.Active j → n.state.table.nextHandle ≠ n.handle j) : Apart n' := by
  have ⟨_, _, hhandle, hothers, _, _, _⟩ := hfills
  unfold Apart Active handle at *
  grind

theorem Careful.fresh {a : Action} {callback : ℕ} (h : n.Careful a) (ha : callback ∈ Arms a)
    (haccepts : n.state.Accepts callback) : n.Fresh := by
  cases a with
  | after delay callback context later =>
    cases ha
    exact h haccepts
  | every period callback context later =>
    cases ha
    exact h haccepts
  | _ => cases ha

theorem apart_of_reached (h : system.Reached Careful n) : Apart n := by
  have hboth : Counted n ∧ Apart n := by
    refine h.invariant (I := fun n ↦ Counted n ∧ Apart n) ?_ ?_
    · intro n hn
      refine ⟨counted_of_initial hn, fun i _ hi ↦ ?_⟩
      rw [Active, hn.1 i] at hi
      cases hi
    · intro n n' a ⟨hcounted, hapart⟩ _ hcareful hs
      obtain ⟨callback, ha, haccepts, i, hfills⟩ | hkeeps := step_cases hs
      · have hnew := hcounted.fresh_iff.mpr (hcareful.fresh ha haccepts)
        exact ⟨hcounted.of_fills hfills, hapart.of_fills hfills hnew.2⟩
      · exact ⟨hcounted.of_keeps hkeeps, hapart.of_keeps hkeeps⟩
  exact hboth.2

theorem arm_handle (n : Numbered) (now later delay period callback context : ℕ) :
    (n.state.table.arm now later delay period callback context).1 =
      if n.state.Accepts callback then n.state.table.nextHandle else invalidTimer := by
  obtain ⟨hrefused, htable⟩ | ⟨haccepts, i, -, htable⟩ := n.state.table.arm_cases now later delay period callback context
  · rw [htable, if_neg (c := n.state.Accepts callback) hrefused]
  · rw [htable, if_pos (c := n.state.Accepts callback) haccepts]

/-- In every run in which only fresh numbers are given away a timer gets a handle of its own, failure is told from
success, and the handle of a number cancels that timer only, as long as no other active timer shares it. -/
theorem handles_distinct (h : system.Reached Careful n) :
    (∀ now later delay period callback context,
      (n.state.Accepts callback → (n.state.table.arm now later delay period callback context).1 = (n.arms + 1) % 2 ^ 32 ∧
        (((n.state.table.arm now later delay period callback context).1 ≠ invalidTimer ∧ ∀ i, n.Active i →
          (n.state.table.arm now later delay period callback context).1 ≠ n.handle i) ↔ n.Fresh)) ∧
      (¬ n.state.Accepts callback → (n.state.table.arm now later delay period callback context).1 = invalidTimer)) ∧
    ∀ later number, (∀ i, n.Active i → ((n.state.table.timerCancel later (number % 2 ^ 32)).timers i).active = false →
        n.born i = number) ↔ ∀ i, n.Active i → n.born i % 2 ^ 32 = number % 2 ^ 32 → n.born i = number := by
  have hcounted := reached_counted h
  refine ⟨fun now later delay period callback context ↦ ⟨fun haccepts ↦ ?_, fun hrefused ↦ ?_⟩, fun later number ↦ ?_⟩
  · rw [arm_handle, if_pos haccepts]
    exact ⟨hcounted.next, hcounted.fresh_iff⟩
  · rw [arm_handle, if_neg hrefused]
  · refine forall_congr' fun i ↦ forall_congr' fun hi ↦ imp_congr_left ?_
    rw [timerCancel_timers later (apart_of_reached h), ← (hcounted.handles i hi).1]
    constructor
    · intro hoff
      by_contra hne
      rw [if_neg fun hsame ↦ hne hsame.2, hi] at hoff
      cases hoff
    · intro hsame
      rw [if_pos ⟨hi, hsame⟩]

def start : Numbered := ⟨⟨⟨fun _ ↦ {}, 1, true, none⟩, 0, none, []⟩, fun _ ↦ 0⟩

theorem initial_start : start.state.Initial := ⟨fun _ ↦ rfl, rfl, by decide, rfl, rfl⟩

theorem handles_distinct_start : (start.state.table.arm 0 0 5 0 100 0).1 = 1 ∧
    (start.state.table.arm 0 0 5 0 100 0).1 ≠ invalidTimer := by
  obtain ⟨hhandle, hfresh⟩ := ((handles_distinct (.init initial_start)).1 0 0 5 0 100 0).1 ⟨by decide, by decide⟩
  refine ⟨hhandle, (hfresh.mpr ⟨by decide, fun i hi ↦ ?_⟩).1⟩
  cases hi

def ticksSlot : Fin maxTimers := ⟨0, by decide⟩

/-- The timer of the clock ticks is armed, and no other one is, after so many timers. -/
structure Lapped (n : Numbered) (count : ℕ) : Prop where
  reached : system.Reached (fun _ _ ↦ True) n
  ticks : n.Active ticksSlot ∧ n.handle ticksSlot = 1
  others : ∀ i ≠ ticksSlot, ¬ n.Active i
  pass : n.state.pass = none
  clock : n.state.clock = 0
  arms : n.arms = count

instance (n : Numbered) : DecidablePred n.Active := fun _ ↦ inferInstanceAs (Decidable (_ = true))

theorem exists_lapped_one : ∃ n, Lapped n 1 := by
  have hstep : start.step (.every 10 100 0 0) = some (start.armed 0 0 10 10 100 0) := rfl
  have hon : start.state.Enabled (.every 10 100 0 0) := by decide
  exact ⟨_, .step (.every 10 100 0 0) (.init initial_start) hon trivial hstep, by decide +kernel, by decide +kernel,
    rfl, rfl, rfl⟩

namespace Lapped

variable {count : ℕ}

theorem accepts (h : Lapped n count) : n.state.Accepts 100 := by
  refine ⟨by decide, ?_⟩
  apply List.find?_isSome.mpr
  have hfree := h.others ⟨1, by decide⟩ (by decide)
  exact ⟨⟨1, by decide⟩, List.mem_finRange _, by simpa [Active] using hfree⟩

theorem apart (h : Lapped n count) : Apart n := by
  have honly : ∀ i, n.Active i → i = ticksSlot := fun i hi ↦ by_contra fun hne ↦ h.others i hne hi
  intro i j hi hj _
  rw [honly i hi, honly j hj]

theorem handle_ne (h : Lapped n count) (hpos : 0 < count) (hlt : count < 2 ^ 32) (i : Fin maxTimers) (hi : n.Active i) :
    n.state.table.nextHandle ≠ n.handle i := by
  have hticks := by_contra fun hne ↦ h.others i hne hi
  rw [(reached_counted h.reached).next, h.arms, hticks, h.ticks.2]
  omega

theorem next (h : Lapped n count) (hpos : 0 < count) (hlt : count < 2 ^ 32) : ∃ n', Lapped n' (count + 1) := by
  have hlater : n.state.Later 0 := ⟨h.clock.le, by decide⟩
  have houtside : n.state.Outside := by
    intro p hp
    rw [h.pass] at hp
    cases hp
  have hnew := h.handle_ne hpos hlt
  obtain ⟨-, i, hfills⟩ | ⟨hrefused, -⟩ := n.arm_cases n.state.clock 0 5 0 100 0
  · have harmed : system.Reached (fun _ _ ↦ True) (n.armed n.state.clock 0 5 0 100 0) :=
      .step (.after 5 100 0 0) h.reached ⟨houtside, hlater⟩ trivial rfl
    have hapart := h.apart.of_fills hfills hnew
    generalize hn₁ : n.armed n.state.clock 0 5 0 100 0 = n₁ at harmed hfills hapart
    have hstate : n₁.state.pass = none ∧ n₁.state.clock = 0 := by
      rw [← hn₁]
      exact ⟨h.pass, rfl⟩
    have hi : i ≠ ticksSlot := fun hi ↦ hfills.free (hi ▸ h.ticks.1)
    have hticks := hfills.others _ hi.symm
    have hcancel : ∀ j, (n₁.state.table.timerCancel 0 n.state.table.nextHandle).timers j =
        if n₁.Active j ∧ n₁.handle j = n.state.table.nextHandle then { n₁.state.table.timers j with active := false }
        else n₁.state.table.timers j := fun j ↦ timerCancel_timers 0 hapart
    have hkept : (n₁.state.table.timerCancel 0 n.state.table.nextHandle).timers ticksSlot =
        n.state.table.timers ticksSlot := by
      rw [hcancel, if_neg, hticks]
      intro ⟨_, hsame⟩
      rw [handle, hticks] at hsame
      exact hnew _ h.ticks.1 hsame.symm
    refine ⟨⟨n₁.state.cancel n.state.table.nextHandle 0, n₁.born⟩,
      .step (.cancel n.state.table.nextHandle 0) harmed ⟨?_, hstate.2.le, by decide⟩ trivial rfl, ?_, ?_, hstate.1, rfl, ?_⟩
    · intro p hp
      rw [hstate.1] at hp
      cases hp
    · exact ⟨(congrArg Timer.active hkept).trans h.ticks.1, (congrArg Timer.handle hkept).trans h.ticks.2⟩
    · intro j hj hactive
      have hactive : ((n₁.state.table.timerCancel 0 n.state.table.nextHandle).timers j).active = true := hactive
      rw [hcancel] at hactive
      by_cases hji : j = i
      · subst hji
        rw [if_pos ⟨hfills.active, hfills.handle⟩] at hactive
        cases hactive
      · have hother := hfills.others j hji
        have hidle : ¬ n₁.Active j := by
          rw [Active, hother]
          exact h.others j hj
        rw [if_neg fun hsame ↦ hidle hsame.1] at hactive
        exact hidle hactive
    · exact hfills.arms.trans (congrArg (· + 1) h.arms)
  · exact absurd h.accepts hrefused

end Lapped

theorem exists_lapped {count : ℕ} (hle : count < 2 ^ 32) : ∃ n, Lapped n (count + 1) := by
  induction count with
  | zero => exact exists_lapped_one
  | succ count ih =>
    obtain ⟨n, hn⟩ := ih (by omega)
    exact hn.next (Nat.succ_pos _) hle

/-- After as many timers as there are handles one is armed successfully with the handle for failure, and the next one
with the handle of the clock ticks. -/
theorem handles_repeat :
    (∃ n, system.Reached (fun _ _ ↦ True) n ∧ n.state.Accepts 100 ∧
      (n.state.table.arm 0 0 5 0 100 0).1 = invalidTimer) ∧
    ∃ n, system.Reached (fun _ _ ↦ True) n ∧ n.state.Accepts 100 ∧ n.Active ticksSlot ∧
      (n.state.table.arm 0 0 5 0 100 0).1 = n.handle ticksSlot := by
  constructor
  · obtain ⟨n, hn⟩ := exists_lapped (show 2 ^ 32 - 2 < 2 ^ 32 by decide)
    refine ⟨n, hn.reached, hn.accepts, ?_⟩
    rw [arm_handle, if_pos hn.accepts, (reached_counted hn.reached).next, hn.arms]
    rfl
  · obtain ⟨n, hn⟩ := exists_lapped (show 2 ^ 32 - 1 < 2 ^ 32 by decide)
    refine ⟨n, hn.reached, hn.accepts, hn.ticks.1, ?_⟩
    rw [arm_handle, if_pos hn.accepts, (reached_counted hn.reached).next, hn.arms]
    exact hn.ticks.2.symm

end Numbered

end Eris.Time
