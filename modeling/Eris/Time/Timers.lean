import Eris.Library.Alarms
import Eris.Library.Transition

namespace Eris.Time

open Library Library.Alarms List Function

def maxTimers : ℕ := 64

def minimumDelayNs : ℕ := 100000

def invalidTimer : ℕ := 0

structure Timer where
  deadline : ℕ := 0
  period : ℕ := 0
  callback : ℕ := 0
  context : ℕ := 0
  handle : ℕ := 0
  active : Bool := false

/-- What the local timer was told last. -/
inductive LapicTimer
  | stop
  | oneshot (delay : ℕ)
  deriving DecidableEq

structure Timers where
  timers : Fin maxTimers → Timer
  nextHandle : ℕ
  lapicDriven : Bool
  lapic : Option LapicTimer

namespace Timers

def findFree (t : Timers) : Option (Fin maxTimers) :=
  (List.finRange maxTimers).find? fun i ↦ !(t.timers i).active

def earliest (t : Timers) : Option ℕ :=
  (List.finRange maxTimers).foldl (fun found i ↦
    if (t.timers i).active then
      match found with
      | none => some (t.timers i).deadline
      | some deadline => some (if (t.timers i).deadline < deadline then (t.timers i).deadline else deadline)
    else found) none

def programNext (t : Timers) (now : ℕ) : Timers :=
  if t.lapicDriven then
    match t.earliest with
    | none => { t with lapic := some .stop }
    | some deadline =>
      let delay := if now < deadline then deadline - now else minimumDelayNs
      { t with lapic := some (.oneshot (if delay < minimumDelayNs then minimumDelayNs else delay)) }
  else t

def put (t : Timers) (i : Fin maxTimers) (timer : Timer) : Timers :=
  { t with timers := update t.timers i timer }

def arm (t : Timers) (now later delay period callback context : ℕ) : ℕ × Timers :=
  if callback = 0 then (invalidTimer, t)
  else
    match t.findFree with
    | none => (invalidTimer, t)
    | some i =>
      let timer := ⟨(now + delay) % 2 ^ 64, period, callback, context, t.nextHandle, true⟩
      (t.nextHandle, ({ t.put i timer with nextHandle := (t.nextHandle + 1) % 2 ^ 32 } : Timers).programNext later)

def timerAfter (t : Timers) (now later delay callback context : ℕ) : ℕ × Timers :=
  t.arm now later delay 0 callback context

def timerEvery (t : Timers) (now later period callback context : ℕ) : ℕ × Timers :=
  t.arm now later period period callback context

def timerCancel (t : Timers) (later handle : ℕ) : Timers :=
  match (List.finRange maxTimers).find? fun i ↦ (t.timers i).active && (t.timers i).handle = handle with
  | none => t
  | some i => (t.put i { t.timers i with active := false }).programNext later

/-- One round of the loop of `timers_run`, up to the call of the callback. -/
def visit (t : Timers) (now : ℕ) (i : Fin maxTimers) : Option Timer × Timers :=
  let timer := t.timers i
  if !timer.active || now < timer.deadline then (none, t)
  else if timer.period ≠ 0 then (some timer, t.put i { timer with deadline := (now + timer.period) % 2 ^ 64 })
  else (some timer, t.put i { timer with active := false })

end Timers

/-- A pass of `timers_run`: its time, the next slot to look at, and whether a callback is running. -/
structure Pass where
  now : ℕ
  next : ℕ
  calling : Bool
  deriving DecidableEq

/-- One CPU. What has been done is written down by the handles of the timers; the latest event comes first. -/
structure State where
  table : Timers
  clock : ℕ
  pass : Option Pass
  log : List (Event ℕ (ℕ × ℕ))

inductive Action
  | tick (clock : ℕ)
  | after (delay callback context later : ℕ)
  | every (period callback context later : ℕ)
  | cancel (handle later : ℕ)
  | begin
  | visit
  | return
  | finish (later : ℕ)

namespace State

/-- Whether `arm` finds a place for the timer. -/
def Accepts (s : State) (callback : ℕ) : Prop := callback ≠ 0 ∧ s.table.findFree.isSome

instance (s : State) (callback : ℕ) : Decidable (s.Accepts callback) := inferInstanceAs (Decidable (_ ∧ _))

def armed (s : State) (result : ℕ × Timers) (delay period callback context later : ℕ) : State where
  table := result.2
  clock := later
  pass := s.pass
  log :=
    if s.Accepts callback then .armed result.1 ⟨s.clock + delay, period, callback, context⟩ :: s.log
    else s.log

def cancel (s : State) (handle later : ℕ) : State where
  table := s.table.timerCancel later handle
  clock := later
  pass := s.pass
  log := .cancelled handle :: s.log

def visit (s : State) (p : Pass) (i : Fin maxTimers) : State :=
  match s.table.visit p.now i with
  | (none, table) => { s with table, pass := some { p with next := i + 1 } }
  | (some timer, table) =>
    { s with
      table
      pass := some ⟨p.now, i + 1, true⟩
      log := .called timer.handle (timer.callback, timer.context) p.now :: s.log }

def step (s : State) : Action → Option State
  | .tick clock => some { s with clock }
  | .after delay callback context later =>
    some (s.armed (s.table.timerAfter s.clock later delay callback context) delay 0 callback context later)
  | .every period callback context later =>
    some (s.armed (s.table.timerEvery s.clock later period callback context) period period callback context later)
  | .cancel handle later => some (s.cancel handle later)
  | .begin => some { s with pass := some ⟨s.clock, 0, false⟩, log := .began s.clock :: s.log }
  | .visit => do
    let p ← s.pass
    if h : p.next < maxTimers then return s.visit p ⟨p.next, h⟩ else none
  | .return => do
    let p ← s.pass
    return { s with pass := some { p with calling := false } }
  | .finish later =>
    some { s with table := s.table.programNext later, clock := later, pass := none, log := .ended :: s.log }

def Later (s : State) (clock : ℕ) : Prop := s.clock ≤ clock ∧ clock < 2 ^ 64

instance (s : State) (clock : ℕ) : Decidable (s.Later clock) := inferInstanceAs (Decidable (_ ∧ _))

def Outside (s : State) : Prop := ∀ p ∈ s.pass, p.calling = true

instance (s : State) : Decidable s.Outside := inferInstanceAs (Decidable (∀ p ∈ s.pass, _))

def Enabled (s : State) : Action → Prop
  | .tick clock => s.Later clock
  | .after _ _ _ later => s.Outside ∧ s.Later later
  | .every _ _ _ later => s.Outside ∧ s.Later later
  | .cancel _ later => s.Outside ∧ s.Later later
  | .begin => s.pass = none
  | .visit => ∃ p ∈ s.pass, p.calling = false
  | .return => ∃ p ∈ s.pass, p.calling = true
  | .finish later => (∃ p ∈ s.pass, p.calling = false ∧ maxTimers ≤ p.next) ∧ s.Later later

def armedCount (s : State) : ℕ :=
  s.log.countP fun
    | .armed _ _ => true
    | _ => false

def Bounded (s : State) : Action → Prop
  | .after delay callback _ _ => s.Accepts callback → s.armedCount + 1 < 2 ^ 32 - 1 ∧ s.clock + delay < 2 ^ 64
  | .every period callback _ _ => 0 < period ∧
    (s.Accepts callback → s.armedCount + 1 < 2 ^ 32 - 1 ∧ s.clock + period < 2 ^ 64)
  | .visit => ∀ p ∈ s.pass, ∀ h : p.next < maxTimers, (s.table.timers ⟨p.next, h⟩).active = true →
    (s.table.timers ⟨p.next, h⟩).deadline ≤ p.now → p.now + (s.table.timers ⟨p.next, h⟩).period < 2 ^ 64
  | _ => True

def Initial (s : State) : Prop :=
  (∀ i, s.table.timers i = {}) ∧ s.table.nextHandle = 1 ∧ s.clock < 2 ^ 64 ∧ s.pass = none ∧ s.log = []

end State

def system : System State Action := ⟨State.Initial, State.Enabled, State.step⟩

namespace Timers

variable (t : Timers) (i j : Fin maxTimers) (now later : ℕ)

@[simp]
theorem programNext_timers : (t.programNext now).timers = t.timers := by
  unfold programNext
  split
  · split <;> rfl
  · rfl

@[simp]
theorem programNext_nextHandle : (t.programNext now).nextHandle = t.nextHandle := by
  unfold programNext
  split
  · split <;> rfl
  · rfl

variable {t i j}

@[simp]
theorem put_timers_self {timer : Timer} : (t.put i timer).timers i = timer := update_self ..

theorem put_timers_ne {timer : Timer} (h : j ≠ i) : (t.put i timer).timers j = t.timers j := update_of_ne h ..

theorem findFree_eq_some (h : t.findFree = some i) : (t.timers i).active = false := by
  simpa using find?_some h

theorem arm_cases (delay period callback context : ℕ) :
    (¬ (callback ≠ 0 ∧ t.findFree.isSome) ∧ t.arm now later delay period callback context = (invalidTimer, t)) ∨
    (callback ≠ 0 ∧ t.findFree.isSome) ∧ ∃ i, t.findFree = some i ∧
      t.arm now later delay period callback context = (t.nextHandle,
        ({ t.put i ⟨(now + delay) % 2 ^ 64, period, callback, context, t.nextHandle, true⟩ with
          nextHandle := (t.nextHandle + 1) % 2 ^ 32 } : Timers).programNext later) := by
  unfold arm
  split
  · exact .inl ⟨fun h ↦ h.1 ‹_›, rfl⟩
  · rename_i hcallback
    cases hfree : t.findFree with
    | none => exact .inl ⟨by simp, rfl⟩
    | some i => exact .inr ⟨⟨hcallback, rfl⟩, i, rfl, rfl⟩

theorem timerCancel_timers {handle : ℕ}
    (hapart : ∀ i j, (t.timers i).active = true → (t.timers j).active = true →
      (t.timers i).handle = (t.timers j).handle → i = j) :
    (t.timerCancel later handle).timers j =
      if (t.timers j).active = true ∧ (t.timers j).handle = handle then { t.timers j with active := false }
      else t.timers j := by
  unfold timerCancel
  cases hfind : (List.finRange maxTimers).find? fun i ↦ (t.timers i).active && (t.timers i).handle = handle with
  | none =>
    have hnone := find?_eq_none.mp hfind j (mem_finRange j)
    rw [if_neg (by simpa using hnone)]
  | some i =>
    have hi : (t.timers i).active = true ∧ (t.timers i).handle = handle := by simpa using find?_some hfind
    rw [programNext_timers]
    by_cases hj : j = i
    · subst hj
      rw [put_timers_self, if_pos hi]
    · rw [put_timers_ne hj, if_neg]
      exact fun h ↦ hj (hapart j i h.1 hi.1 (h.2.trans hi.2.symm))

@[simp]
theorem timerCancel_nextHandle {handle : ℕ} : (t.timerCancel later handle).nextHandle = t.nextHandle := by
  unfold timerCancel
  split
  · rfl
  · exact programNext_nextHandle ..

end Timers

def Timer.alarm (timer : Timer) : Alarm (ℕ × ℕ) := ⟨timer.deadline, timer.period, timer.callback, timer.context⟩

theorem Timers.visit_cases (t : Timers) (now : ℕ) (i : Fin maxTimers) :
    (t.visit now i = (none, t) ∧ ¬ ((t.timers i).active = true ∧ (t.timers i).deadline ≤ now)) ∨
    (t.timers i).active = true ∧ (t.timers i).deadline ≤ now ∧
      ∃ timer, t.visit now i = (some (t.timers i), t.put i timer) ∧ timer.handle = (t.timers i).handle ∧
        (now + (t.timers i).period < 2 ^ 64 →
          (t.timers i).alarm.after now = if timer.active then some timer.alarm else none) := by
  unfold visit
  dsimp only
  split
  · rename_i hskip
    refine .inl ⟨rfl, fun h ↦ ?_⟩
    simp only [h.1, Bool.not_true, Bool.false_or, decide_eq_true_eq] at hskip
    exact absurd h.2 (Nat.not_le.mpr hskip)
  · rename_i hfire
    simp only [Bool.or_eq_true, Bool.not_eq_true', decide_eq_true_eq, not_or, Bool.not_eq_false, not_lt] at hfire
    refine .inr ⟨hfire.1, hfire.2, ?_⟩
    split
    · rename_i hperiod
      refine ⟨_, rfl, rfl, fun hbound ↦ ?_⟩
      have hdeadline := Nat.mod_eq_of_lt hbound
      simp only [Alarm.after, Timer.alarm, hperiod, hfire.1, hdeadline, if_true, if_false]
    · rename_i hperiod
      refine ⟨_, rfl, rfl, fun _ ↦ ?_⟩
      exact if_pos (not_not.mp hperiod)

/-- The table shows what is active, and the slots that are still to be looked at hold what is owed. -/
structure Sound (s : State) : Prop where
  conforms : Conforms s.log
  shown : ∀ i, (s.table.timers i).active = true →
    active (s.table.timers i).handle s.log = some (s.table.timers i).alarm
  held : ∀ h a, active h s.log = some a → ∃ i, (s.table.timers i).active = true ∧ (s.table.timers i).handle = h
  apart : ∀ i j, (s.table.timers i).active = true → (s.table.timers j).active = true →
    (s.table.timers i).handle = (s.table.timers j).handle → i = j
  named : ∀ h a, .armed h a ∈ s.log → h < s.table.nextHandle
  counted : s.table.nextHandle = s.armedCount + 1
  timed : ∀ p ∈ s.pass, passTime s.log = some p.now
  pending : ∀ p ∈ s.pass, ∀ h, Owed h s.log → ∃ i : Fin maxTimers, p.next ≤ i ∧
    (s.table.timers i).active = true ∧ (s.table.timers i).handle = h ∧ (s.table.timers i).deadline ≤ p.now

variable {s : State}

theorem Sound.initial (h : s.Initial) : Sound s := by
  obtain ⟨⟨timers, next, driven, lapic⟩, clock, pass, log⟩ := s
  obtain ⟨hempty, rfl, -, rfl, rfl⟩ := h
  have hinactive : ∀ i, (timers i).active ≠ true := fun i ↦ by simp [show timers i = {} from hempty i]
  exact ⟨.nil, fun i hi ↦ absurd hi (hinactive i), nofun, fun i _ hi ↦ absurd hi (hinactive i), nofun, rfl, nofun, nofun⟩

section

variable (h : Sound s)

include h

theorem Sound.table {t : Timers} (htimers : t.timers = s.table.timers) (hnext : t.nextHandle = s.table.nextHandle)
    (clock : ℕ) : Sound { s with table := t, clock := clock } := by
  obtain ⟨timers, next, driven, lapic⟩ := t
  subst htimers hnext
  exact { h with }

theorem Sound.programNext (clock : ℕ) : Sound { s with table := s.table.programNext clock, clock := clock } :=
  h.table (Timers.programNext_timers ..) (Timers.programNext_nextHandle ..) clock

theorem Sound.put {i : Fin maxTimers} {timer : Timer} (hfree : (s.table.timers i).active = false)
    (hactive : timer.active = true) (hhandle : timer.handle = s.table.nextHandle) : Sound { s with
      table := { s.table.put i timer with nextHandle := s.table.nextHandle + 1 }
      log := .armed timer.handle timer.alarm :: s.log } := by
  have ⟨hconforms, hshown, hheld, hapart, hnamed, hcounted, _, hpending⟩ := h
  have hold : ∀ k a, active k s.log = some a → timer.handle ≠ k := by
    intro k a hact hk
    obtain ⟨a₀, hmem, -⟩ := exists_armed_of_active hact
    have := hnamed _ _ hmem
    omega
  have hnew := update_apply s.table.timers i timer
  unfold Timers.put
  generalize update s.table.timers i timer = timers at hnew
  exact
    { h with
      conforms := .cons (fun a hmem ↦ by have := hnamed _ _ hmem; omega) hconforms
      shown := by grind [active]
      held := by grind [active]
      apart := by grind
      named := by grind
      counted := by rw [hcounted, State.armedCount, State.armedCount, countP_cons_of_pos rfl]
      pending := by grind [Owed] }

theorem Sound.arm {delay period callback context later : ℕ}
    (hbound : s.Accepts callback → s.armedCount + 1 < 2 ^ 32 - 1 ∧ s.clock + delay < 2 ^ 64) :
    Sound (s.armed (s.table.arm s.clock later delay period callback context) delay period callback context later) := by
  obtain ⟨hrefused, htable⟩ | ⟨haccepts, i, hfree, htable⟩ := s.table.arm_cases s.clock later delay period callback context
  · rw [State.armed, if_neg (c := s.Accepts callback) hrefused, htable]
    exact { h with }
  · obtain ⟨hcount, hdeadline⟩ := hbound haccepts
    have hcounted := h.counted
    rw [State.armed, if_pos (c := s.Accepts callback) haccepts, htable, Nat.mod_eq_of_lt hdeadline, Nat.mod_eq_of_lt (by omega)]
    exact Sound.programNext (h.put (Timers.findFree_eq_some hfree) rfl rfl) later

theorem Sound.cancel (handle later : ℕ) : Sound (s.cancel handle later) := by
  have htimers : ∀ j, (s.table.timerCancel later handle).timers j = _ := fun j ↦ Timers.timerCancel_timers later h.apart
  have hnext : (s.table.timerCancel later handle).nextHandle = _ := Timers.timerCancel_nextHandle later
  unfold State.cancel
  generalize s.table.timerCancel later handle = t at htimers hnext
  have ⟨hconforms, hshown, hheld, hapart, hnamed, hcounted, _, hpending⟩ := h
  exact
    { h with
      conforms := .cons trivial hconforms
      shown := by grind [active]
      held := by grind [active]
      apart := by grind
      named := by grind
      counted := hnext.trans hcounted
      pending := by grind [Owed] }

theorem Sound.begin (now : ℕ) : Sound { s with pass := some ⟨now, 0, false⟩, log := .began now :: s.log } := by
  have ⟨_, hshown, hheld, _, hnamed, _, _, _⟩ := h
  refine { h with conforms := .cons trivial h.conforms, named := by grind, timed := by rintro p ⟨⟩; rfl, pending := ?_ }
  rintro p ⟨⟩ k ⟨a, hact, hdue⟩
  obtain ⟨i, hi, rfl⟩ := h.held k a hact
  cases (h.shown i hi).symm.trans hact
  exact ⟨i, Nat.zero_le _, hi, rfl, hdue⟩

section

variable {p : Pass} (hp : s.pass = some p)

include hp

theorem Sound.skip {i : Fin maxTimers} (hi : p.next = i)
    (hnot : ¬ ((s.table.timers i).active = true ∧ (s.table.timers i).deadline ≤ p.now)) :
    Sound { s with pass := some { p with next := i + 1 } } := by
  have hpending := h.pending p hp
  exact { h with timed := by rintro q ⟨⟩; exact h.timed p hp, pending := by grind }

theorem Sound.fire {i : Fin maxTimers} {timer : Timer} (hi : p.next = i)
    (hactive : (s.table.timers i).active = true) (hdue : (s.table.timers i).deadline ≤ p.now)
    (hhandle : timer.handle = (s.table.timers i).handle)
    (hafter : (s.table.timers i).alarm.after p.now = if timer.active then some timer.alarm else none) : Sound { s with
      table := s.table.put i timer
      pass := some ⟨p.now, i + 1, true⟩
      log := .called (s.table.timers i).handle
        ((s.table.timers i).callback, (s.table.timers i).context) p.now :: s.log } := by
  have ⟨hconforms, hshown, hheld, hapart, hnamed, _, htimed, hpending⟩ := h
  have htimed := htimed p hp
  have hnew := update_apply s.table.timers i timer
  unfold Timers.put
  generalize update s.table.timers i timer = timers at hnew
  exact
    { h with
      conforms := .cons ⟨htimed, _, hshown i hactive, rfl, hdue⟩ hconforms
      shown := by grind [active]
      held := by grind [active]
      apart := by grind
      named := by grind
      timed := by rintro q ⟨⟩; exact htimed
      pending := by grind [Owed] }

theorem Sound.return : Sound { s with pass := some { p with calling := false } } :=
  { h with timed := by rintro q ⟨⟩; exact h.timed p hp, pending := by rintro q ⟨⟩; exact h.pending p hp }

theorem Sound.finish (hlast : maxTimers ≤ p.next) (later : ℕ) :
    Sound { s with table := s.table.programNext later, clock := later, pass := none, log := .ended :: s.log } := by
  have hnone : ∀ k, ¬ Owed k s.log := by
    intro k howed
    obtain ⟨j, hle, -⟩ := h.pending p hp k howed
    exact absurd j.isLt (Nat.not_lt.mpr (hlast.trans hle))
  have hnamed := h.named
  have hended : Sound { s with pass := none, log := .ended :: s.log } :=
    { h with conforms := .cons hnone h.conforms, named := by grind, timed := nofun, pending := nofun }
  exact hended.programNext later

theorem Sound.visit {i : Fin maxTimers} (hi : p.next = i)
    (hbound : (s.table.timers i).active = true → (s.table.timers i).deadline ≤ p.now → p.now + (s.table.timers i).period < 2 ^ 64) :
    Sound (s.visit p i) := by
  obtain ⟨hskip, hnot⟩ | ⟨hactive, hdue, timer, hfire, hhandle, hafter⟩ := s.table.visit_cases p.now i
  · rw [State.visit, hskip]
    exact h.skip hp hi hnot
  · rw [State.visit, hfire]
    exact h.fire hp hi hactive hdue hhandle (hafter (hbound hactive hdue))

end

theorem Sound.step {s' : State} {a : Action} (hon : s.Enabled a) (hbound : s.Bounded a) (hs : s.step a = some s') :
    Sound s' := by
  cases a with
  | tick clock =>
    cases hs
    exact { h with }
  | after delay callback context later =>
    cases hs
    exact h.arm hbound
  | every period callback context later =>
    cases hs
    exact h.arm hbound.2
  | cancel handle later =>
    cases hs
    exact h.cancel handle later
  | begin =>
    cases hs
    exact h.begin s.clock
  | visit =>
    obtain ⟨p, hp, hs⟩ := Option.bind_eq_some_iff.mp hs
    split at hs
    · rename_i hlt
      cases hs
      exact h.visit hp rfl (hbound p hp hlt)
    · cases hs
  | «return» =>
    obtain ⟨p, hp, hs⟩ := Option.bind_eq_some_iff.mp hs
    cases hs
    exact h.return hp
  | finish later =>
    obtain ⟨⟨p, hp, -, hlast⟩, -⟩ := hon
    cases hs
    exact h.finish hp hlast later

end

theorem reached_sound (h : system.Reached State.Bounded s) : Sound s :=
  h.invariant (fun _ ↦ Sound.initial) fun _ _ _ hs hon hbound hstep ↦ hs.step hon hbound hstep

/-- The users of the timers get what they rely on, and the table shows which timers are active. -/
theorem reached_kept (h : system.Reached State.Bounded s) : Kept s.log ∧
    ∀ handle a, active handle s.log = some a ↔
      ∃ i, (s.table.timers i).active = true ∧ (s.table.timers i).handle = handle ∧ (s.table.timers i).alarm = a := by
  have hsound := reached_sound h
  refine ⟨hsound.conforms.kept, fun handle a ↦ ⟨fun hact ↦ ?_, ?_⟩⟩
  · obtain ⟨i, hi, rfl⟩ := hsound.held handle a hact
    exact ⟨i, hi, rfl, Option.some.inj ((hsound.shown i hi).symm.trans hact)⟩
  · rintro ⟨i, hi, rfl, rfl⟩
    exact hsound.shown i hi

instance (s : State) : DecidablePred s.Enabled
  | .tick clock => inferInstanceAs (Decidable (s.Later clock))
  | .after _ _ _ later => inferInstanceAs (Decidable (s.Outside ∧ s.Later later))
  | .every _ _ _ later => inferInstanceAs (Decidable (s.Outside ∧ s.Later later))
  | .cancel _ later => inferInstanceAs (Decidable (s.Outside ∧ s.Later later))
  | .begin => inferInstanceAs (Decidable (s.pass = none))
  | .visit => inferInstanceAs (Decidable (∃ p ∈ s.pass, _))
  | .return => inferInstanceAs (Decidable (∃ p ∈ s.pass, _))
  | .finish later => inferInstanceAs (Decidable ((∃ p ∈ s.pass, _) ∧ s.Later later))

instance (s : State) : DecidablePred s.Bounded
  | .after _ callback _ _ => inferInstanceAs (Decidable (s.Accepts callback → _ ∧ _))
  | .every _ callback _ _ => inferInstanceAs (Decidable (_ ∧ (s.Accepts callback → _ ∧ _)))
  | .visit => inferInstanceAs (Decidable (∀ p ∈ s.pass, ∀ _ : p.next < maxTimers, _ → _ → _))
  | .tick _ => .isTrue trivial
  | .cancel _ _ => .isTrue trivial
  | .begin => .isTrue trivial
  | .return => .isTrue trivial
  | .finish _ => .isTrue trivial

/-- A callback cancels a timer that is due, and arms one that is called in the same pass. -/
theorem reached_kept_callbacks : ∃ s, system.Reached State.Bounded s ∧
    s.log = [.ended, .called 3 (300, 0) 20, .called 4 (400, 7) 20, .armed 4 ⟨20, 0, 400, 7⟩, .cancelled 2,
      .called 1 (100, 0) 20, .began 20, .armed 3 ⟨5, 0, 300, 0⟩, .armed 2 ⟨5, 0, 200, 0⟩, .armed 1 ⟨10, 10, 100, 0⟩] ∧
    Kept s.log := by
  have hstart : system.Reached State.Bounded ⟨⟨fun _ ↦ {}, 1, true, none⟩, 0, none, []⟩ :=
    .init ⟨fun _ ↦ rfl, rfl, by decide, rfl, rfl⟩
  have hcheck : ∀ (s : State) a, decide (s.Enabled a ∧ s.Bounded a) = true → s.Enabled a ∧ s.Bounded a :=
    fun s a ha ↦ of_decide_eq_true ha
  refine .imp (fun s (h : _ ∧ s.log = _) ↦ ⟨h.1, h.2, (reached_kept h.1).1⟩) (hstart.exists_of_replay hcheck
    (l := [.every 10 100 0 0, .after 5 200 0 0, .after 5 300 0 0, .tick 20, .begin, .visit, .cancel 2 20,
      .after 0 400 7 21, .return, .visit, .return, .visit, .return] ++ List.replicate 61 .visit ++ [.finish 30]) ?_)
  decide +kernel

end Eris.Time
