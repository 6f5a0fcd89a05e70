import Eris.Time.Timers

namespace Eris.Time

open Library List

def vectorLapicTimer : ℕ := 0x40

def lvtMasked : ℕ := 2 ^ 16

/-- The local interrupt controller: whether its registers are mapped, the frequency of its timer, and the two registers
the timer is set by. -/
structure Lapic where
  registers : Bool
  timerHz : ℕ
  lvtTimer : ℕ
  timerInitial : ℕ

namespace Lapic

variable (l : Lapic)

def lapicTimerOneshot (nanoseconds : ℕ) : Lapic :=
  if !l.registers || l.timerHz == 0 then l
  else
    let count := l.timerHz * nanoseconds % 2 ^ 64 / 1000000000
    let count := if count = 0 then 1 else count
    let count := if 0xFFFFFFFF < count then 0xFFFFFFFF else count
    { l with lvtTimer := vectorLapicTimer, timerInitial := count % 2 ^ 32 }

def lapicTimerStop : Lapic :=
  if !l.registers then l else { l with timerInitial := 0, lvtTimer := lvtMasked }

def obey : LapicTimer → Lapic
  | .stop => l.lapicTimerStop
  | .oneshot delay => l.lapicTimerOneshot delay

variable {l}

theorem lapicTimerOneshot_spec (hregisters : l.registers = true) (hhz : 0 < l.timerHz) (nanoseconds : ℕ) :
    (l.lapicTimerOneshot nanoseconds).lvtTimer = vectorLapicTimer ∧ 1 ≤ (l.lapicTimerOneshot nanoseconds).timerInitial ∧
      (l.lapicTimerOneshot nanoseconds).timerInitial ≤ 2 ^ 32 - 1 ∧
      (l.lapicTimerOneshot nanoseconds).timerInitial ≤ max 1 (l.timerHz * nanoseconds / 10 ^ 9) := by
  have hon : ¬ (!l.registers || l.timerHz == 0) = true := by
    rw [hregisters]
    simpa using hhz.ne'
  have hwrap : l.timerHz * nanoseconds % 2 ^ 64 / 1000000000 ≤ l.timerHz * nanoseconds / 10 ^ 9 :=
    Nat.div_le_div_right (Nat.mod_le _ _)
  rw [lapicTimerOneshot, if_neg hon]
  dsimp only
  generalize l.timerHz * nanoseconds % 2 ^ 64 / 1000000000 = count at hwrap ⊢
  generalize l.timerHz * nanoseconds / 10 ^ 9 = exact at hwrap ⊢
  refine ⟨rfl, ?_⟩
  by_cases hzero : count = 0
  · rw [if_pos hzero, if_neg (by decide)]
    omega
  · rw [if_neg hzero]
    split <;> omega

theorem lapicTimerOneshot_timerHz (nanoseconds : ℕ) : (l.lapicTimerOneshot nanoseconds).timerHz = l.timerHz := by
  unfold lapicTimerOneshot
  split <;> rfl

theorem obey_timerHz (command : LapicTimer) : (l.obey command).timerHz = l.timerHz := by
  cases command with
  | stop =>
    change l.lapicTimerStop.timerHz = _
    unfold lapicTimerStop
    split <;> rfl
  | oneshot delay => exact lapicTimerOneshot_timerHz delay

end Lapic

namespace Timers

variable {t : Timers}

def deadlines (t : Timers) : Set ℕ := {d | ∃ i, (t.timers i).active = true ∧ (t.timers i).deadline = d}

/-- One round of the search of `program_next`. -/
def closer (t : Timers) (found : Option ℕ) (i : Fin maxTimers) : Option ℕ :=
  if (t.timers i).active then
    match found with
    | none => some (t.timers i).deadline
    | some deadline => some (if (t.timers i).deadline < deadline then (t.timers i).deadline else deadline)
  else found

theorem closer_spec (t : Timers) (found : Option ℕ) (i : Fin maxTimers) :
    (∀ d ∈ found, ∃ e ∈ t.closer found i, e ≤ d) ∧
      ((t.timers i).active = true → ∃ e ∈ t.closer found i, e ≤ (t.timers i).deadline) ∧
      ∀ e ∈ t.closer found i, e ∈ found ∨ (t.timers i).active = true ∧ (t.timers i).deadline = e := by
  by_cases hactive : (t.timers i).active = true
  · cases found with
    | none => simp [closer, hactive]
    | some deadline =>
      simp only [closer, hactive, if_true, Option.mem_some_iff]
      grind
  · unfold closer
    rw [if_neg hactive]
    exact ⟨fun d hd ↦ ⟨d, hd, le_rfl⟩, fun h ↦ absurd h hactive, fun e he ↦ .inl he⟩

theorem foldl_closer (t : Timers) (slots : List (Fin maxTimers)) (found : Option ℕ) :
    (∀ d ∈ found, ∃ e ∈ slots.foldl t.closer found, e ≤ d) ∧
      (∀ i ∈ slots, (t.timers i).active = true → ∃ e ∈ slots.foldl t.closer found, e ≤ (t.timers i).deadline) ∧
      ∀ e ∈ slots.foldl t.closer found,
        e ∈ found ∨ ∃ i ∈ slots, (t.timers i).active = true ∧ (t.timers i).deadline = e := by
  induction slots generalizing found with
  | nil =>
    refine ⟨fun d hd ↦ ⟨d, hd, le_rfl⟩, ?_, fun e he ↦ .inl he⟩
    intro i hi
    cases hi
  | cons i rest ih =>
    have hfirst := t.closer_spec found i
    have hrest := ih (t.closer found i)
    rw [foldl_cons]
    grind

theorem earliest_spec (t : Timers) :
    (t.earliest = none ∧ ∀ i, (t.timers i).active = false) ∨ ∃ e, t.earliest = some e ∧ IsLeast t.deadlines e := by
  have hfold : t.earliest = (List.finRange maxTimers).foldl t.closer none := rfl
  obtain ⟨-, hall, hfrom⟩ := t.foldl_closer (List.finRange maxTimers) none
  rw [← hfold] at hall hfrom
  cases hearliest : t.earliest with
  | none =>
    refine .inl ⟨rfl, fun i ↦ ?_⟩
    by_contra hactive
    obtain ⟨e, he, -⟩ := hall i (mem_finRange i) (by simpa using hactive)
    rw [hearliest] at he
    cases he
  | some e =>
    refine .inr ⟨e, rfl, ?_, ?_⟩
    · obtain he | ⟨i, -, hi⟩ := hfrom e hearliest
      · cases he
      · exact ⟨i, hi⟩
    · rintro d ⟨i, hactive, rfl⟩
      obtain ⟨e', he', hle⟩ := hall i (mem_finRange i) hactive
      rw [hearliest] at he'
      exact Option.some.inj he' ▸ hle

theorem programNext_lapicDriven (t : Timers) (now : ℕ) : (t.programNext now).lapicDriven = t.lapicDriven := by
  unfold programNext
  split
  · split <;> rfl
  · rfl

end Timers

def State.hardware (s : State) (l : Lapic) : Lapic :=
  match s.table.lapic with
  | none => l
  | some command => l.obey command

/-- The timer is set for a table, at some time. It does not run longer than to the nearest deadline or for the least
delay, and it only stands still if there is nothing to wait for. -/
structure Programmed (l : Lapic) (t : Timers) (now : ℕ) : Prop where
  set : ∀ e, IsLeast t.deadlines e → l.lvtTimer = vectorLapicTimer ∧ 1 ≤ l.timerInitial ∧ l.timerInitial ≤ 2 ^ 32 - 1 ∧
    l.timerInitial ≤ max 1 (l.timerHz * max 100000 (e - now) / 10 ^ 9)
  stopped : l.lvtTimer = lvtMasked ∨ l.timerInitial = 0 → t.deadlines = ∅

theorem Programmed.of_idle {l : Lapic} {t : Timers} (h : ∀ i, (t.timers i).active = false) (now : ℕ) :
    Programmed l t now := by
  have hempty : t.deadlines = ∅ := by
    apply Set.eq_empty_of_forall_notMem
    rintro d ⟨i, hactive, -⟩
    rw [h i] at hactive
    cases hactive
  refine ⟨fun e he ↦ ?_, fun _ ↦ hempty⟩
  have hmem := he.1
  rw [hempty] at hmem
  exact hmem.elim

theorem programNext_programmed {l : Lapic} (hregisters : l.registers = true) (hhz : 0 < l.timerHz) {t : Timers}
    (hdriven : t.lapicDriven = true) (now : ℕ) :
    ∃ command, (t.programNext now).lapic = some command ∧ Programmed (l.obey command) (t.programNext now) now := by
  obtain ⟨hnone, hidle⟩ | ⟨e, hsome, hleast⟩ := t.earliest_spec
  · refine ⟨.stop, ?_, .of_idle ?_ now⟩
    · rw [Timers.programNext, if_pos hdriven, hnone]
    · rw [Timers.programNext_timers]
      exact hidle
  · have hdeadlines : (t.programNext now).deadlines = t.deadlines := by
      rw [Timers.deadlines, Timers.programNext_timers]
      rfl
    refine ⟨.oneshot (max 100000 (e - now)), ?_, ?_⟩
    · rw [Timers.programNext, if_pos hdriven, hsome]
      have hminimum : minimumDelayNs = 100000 := rfl
      dsimp only
      congr 2
      split <;> split <;> omega
    · obtain ⟨hvector, hpos, hle, hcount⟩ := Lapic.lapicTimerOneshot_spec hregisters hhz (max 100000 (e - now))
      refine ⟨?_, ?_⟩
      · intro e' hleast'
        rw [hdeadlines] at hleast'
        rw [hleast'.unique hleast, Lapic.obey_timerHz]
        exact ⟨hvector, hpos, hle, hcount⟩
      · rintro (hmasked | hzero)
        · exact absurd (hvector.symm.trans hmasked) (by decide)
        · exact absurd (hpos.trans_eq hzero) (by decide)

namespace State

def EndsCall : Action → Prop
  | .after _ _ _ _ => True
  | .every _ _ _ _ => True
  | .cancel _ _ => True
  | .finish _ => True
  | _ => False

/-- The call comes to `program_next`: a timer is put in place or found, or a pass is over. -/
def Programs (s : State) : Action → Prop
  | .after _ callback _ _ => s.Accepts callback
  | .every _ callback _ _ => s.Accepts callback
  | .cancel handle _ => ∃ i, (s.table.timers i).active = true ∧ (s.table.timers i).handle = handle
  | .finish _ => True
  | _ => False

end State

theorem Timers.arm_programs (t : Timers) (now later delay period callback context : ℕ) :
    ((callback ≠ 0 ∧ t.findFree.isSome) ∧ ∃ t' : Timers, t'.lapicDriven = t.lapicDriven ∧
      (t.arm now later delay period callback context).2 = t'.programNext later) ∨
    ¬ (callback ≠ 0 ∧ t.findFree.isSome) ∧ (t.arm now later delay period callback context).2 = t := by
  obtain ⟨hrefused, htable⟩ | ⟨haccepts, i, -, htable⟩ := t.arm_cases now later delay period callback context
  · exact .inr ⟨hrefused, congrArg Prod.snd htable⟩
  · exact .inl ⟨haccepts, { t.put i _ with nextHandle := _ }, rfl, congrArg Prod.snd htable⟩

theorem Timers.timerCancel_programs (t : Timers) (later handle : ℕ) :
    ((∃ i, (t.timers i).active = true ∧ (t.timers i).handle = handle) ∧
      ∃ t' : Timers, t'.lapicDriven = t.lapicDriven ∧ t.timerCancel later handle = t'.programNext later) ∨
    (¬ ∃ i, (t.timers i).active = true ∧ (t.timers i).handle = handle) ∧ t.timerCancel later handle = t := by
  unfold timerCancel
  cases hfind : (List.finRange maxTimers).find? fun i ↦ (t.timers i).active && (t.timers i).handle = handle with
  | none =>
    refine .inr ⟨?_, rfl⟩
    rintro ⟨i, hi⟩
    exact find?_eq_none.mp hfind i (mem_finRange i) (by simpa using hi)
  | some i =>
    exact .inl ⟨⟨i, by simpa using find?_some hfind⟩, t.put i _, rfl, rfl⟩

variable {s s' : State} {a : Action}

theorem step_programs (hcall : State.EndsCall a) (hs : s.step a = some s') :
    (s.Programs a ∧ ∃ t : Timers, t.lapicDriven = s.table.lapicDriven ∧ s'.table = t.programNext s'.clock) ∨
      ¬ s.Programs a ∧ s'.table = s.table ∧ s'.pass = s.pass := by
  cases a with
  | after delay callback context later =>
    cases hs
    obtain ⟨haccepts, t, hdriven, htable⟩ | ⟨hrefused, htable⟩ :=
      s.table.arm_programs s.clock later delay 0 callback context
    · exact .inl ⟨haccepts, t, hdriven, htable⟩
    · exact .inr ⟨hrefused, htable, rfl⟩
  | every period callback context later =>
    cases hs
    obtain ⟨haccepts, t, hdriven, htable⟩ | ⟨hrefused, htable⟩ :=
      s.table.arm_programs s.clock later period period callback context
    · exact .inl ⟨haccepts, t, hdriven, htable⟩
    · exact .inr ⟨hrefused, htable, rfl⟩
  | cancel handle later =>
    cases hs
    obtain ⟨hfound, t, hdriven, htable⟩ | ⟨hnot, htable⟩ := s.table.timerCancel_programs later handle
    · exact .inl ⟨hfound, t, hdriven, htable⟩
    · exact .inr ⟨hnot, htable, rfl⟩
  | finish later =>
    cases hs
    exact .inl ⟨trivial, s.table, rfl, rfl⟩
  | _ => exact hcall.elim

theorem State.visit_pass_ne_none (s : State) (p : Pass) (i : Fin maxTimers) : (s.visit p i).pass ≠ none := by
  unfold State.visit
  split <;> simp

theorem State.visit_clock (s : State) (p : Pass) (i : Fin maxTimers) : (s.visit p i).clock = s.clock := by
  unfold State.visit
  split <;> rfl

theorem clock_le_of_step (hon : s.Enabled a) (hs : s.step a = some s') : s.clock ≤ s'.clock := by
  cases a with
  | tick clock =>
    cases hs
    exact hon.1
  | after delay callback context later =>
    cases hs
    exact hon.2.1
  | every period callback context later =>
    cases hs
    exact hon.2.1
  | cancel handle later =>
    cases hs
    exact hon.2.1
  | begin =>
    cases hs
    exact le_rfl
  | visit =>
    obtain ⟨p, hp, hs⟩ := Option.bind_eq_some_iff.mp hs
    split at hs
    · cases hs
      exact (State.visit_clock ..).ge
    · cases hs
  | «return» =>
    obtain ⟨p, hp, hs⟩ := Option.bind_eq_some_iff.mp hs
    cases hs
    exact le_rfl
  | finish later =>
    cases hs
    exact hon.2.1

theorem programmed_of_programs {l : Lapic} (hregisters : l.registers = true) (hhz : 0 < l.timerHz) {t : Timers}
    (hdriven : t.lapicDriven = true) (htable : s'.table = t.programNext s'.clock) :
    Programmed (s'.hardware l) s'.table s'.clock := by
  obtain ⟨command, hcommand, hset⟩ := programNext_programmed hregisters hhz hdriven s'.clock
  rw [State.hardware, htable, hcommand]
  exact hset

/-- Between passes the timer is set for the table, since the last call that changed it. -/
def Standing (l : Lapic) (s : State) : Prop :=
  s.table.lapicDriven = true → s.pass = none → ∃ now ≤ s.clock, Programmed (s.hardware l) s.table now

theorem Standing.step {l : Lapic} (hregisters : l.registers = true) (hhz : 0 < l.timerHz) (h : Standing l s)
    (hon : s.Enabled a) (hs : s.step a = some s') : Standing l s' := by
  by_cases hcall : State.EndsCall a
  · intro hdriven hpass
    obtain ⟨-, t, ht, htable⟩ | ⟨-, htable, hpass'⟩ := step_programs hcall hs
    · have hdriven' : t.lapicDriven = true := by rw [← t.programNext_lapicDriven s'.clock, ← htable, hdriven]
      exact ⟨s'.clock, le_rfl, programmed_of_programs hregisters hhz hdriven' htable⟩
    · have hhardware : s'.hardware l = s.hardware l := by rw [State.hardware, State.hardware, htable]
      rw [htable] at hdriven
      obtain ⟨now, hnow, hset⟩ := h hdriven (hpass'.symm.trans hpass)
      refine ⟨now, hnow.trans (clock_le_of_step hon hs), ?_⟩
      rw [hhardware, htable]
      exact hset
  · cases a with
    | tick clock =>
      cases hs
      intro hdriven hpass
      obtain ⟨now, hnow, hset⟩ := h hdriven hpass
      exact ⟨now, hnow.trans hon.1, hset⟩
    | begin =>
      cases hs
      rintro - ⟨⟩
    | visit =>
      obtain ⟨p, hp, hs⟩ := Option.bind_eq_some_iff.mp hs
      split at hs
      · cases hs
        intro _ hpass
        exact absurd hpass (State.visit_pass_ne_none _ _ _)
      · cases hs
    | «return» =>
      obtain ⟨p, hp, hs⟩ := Option.bind_eq_some_iff.mp hs
      cases hs
      rintro - ⟨⟩
    | after => exact absurd trivial hcall
    | every => exact absurd trivial hcall
    | cancel => exact absurd trivial hcall
    | finish => exact absurd trivial hcall

theorem reached_standing {l : Lapic} (hregisters : l.registers = true) (hhz : 0 < l.timerHz)
    (h : system.Reached (fun _ _ ↦ True) s) : Standing l s := by
  refine h.invariant ?_ fun _ _ _ hs hon _ hstep ↦ hs.step hregisters hhz hon hstep
  intro s ⟨hempty, _⟩ _ _
  exact ⟨s.clock, le_rfl, .of_idle (fun i ↦ by rw [hempty i]) _⟩

/-- A call that sets the timer sets it for the nearest deadline at the latest. A call that does not has changed
nothing, and after it the timer is still set for the table between passes. -/
theorem lapic_never_late {l : Lapic} (hregisters : l.registers = true) (hhz : 0 < l.timerHz)
    (h : system.Reached (fun _ _ ↦ True) s) (hdriven : s.table.lapicDriven = true) (hon : s.Enabled a)
    (hcall : State.EndsCall a) (hs : s.step a = some s') :
    (s.Programs a → Programmed (s'.hardware l) s'.table s'.clock) ∧
      (¬ s.Programs a → s'.table = s.table ∧ s'.hardware l = s.hardware l) ∧
      (s'.pass = none → ∃ now ≤ s'.clock, Programmed (s'.hardware l) s'.table now) := by
  obtain ⟨hprograms, t, ht, htable⟩ | ⟨hnot, htable, hpass⟩ := step_programs hcall hs
  · have hset := programmed_of_programs hregisters hhz (ht.trans hdriven) htable
    exact ⟨fun _ ↦ hset, fun hnot ↦ absurd hprograms hnot, fun _ ↦ ⟨s'.clock, le_rfl, hset⟩⟩
  · refine ⟨fun hprograms ↦ absurd hprograms hnot, fun _ ↦ ⟨htable, ?_⟩, ?_⟩
    · rw [State.hardware, State.hardware, htable]
    · intro hnone
      have hstanding := (reached_standing hregisters hhz h).step hregisters hhz hon hs
      exact hstanding (htable ▸ hdriven) hnone

/-- A timer is armed for five milliseconds, with a counter of 62.5 megahertz. -/
theorem lapic_never_late_first : ∃ s',
    (⟨⟨fun _ ↦ {}, 1, true, none⟩, 0, none, []⟩ : State).step (.after 5000000 100 0 20) = some s' ∧
    Programmed (s'.hardware ⟨true, 62500000, 0, 0⟩) s'.table s'.clock ∧
    (s'.hardware ⟨true, 62500000, 0, 0⟩).timerInitial = 312498 := by
  have hstart : system.Reached (fun _ _ ↦ True) ⟨⟨fun _ ↦ {}, 1, true, none⟩, 0, none, []⟩ :=
    .init ⟨fun _ ↦ rfl, rfl, by decide, rfl, rfl⟩
  have hset := (lapic_never_late (l := ⟨true, 62500000, 0, 0⟩) (a := .after 5000000 100 0 20) rfl (by decide) hstart rfl
    (by decide) trivial rfl).1
  exact ⟨_, rfl, hset ⟨by decide, by decide⟩, by decide +kernel⟩

end Eris.Time
