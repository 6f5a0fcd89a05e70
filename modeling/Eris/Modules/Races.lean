import Eris.Library.Transition
import Eris.Modules.Framework

namespace Eris.Modules.Races

open Library

inductive Call
  | get
  | put
  deriving DecidableEq

/-- The places in `module_get` and `module_put` between two accesses to the table, the lock being held. The loop of
`find` reads `registered` in `bound` and a slot in `entry`. -/
inductive Place
  | bound (i : ℕ)
  | entry (i : ℕ)
  | check (i : ℕ)
  | count (i : ℕ)
  | leave (result : Bool)
  deriving DecidableEq

/-- The places in `module_unload`, which holds no lock. The dependencies are searched for and dropped one by one;
fields that only `module_unload` touches are read and written together. -/
inductive Stage
  | bound (i : ℕ)
  | entry (i : ℕ)
  | state (i : ℕ)
  | dependents (i : ℕ)
  | users (i : ℕ)
  | refused
  | exit (i : ℕ)
  | release (i : ℕ) (deps : List CString)
  | depBound (i : ℕ) (dep : CString) (deps : List CString) (k : ℕ)
  | depEntry (i : ℕ) (dep : CString) (deps : List CString) (k : ℕ)
  | depCheck (i : ℕ) (deps : List CString) (k : ℕ)
  | depDrop (i : ℕ) (deps : List CString) (k : ℕ)
  | stop (i : ℕ)
  | detach (i : ℕ)
  | search (i k : ℕ)
  | shrink (i : ℕ)
  | copy (i : ℕ)
  | free
  | finished
  deriving DecidableEq

def Stage.past : Stage → Bool
  | bound _ | entry _ | state _ | dependents _ | users _ | refused => false
  | _ => true

/-- The array `modules`, the call that has the lock, and the core that unloads. `held` counts the calls of
`module_get` that have returned true and whose `module_put` has not come yet. -/
structure State where
  slots : List Module
  registered : ℕ
  lock : Option (Call × Place)
  stage : Stage
  held : ℕ
  released : Bool
  deriving DecidableEq

inductive Action
  | acquire (call : Call)
  | advance
  | unload
  deriving DecidableEq

namespace State

variable (name : CString) (s : State)

def slot (i : ℕ) : Module := s.slots[i]?.getD Module.zero

def modify (i : ℕ) (f : Module → Module) : State := { s with slots := s.slots.modify i f }

/-- A core calls `module_get`, or `module_put` for a reference that it has, and gets the lock. -/
def acquire (call : Call) : Option State :=
  match s.lock, call with
  | some _, _ => none
  | none, .get => some { s with lock := some (.get, .bound 0) }
  | none, .put => if 0 < s.held then some { s with held := s.held - 1, lock := some (.put, .bound 0) } else none

def advance : Option State :=
  match s.lock with
  | none => none
  | some (call, .bound i) =>
    if i < s.registered then some { s with lock := some (call, .entry i) }
    else if call = .get then some { s with lock := some (call, .leave false) } else none
  | some (call, .entry i) =>
    some { s with lock := some (call, if (s.slot i).info.name = name then .check i else .bound (i + 1)) }
  | some (.get, .check i) =>
    some { s with lock := some (.get, if (s.slot i).state = .ready then .count i else .leave false) }
  | some (.put, .check i) => if (s.slot i).users = 0 then none else some { s with lock := some (.put, .count i) }
  | some (.get, .count i) => some { s.modify i Module.takeUser with lock := some (.get, .leave true) }
  | some (.put, .count i) => some { s.modify i Module.dropUser with lock := some (.put, .leave false) }
  | some (_, .leave result) => some { s with lock := none, held := if result then s.held + 1 else s.held }

/-- Where `module_unload` is after its next access. It is nowhere after its end or a panic. -/
def nextStage : Option Stage :=
  match s.stage with
  | .bound i => some (if i < s.registered then .entry i else .refused)
  | .entry i => some (if (s.slot i).info.name = name then .state i else .bound (i + 1))
  | .state i => some (if (s.slot i).state = .ready then .dependents i else .refused)
  | .dependents i => some (if (s.slot i).dependents = 0 then .users i else .refused)
  | .users i => some (if (s.slot i).users = 0 then .exit i else .refused)
  | .refused => none
  | .exit i => some (.release i (s.slot i).info.deps)
  | .release i [] => some (.stop i)
  | .release i (dep :: deps) => some (.depBound i dep deps 0)
  | .depBound i dep deps k => some (if k < s.registered then .depEntry i dep deps k else .release i deps)
  | .depEntry i dep deps k => some (if (s.slot k).info.name = dep then .depCheck i deps k else .depBound i dep deps (k + 1))
  | .depCheck i deps k => if (s.slot k).dependents = 0 then none else some (.depDrop i deps k)
  | .depDrop i deps _ => some (.release i deps)
  | .stop i => some (.detach i)
  | .detach i => some (if (s.slot i).imageBase = 0 then .finished else .search i 0)
  | .search i k => some (if s.registered ≤ k then .free else if k = i then .shrink i else .search i (k + 1))
  | .shrink i => some (.copy i)
  | .copy _ => some .free
  | .free => some .finished
  | .finished => none

def effect : State :=
  match s.stage with
  | .depDrop _ _ k => s.modify k Module.dropDependent
  | .stop i => s.modify i (Module.setState .registered)
  | .detach i => if (s.slot i).imageBase = 0 then s else s.modify i Module.detach
  | .shrink _ => { s with registered := s.registered - 1 }
  | .copy i => { s with slots := s.slots.set i (s.slot s.registered) }
  | .free => { s with released := true }
  | _ => s

def unload : Option State := (s.nextStage name).map fun stage ↦ { s.effect with stage := stage }

def step : Action → Option State
  | .acquire call => s.acquire call
  | .advance => s.advance name
  | .unload => s.unload name

/-- The slot that `find` leads to. -/
structure First (i : ℕ) : Prop where
  lt : i < s.registered
  named : (s.slot i).info.name = name
  before : ∀ j < i, (s.slot j).info.name ≠ name

def Kept : Prop := 0 < s.held → s.released = false ∧ ∃ i, s.First name i ∧ (s.slot i).state = .ready

def Started : Prop :=
  (∃ i, i < s.slots.length ∧ s.First name i ∧ (s.slot i).state = .ready ∧ s.held ≤ (s.slot i).users.toNat) ∧
    s.lock = none ∧ s.stage = .bound 0 ∧ s.released = false

/-- No reference is taken once `module_unload` has found that there is none, and the count does not wrap around. -/
def Orderly : Action → Prop
  | .advance => ∀ i, s.lock = some (.get, .count i) → s.stage.past = false ∧ (s.slot i).users.toNat + 1 < 2 ^ 32
  | _ => True

end State

def system (name : CString) : System State Action := ⟨State.Started name, fun _ _ ↦ True, State.step name⟩

def owed : Option (Call × Place) → ℕ
  | some (_, .leave true) => 1
  | some (.put, .bound _) | some (.put, .entry _) | some (.put, .check _) | some (.put, .count _) => 1
  | _ => 0

def Place.Near (m : ℕ) : Place → Prop
  | bound i | entry i => i ≤ m
  | check i | count i => i = m
  | leave _ => True

def Stage.Near (m : ℕ) : Stage → Prop
  | bound i | entry i => i ≤ m
  | state i | dependents i | users i => i = m
  | _ => True

/-- The state up to the time when the counts are found to be zero. -/
structure Loaded (name : CString) (m : ℕ) (s : State) : Prop where
  lt : m < s.slots.length
  first : s.First name m
  ready : (s.slot m).state = .ready
  counted : s.held + owed s.lock ≤ (s.slot m).users.toNat
  place : ∀ p ∈ s.lock, p.2.Near m
  stage : s.stage.Near m
  past : s.stage.past = false
  released : s.released = false

/-- The state from then on. -/
structure Gone (s : State) : Prop where
  past : s.stage.past = true
  held : s.held = 0
  settled : owed s.lock = 0

variable {name : CString} {m : ℕ} {s s' : State}

theorem effect_frame (s : State) : s.effect.held = s.held ∧ s.effect.lock = s.lock := by
  rw [State.effect]
  split
  case h_3 => split <;> exact ⟨rfl, rfl⟩
  all_goals exact ⟨rfl, rfl⟩

theorem effect_of_not_past (h : s.stage.past = false) : s.effect = s := by
  unfold State.effect
  cases hstage : s.stage with
  | depDrop i deps k | stop i | detach i | shrink i | copy i | free =>
    rw [hstage] at h
    cases h
  | _ => rfl

theorem nextStage_past (h : s.stage.past = true) {stage : Stage} (hs : s.nextStage name = some stage) : stage.past = true := by
  unfold State.nextStage at hs
  cases hstage : s.stage with
  | bound i | entry i | state i | dependents i | users i | refused =>
    rw [hstage] at h
    cases h
  | release i deps => cases deps <;> grind [Stage.past]
  | _ => grind [Stage.past]

theorem Gone.unload (h : Gone s) (hs : s.unload name = some s') : Gone s' := by
  obtain ⟨stage, hstage, rfl⟩ := Option.map_eq_some_iff.mp hs
  obtain ⟨hheld, hlock⟩ := effect_frame s
  exact ⟨nextStage_past h.past hstage, hheld.trans h.held, (congrArg owed hlock).trans h.settled⟩

theorem Gone.acquire (h : Gone s) {call : Call} (hs : s.acquire call = some s') : Gone s' := by
  unfold State.acquire at hs
  split at hs
  · cases hs
  · cases hs
    exact ⟨h.past, h.held, rfl⟩
  · rw [h.held] at hs
    cases hs

theorem Gone.advance (h : Gone s) (horderly : s.Orderly .advance) (hs : s.advance name = some s') : Gone s' := by
  obtain ⟨hpast, hheld, howed⟩ := h
  unfold State.advance at hs
  cases hlock : s.lock with
  | none =>
    rw [hlock] at hs
    cases hs
  | some p =>
    obtain ⟨call, place⟩ := p
    rw [hlock] at hs howed
    cases call <;> cases place
    case get.count i => exact absurd ((horderly i hlock).1.symm.trans hpast) (by decide)
    case get.bound i =>
      dsimp only at hs
      split at hs <;> cases hs <;> exact ⟨hpast, hheld, rfl⟩
    case get.entry i | get.check i =>
      cases hs
      refine ⟨hpast, hheld, ?_⟩
      split <;> rfl
    case get.leave result | put.leave result =>
      cases result <;> cases howed
      cases hs
      exact ⟨hpast, hheld, rfl⟩
    all_goals cases howed

theorem Loaded.relock (h : Loaded name m s) {lock : Option (Call × Place)} {held : ℕ}
    (hcounted : held + owed lock ≤ (s.slot m).users.toNat) (hplace : ∀ p ∈ lock, p.2.Near m) :
    Loaded name m { s with lock := lock, held := held } :=
  ⟨h.lt, ⟨h.first.lt, h.first.named, h.first.before⟩, h.ready, hcounted, hplace, h.stage, h.past, h.released⟩

theorem Loaded.hold (h : Loaded name m s) {call : Call} {place : Place} {held : ℕ}
    (hcounted : held + owed (some (call, place)) ≤ (s.slot m).users.toNat) (hplace : place.Near m) :
    Loaded name m { s with lock := some (call, place), held := held } :=
  h.relock hcounted (by rintro p ⟨⟩; exact hplace)

theorem Loaded.acquire (h : Loaded name m s) {call : Call} (hs : s.acquire call = some s') : Loaded name m s' := by
  have hcounted := h.counted
  unfold State.acquire at hs
  split at hs
  · cases hs
  · rename_i hlock
    cases hs
    rw [hlock] at hcounted
    exact h.hold hcounted (Nat.zero_le m)
  · rename_i hlock
    obtain ⟨hheld, hs⟩ := Option.ite_none_right_eq_some.mp hs
    cases hs
    rw [hlock] at hcounted
    refine h.hold ?_ (Nat.zero_le m)
    change s.held - 1 + 1 ≤ _
    rwa [Nat.sub_add_cancel hheld]

theorem slot_modify (s : State) (i j : ℕ) (f : Module → Module) (hi : i < s.slots.length) :
    (s.modify i f).slot j = if i = j then f (s.slot j) else s.slot j := by
  rw [State.slot, State.slot, State.modify, List.getElem?_modify]
  split
  · rename_i hij
    rw [← hij, List.getElem?_eq_getElem hi]
    rfl
  · rw [id_map']

theorem Loaded.recount (h : Loaded name m s) {f : Module → Module} {call : Call} {result : Bool}
    (hinfo : (f (s.slot m)).info = (s.slot m).info) (hstate : (f (s.slot m)).state = (s.slot m).state)
    (hcounted : s.held + owed (some (call, .leave result)) ≤ (f (s.slot m)).users.toNat) :
    Loaded name m { s.modify m f with lock := some (call, .leave result) } := by
  have hslot : ∀ j, (s.modify m f).slot j = if m = j then f (s.slot j) else s.slot j := fun j ↦ slot_modify s m j f h.lt
  have hself := (hslot m).trans (if_pos rfl)
  refine ⟨?_, ⟨h.first.lt, ?_, fun j hj hname ↦ ?_⟩, ?_, ?_, ?_, h.stage, h.past, h.released⟩
  · rw [State.modify, List.length_modify]
    exact h.lt
  · exact (congrArg (·.info.name) hself).trans ((congrArg ModuleInfo.name hinfo).trans h.first.named)
  · have hother := (hslot j).trans (if_neg hj.ne')
    exact h.first.before j hj ((congrArg (·.info.name) hother).symm.trans hname)
  · exact (congrArg Module.state hself).trans (hstate.trans h.ready)
  · exact hcounted.trans_eq (congrArg (·.users.toNat) hself).symm
  · rintro p ⟨⟩
    trivial

theorem Loaded.near_step (h : Loaded name m s) {i : ℕ} (hnear : i ≤ m) :
    ((s.slot i).info.name = name → i = m) ∧ ((s.slot i).info.name ≠ name → i + 1 ≤ m) := by
  refine ⟨fun hname ↦ ?_, fun hname ↦ ?_⟩
  · exact (Nat.lt_or_eq_of_le hnear).resolve_left fun hlt ↦ h.first.before i hlt hname
  · exact Nat.lt_of_le_of_ne hnear fun heq ↦ hname (heq ▸ h.first.named)

theorem Loaded.advance (h : Loaded name m s) (horderly : s.Orderly .advance) (hs : s.advance name = some s') :
    Loaded name m s' := by
  have hcounted := h.counted
  unfold State.advance at hs
  cases hlock : s.lock with
  | none =>
    rw [hlock] at hs
    cases hs
  | some p =>
    obtain ⟨call, place⟩ := p
    have hnear := h.place (call, place) hlock
    rw [hlock] at hs hcounted
    cases place with
    | bound i =>
      have hi := lt_of_le_of_lt hnear h.first.lt
      dsimp only at hs
      rw [if_pos hi] at hs
      cases hs
      refine h.hold ?_ hnear
      cases call <;> exact hcounted
    | entry i =>
      cases hs
      obtain ⟨hfound, hnext⟩ := h.near_step hnear
      refine h.hold ?_ ?_
      · cases call <;> split <;> exact hcounted
      · split
        · exact hfound ‹_›
        · exact hnext ‹_›
    | check i =>
      obtain rfl := hnear
      cases call with
      | get =>
        dsimp only at hs
        rw [if_pos h.ready] at hs
        cases hs
        exact h.hold hcounted rfl
      | put =>
        obtain ⟨-, hs⟩ := Option.ite_none_left_eq_some.mp hs
        cases hs
        exact h.hold hcounted rfl
    | count i =>
      obtain rfl : i = m := hnear
      cases call with
      | get =>
        cases hs
        have hroom := (horderly i hlock).2
        refine h.recount rfl rfl ?_
        change s.held + 1 ≤ ((s.slot i).users + 1).toNat
        rw [UInt32.toNat_add, UInt32.toNat_one, Nat.mod_eq_of_lt hroom]
        exact Nat.succ_le_succ hcounted
      | put =>
        cases hs
        refine h.recount rfl rfl ?_
        have hone : 1 ≤ (s.slot i).users := by
          rw [UInt32.le_iff_toNat_le]
          exact (Nat.le_add_left 1 s.held).trans hcounted
        change s.held + 0 ≤ ((s.slot i).users - 1).toNat
        rw [UInt32.toNat_sub_of_le _ _ hone]
        exact Nat.le_sub_one_of_lt hcounted
    | leave result =>
      cases hs
      refine h.relock ?_ nofun
      cases result <;> cases call <;> exact hcounted

theorem Loaded.unload (h : Loaded name m s) (hs : s.unload name = some s') : Loaded name m s' ∨ Gone s' := by
  obtain ⟨stage, hstage, rfl⟩ := Option.map_eq_some_iff.mp hs
  rw [effect_of_not_past h.past]
  have hnear := h.stage
  have hpast := h.past
  have hgo : stage.Near m → stage.past = false → Loaded name m { s with stage := stage } := fun hn hp ↦
    ⟨h.lt, ⟨h.first.lt, h.first.named, h.first.before⟩, h.ready, h.counted, h.place, hn, hp, h.released⟩
  unfold State.nextStage at hstage
  cases hat : s.stage <;> rw [hat] at hnear hpast hstage <;> cases hpast <;> cases hstage
  case bound i =>
    have hi := lt_of_le_of_lt hnear h.first.lt
    rw [if_pos hi] at hgo ⊢
    exact .inl (hgo hnear rfl)
  case entry i =>
    obtain ⟨hfound, hnext⟩ := h.near_step hnear
    by_cases hname : (s.slot i).info.name = name
    · rw [if_pos hname] at hgo ⊢
      exact .inl (hgo (hfound hname) rfl)
    · rw [if_neg hname] at hgo ⊢
      exact .inl (hgo (hnext hname) rfl)
  case state i =>
    obtain rfl := hnear
    rw [if_pos h.ready] at hgo ⊢
    exact .inl (hgo rfl rfl)
  case dependents i =>
    by_cases hzero : (s.slot i).dependents = 0
    · rw [if_pos hzero] at hgo ⊢
      exact .inl (hgo hnear rfl)
    · rw [if_neg hzero] at hgo ⊢
      exact .inl (hgo trivial rfl)
  case users i =>
    obtain rfl : i = m := hnear
    by_cases hzero : (s.slot i).users = 0
    · -- every reference is counted, so there is none
      have hnone := Nat.eq_zero_of_le_zero (h.counted.trans_eq (by rw [hzero]; rfl))
      rw [if_pos hzero]
      exact .inr ⟨rfl, Nat.eq_zero_of_add_eq_zero_right hnone, Nat.eq_zero_of_add_eq_zero_left hnone⟩
    · rw [if_neg hzero] at hgo ⊢
      exact .inl (hgo trivial rfl)

/-- A module stays loaded as long as there are references to it, in every run where none is taken after
`module_unload` has found that there is none. -/
theorem reached_state_kept (name : CString) {s : State} (h : (system name).Reached State.Orderly s) : s.Kept name := by
  have hinv : (∃ m, Loaded name m s) ∨ Gone s := by
    refine h.invariant (I := fun s ↦ (∃ m, Loaded name m s) ∨ Gone s) ?_ ?_
    · rintro s ⟨⟨m, hlt, hfirst, hready, hheld⟩, hlock, hstage, hreleased⟩
      refine .inl ⟨m, hlt, hfirst, hready, ?_, ?_, ?_, ?_, hreleased⟩
      · rwa [hlock]
      · rw [hlock]
        nofun
      · rw [hstage]
        exact Nat.zero_le m
      · rw [hstage]
        rfl
    · intro s s' a hinv _ horderly hs
      obtain ⟨m, hloaded⟩ | hgone := hinv
      · cases a with
        | acquire call => exact .inl ⟨m, hloaded.acquire hs⟩
        | advance => exact .inl ⟨m, hloaded.advance horderly hs⟩
        | unload => exact (hloaded.unload hs).imp_left fun h ↦ ⟨m, h⟩
      · cases a with
        | acquire call => exact .inr (hgone.acquire hs)
        | advance => exact .inr (hgone.advance horderly hs)
        | unload => exact .inr (hgone.unload hs)
  intro hheld
  obtain ⟨m, hloaded⟩ | hgone := hinv
  · exact ⟨hloaded.released, m, hloaded.first, hloaded.ready⟩
  · exact absurd hgone.held hheld.ne'

def oneModule : State where
  slots := [⟨plainInfo "a" [], .ready, 0, 0, 0, 4096, 1⟩]
  registered := 1
  lock := none
  stage := .bound 0
  held := 0
  released := false

theorem started_oneModule : oneModule.Started (cstring "a") :=
  ⟨⟨0, by decide, ⟨by decide, by decide, nofun⟩, by decide, by decide⟩, rfl, rfl, rfl⟩

/-- The check of `Orderly` for a step. -/
def orderly (s : State) : Action → Bool
  | .advance =>
    match s.lock with
    | some (.get, .count i) => s.stage.past = false ∧ (s.slot i).users.toNat + 1 < 2 ^ 32
    | _ => true
  | _ => true

theorem orderly_sound (s : State) (a : Action) (h : orderly s a = true) : True ∧ s.Orderly a := by
  refine ⟨trivial, ?_⟩
  cases a with
  | acquire call | unload => trivial
  | advance =>
    intro i hlock
    rw [orderly, hlock] at h
    exact of_decide_eq_true h

/-- A reference is taken while the module is about to be unloaded, which then is refused. -/
theorem reached_state_kept_refused : ∃ s, (system (cstring "a")).Reached State.Orderly s ∧
    (s.held = 1 ∧ s.stage = .refused) ∧ s.Kept (cstring "a") := by
  have hstart : (system (cstring "a")).Reached State.Orderly oneModule := .init started_oneModule
  obtain ⟨s, hs, hheld⟩ := hstart.exists_of_replay orderly_sound
    (l := [.unload, .unload, .unload, .acquire .get, .advance, .advance, .unload, .advance, .advance, .advance, .unload])
    (P := fun s ↦ s.held = 1 ∧ s.stage = .refused) (by decide +kernel)
  exact ⟨s, hs, hheld, reached_state_kept (cstring "a") hs⟩

/-- A reference is taken after the counts have been found to be zero. The image is released all the same. -/
theorem get_loses_module : ∃ s, (system (cstring "a")).Reached (fun _ _ ↦ True) s ∧ (s.held = 1 ∧ s.released = true) ∧
    ¬ s.Kept (cstring "a") := by
  have hstart : (system (cstring "a")).Reached (fun _ _ ↦ True) oneModule := .init started_oneModule
  have hcheck : ∀ (s : State) (a : Action), (fun (_ : State) (_ : Action) ↦ true) s a = true → True ∧ True :=
    fun _ _ _ ↦ ⟨trivial, trivial⟩
  obtain ⟨s, hs, hheld, hreleased⟩ := hstart.exists_of_replay hcheck
    (l := [.unload, .unload, .unload, .unload, .unload, .acquire .get, .advance, .advance, .advance, .advance, .advance,
      .unload, .unload, .unload, .unload, .unload, .unload, .unload, .unload])
    (P := fun s ↦ s.held = 1 ∧ s.released = true) (by decide +kernel)
  refine ⟨s, hs, ⟨hheld, hreleased⟩, fun hkept ↦ ?_⟩
  have hpos : 0 < s.held := by
    rw [hheld]
    decide
  exact absurd ((hkept hpos).1.symm.trans hreleased) (by decide)

end Eris.Modules.Races
