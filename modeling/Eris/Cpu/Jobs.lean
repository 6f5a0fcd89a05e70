import Eris.Library.Transition
import Eris.Sched.Scheduler

namespace Eris.Cpu.Jobs

open Library Sched Finset

/-- The places in `smp_run_on_others` between two accesses to what the cores can see. -/
inductive Place
  | idle
  | reset
  | post
  | raise
  | wait
  | last
  deriving DecidableEq

/-- The places in the loop of `ap_entry`. A job that runs is known by the call that it was passed to. -/
inductive Stage
  | enter
  | poll
  | noticed
  | running (call : ℕ)
  | counting
  deriving DecidableEq

/-- A core with the generation that it has seen and, for the record, the calls whose jobs it has run to their ends. -/
structure Core where
  stage : Stage
  seen : ℕ
  finished : List ℕ

structure Answer where
  call : ℕ
  job : ℕ
  result : Bool
  deriving DecidableEq

/-- The core that calls and the others, which poll. A job is known by its address. The last three fields only record
the number of calls, the call that the pending job was passed to, and what was answered. -/
structure State (ι : Type) where
  jobGeneration : ℕ
  jobFinished : ℕ
  pendingJob : ℕ
  place : Place
  job : ℕ
  cores : ι → Core
  call : ℕ
  pendingCall : ℕ
  answers : List Answer

inductive Action (ι : Type)
  | call (job : ℕ)
  | caller
  | deadline
  | core (i : ι)

variable {ι : Type}

def start : State ι where
  jobGeneration := 0
  jobFinished := 0
  pendingJob := 0
  place := .idle
  job := 0
  cores _ := ⟨.enter, 0, []⟩
  call := 0
  pendingCall := 0
  answers := []

namespace State

section

variable [Fintype ι] (s : State ι)

def others (_ : State ι) : ℕ := Fintype.card ι % 2 ^ 32

/-- The call of `smp_run_on_others` up to its first access to what the cores can see. -/
def enter (job : ℕ) : State ι :=
  if s.others = 0 ∨ job = 0 then
    { s with call := s.call + 1, answers := ⟨s.call + 1, job, true⟩ :: s.answers }
  else { s with call := s.call + 1, job := job, place := .reset }

def smpRunOnOthers : Option (State ι) :=
  match s.place with
  | .idle => none
  | .reset => some { s with jobFinished := 0, place := .post }
  | .post => some { s with pendingJob := s.job, pendingCall := s.call, place := .raise }
  | .raise => some { s with jobGeneration := (s.jobGeneration + 1) % 2 ^ 64, place := .wait }
  | .wait => if s.jobFinished < s.others then some s else some { s with place := .last }
  | .last => some { s with place := .idle, answers := ⟨s.call, s.job, s.others ≤ s.jobFinished⟩ :: s.answers }

def deadline : Option (State ι) :=
  if s.place = .wait ∧ s.jobFinished < s.others then some { s with place := .last } else none

variable [DecidableEq ι]

def put (i : ι) (c : Core) : State ι := { s with cores := Function.update s.cores i c }

/-- A core takes one step in the loop of `ap_entry`. -/
def apEntry (i : ι) : State ι :=
  let c := s.cores i
  match c.stage with
  | .enter => s.put i { c with stage := .poll, seen := s.jobGeneration }
  | .poll => if s.jobGeneration = c.seen then s else s.put i { c with stage := .noticed, seen := s.jobGeneration }
  | .noticed => s.put i { c with stage := if s.pendingJob = 0 then .counting else .running s.pendingCall }
  | .running call => s.put i { c with stage := .counting, finished := call :: c.finished }
  | .counting => { s.put i { c with stage := .poll } with jobFinished := (s.jobFinished + 1) % 2 ^ 32 }

def step (s : State ι) : Action ι → Option (State ι)
  | .call job => if s.place = .idle then some (s.enter job) else none
  | .caller => s.smpRunOnOthers
  | .deadline => s.deadline
  | .core i => some (s.apEntry i)

end

end State

def system (ι : Type) [Fintype ι] [DecidableEq ι] : System (State ι) (Action ι) where
  init s := s = start
  enabled _ _ := True
  step := State.step

def Core.Resting (c : Core) : Prop := c.stage = .enter ∨ c.stage = .poll

instance (c : Core) : Decidable c.Resting := inferInstanceAs (Decidable (_ ∨ _))

namespace State

/-- When a call sets the count to zero no core is at a job, and until it has raised the generation no core takes notice
of an earlier one. -/
def Orderly (s : State ι) : Action ι → Prop
  | .caller => s.place = .reset → ∀ i, (s.cores i).Resting
  | .core i => s.place = .post ∨ s.place = .raise → (s.cores i).stage = .poll → s.jobGeneration = (s.cores i).seen
  | _ => True

def counted [Fintype ι] (s : State ι) : Finset ι :=
  Finset.univ.filter fun i ↦ s.call ∈ (s.cores i).finished ∧ (s.cores i).stage ≠ .counting

def Served (s : State ι) (c : Core) : Prop :=
  match c.stage with
  | .enter => True
  | .poll => s.call ∈ c.finished → c.seen = s.jobGeneration
  | .noticed => c.seen = s.jobGeneration ∧ s.call ∉ c.finished
  | .running call => c.seen = s.jobGeneration ∧ call = s.call ∧ s.call ∉ c.finished
  | .counting => c.seen = s.jobGeneration ∧ s.call ∈ c.finished

/-- What the cores know of the calls. -/
structure Numbered (s : State ι) : Prop where
  pending : s.pendingCall ≤ s.call
  ahead : s.place = .reset ∨ s.place = .post → s.pendingCall < s.call
  posted : s.place = .raise ∨ s.place = .wait ∨ s.place = .last → s.pendingCall = s.call ∧ s.pendingJob = s.job
  real : s.place ≠ .idle → s.job ≠ 0
  finished : ∀ i, ∀ k ∈ (s.cores i).finished, k ≤ s.pendingCall
  running : ∀ i k, (s.cores i).stage = .running k → k ≤ s.pendingCall

/-- How far the present call has come. -/
structure Counting [Fintype ι] (s : State ι) : Prop where
  quiet : s.place = .post ∨ s.place = .raise → s.jobFinished = 0 ∧ ∀ i, (s.cores i).Resting
  fresh : s.place = .raise → ∀ i, s.call ∉ (s.cores i).finished
  served : s.place = .wait ∨ s.place = .last → ∀ i, s.Served (s.cores i)
  count : s.place = .wait ∨ s.place = .last → s.jobFinished ≤ s.counted.card

def Answered (s : State ι) : Prop :=
  ∀ a ∈ s.answers, a.result = true → a.job ≠ 0 → ∀ i, a.call ∈ (s.cores i).finished

structure Sound [Fintype ι] (s : State ι) : Prop where
  numbered : Numbered s
  counting : Counting s
  answered : Answered s

variable {s s' : State ι} {i : ι} {c : Core}

theorem Numbered.not_mem (h : Numbered s) (hahead : s.pendingCall < s.call) (i : ι) :
    s.call ∉ (s.cores i).finished := by
  intro hmem
  have := h.finished i _ hmem
  omega

theorem put_cores [DecidableEq ι] (i j : ι) (c : Core) : (s.put i c).cores j = if j = i then c else s.cores j :=
  Function.update_apply ..

variable [Fintype ι]

theorem others_eq (hcard : Fintype.card ι < maxCpus) : s.others = Fintype.card ι :=
  Nat.mod_eq_of_lt (hcard.trans (by decide))

theorem Counting.all_finished (h : Counting s) (hcard : Fintype.card ι < maxCpus) (hlast : s.place = .last)
    (hcount : s.others ≤ s.jobFinished) (i : ι) : s.call ∈ (s.cores i).finished := by
  have hall : s.counted = Finset.univ := by
    apply eq_univ_of_card
    have hle := h.count (.inr hlast)
    rw [others_eq hcard] at hcount
    exact le_antisymm (card_le_univ _) (hcount.trans hle)
  have hi := hall ▸ mem_univ i
  exact (mem_filter.mp hi).2.1

theorem Sound.enter (h : Sound s) (hidle : s.place = .idle) (hcard : Fintype.card ι < maxCpus) (job : ℕ) :
    Sound (s.enter job) := by
  obtain ⟨hn, hc, ha⟩ := h
  unfold State.enter
  split
  · rename_i hnone
    refine ⟨{ hn with pending := hn.pending.trans (Nat.le_succ _), ahead := by simp [hidle], posted := by simp [hidle] },
      by constructor <;> simp [hidle], ?_⟩
    intro a hmem hresult hjob i
    rcases List.mem_cons.mp hmem with rfl | hmem
    · rcases hnone with hnone | hnone
      · rw [others_eq hcard] at hnone
        exact (Fintype.card_eq_zero_iff.mp hnone).elim i
      · exact absurd hnone hjob
    · exact ha a hmem hresult hjob i
  · rename_i hsome
    rw [not_or] at hsome
    refine ⟨{ hn with
      pending := hn.pending.trans (Nat.le_succ _)
      ahead := fun _ ↦ Nat.lt_succ_of_le hn.pending
      posted := by simp
      real := fun _ ↦ hsome.2 }, by constructor <;> simp, ha⟩

theorem Sound.leave (h : Sound s) (hplace : s.place = .wait) : Sound { s with place := .last } := by
  obtain ⟨hn, hc, ha⟩ := h
  refine ⟨{ hn with ahead := by simp, posted := fun _ ↦ hn.posted (by simp [hplace]), real := fun _ ↦ hn.real (by simp [hplace]) },
    ⟨by simp, by simp, fun _ ↦ hc.served (.inl hplace), fun _ ↦ hc.count (.inl hplace)⟩, ha⟩

theorem Sound.deadline (h : Sound s) (hs : s.deadline = some s') : Sound s' := by
  unfold State.deadline at hs
  split at hs
  · rename_i hplace
    cases hs
    exact h.leave hplace.1
  · cases hs

theorem Sound.caller (h : Sound s) (hcard : Fintype.card ι < maxCpus) (hok : s.Orderly .caller)
    (hs : s.smpRunOnOthers = some s') : Sound s' := by
  have hall := h
  obtain ⟨hn, hc, ha⟩ := h
  unfold smpRunOnOthers at hs
  split at hs
  · cases hs
  · rename_i hplace
    cases hs
    refine ⟨{ hn with ahead := fun _ ↦ hn.ahead (.inl hplace), posted := by simp, real := fun _ ↦ hn.real (by simp [hplace]) },
      ⟨fun _ ↦ ⟨rfl, hok hplace⟩, by simp, by simp, by simp⟩, ha⟩
  · rename_i hplace
    cases hs
    have hahead := hn.ahead (.inr hplace)
    refine ⟨⟨le_rfl, by simp, fun _ ↦ ⟨rfl, rfl⟩, fun _ ↦ hn.real (by simp [hplace]), ?_, ?_⟩,
      ⟨fun _ ↦ hc.quiet (.inl hplace), fun _ ↦ hn.not_mem hahead, by simp, by simp⟩, ha⟩
    · exact fun i k hk ↦ (hn.finished i k hk).trans hahead.le
    · exact fun i k hk ↦ (hn.running i k hk).trans hahead.le
  · rename_i hplace
    cases hs
    obtain ⟨hzero, hrest⟩ := hc.quiet (.inr hplace)
    refine ⟨{ hn with ahead := by simp, posted := fun _ ↦ hn.posted (.inl hplace), real := fun _ ↦ hn.real (by simp [hplace]) },
      ⟨by simp, by simp, fun _ i ↦ ?_, fun _ ↦ hzero.trans_le (Nat.zero_le _)⟩, ha⟩
    have hfresh := hc.fresh hplace i
    rcases hrest i with hstage | hstage <;> simp [Served, hstage, hfresh]
  · rename_i hplace
    split at hs
    · cases hs
      exact hall
    · cases hs
      exact hall.leave hplace
  · rename_i hplace
    cases hs
    refine ⟨{ hn with ahead := by simp, posted := by simp, real := by simp }, by constructor <;> simp, ?_⟩
    intro a hmem hresult hjob i
    rcases List.mem_cons.mp hmem with rfl | hmem
    · exact hc.all_finished hcard hplace (of_decide_eq_true hresult) i
    · exact ha a hmem hresult hjob i

variable [DecidableEq ι]

theorem Sound.put (h : Sound s) {n : ℕ} (hkeep : ∀ k ∈ (s.cores i).finished, k ∈ c.finished)
    (hfinished : ∀ k ∈ c.finished, k ≤ s.pendingCall) (hrunning : ∀ k, c.stage = .running k → k ≤ s.pendingCall)
    (hquiet : s.place = .post ∨ s.place = .raise → n = 0 ∧ c.Resting) (hfresh : s.place = .raise → s.call ∉ c.finished)
    (hserved : s.place = .wait ∨ s.place = .last → s.Served c)
    (hcount : s.place = .wait ∨ s.place = .last → n ≤ (s.put i c).counted.card) :
    Sound { s.put i c with jobFinished := n } := by
  obtain ⟨hn, hc, ha⟩ := h
  have hat : ∀ {P : Core → Prop}, (∀ j, P (s.cores j)) → P c → ∀ j, P ((s.put i c).cores j) := by
    intro P hall hself j
    rw [put_cores]
    split
    · exact hself
    · exact hall j
  refine ⟨⟨hn.pending, hn.ahead, hn.posted, hn.real, hat (P := fun c ↦ ∀ k ∈ c.finished, k ≤ s.pendingCall) hn.finished hfinished,
    hat (P := fun c ↦ ∀ k, c.stage = .running k → k ≤ s.pendingCall) hn.running hrunning⟩, ⟨?_, ?_, ?_, ?_⟩, ?_⟩
  · exact fun hplace ↦ ⟨(hquiet hplace).1, hat (hc.quiet hplace).2 (hquiet hplace).2⟩
  · exact fun hplace ↦ hat (P := fun c ↦ s.call ∉ c.finished) (hc.fresh hplace) (hfresh hplace)
  · exact fun hplace ↦ hat (hc.served hplace) (hserved hplace)
  · exact hcount
  · intro a hmem hresult hjob
    exact hat (P := fun c ↦ a.call ∈ c.finished) (ha a hmem hresult hjob) (hkeep _ (ha a hmem hresult hjob i))

theorem counted_put (h : i ∈ s.counted → s.call ∈ c.finished ∧ c.stage ≠ .counting) :
    s.counted ⊆ (s.put i c).counted := by
  intro j hj
  rw [counted, mem_filter, put_cores]
  refine ⟨mem_univ j, ?_⟩
  split
  · rename_i hji
    exact h (hji ▸ hj)
  · exact (mem_filter.mp hj).2

theorem Sound.core (h : Sound s) (hok : s.Orderly (.core i)) : Sound (s.apEntry i) := by
  have hn := h.numbered
  have hc := h.counting
  have hserved := fun hplace ↦ hc.served hplace i
  have hbusy : ¬ (s.cores i).Resting → ¬ (s.place = .post ∨ s.place = .raise) :=
    fun hrest hplace ↦ hrest ((hc.quiet hplace).2 i)
  have hcount : ∀ {c : Core}, (s.call ∈ (s.cores i).finished → s.call ∈ c.finished ∧ c.stage ≠ .counting) →
      s.place = .wait ∨ s.place = .last → s.jobFinished ≤ (s.put i c).counted.card := by
    intro c hkeep hplace
    refine (hc.count hplace).trans (card_le_card (counted_put fun hi ↦ hkeep ?_))
    exact (mem_filter.mp hi).2.1
  unfold apEntry
  dsimp only
  split
  · refine h.put (fun _ hk ↦ hk) (hn.finished i) nofun (fun hplace ↦ ?_) (fun hplace ↦ hc.fresh hplace i) (fun _ _ ↦ rfl)
      (hcount fun hcall ↦ ⟨hcall, nofun⟩)
    exact ⟨(hc.quiet hplace).1, .inr rfl⟩
  · rename_i hstage
    split
    · exact h
    · rename_i hne
      refine h.put (fun _ hk ↦ hk) (hn.finished i) nofun (fun hplace ↦ ?_) (fun hplace ↦ hc.fresh hplace i)
        (fun hplace ↦ ⟨rfl, fun hcall ↦ ?_⟩) (hcount fun hcall ↦ ⟨hcall, nofun⟩)
      · exact absurd (hok hplace hstage) hne
      · have hseen := hserved hplace
        rw [Served, hstage] at hseen
        exact hne (hseen hcall).symm
  · rename_i hstage
    have hbusy := hbusy (by simp [Core.Resting, hstage])
    simp only [Served, hstage] at hserved
    refine h.put (fun _ hk ↦ hk) (hn.finished i) (fun k hk ↦ ?_) (fun hplace ↦ absurd hplace hbusy)
      (fun hplace ↦ absurd (.inr hplace) hbusy) (fun hplace ↦ ?_) (fun hplace ↦ hcount (fun hcall ↦ ?_) hplace)
    · dsimp only at hk
      split at hk
      · cases hk
      · cases hk
        exact le_rfl
    · obtain ⟨hcall, hjob⟩ := hn.posted (.inr hplace)
      have hreal := hn.real (by rcases hplace with hplace | hplace <;> simp [hplace])
      simp only [Served, hjob, if_neg hreal]
      exact ⟨(hserved hplace).1, hcall, (hserved hplace).2⟩
    · exact absurd hcall (hserved hplace).2
  · rename_i call hstage
    have hbusy := hbusy (by simp [Core.Resting, hstage])
    simp only [Served, hstage] at hserved
    refine h.put (fun _ hk ↦ List.mem_cons_of_mem _ hk) (fun k hk ↦ ?_) nofun (fun hplace ↦ absurd hplace hbusy)
      (fun hplace ↦ absurd (.inr hplace) hbusy) (fun hplace ↦ ?_) (fun hplace ↦ hcount (fun hcall ↦ ?_) hplace)
    · rcases List.mem_cons.mp hk with rfl | hk
      · exact hn.running i k hstage
      · exact hn.finished i k hk
    · obtain ⟨hseen, hcall, -⟩ := hserved hplace
      exact ⟨hseen, List.mem_cons.mpr (.inl hcall.symm)⟩
    · exact absurd hcall (hserved hplace).2.2
  · rename_i hstage
    have hbusy := hbusy (by simp [Core.Resting, hstage])
    simp only [Served, hstage] at hserved
    refine h.put (fun _ hk ↦ hk) (hn.finished i) nofun (fun hplace ↦ absurd hplace hbusy)
      (fun hplace ↦ absurd (.inr hplace) hbusy) (fun hplace _ ↦ (hserved hplace).1) (fun hplace ↦ ?_)
    have hcall := (hserved hplace).2
    have hnew : insert i s.counted ⊆ (s.put i { s.cores i with stage := .poll }).counted := by
      refine insert_subset ?_ (counted_put fun _ ↦ ⟨hcall, nofun⟩)
      rw [counted, mem_filter, put_cores, if_pos rfl]
      exact ⟨mem_univ i, hcall, nofun⟩
    have hout : i ∉ s.counted := fun hi ↦ (mem_filter.mp hi).2.2 hstage
    calc (s.jobFinished + 1) % 2 ^ 32 ≤ s.jobFinished + 1 := Nat.mod_le _ _
      _ ≤ s.counted.card + 1 := Nat.add_le_add_right (hc.count hplace) 1
      _ = (insert i s.counted).card := (card_insert_of_notMem hout).symm
      _ ≤ _ := card_le_card hnew

end State

open State

variable [Fintype ι] {s : State ι}

theorem sound_start : Sound (start : State ι) := by
  refine ⟨?_, ?_, ?_⟩
  · constructor <;> simp [start]
  · constructor <;> simp [start]
  · simp [Answered, start]

variable [DecidableEq ι]

theorem reached_sound (hcard : Fintype.card ι < maxCpus) (h : (system ι).Reached Orderly s) : Sound s := by
  refine h.invariant (fun s hs ↦ hs ▸ sound_start) fun s s' a hsound _ hok hs ↦ ?_
  cases a with
  | call job =>
    obtain ⟨hidle, hs⟩ := Option.ite_none_right_eq_some.mp hs
    cases hs
    exact hsound.enter hidle hcard job
  | caller => exact hsound.caller hcard hok hs
  | deadline => exact hsound.deadline hs
  | core i =>
    cases hs
    exact hsound.core hok

/-- In every orderly run a call that returns true finds the job run to its end on every other core. -/
theorem reached_finished (hcard : Fintype.card ι < maxCpus) (h : (system ι).Reached Orderly s) {a : Answer}
    (ha : a ∈ s.answers) (hresult : a.result = true) (hjob : a.job ≠ 0) (i : ι) : a.call ∈ (s.cores i).finished :=
  (reached_sound hcard h).answered a ha hresult hjob i

instance (s : State ι) : DecidablePred s.Orderly
  | .call _ => .isTrue trivial
  | .caller => inferInstanceAs (Decidable (_ → ∀ _, _))
  | .deadline => .isTrue trivial
  | .core _ => inferInstanceAs (Decidable (_ → _ → _))

/-- The first call is given up, and the cores come to its job before the second one is made. -/
theorem reached_finished_late : ∃ s : State (Fin 2), (system (Fin 2)).Reached Orderly s ∧
    s.answers = [⟨2, 200, true⟩, ⟨1, 100, false⟩] ∧ ∀ i, 2 ∈ (s.cores i).finished := by
  have hstart : (system (Fin 2)).Reached Orderly start := .init rfl
  have hcheck : ∀ (s : State (Fin 2)) a, decide (s.Orderly a) = true → True ∧ s.Orderly a :=
    fun s a ha ↦ ⟨trivial, of_decide_eq_true ha⟩
  obtain ⟨s, hs, hanswers⟩ := hstart.exists_of_replay hcheck
    (l := [.core 0, .core 1, .call 100, .caller, .caller, .caller, .core 0, .deadline, .caller] ++
      List.replicate 3 (.core 0) ++ List.replicate 4 (.core 1) ++ [.call 200, .caller, .caller, .caller] ++
      List.replicate 4 (.core 0) ++ List.replicate 4 (.core 1) ++ [.caller, .caller])
    (P := fun s ↦ s.answers = [⟨2, 200, true⟩, ⟨1, 100, false⟩]) (by decide +kernel)
  have hmem : ⟨2, 200, true⟩ ∈ s.answers := by simp [hanswers]
  exact ⟨s, hs, hanswers, reached_finished (by decide) hs hmem rfl (by decide)⟩

/-- A core that ends the job of a call that was given up is counted for the next call. -/
theorem late_job_counted : ∃ s : State (Fin 1), (system (Fin 1)).Reached (fun _ _ ↦ True) s ∧
    s.answers = [⟨2, 200, true⟩, ⟨1, 100, false⟩] ∧ 2 ∉ (s.cores 0).finished := by
  have hstart : (system (Fin 1)).Reached (fun _ _ ↦ True) start := .init rfl
  have hcheck : ∀ (_ : State (Fin 1)) (_ : Action (Fin 1)), true = true → True ∧ True :=
    fun _ _ _ ↦ ⟨trivial, trivial⟩
  exact hstart.exists_of_replay hcheck
    (l := [.core 0, .call 100, .caller, .caller, .caller, .core 0, .core 0, .deadline, .caller, .call 200, .caller,
      .caller, .caller, .core 0, .core 0, .caller, .caller]) (by decide +kernel)

end Eris.Cpu.Jobs
