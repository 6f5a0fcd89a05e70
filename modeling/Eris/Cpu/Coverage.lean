import Eris.Cpu.Startup

namespace Eris.Cpu

open Library Mm Sched Function

namespace State

variable {p : Platform} {s s' : State}

/-- There is memory for the stack that `smp_init` asks for. -/
def Ample (s : State) : Action → Prop
  | .boot => s.boot.phase = .allocate → (s.frames.allocPages apStackPages).2 ≠ 0
  | _ => True

/-- The core has got this index, an INIT and a STARTUP. -/
def Called (s : State) (k : ℕ) (a : UInt32) : Prop :=
  (∃ q, s.prepared a = some q ∧ q.index = k) ∧ 2 ≤ (s.cores a).stage.rank

/-- How far the loop of `smp_init` has come with the current id. -/
def Underway (p : Platform) (s : State) : Prop :=
  1 ≤ s.boot.phase.rank → s.boot.phase.rank ≤ 12 → s.boot.i < p.apicIds.length ∧ s.current p ≠ p.lapicId ∧
    (3 ≤ s.boot.phase.rank → ∃ q, s.prepared (s.current p) = some q ∧ q.index = s.boot.i) ∧
    (9 ≤ s.boot.phase.rank → 1 ≤ (s.cores (s.current p)).stage.rank) ∧
    (10 ≤ s.boot.phase.rank → 2 ≤ (s.cores (s.current p)).stage.rank)

structure Visits (p : Platform) (s : State) : Prop where
  pos : 1 ≤ s.boot.i
  only : ∀ a q, s.prepared a = some q → 1 ≤ q.index ∧ p.apicIds[q.index]? = some a ∧ a ≠ p.lapicId
  sent : ∀ a, (s.cores a).stage ≠ .off → s.prepared a ≠ none
  called : ∀ k a, 1 ≤ k → k < s.boot.i → p.apicIds[k]? = some a → a ≠ p.lapicId → s.Called k a
  underway : Underway p s
  ended : 13 ≤ s.boot.phase.rank → p.apicIds.length ≤ s.boot.i ∨ maxCpus ≤ s.boot.i

theorem current_eq (hi : s'.boot.i = s.boot.i) : s'.current p = s.current p := congrArg p.cpuApicId hi

theorem ne_current {k : ℕ} {a : UInt32} (hin : s.boot.i < p.apicIds.length) (hk : k < s.boot.i)
    (hmem : p.apicIds[k]? = some a) : a ≠ s.current p := by
  rintro rfl
  exact (Nat.ne_of_gt hk) ((List.getElem?_inj hin p.nodup).mp ((getElem?_current hin).trans hmem.symm))

/-- The stages of the cores rise, but for the current one, which may begin anew. -/
def Rises (p : Platform) (s s' : State) : Prop :=
  ∀ a, s.boot.i < p.apicIds.length ∧ a = s.current p ∧ s.prepared a ≠ none ∨
    (s.cores a).stage.rank ≤ (s'.cores a).stage.rank ∧ ((s.cores a).stage = .off → (s'.cores a).stage = .off)

theorem rises_of_eq (h : s'.cores = s.cores) : Rises p s s' := fun _ ↦ .inr (by rw [h]; exact ⟨Nat.le_refl _, id⟩)

theorem rank_put {a : UInt32} {c : Core} (hon : (s.cores a).stage ≠ .off) (hrank : (s.cores a).stage.rank ≤ c.stage.rank)
    (b : UInt32) : (s.cores b).stage.rank ≤ (update s.cores a c b).stage.rank ∧
      ((s.cores b).stage = .off → (update s.cores a c b).stage = .off) := by
  rw [update_apply]
  split
  case isTrue hb => exact hb ▸ ⟨hrank, fun hoff ↦ absurd hoff hon⟩
  case isFalse => exact ⟨Nat.le_refl _, id⟩

theorem run_cores {a : UInt32} (hs : s.run p a = some s') : s'.boot = s.boot ∧ s'.prepared = s.prepared ∧
    ∀ b, (s.cores b).stage.rank ≤ (s'.cores b).stage.rank ∧ ((s.cores b).stage = .off → (s'.cores b).stage = .off) := by
  cases hstage : (s.cores a).stage <;> simp only [run, hstage] at hs <;> (try split at hs) <;> cases hs <;>
    exact ⟨rfl, rfl, rank_put (by rw [hstage]; decide) (by rw [hstage]; exact Nat.le_succ _)⟩

theorem absurd_le {P : Prop} {m n : ℕ} (h : m.ble n = false) (hle : m ≤ n) : P :=
  absurd (Nat.ble_eq_true_of_le hle) (h ▸ Bool.false_ne_true)

section

variable (h : Visits p s)

include h

theorem Visits.keep (hi : s'.boot.i = s.boot.i) (hprepared : s'.prepared = s.prepared) (hcores : Rises p s s')
    (hunderway : Underway p s') (hended : 13 ≤ s'.boot.phase.rank → p.apicIds.length ≤ s.boot.i ∨ maxCpus ≤ s.boot.i) :
    Visits p s' := by
  refine ⟨by rw [hi]; exact h.pos, by rw [hprepared]; exact h.only, fun a ha ↦ ?_, fun k a hk hlt hmem hne ↦ ?_,
    hunderway, by rw [hi]; exact hended⟩
  · rw [hprepared]
    rcases hcores a with ⟨-, -, hq⟩ | ⟨-, hoff⟩
    · exact hq
    · exact h.sent a (mt hoff ha)
  · rw [hi] at hlt
    obtain ⟨hq, hrank⟩ := h.called k a hk hlt hmem hne
    rcases hcores a with ⟨hin, ha, -⟩ | ⟨hle, -⟩
    · exact absurd ha (ne_current hin hlt hmem)
    · exact ⟨by rw [hprepared]; exact hq, Nat.le_trans hrank hle⟩

/-- A step between the slots and the end of the wait. -/
theorem Visits.within {old : Phase} (hold : s.boot.phase = old) (hlow : 3 ≤ old.rank) (hhigh : old.rank ≤ 12)
    (hrank : s'.boot.phase.rank ≤ 12) (hi : s'.boot.i = s.boot.i) (hprepared : s'.prepared = s.prepared)
    (hcores : Rises p s s') (hnine : 9 ≤ s'.boot.phase.rank → 1 ≤ (s'.cores (s.current p)).stage.rank)
    (hten : 10 ≤ s'.boot.phase.rank → 2 ≤ (s'.cores (s.current p)).stage.rank) : Visits p s' := by
  subst hold
  obtain ⟨hin, hne, hq, -⟩ := h.underway (by omega) hhigh
  refine h.keep hi hprepared hcores (fun _ _ ↦ ?_) fun hr ↦ by omega
  rw [current_eq hi, hi, hprepared]
  exact ⟨hin, hne, fun _ ↦ hq hlow, hnine, hten⟩

theorem Visits.startup {old new : Phase} (hold : s.boot.phase = old) (hlow : 9 ≤ old.rank) (hhigh : old.rank ≤ 12)
    (hrank : new.rank ≤ 12) : Visits p ((s.goto new).lapicSendStartup (s.current p)) := by
  obtain ⟨-, -, -, hsent, -⟩ := h.underway (by rw [hold]; omega) (by rwa [hold])
  have hone := hsent (by rwa [hold])
  rw [lapicSendStartup]
  split
  case isTrue hwaiting =>
    change (s.cores (s.current p)).stage = .waiting at hwaiting
    have hcore : (update s.cores (s.current p) { s.cores (s.current p) with stage := .started } (s.current p)).stage.rank = 2 := by
      rw [update_self]
      rfl
    exact h.within hold (by omega) hhigh hrank rfl rfl (fun b ↦ .inr (rank_put (by rw [hwaiting]; nofun)
      (by rw [hwaiting]; exact Nat.le_succ _) b)) (fun _ ↦ hcore ▸ Nat.le_succ 1) fun _ ↦ hcore ▸ Nat.le_refl 2
  case isFalse hother =>
    have htwo : 2 ≤ (s.cores (s.current p)).stage.rank := by
      revert hone hother
      change _ → (s.cores (s.current p)).stage ≠ _ → _
      cases (s.cores (s.current p)).stage <;> decide
    exact h.within hold (by omega) hhigh hrank rfl rfl (rises_of_eq rfl) (fun _ ↦ hone) fun _ ↦ htwo

theorem Visits.run {a : UInt32} (hs : s.run p a = some s') : Visits p s' := by
  obtain ⟨hboot, hprepared, hcores⟩ := run_cores hs
  refine h.keep (by rw [hboot]) hprepared (fun a ↦ .inr (hcores a)) (fun hone htwelve ↦ ?_) (by rw [hboot]; exact h.ended)
  have hcurrent : s'.current p = s.current p := current_eq (by rw [hboot])
  rw [hboot] at hone htwelve ⊢
  obtain ⟨hin, hne, hq, hwaiting, hstarted⟩ := h.underway hone htwelve
  rw [hcurrent, hprepared]
  have hcore := (hcores (s.current p)).1
  exact ⟨hin, hne, hq, fun hr ↦ Nat.le_trans (hwaiting hr) hcore, fun hr ↦ Nat.le_trans (hstarted hr) hcore⟩

theorem Visits.next (hrank : s.boot.phase.rank = 12 ∨ s.boot.phase.rank = 0 ∧ s.current p = p.lapicId)
    (hi : s'.boot.i = s.boot.i + 1) (hphase : s'.boot.phase.rank = 0) (hprepared : s'.prepared = s.prepared)
    (hcores : s'.cores = s.cores) : Visits p s' := by
  refine ⟨by omega, by rw [hprepared]; exact h.only, by rw [hcores, hprepared]; exact h.sent, fun k a hk hlt hmem hne ↦ ?_,
    fun hone ↦ by omega, fun hr ↦ by omega⟩
  rw [Called, hcores, hprepared]
  rcases Nat.lt_succ_iff_lt_or_eq.mp (hi ▸ hlt) with hlt | rfl
  · exact h.called k a hk hlt hmem hne
  · have ha : a = s.current p := by
      rw [current, Platform.cpuApicId, List.getD_eq_getElem?_getD, hmem]
      rfl
    rcases hrank with hrank | ⟨-, hboot⟩
    · obtain ⟨-, -, hq, -, hstarted⟩ := h.underway (by omega) (by omega)
      rw [ha]
      exact ⟨hq (by omega), hstarted (by omega)⟩
    · exact absurd (ha.trans hboot) hne

theorem Visits.stack (hphase : s.boot.phase = .stack) (hs : s.smpInit p = some s') : Visits p s' := by
  have hrank : s.boot.phase.rank = 2 := by rw [hphase]; rfl
  obtain ⟨hin, hne, -⟩ := h.underway (by omega) (by omega)
  simp only [smpInit, hphase] at hs
  cases hs
  refine ⟨h.pos, fun a q hq ↦ ?_, fun a ha ↦ ?_, fun k a hk hlt hmem ha ↦ ?_, fun _ _ ↦ ?_, absurd_le rfl⟩
  · dsimp only at hq
    rw [update_apply] at hq
    split at hq
    case isTrue heq =>
      cases hq
      exact ⟨h.pos, heq ▸ getElem?_current hin, heq ▸ hne⟩
    case isFalse => exact h.only a q hq
  · dsimp only
    rw [update_apply]
    split
    · simp
    · exact h.sent a ha
  · obtain ⟨hq, hcalled⟩ := h.called k a hk hlt hmem ha
    refine ⟨?_, hcalled⟩
    dsimp only
    rwa [update_of_ne (ne_current hin hlt hmem)]
  · exact ⟨hin, hne, fun _ ↦ ⟨_, update_self .., rfl⟩, absurd_le rfl, absurd_le rfl⟩

theorem Visits.smpInit (hample : s.Ample .boot) (hs : s.smpInit p = some s') : Visits p s' := by
  have hunder := h.underway
  rw [Underway] at hunder
  cases hphase : s.boot.phase <;> simp only [State.smpInit, hphase] at hs <;> simp only [hphase, Phase.rank] at hunder
  case head =>
    split at hs
    case isTrue hin =>
      split at hs
      case isTrue hboot =>
        cases hs
        exact h.next (.inr ⟨by rw [hphase]; rfl, hboot⟩) rfl rfl rfl rfl
      case isFalse hne =>
        cases hs
        exact h.keep rfl rfl (rises_of_eq rfl) (fun _ _ ↦ ⟨hin.1, hne, absurd_le rfl, absurd_le rfl, absurd_le rfl⟩)
          (absurd_le rfl)
    case isFalse hout =>
      cases hs
      exact h.keep rfl rfl (rises_of_eq rfl) (fun _ ↦ absurd_le rfl) fun _ ↦ by omega
  case allocate =>
    rw [if_neg (hample hphase)] at hs
    cases hs
    obtain ⟨hin, hne, -⟩ := hunder (by decide) (by decide)
    exact h.keep rfl rfl (rises_of_eq rfl) (fun _ _ ↦ ⟨hin, hne, absurd_le rfl, absurd_le rfl, absurd_le rfl⟩)
      (absurd_le rfl)
  case stack => exact h.stack hphase (by simp only [State.smpInit, hphase]; exact hs)
  case init =>
    cases hs
    obtain ⟨hin, -, hq, -⟩ := hunder (by decide) (by decide)
    obtain ⟨q, hq, -⟩ := hq (by decide)
    refine h.within hphase (by decide) (by decide) (Nat.le_of_ble_eq_true rfl) rfl rfl (fun a ↦ ?_) (fun _ ↦ ?_)
      (absurd_le rfl)
    · by_cases ha : a = s.current p
      · exact .inl ⟨hin, ha, by simp [ha, hq]⟩
      · exact .inr (by simp only [lapicSendInit, update_of_ne ha]; exact ⟨Nat.le_refl _, id⟩)
    · simp only [lapicSendInit, update_self]
      exact Nat.le_refl 1
  case startup =>
    cases hs
    exact h.startup hphase (by decide) (by decide) (by decide)
  case check =>
    cases hs
    obtain ⟨-, -, -, -, hstarted⟩ := hunder (by decide) (by decide)
    refine h.within hphase (by decide) (by decide) ?_ rfl rfl (rises_of_eq rfl)
      (fun _ ↦ Nat.le_of_succ_le (hstarted (by decide))) fun _ ↦ hstarted (by decide)
    dsimp only [goto]
    split <;> decide
  case again =>
    cases hs
    exact h.startup hphase (by decide) (by decide) (by decide)
  case wait =>
    split at hs
    · cases hs
      exact h
    · cases hs
      exact h.next (.inl (by rw [hphase]; rfl)) rfl rfl rfl rfl
  case settle =>
    split at hs
    · cases hs
      exact h
    · cases hs
      exact h.keep rfl rfl (rises_of_eq rfl) (fun _ ↦ absurd_le rfl) fun _ ↦ h.ended (by rw [hphase]; decide)
  case retired => cases hs
  all_goals
    cases hs
    exact h.within hphase (by decide) (by decide) (Nat.le_of_ble_eq_true rfl) rfl rfl (rises_of_eq rfl)
      (absurd_le rfl) (absurd_le rfl)

theorem Visits.deadline (hs : s.deadline = some s') : Visits p s' := by
  unfold State.deadline at hs
  cases hphase : s.boot.phase <;> simp only [hphase] at hs
  case wait =>
    split at hs
    · cases hs
      exact h.next (.inl (by rw [hphase]; rfl)) rfl rfl rfl rfl
    · cases hs
  case settle =>
    cases hs
    exact h.keep rfl rfl (rises_of_eq rfl) nofun fun _ ↦ h.ended (by rw [hphase]; decide)
  all_goals cases hs

end

theorem reached_visits (hlapic : p.lapicPresent = true) (h : (system p).Reached Ample s) : Visits p s := by
  refine h.invariant ?_ fun s s' act hvisits _ hample hs ↦ ?_
  · rintro s ⟨frames, -, rfl⟩
    refine ⟨Nat.le_refl 1, nofun, fun a ha ↦ absurd rfl ha, fun k a hk hlt ↦ absurd hk (Nat.not_le.mpr hlt), ?_, ?_⟩
    · dsimp only [Underway, Cpu.start]
      split <;> exact fun hone htwelve ↦ absurd hone (by first | decide | exact absurd htwelve (by decide))
    · dsimp only [Cpu.start]
      split
      case isTrue hfew => exact fun _ ↦ .inl (hfew.resolve_right (by rw [hlapic]; nofun))
      case isFalse => nofun
  · cases act with
    | boot => exact hvisits.smpInit hample hs
    | deadline => exact hvisits.deadline hs
    | core a => exact hvisits.run hs
    | others frames =>
      cases hs
      exact { hvisits with }

/-- INIT and STARTUP have gone to the listed cores other than the boot CPU and to no other, each with an index of its
own that is not the one of the boot CPU. -/
def Covers (p : Platform) (s : State) : Prop :=
  (∀ a, a ∈ p.apicIds ∧ a ≠ p.lapicId → ∃ k ≠ 0, s.Called k a) ∧
    (∀ a, ¬ (a ∈ p.apicIds ∧ a ≠ p.lapicId) → (s.cores a).stage = .off) ∧
    ∀ a b q q', s.prepared a = some q → s.prepared b = some q' → q.index = q'.index → a = b

end State

open State

variable {p : Platform} {s : State}

/-- The loop of `smp_init` begins at the second entry, whichever entry is the boot CPU. -/
theorem smpInit_covers_iff (hlength : p.apicIds.length ≤ maxCpus) (hboot : p.lapicId ∈ p.apicIds) (hlapic : p.lapicPresent = true)
    (h : (system p).Reached Ample s) (hend : s.boot.phase = .settle ∨ s.boot.phase = .retired) :
    s.Covers p ↔ p.apicIds.head? = some p.lapicId := by
  have hvisits := reached_visits hlapic h
  have hall : p.apicIds.length ≤ s.boot.i := by
    have hended := hvisits.ended (by rcases hend with hend | hend <;> rw [hend] <;> decide)
    omega
  constructor
  · rintro ⟨hcalled, -, -⟩
    by_contra hhead
    obtain ⟨a, rest, hids⟩ := List.exists_cons_of_ne_nil (List.ne_nil_of_mem hboot)
    have ha : a ∈ p.apicIds := by simp [hids]
    obtain ⟨k, hk, ⟨q, hq, rfl⟩, -⟩ := hcalled a ⟨ha, by simpa [hids] using hhead⟩
    have hzero : p.apicIds[0]? = some a := by simp [hids]
    refine hk ((List.getElem?_inj (List.length_pos_of_mem ha) p.nodup).mp ?_).symm
    rw [hzero, (hvisits.only a q hq).2.1]
  · intro hhead
    refine ⟨fun a ⟨ha, hne⟩ ↦ ?_, fun a hother ↦ ?_, fun a b q q' hq hq' hindex ↦ ?_⟩
    · obtain ⟨k, hk⟩ := List.mem_iff_getElem?.mp ha
      have hpos : k ≠ 0 := by
        rintro rfl
        rw [← List.head?_eq_getElem?, hhead] at hk
        exact hne (Option.some.inj hk).symm
      have hlt := (List.getElem?_eq_some_iff.mp hk).1
      exact ⟨k, hpos, hvisits.called k a (Nat.pos_of_ne_zero hpos) (by omega) hk hne⟩
    · by_contra hon
      obtain ⟨q, hq⟩ := Option.ne_none_iff_exists'.mp (hvisits.sent a hon)
      obtain ⟨-, hmem, hne⟩ := hvisits.only a q hq
      exact hother ⟨List.mem_of_getElem? hmem, hne⟩
    · have ha := (hvisits.only a q hq).2.1
      rw [hindex, (hvisits.only b q' hq').2.1] at ha
      exact (Option.some.inj ha).symm

def State.ampleCheck (s : State) : Action → Bool
  | .boot => s.boot.phase = .allocate → (s.frames.allocPages apStackPages).2 ≠ 0
  | .others _ => false
  | _ => true

theorem ampleCheck_spec (s : State) (act : Action) (h : s.ampleCheck act = true) : s.Enabled act ∧ s.Ample act := by
  cases act with
  | boot =>
    have hample := of_decide_eq_true h
    exact ⟨trivial, hample⟩
  | others => cases h
  | _ => exact ⟨trivial, trivial⟩

theorem smpInit_covers_three : ∃ s : State, (system threeCpus).Reached Ample s ∧ s.Covers threeCpus := by
  have hstart : (system threeCpus).Reached Ample (start threeCpus ⟨fun f ↦ f == 0, 1⟩) := .init ⟨_, rfl, rfl⟩
  obtain ⟨s, hs, hend⟩ := hstart.exists_of_replay ampleCheck_spec (P := fun s ↦ s.boot.phase = .settle)
    (l := .replicate 12 .boot ++ .deadline :: .replicate 12 .boot ++ [.deadline, .boot]) (by decide +kernel)
  exact ⟨s, hs, (smpInit_covers_iff (by decide) (by decide) rfl hs (.inl hend)).mpr rfl⟩

/-- The boot CPU is the second one of the list: the first one gets nothing. -/
theorem first_uncalled : ∃ s : State,
    (system { threeCpus with apicIds := [1, 0, 2], nodup := by decide }).Reached Ample s ∧ s.boot.phase = .settle ∧
      (s.cores 1).stage = .off := by
  have hstart : (system { threeCpus with apicIds := [1, 0, 2], nodup := by decide }).Reached Ample
      (start _ ⟨fun f ↦ f == 0, 1⟩) := .init ⟨_, rfl, rfl⟩
  exact hstart.exists_of_replay ampleCheck_spec (l := .replicate 13 .boot ++ [.deadline, .boot]) (by decide +kernel)

end Eris.Cpu
