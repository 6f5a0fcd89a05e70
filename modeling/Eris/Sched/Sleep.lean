import Eris.Library.Transition
import Eris.Sched.Runs

namespace Eris.Sched

open Library Library.Chains List Function Option

def Op.reads : Op → Option ℕ
  | .yield _ now => some now
  | .schedTick _ now => some now
  | .threadSleepNs _ now _ => some now
  | _ => none

/-- The scheduler and the clock. Every step is taken at some time, and the clock does not go back. -/
def clocked : System (Scheduler × ℕ) (Op × ℕ) where
  init p := Reachable p.1
  enabled p a := a.1.Legal p.1 ∧ p.2 ≤ a.2 ∧ a.2 < 2 ^ 64 ∧ ∀ now ∈ a.1.reads, now = a.2
  step p a := (a.1.run p.1).map (·, a.2)

namespace Scheduler

def threadSleepMs (s : Scheduler) (c now milliseconds : ℕ) : Option Scheduler :=
  s.threadSleepNs c now (milliseconds * 1000000 % 2 ^ 64)

variable {s s' s'' : Scheduler} {ls : Place → List ℕ} {all : List ℕ} {c q t x : ℕ} {op : Op}

def Rests (s s' : Scheduler) (x : ℕ) : Prop := s'.state x = s.state x ∧ s'.wakeAt x = s.wakeAt x

theorem Rests.refl (s : Scheduler) (x : ℕ) : Rests s s x := ⟨rfl, rfl⟩

theorem Rests.trans (h : Rests s s' x) (h' : Rests s' s'' x) : Rests s s'' x :=
  ⟨h'.1.trans h.1, h'.2.trans h.2⟩

theorem rests_of_threads (h : s'.threads x = s.threads x) : Rests s s' x :=
  ⟨congrArg Thread.state h, congrArg Thread.wakeAt h⟩

theorem rests_enqueue (hxt : x ≠ t) : Rests s (s.enqueue t) x := by
  refine ⟨?_, by rw [wakeAt_enqueue]⟩
  rw [state_enqueue, update_of_ne hxt]

theorem rests_setNext (s : Scheduler) (t : ℕ) (p : Option ℕ) (x : ℕ) : Rests s (s.setNext t p) x :=
  ⟨by rw [state_setNext], by rw [wakeAt_setNext]⟩

theorem rests_dequeue (s : Scheduler) (x : ℕ) : Rests s s.dequeue.2 x := by
  unfold dequeue
  split
  · exact .refl s x
  · exact s.rests_setNext _ none x

theorem rests_takeFrom (s : Scheduler) (q x : ℕ) : Rests s (s.takeFrom q).2 x := by
  unfold takeFrom
  split
  · exact .refl s x
  · exact s.rests_setNext _ none x

theorem rests_detachAfter {rounds p : ℕ} (h : s.detachAfter t rounds p = some s') : Rests s s' x := by
  induction rounds generalizing p with
  | zero => cases h
  | succ rounds ih =>
    rw [detachAfter] at h
    split at h
    · cases h
      exact .refl s x
    · split at h
      · cases h
        exact s.rests_setNext _ _ x
      · exact ih h

theorem rests_detachFromSleepers (h : s.detachFromSleepers t = some s') : Rests s s' x := by
  unfold detachFromSleepers at h
  split at h
  · cases h
    exact .refl s x
  · split at h
    · cases h
      exact ⟨rfl, rfl⟩
    · exact rests_detachAfter h

theorem rests_switchTo (hxt : x ≠ t) (h : s.switchTo c t = some s') : Rests s s' x := by
  obtain ⟨_, -, hs'⟩ := bind_eq_some_iff.mp h
  cases hs'
  exact rests_of_threads (update_of_ne hxt _ _)

theorem rests_wakeExpired {now rounds : ℕ} {r : Option ℕ} (hnow : now < s.wakeAt x)
    (h : wakeExpired now rounds r s = some s') : Rests s s' x := by
  induction rounds generalizing s r with
  | zero => cases h
  | succ rounds ih =>
    rw [wakeExpired] at h
    split at h
    · cases h
      exact ⟨rfl, rfl⟩
    · rename_i t ht
      split at h
      · rename_i hexpired
        have hxt : x ≠ t := by
          rintro rfl
          exact absurd hexpired (Nat.not_le.mpr hnow)
        have hstep : Rests s ({ s with sleepers := (s.threads t).queueNext }.enqueue t) x :=
          Rests.trans ⟨rfl, rfl⟩ (rests_enqueue hxt)
        exact hstep.trans (ih (hstep.2.symm ▸ hnow) h)
      · have hstep : Rests s ({ s with sleepers := (s.threads t).queueNext }.setNext t r) x :=
          Rests.trans ⟨rfl, rfl⟩ (rests_setNext _ _ _ x)
        exact hstep.trans (ih (hstep.2.symm ▸ hnow) h)

theorem Inv.current_ne {gap : Option ℕ} {hands : Set ℕ} (h : Inv s none gap hands ls all)
    (hx : s.state x = .sleeping) (hgap : gap ≠ some c) (hc : s.current c = some t) : x ≠ t := by
  rintro rfl
  have hrun : s.state x = .running := by
    rcases h.current c hgap x hc with ⟨-, hrun⟩ | hi
    · exact hrun
    · exact h.awake c x hi
  rw [hrun] at hx
  cases hx

theorem Inv.idle_ne {gap : Option ℕ} {hands : Set ℕ} (h : Inv s none gap hands ls all) (hx : s.state x = .sleeping)
    (hi : s.idle c = some t) : x ≠ t := by
  rintro rfl
  rw [h.awake c x hi] at hx
  cases hx

theorem Inv.mem_ne {gap : Option ℕ} {hands : Set ℕ} {k : Place} (h : Inv s none gap hands ls all)
    (hx : s.state x = .sleeping) (hk : k.state ≠ .sleeping) (ht : t ∈ ls k) : x ≠ t := by
  rintro rfl
  exact hk ((h.held k x ht).2.2.symm.trans hx)

theorem rests_leave {gap : Option ℕ} {hands : Set ℕ} (h : Inv s none gap hands ls all) (hx : s.state x = .sleeping)
    (hs : s.leave c = some s') : Rests s s' x := by
  have hrests := s.rests_dequeue x
  rcases dequeue_spec h with ⟨hnone, -⟩ | ⟨y, rest, s₁, hsome, hk, -, -, -⟩
  · rw [leave, hnone] at hs
    obtain ⟨i, hi, hs⟩ := bind_eq_some_iff.mp hs
    exact rests_switchTo (h.idle_ne hx hi) hs
  · rw [hsome] at hrests
    rw [leave, hsome] at hs
    have hxy := h.mem_ne (k := .runQueue) hx (by decide) (by rw [hk]; exact mem_cons_self)
    exact hrests.trans (rests_switchTo hxy hs)

section

variable (h : Inv s none none ∅ ls all)

include h

theorem rests_yield (hx : s.state x = .sleeping) {now : ℕ} (hnow : now < s.wakeAt x) (hs : s.yield c now = some s') :
    Rests s s' x := by
  unfold yield at hs
  split at hs
  · cases hs
    exact .refl s x
  · obtain ⟨s₁, ls₁, hwake, -, h₁⟩ := wakeExpired_spec now h (h.length_lt_rounds .sleepers)
    have hpass := rests_wakeExpired hnow hwake
    have hx₁ := hpass.1.trans hx
    simp only [wakeExpiredSleepers, hwake, bind_eq_bind, bind_some] at hs
    have hdequeue := s₁.rests_dequeue x
    rcases dequeue_spec h₁ with ⟨hnone, -⟩ | ⟨y, rest, s₂, hsome, hk, hcur, -, -⟩
    · rw [hnone] at hs
      cases hs
      exact hpass
    · rw [hsome] at hs hdequeue
      have hxy := h₁.mem_ne (k := .runQueue) hx₁ (by decide) (by rw [hk]; exact mem_cons_self)
      have htwo := hpass.trans hdequeue
      dsimp only at hs
      split at hs
      · exact htwo.trans (rests_switchTo hxy hs)
      · rename_i self hself
        split at hs
        · exact htwo.trans (rests_switchTo hxy hs)
        · have hxself := h₁.current_ne hx₁ (by simp) (by rw [← hcur]; exact hself)
          exact htwo.trans ((rests_enqueue hxself).trans (rests_switchTo hxy hs))

theorem rests_wakeEach {rounds : ℕ} (hx : s.state x = .sleeping) (hs : wakeEach q rounds s = some s') :
    Rests s s' x := by
  induction rounds generalizing s ls with
  | zero => cases hs
  | succ rounds ih =>
    have htake := s.rests_takeFrom q x
    rw [wakeEach] at hs
    rcases takeFrom_enqueue_spec h q with ⟨hnone, -⟩ | ⟨y, rest, s₁, ls₁, hsome, hk, -, h₁⟩
    · rw [hnone] at hs
      cases hs
      exact .refl _ x
    · rw [hsome] at hs htake
      have hxy := h.mem_ne (k := .waitQueue q) hx (by simp [Place.state]) (by rw [hk]; exact mem_cons_self)
      have hboth := htake.trans (rests_enqueue hxy)
      exact hboth.trans (ih h₁ (hboth.1.trans hx) hs)

theorem rests_step (hobj : x ∈ all) (hx : s.state x = .sleeping) (hl : op.Legal s) (hwake : op ≠ .wake x)
    (hnow : ∀ now ∈ op.reads, now < s.wakeAt x) (hs : op.run s = some s') : Rests s s' x := by
  have hfresh : ∀ {t}, s.Fresh t → x ≠ t := by
    rintro t hf rfl
    exact hf.1 (h.objects.reaches_iff.mpr hobj)
  cases op with
  | spawn seen memory =>
    cases hs
    unfold spawn
    split
    · exact .refl s x
    · cases memory with
      | none => exact .refl s x
      | some t =>
        have hxt := hfresh (hl t rfl)
        exact (rests_of_threads (update_of_ne hxt _ _)).trans (rests_enqueue hxt)
  | yield c now => exact rests_yield h hx (hnow now rfl) hs
  | schedTick c now =>
    have hs : s.schedTick c now = some s' := hs
    unfold schedTick at hs
    split at hs
    · cases hs
      exact .refl s x
    · exact rests_yield h hx (hnow now rfl) hs
  | threadSleepNs c now nanoseconds =>
    have hs : s.threadSleepNs c now nanoseconds = some s' := hs
    unfold threadSleepNs at hs
    split at hs
    · cases hs
      exact .refl s x
    · obtain ⟨self, hself, hs⟩ := bind_eq_some_iff.mp hs
      have hxself := h.current_ne hx nofun hself
      have hpark : Rests s (s.parkSleeperAt self ((now + nanoseconds) % 2 ^ 64)) x :=
        rests_of_threads (update_of_ne hxself _ _)
      obtain ⟨-, ls₁, hv⟩ := Settled.vacate ⟨ls, h⟩ hself fun hi ↦ hl.2 (hself.trans hi.symm)
      have hinv := parkSleeperAt_spec hv rfl ((now + nanoseconds) % 2 ^ 64)
      exact hpark.trans (rests_leave hinv (hpark.1.trans hx) hs)
  | threadExit c =>
    obtain ⟨self, hself, hs⟩ := bind_eq_some_iff.mp hs
    have hxself := h.current_ne hx nofun hself
    have hdead : Rests s (s.markDead self) x := rests_of_threads (update_of_ne hxself _ _)
    obtain ⟨-, ls₁, hv⟩ := Settled.vacate ⟨ls, h⟩ hself fun hi ↦ hl.2 (hself.trans hi.symm)
    exact hdead.trans (rests_leave (hv.markDead rfl) (hdead.1.trans hx) hs)
  | wait c q =>
    obtain ⟨self, hself, hs⟩ := bind_eq_some_iff.mp hs
    have hxself := h.current_ne hx nofun hself
    have hblock : Rests s (s.blockOn q self) x := rests_of_threads (update_of_ne hxself _ _)
    obtain ⟨-, ls₁, hv⟩ := Settled.vacate ⟨ls, h⟩ hself fun hi ↦ hl.2 (hself.trans hi.symm)
    exact hblock.trans (rests_leave (blockOn_spec hv rfl q) (hblock.1.trans hx) hs)
  | wakeOne q =>
    cases hs
    have htake := s.rests_takeFrom q x
    unfold wakeOne
    rcases takeFrom_spec h q with ⟨hnone, -⟩ | ⟨y, rest, s₁, hsome, hk, -⟩
    · rw [hnone]
      exact .refl s x
    · rw [hsome] at htake ⊢
      have hxy := h.mem_ne (k := .waitQueue q) hx nofun (by rw [hk]; exact mem_cons_self)
      exact htake.trans (rests_enqueue hxy)
  | wakeAll q => exact rests_wakeEach h hx hs
  | wake t =>
    have hxt : x ≠ t := fun hxt ↦ hwake (by rw [hxt])
    have hs : s.wake t = some s' := hs
    unfold wake at hs
    split at hs
    · obtain ⟨s₁, hs₁, hs⟩ := bind_eq_some_iff.mp hs
      cases hs
      exact (rests_detachFromSleepers hs₁).trans (rests_enqueue hxt)
    · cases hs
      exact .refl _ x
  | preemptDisable c =>
    cases hs
    exact ⟨rfl, rfl⟩
  | preemptEnable c =>
    cases hs
    exact ⟨rfl, rfl⟩
  | schedStartCpu c idle =>
    cases hs
    exact rests_of_threads (update_of_ne (hfresh hl.2) _ _)
  | schedInit c idle =>
    cases hs
    exact rests_of_threads (update_of_ne (hfresh hl.2) _ _)

end

/-- A thread is asleep until some time. -/
structure Asleep (s : Scheduler) (x deadline : ℕ) : Prop where
  reachable : Reachable s
  object : Reaches s.listNext s.allThreads x
  state : s.state x = .sleeping
  wakeAt : s.wakeAt x = deadline

theorem Asleep.at_sleepers {deadline : ℕ} (h : Asleep s x deadline) : s.At x .sleepers := by
  obtain ⟨all, ls, hinv⟩ := settled_of_reachable h.reachable
  exact (at_iff hinv rfl).mpr (hinv.mem_sleepers_iff.mpr ⟨hinv.objects.reaches_iff.mp h.object, h.state⟩)

theorem Asleep.step {deadline : ℕ} (h : Asleep s x deadline) (hl : op.Legal s) (hwake : op ≠ .wake x)
    (hnow : ∀ now ∈ op.reads, now < deadline) (hs : op.run s = some s') : Asleep s' x deadline := by
  obtain ⟨all, hsettled⟩ := settled_of_reachable h.reachable
  obtain ⟨s'', all', hs'', ⟨ls', h'⟩, hsubset⟩ := hsettled.step hl
  obtain rfl := Option.some.inj (hs''.symm.trans hs)
  obtain ⟨ls, hinv⟩ := hsettled
  have hobj := hinv.objects.reaches_iff.mp h.object
  have hrests := rests_step hinv hobj h.state hl hwake (fun now hn ↦ h.wakeAt ▸ hnow now hn) hs
  exact ⟨.step h.reachable hl hs, h'.objects.reaches_iff.mpr (hsubset hobj), hrests.1.trans h.state,
    hrests.2.trans h.wakeAt⟩

theorem current_of_switchTo (h : s.switchTo c t = some s') : s'.current c = some t ∧ s'.running = s.running := by
  obtain ⟨_, -, hs'⟩ := bind_eq_some_iff.mp h
  cases hs'
  exact ⟨by simp [setCurrent, current], rfl⟩

theorem dequeue_running (s : Scheduler) : s.dequeue.2.running = s.running := by
  unfold dequeue
  split <;> rfl

theorem current_of_leave (h : s.leave c = some s') : s'.current c ≠ none ∧ s'.running = s.running := by
  have hrunning := s.dequeue_running
  unfold leave at h
  split at h
  · rename_i next s₁ hdequeue
    obtain ⟨hcur, hrun⟩ := current_of_switchTo h
    rw [hdequeue] at hrunning
    exact ⟨by rw [hcur]; exact nofun, hrun.trans hrunning⟩
  · rename_i s₁ hdequeue
    obtain ⟨i, -, h⟩ := bind_eq_some_iff.mp h
    obtain ⟨hcur, hrun⟩ := current_of_switchTo h
    rw [hdequeue] at hrunning
    exact ⟨by rw [hcur]; exact nofun, hrun.trans hrunning⟩

theorem asleep_of_threadSleepMs (h : Reachable s) (hrunning : s.running = true) (hc : s.current c = some x)
    (hi : s.idle c ≠ some x) {now ms : ℕ} (hs : s.threadSleepMs c now ms = some s') :
    Asleep s' x ((now + ms * 1000000 % 2 ^ 64) % 2 ^ 64) ∧ s'.current c ≠ none ∧ s'.running = true := by
  have hlegal : (Op.threadSleepNs c now (ms * 1000000 % 2 ^ 64)).Legal s :=
    ⟨by rw [hc]; exact nofun, fun heq ↦ hi (heq.symm.trans hc)⟩
  obtain ⟨all, hsettled⟩ := settled_of_reachable h
  obtain ⟨s'', all', hs'', ⟨ls', h'⟩, hsubset⟩ := hsettled.step hlegal
  obtain rfl := Option.some.inj (hs''.symm.trans hs)
  obtain ⟨hall, ls, hv⟩ := hsettled.vacate hc hi
  have hrun : ¬ s.running = false := by simp [hrunning]
  have hreach : Reachable s'' := .step h hlegal hs
  unfold threadSleepMs threadSleepNs at hs
  rw [if_neg hrun] at hs
  obtain ⟨self, hself, hs⟩ := bind_eq_some_iff.mp hs
  obtain rfl := Option.some.inj (hself.symm.trans hc)
  generalize (now + ms * 1000000 % 2 ^ 64) % 2 ^ 64 = deadline at hs
  have hstate : (s.parkSleeperAt self deadline).state self = .sleeping := by simp [parkSleeperAt, modify, state]
  have hwake : (s.parkSleeperAt self deadline).wakeAt self = deadline := by simp [parkSleeperAt, modify, wakeAt]
  have hrests := rests_leave (parkSleeperAt_spec hv rfl deadline) hstate hs
  obtain ⟨hcur, hrunning'⟩ := current_of_leave hs
  exact ⟨⟨hreach, h'.objects.reaches_iff.mpr (hsubset hall), hrests.1.trans hstate, hrests.2.trans hwake⟩, hcur,
    hrunning'.trans hrunning⟩

theorem enqueue_ne_sleeping (h : s.state x ≠ .sleeping) (t : ℕ) : (s.enqueue t).state x ≠ .sleeping := by
  rw [state_enqueue]
  grind

theorem switchTo_ne_sleeping (h : s.state x ≠ .sleeping) (hs : s.switchTo c t = some s') : s'.state x ≠ .sleeping := by
  obtain ⟨_, -, hs'⟩ := bind_eq_some_iff.mp hs
  cases hs'
  have hstate : (s.setCurrent c t).state = Function.update s.state t .running :=
    s.state_modify t fun y ↦ { y with cpu := c, state := .running }
  rw [hstate]
  grind

theorem yield_wakes (h : Inv s none none ∅ ls all) (hrunning : s.running = true) (hx : x ∈ ls .sleepers) {now : ℕ}
    (hnow : s.wakeAt x ≤ now) (hs : s.yield c now = some s') : s'.state x ≠ .sleeping := by
  have hrun : ¬ s.running = false := by simp [hrunning]
  obtain ⟨s₁, ls₁, hwake, hwoken, h₁⟩ := wakeExpired_spec now h (h.length_lt_rounds .sleepers)
  have hx₁ : x ∈ ls₁ .runQueue := by
    rw [hwoken.runQueue]
    exact mem_append_right _ (mem_filter.mpr ⟨hx, by simpa using hnow⟩)
  have hready : s₁.state x ≠ .sleeping := by
    rw [(h₁.held .runQueue x hx₁).2.2]
    exact nofun
  simp only [yield, if_neg hrun, wakeExpiredSleepers, hwake, bind_eq_bind, bind_some] at hs
  have hdequeue := (s₁.rests_dequeue x).1
  rcases hpair : s₁.dequeue with ⟨_ | y, s₂⟩ <;> rw [hpair] at hs hdequeue
  · cases hs
    rw [hdequeue]
    exact hready
  · have hready₂ : s₂.state x ≠ .sleeping := by
      rw [hdequeue]
      exact hready
    dsimp only at hs
    split at hs
    · exact switchTo_ne_sleeping hready₂ hs
    · split at hs
      · exact switchTo_ne_sleeping hready₂ hs
      · exact switchTo_ne_sleeping (enqueue_ne_sleeping hready₂ _) hs

/-- A pass over the sleepers moves those whose time has come to the run queue, each of them once, and no others. -/
structure Passes (s s' : Scheduler) (now : ℕ) : Prop where
  moved : ∃ l, l.Nodup ∧ (∀ x, x ∈ l ↔ s.At x .sleepers ∧ s.wakeAt x ≤ now) ∧ s'.enqueued = s.enqueued ++ l
  runQueue : ∀ x, s'.At x .runQueue ↔ s.At x .runQueue ∨ s.At x .sleepers ∧ s.wakeAt x ≤ now
  sleepers : ∀ x, s'.At x .sleepers ↔ s.At x .sleepers ∧ now < s.wakeAt x
  wakeAt : s'.wakeAt = s.wakeAt

theorem wakeExpiredSleepers_passes (h : Reachable s) (now : ℕ) :
    ∃ s', s.wakeExpiredSleepers now = some s' ∧ Passes s s' now := by
  obtain ⟨all, ls, hinv⟩ := settled_of_reachable h
  obtain ⟨s', ls', hwake, hwoken, h'⟩ := wakeExpired_spec now hinv (hinv.length_lt_rounds .sleepers)
  have hat : ∀ {x}, s.At x .sleepers ↔ x ∈ ls .sleepers := at_iff hinv rfl
  refine ⟨s', hwake, ⟨(ls .sleepers).filter fun t ↦ s.wakeAt t ≤ now, ?_, ?_, ?_⟩, ?_, ?_, hwoken.wakeAt⟩
  · exact (hinv.lists.linked .sleepers).nodup.filter _
  · intro x
    rw [mem_filter, hat]
    simp
  · rw [h'.fifo, hinv.fifo, hwoken.dequeued, hwoken.runQueue, append_assoc]
  · intro x
    rw [at_iff h' rfl, at_iff hinv rfl, hat, hwoken.runQueue, mem_append, mem_filter]
    simp
  · intro x
    rw [at_iff h' rfl, hat, hwoken.sleepers, hinv.remaining_eq_nil, List.append_nil, mem_reverse, mem_filter]
    simp

/-- Every pass is exact. A thread sleeps on until its time in every run in which nobody wakes it, exactly if that time
fits the machine word. -/
theorem sleep_kept_iff (h : Reachable s) :
    (∀ now, ∃ s', s.wakeExpiredSleepers now = some s' ∧ Passes s s' now) ∧
    ∀ c x t ms s₀, s.running = true → s.current c = some x → s.idle c ≠ some x → t < 2 ^ 64 →
      s.threadSleepMs c t ms = some s₀ →
      ((∀ s' now, (clocked.goingOn (s₀, t)).Reached (fun _ a ↦ a.1 ≠ .wake x) (s', now) →
        now < t + ms * 10 ^ 6 → s'.At x .sleepers) ↔ t + ms * 10 ^ 6 < 2 ^ 64) := by
  refine ⟨wakeExpiredSleepers_passes h, ?_⟩
  intro c x t ms s₀ hrunning hc hi ht hs
  obtain ⟨hasleep, hcur, hrunning₀⟩ := asleep_of_threadSleepMs h hrunning hc hi hs
  constructor
  · intro hkept
    by_contra hlarge
    -- the clock reaches the reduced deadline before the exact one
    obtain ⟨all, ls, hinv⟩ := settled_of_reachable hasleep.reachable
    have hmem := (at_iff hinv rfl).mp hasleep.at_sleepers
    have hdeadline := Nat.mod_lt (t + ms * 1000000 % 2 ^ 64) (show 2 ^ 64 > 0 by decide)
    generalize (t + ms * 1000000 % 2 ^ 64) % 2 ^ 64 = deadline at hasleep hdeadline
    have hlegal : (Op.yield c (max t deadline)).Legal s₀ := hcur
    obtain ⟨s', -, hs', -⟩ := Settled.step ⟨ls, hinv⟩ hlegal
    have hreached : (clocked.goingOn (s₀, t)).Reached (fun _ a ↦ a.1 ≠ .wake x) (s', max t deadline) := by
      refine .step (.yield c (max t deadline), max t deadline) (.init rfl) ⟨hcur, ?_, ?_, ?_⟩ nofun ?_
      · exact le_max_left t deadline
      · exact max_lt ht hdeadline
      · intro now hnow
        exact (Option.some.inj hnow).symm
      · exact congrArg (Option.map (·, max t deadline)) hs'
    have hat := hkept s' _ hreached (by omega)
    have hreachable : Reachable s' := .step hasleep.reachable hlegal hs'
    obtain ⟨all', ls', hinv'⟩ := settled_of_reachable hreachable
    have hsleeping := (hinv'.mem_sleepers_iff.mp ((at_iff hinv' rfl).mp hat)).2
    exact yield_wakes hinv hrunning₀ hmem (hasleep.wakeAt ▸ le_max_right t deadline) hs' hsleeping
  · intro hsmall s' now hreached hnow
    have hexact : (t + ms * 1000000 % 2 ^ 64) % 2 ^ 64 = t + ms * 10 ^ 6 := by omega
    rw [hexact] at hasleep
    have hinvariant : (s', now).2 < t + ms * 10 ^ 6 → Asleep (s', now).1 x (t + ms * 10 ^ 6) := by
      refine hreached.invariant (I := fun p ↦ p.2 < t + ms * 10 ^ 6 → Asleep p.1 x (t + ms * 10 ^ 6)) ?_ ?_
      · rintro _ rfl _
        exact hasleep
      · intro p p' a hp ⟨hlegal, hle, _, hreads⟩ hwake hstep hlt
        obtain ⟨s₁, hs₁, rfl⟩ := map_eq_some_iff.mp hstep
        refine (hp (lt_of_le_of_lt hle hlt)).step hlegal hwake ?_ hs₁
        intro now' hnow'
        rw [hreads now' hnow']
        exact hlt
    exact (hinvariant hnow).at_sleepers

def started : Scheduler := (spawned.yield 0 0).getD boot

theorem started_reachable : Reachable started := by
  have hcur : spawned.current 0 ≠ none := by decide
  exact .step spawned_reachable (show (Op.yield 0 0).Legal spawned from hcur) rfl

theorem sleep_kept_three : Reachable started ∧ ∀ s' now,
    (clocked.goingOn ((started.threadSleepMs 0 5 3).getD boot, 5)).Reached (fun _ a ↦ a.1 ≠ .wake 200) (s', now) →
      now < 5 + 3 * 10 ^ 6 → s'.At 200 .sleepers :=
  ⟨started_reachable,
    ((sleep_kept_iff started_reachable).2 0 200 5 3 _ rfl rfl (by decide) (by decide) rfl).mpr (by decide)⟩

/-- A sleep of 584 years ends within half a millisecond. -/
theorem sleep_cut_short : ∃ s', (clocked.goingOn ((started.threadSleepMs 0 0 18446744073710).getD boot, 0)).Reached
    (fun _ a ↦ a.1 ≠ .wake 200) (s', 448384) ∧ 448384 < 0 + 18446744073710 * 10 ^ 6 ∧ ¬ s'.At 200 .sleepers ∧
    s'.current 0 = some 200 ∧ 200 ∈ s'.enqueued.drop 1 := by
  have hcur : ((started.threadSleepMs 0 0 18446744073710).getD boot).current 0 ≠ none := by decide
  have hreads : ∀ now ∈ (Op.yield 0 448384).reads, now = 448384 := fun now hnow ↦ (Option.some.inj hnow).symm
  refine ⟨((started.threadSleepMs 0 0 18446744073710).getD boot |>.yield 0 448384).getD boot,
    .step (.yield 0 448384, 448384) (.init rfl) ⟨hcur, by decide, by decide, hreads⟩ nofun rfl, by decide, ?_, rfl, ?_⟩
  · rintro ⟨⟩
  · decide

end Scheduler

end Eris.Sched
