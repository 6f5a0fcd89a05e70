import Eris.Sched.Moves

namespace Eris.Sched.Scheduler

open Library.Chains List Option Function

variable {s s' : Scheduler} {ls : Place → List ℕ} {all : List ℕ} {c q t : ℕ}

def Settled (s : Scheduler) (all : List ℕ) : Prop := ∃ ls, Inv s none none ∅ ls all

def Fresh (s : Scheduler) (t : ℕ) : Prop :=
  ¬ Reaches s.listNext s.allThreads t ∧ ∀ c, s.idle c ≠ some t

theorem switchTo_eq (hc : s.current c ≠ none) (t : ℕ) : s.switchTo c t = some (s.setCurrent c t) := by
  obtain ⟨self, hself⟩ := ne_none_iff_exists'.mp hc
  rw [switchTo, show (s.cpus c).currentThread = some self from hself]
  rfl

theorem switchTo_hand {x : ℕ} (h : Inv s none (some c) {x} ls all) (hc : s.current c ≠ none) :
    ∃ s', s.switchTo c x = some s' ∧ Settled s' all := by
  have hset := h.setCurrent (.inl rfl) hc
  rw [Set.sdiff_self] at hset
  exact ⟨_, switchTo_eq hc x, ls, hset⟩

theorem leave_spec (h : Inv s none (some c) ∅ ls all) (hc : s.current c ≠ none) :
    ∃ s', s.leave c = some s' ∧ Settled s' all := by
  rcases dequeue_spec h with ⟨hnone, -⟩ | ⟨x, rest, s₁, hsome, -, hcur, -, hinv⟩
  · obtain ⟨i, hi⟩ := ne_none_iff_exists'.mp fun hi ↦ hc ((h.started c).mpr hi)
    have hset := h.setCurrent (.inr hi) hc
    rw [Set.empty_sdiff] at hset
    refine ⟨s.setCurrent c i, ?_, ls, hset⟩
    rw [leave, hnone]
    simp only [show (s.cpus c).idleThread = some i from hi, bind_eq_bind, bind_some]
    exact switchTo_eq hc i
  · rw [leave, hsome]
    rw [LawfulSingleton.insert_empty_eq] at hinv
    exact switchTo_hand hinv (by rwa [hcur])

theorem Settled.vacate (h : Settled s all) (hc : s.current c = some t) (hi : s.idle c ≠ some t) :
    t ∈ all ∧ ∃ ls, Inv s none (some c) {t} ls all := by
  obtain ⟨ls, h⟩ := h
  have ht := ((h.current c nofun t hc).resolve_right hi).1
  have hv := h.vacate hc ht
  rw [LawfulSingleton.insert_empty_eq] at hv
  exact ⟨ht, ls, hv⟩

theorem yield_spec (h : Settled s all) (hc : s.current c ≠ none) (now : ℕ) :
    ∃ s', s.yield c now = some s' ∧ Settled s' all := by
  obtain ⟨ls, hinv⟩ := h
  unfold yield
  split
  · exact ⟨s, rfl, ls, hinv⟩
  · obtain ⟨s₁, ls₁, hwake, hwoken, h₁⟩ :=
      wakeExpired_spec now hinv (hinv.length_lt_rounds .sleepers)
    have hc₁ : s₁.current c ≠ none := by
      rw [current, hwoken.cpus]
      exact hc
    simp only [wakeExpiredSleepers, hwake, bind_eq_bind, bind_some]
    rcases dequeue_spec h₁ with ⟨hnone, -⟩ | ⟨x, rest, s₂, hsome, -, hcur, hidle, h₂⟩
    · rw [hnone]
      exact ⟨s₁, rfl, ls₁, h₁⟩
    · rw [LawfulSingleton.insert_empty_eq] at h₂
      rw [hsome]
      have hc₂ : s₂.current c ≠ none := by rwa [hcur]
      obtain ⟨self, hself⟩ := ne_none_iff_exists'.mp hc₂
      simp only [show (s₂.cpus c).currentThread = some self from hself]
      split
      · rename_i hi
        exact switchTo_hand (h₂.vacate_idle (hself.trans hi.symm)) hc₂
      · rename_i hi
        have hall := ((h₂.current c (by simp) self hself).resolve_right hi).1
        have hne : x ≠ self := by
          rintro rfl
          exact (h₂.lifted x rfl).2.2 c (by simp) hself
        have henq := enqueue_spec (h₂.vacate hself hall) (Set.mem_insert self {x})
        rw [Set.insert_sdiff_self_of_notMem fun hm ↦ hne (Set.mem_singleton_iff.mp hm).symm] at henq
        refine switchTo_hand henq ?_
        rw [current, enqueue_cpus]
        exact hc₂

theorem schedTick_spec (h : Settled s all) (hc : s.current c ≠ none) (now : ℕ) :
    ∃ s', s.schedTick c now = some s' ∧ Settled s' all := by
  unfold schedTick
  split
  · exact ⟨s, rfl, h⟩
  · exact yield_spec h hc now

section Leaving

variable (h : Settled s all) (hc : s.current c = some t) (hi : s.idle c ≠ some t)
include h hc hi

theorem threadSleepNs_spec (now nanoseconds : ℕ) :
    ∃ s', s.threadSleepNs c now nanoseconds = some s' ∧ Settled s' all := by
  obtain ⟨-, ls, hv⟩ := h.vacate hc hi
  unfold threadSleepNs
  split
  · exact ⟨s, rfl, h⟩
  · have hpark := parkSleeperAt_spec hv rfl ((now + nanoseconds) % 2 ^ 64)
    rw [Set.sdiff_self] at hpark
    simp only [show (s.cpus c).currentThread = some t from hc, bind_eq_bind, bind_some]
    refine leave_spec hpark (ne_none_iff_exists'.mpr ⟨t, hc⟩)

theorem threadExit_spec : ∃ s', s.threadExit c = some s' ∧ Settled s' all := by
  obtain ⟨-, ls, hv⟩ := h.vacate hc hi
  have hdead := hv.markDead rfl
  rw [Set.sdiff_self] at hdead
  simp only [threadExit, show (s.cpus c).currentThread = some t from hc, bind_eq_bind, bind_some]
  exact leave_spec hdead (ne_none_iff_exists'.mpr ⟨t, hc⟩)

theorem wait_spec (q : ℕ) : ∃ s', s.wait c q = some s' ∧ Settled s' all := by
  obtain ⟨-, ls, hv⟩ := h.vacate hc hi
  have hblock := blockOn_spec hv rfl q
  rw [Set.sdiff_self] at hblock
  simp only [wait, show (s.cpus c).currentThread = some t from hc, bind_eq_bind, bind_some]
  exact leave_spec hblock (ne_none_iff_exists'.mpr ⟨t, hc⟩)

end Leaving

theorem takeFrom_enqueue_spec (h : Inv s none none ∅ ls all) (q : ℕ) :
    (s.takeFrom q = (none, s) ∧ ls (.waitQueue q) = []) ∨
    ∃ x rest s' ls', s.takeFrom q = (some x, s') ∧ ls (.waitQueue q) = x :: rest ∧
      ls' (.waitQueue q) = rest ∧ Inv (s'.enqueue x) none none ∅ ls' all := by
  rcases takeFrom_spec h q with hnone | ⟨x, rest, s₁, hsome, hk, h₁⟩
  · exact .inl hnone
  · rw [LawfulSingleton.insert_empty_eq] at h₁
    have henq := enqueue_spec h₁ rfl
    rw [Set.sdiff_self] at henq
    exact .inr ⟨x, rest, s₁, _, hsome, hk, by simp, henq⟩

theorem wakeOne_spec (h : Settled s all) (q : ℕ) : Settled (s.wakeOne q) all := by
  obtain ⟨ls, h⟩ := h
  rw [wakeOne]
  rcases takeFrom_enqueue_spec h q with ⟨hnone, -⟩ | ⟨x, rest, s₁, ls₁, hsome, -, -, h₁⟩
  · rw [hnone]
    exact ⟨ls, h⟩
  · rw [hsome]
    exact ⟨ls₁, h₁⟩

theorem wakeEach_spec (q : ℕ) {rounds : ℕ} (h : Inv s none none ∅ ls all)
    (hlen : (ls (.waitQueue q)).length < rounds) :
    ∃ s', wakeEach q rounds s = some s' ∧ Settled s' all := by
  induction rounds generalizing s ls with
  | zero => omega
  | succ rounds ih =>
    rw [wakeEach]
    rcases takeFrom_enqueue_spec h q with ⟨hnone, -⟩ | ⟨x, rest, s₁, ls₁, hsome, hk, hk₁, h₁⟩
    · rw [hnone]
      exact ⟨s, rfl, ls, h⟩
    · rw [hsome]
      rw [hk, length_cons] at hlen
      exact ih h₁ (by rw [hk₁]; omega)

section

variable (h : Settled s all)

include h

theorem wakeAll_spec (q : ℕ) : ∃ s', s.wakeAll q = some s' ∧ Settled s' all := by
  obtain ⟨ls, h⟩ := h
  exact wakeEach_spec q h (h.length_lt_rounds (.waitQueue q))

theorem adopt_spec (hf : s.Fresh t) : Settled (s.adopt t) (t :: all) := by
  obtain ⟨ls, h⟩ := h
  have hall : t ∉ all := fun hm ↦ hf.1 (h.objects.reaches_iff.mpr hm)
  have hlist : ∀ k, t ∉ ls k := fun k hm ↦ hall (h.held k t hm).1
  let s₁ : Scheduler := { s with
    threads := update s.threads t { id := s.nextThreadId, listNext := s.allThreads }
    nextThreadId := (s.nextThreadId + 1) % 2 ^ 32
    allThreads := some t
    threadsAlive := s.threadsAlive + 1 }
  have hother : ∀ x ≠ t, s₁.threads x = s.threads x := fun x hx ↦ update_of_ne hx _ _
  have hself : s₁.threads t = { id := s.nextThreadId, listNext := s.allThreads } :=
    update_self ..
  have hstate : ∀ x ≠ t, s₁.state x = s.state x := fun x hx ↦ congrArg Thread.state (hother x hx)
  have hready : s₁.state t = .ready := congrArg Thread.state hself
  have h₁ : Inv s₁ none none {t} ls (t :: all) := by
    have hcur : ∀ c, s₁.current c = s.current c ∧ s₁.idle c = s.idle c := fun _ ↦ ⟨rfl, rfl⟩
    have hheld := h.held
    constructor
    case tail => exact h.tail
    case fifo => exact h.fifo
    case single => exact h.single
    case idles => exact h.idles
    case started => exact h.started
    case lists =>
      exact h.lists.congr fun k x hx ↦ congrArg Thread.queueNext (hother x (ne_of_mem_of_not_mem hx (hlist k)))
    case objects =>
      refine ⟨rfl, ?_⟩
      rw [show s₁.listNext t = s.allThreads from congrArg Thread.listNext hself]
      exact h.objects.congr fun x hx ↦ congrArg Thread.listNext (hother x (ne_of_mem_of_not_mem hx hall))
    case alive =>
      rw [show s₁.threadsAlive = s.threadsAlive + 1 from rfl, h.alive, filter_cons_of_pos (by simp [hready]), length_cons]
      congr 2
      exact filter_congr fun x hx ↦ by rw [hstate x (ne_of_mem_of_not_mem hx hall)]
    · grind
    · have := h.kept
      grind
    · have := h.current
      have := hf.2
      grind
    · have := h.running
      grind
    · have := h.current
      grind
    · have := h.idle
      have := hf.2
      grind
    · have := h.awake
      have := hf.2
      grind
  have henq := enqueue_spec h₁ rfl
  rw [Set.sdiff_self] at henq
  exact ⟨_, henq⟩

theorem adopt_queued (hf : s.Fresh t) : Reaches (s.adopt t).next (s.adopt t).runQueueHead t := by
  obtain ⟨ls, hinv⟩ := adopt_spec h hf
  have htail : (s.adopt t).runQueueTail = some t := by
    rw [adopt, enqueue]
    simp only
    split <;> rfl
  rw [hinv.tail] at htail
  exact (hinv.lists.linked .runQueue).reaches_iff.mpr (mem_of_getLast? htail)

theorem makeIdle_spec (hf : s.Fresh t) (hc : s.idle c = none) : Settled (s.makeIdle c t) all := by
  obtain ⟨ls, h⟩ := h
  have hall : t ∉ all := fun hm ↦ hf.1 (h.objects.reaches_iff.mpr hm)
  have hlist : ∀ k, t ∉ ls k := fun k hm ↦ hall (h.held k t hm).1
  have hother : ∀ x ≠ t, (s.makeIdle c t).threads x = s.threads x :=
    fun x hx ↦ update_of_ne hx _ _
  have hstate : ∀ x ≠ t, (s.makeIdle c t).state x = s.state x :=
    fun x hx ↦ congrArg Thread.state (hother x hx)
  have hcur : ∀ c', (s.makeIdle c t).current c' = if c' = c then some t else s.current c' := by
    intro c'
    by_cases hcc : c' = c <;> simp [current, makeIdle, hcc]
  have hidle : ∀ c', (s.makeIdle c t).idle c' = if c' = c then some t else s.idle c' := by
    intro c'
    by_cases hcc : c' = c <;> simp [idle, makeIdle, hcc]
  have hnot : ∀ c', s.current c' ≠ some t := by
    intro c' hct
    rcases h.current c' (by simp) t hct with ⟨ha, -⟩ | hi
    · exact hall ha
    · exact hf.2 c' hi
  have hself : (s.makeIdle c t).state t = .running := by simp [state, makeIdle]
  have hheld := h.held
  refine ⟨ls, ?_⟩
  constructor
  case tail => exact h.tail
  case fifo => exact h.fifo
  case lifted => simp
  case lists =>
    exact h.lists.congr fun k x hx ↦ congrArg Thread.queueNext (hother x (ne_of_mem_of_not_mem hx (hlist k)))
  case objects => exact h.objects.congr fun x hx ↦ congrArg Thread.listNext (hother x (ne_of_mem_of_not_mem hx hall))
  case alive =>
    refine h.alive.trans (congrArg _ (filter_congr fun x hx ↦ ?_))
    rw [hstate x (ne_of_mem_of_not_mem hx hall)]
  · grind
  · have := h.kept
    grind
  · have := h.running
    have := h.started c
    grind
  · have := h.current
    grind
  · have := h.single
    grind
  · have := h.idle
    grind
  · have := h.idles
    have := hf.2
    grind
  · have := h.awake
    have := hf.2
    grind
  · have := h.started
    grind

theorem Settled.of_view {cpus : ℕ → PerCpu} {running : Bool} (hcur : ∀ c, (cpus c).currentThread = s.current c)
    (hidle : ∀ c, (cpus c).idleThread = s.idle c) : Settled { s with cpus := cpus, running := running } all := by
  obtain ⟨ls, h⟩ := h
  have hc := funext hcur
  have hi := funext hidle
  have ⟨_, _, _, _, _, _, _, _, hrunning, hcurrent, hsingle, hfree, hidles, hawake, hstarted⟩ := h
  rw [← hc] at hrunning hcurrent hsingle hstarted
  rw [← hi] at hcurrent hfree hidles hawake hstarted
  exact
    ⟨ls, h.lists, h.tail, h.fifo, h.objects, h.alive, h.held, h.kept, nofun, hrunning, hcurrent, hsingle, hfree, hidles, hawake,
      hstarted⟩

theorem setPreemptCount_spec (c n : ℕ) : Settled (s.setPreemptCount c n) all := by
  refine h.of_view (fun c' ↦ ?_) fun c' ↦ ?_
  · by_cases hcc : c' = c <;> simp [current, hcc]
  · by_cases hcc : c' = c <;> simp [idle, hcc]

end

end Eris.Sched.Scheduler
