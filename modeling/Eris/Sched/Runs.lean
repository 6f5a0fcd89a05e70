import Eris.Sched.Operations

namespace Eris.Sched

open Library.Chains

/-- Where a thread can be. -/
inductive Spot
  | runQueue
  | sleepers
  | waitQueue (q : ℕ)
  | cpu (c : ℕ)
  deriving DecidableEq

def Spot.state : Spot → ThreadState
  | .runQueue => .ready
  | .sleepers => .sleeping
  | .waitQueue _ => .blocked
  | .cpu _ => .running

def Scheduler.At (s : Scheduler) (t : ℕ) : Spot → Prop
  | .runQueue => Reaches s.next s.runQueueHead t
  | .sleepers => Reaches s.next s.sleepers t
  | .waitQueue q => Reaches s.next (s.waitQueues q) t
  | .cpu c => s.current c = some t

/-- Every thread that was spawned and is not dead is in one place, all lists end, and the run
queue is a queue. -/
structure Scheduler.Placed (s : Scheduler) : Prop where
  runQueue : ∃ l, Linked s.next s.runQueueHead l ∧ s.runQueueTail = l.getLast? ∧ s.enqueued = s.dequeued ++ l
  sleepers : ∃ l, Linked s.next s.sleepers l
  waitQueues : ∀ q, ∃ l, Linked s.next (s.waitQueues q) l
  threads : ∃ l, Linked s.listNext s.allThreads l ∧ s.threadsAlive = (l.filter fun t ↦ s.state t ≠ .dead).length
  placed : ∀ t, Reaches s.listNext s.allThreads t → s.state t ≠ .dead →
    ∃ p, p.state = s.state t ∧ ∀ p', s.At t p' ↔ p' = p
  dead : ∀ t, Reaches s.listNext s.allThreads t → s.state t = .dead → ∀ p, ¬ s.At t p
  idle : ∀ c t, s.idle c = some t → ∀ p, s.At t p → p = .cpu c

def Scheduler.Object (s : Scheduler) (t : ℕ) : Prop :=
  Reaches s.listNext s.allThreads t ∨ ∃ c, s.idle c = some t

/-- The steps of the system, with what the clock says and what the allocator gives. -/
inductive Op
  | spawn (seen : ℕ) (memory : Option ℕ)
  | yield (c now : ℕ)
  | schedTick (c now : ℕ)
  | threadSleepNs (c now nanoseconds : ℕ)
  | threadExit (c : ℕ)
  | wait (c q : ℕ)
  | wakeOne (q : ℕ)
  | wakeAll (q : ℕ)
  | wake (t : ℕ)
  | preemptDisable (c : ℕ)
  | preemptEnable (c : ℕ)
  | schedStartCpu (c idle : ℕ)
  | schedInit (c idle : ℕ)

def Op.run (s : Scheduler) : Op → Option Scheduler
  | .spawn seen memory => some (s.spawn seen memory)
  | .yield c now => s.yield c now
  | .schedTick c now => s.schedTick c now
  | .threadSleepNs c now nanoseconds => s.threadSleepNs c now nanoseconds
  | .threadExit c => s.threadExit c
  | .wait c q => s.wait c q
  | .wakeOne q => some (s.wakeOne q)
  | .wakeAll q => s.wakeAll q
  | .wake t => s.wake t
  | .preemptDisable c => some (s.preemptDisable c)
  | .preemptEnable c => some (s.preemptEnable c)
  | .schedStartCpu c idle => some (s.schedStartCpu c idle)
  | .schedInit c idle => some (s.schedInit c idle)

/-- When a step can be taken. A CPU is started once and does nothing before. An idle thread does
not sleep, wait or exit. The allocator gives addresses that are not in use. A blocked thread is
woken through its queue. -/
def Op.Legal (s : Scheduler) : Op → Prop
  | .spawn _ memory => ∀ t, memory = some t → s.Fresh t
  | .yield c _ => s.current c ≠ none
  | .schedTick c _ => s.current c ≠ none
  | .threadSleepNs c _ _ => s.current c ≠ none ∧ s.current c ≠ s.idle c
  | .threadExit c => s.current c ≠ none ∧ s.current c ≠ s.idle c
  | .wait c _ => s.current c ≠ none ∧ s.current c ≠ s.idle c
  | .wake t => s.Object t ∧ s.state t ≠ .blocked
  | .schedStartCpu c idle => s.idle c = none ∧ s.Fresh idle
  | .schedInit c idle => s.idle c = none ∧ s.Fresh idle
  | _ => True

inductive Reachable : Scheduler → Prop
  | boot : Reachable boot
  | step {s s' : Scheduler} {op : Op} : Reachable s → op.Legal s → op.run s = some s' → Reachable s'

namespace Scheduler

variable {s s' : Scheduler} {ls : Place → List ℕ} {all : List ℕ} {t : ℕ}

theorem Inv.remaining_eq_nil (h : Inv s none none ∅ ls all) : ls .remaining = [] :=
  List.head?_eq_none_iff.mp (h.lists.head_eq .remaining).symm

theorem Inv.mem_sleepers_iff (h : Inv s none none ∅ ls all) {x : ℕ} : x ∈ ls .sleepers ↔ x ∈ all ∧ s.state x = .sleeping := by
  constructor
  · intro hx
    obtain ⟨hall, -, hstate⟩ := h.held .sleepers x hx
    exact ⟨hall, hstate⟩
  · intro ⟨hall, hstate⟩
    obtain ⟨k, hk⟩ := h.kept x hall (Set.notMem_empty x) (by simp [hstate]) (by simp [hstate])
    have hks := (h.held k x hk).2.2
    rw [hstate] at hks
    cases k with
    | sleepers => exact hk
    | remaining => simp [h.remaining_eq_nil] at hk
    | runQueue => cases hks
    | waitQueue q => cases hks

theorem wake_spec (h : Inv s none none ∅ ls all) (ht : t ∈ all ∨ ∃ c, s.idle c = some t)
    (hb : s.state t ≠ .blocked) :
    ∃ s' ls', s.wake t = some s' ∧ Inv s' none none ∅ ls' all ∧ ∀ k, ∀ x ≠ t, x ∈ ls k → x ∈ ls' k := by
  unfold wake
  split
  · rename_i hs
    have hsleep : s.state t = .sleeping := hs.resolve_left hb
    have hall : t ∈ all := by
      refine ht.resolve_right ?_
      rintro ⟨c, hc⟩
      rw [h.awake c t hc] at hsleep
      cases hsleep
    have hmem := h.mem_sleepers_iff.mpr ⟨hall, hsleep⟩
    obtain ⟨s₁, ls₁, hdetach, h₁, hrest⟩ := detachFromSleepers_of_mem h hmem
    have henq := enqueue_spec h₁ (Set.mem_insert t ∅)
    rw [Set.insert_sdiff_self_of_notMem (Set.notMem_empty t)] at henq
    refine ⟨_, _, by rw [hdetach]; rfl, henq, fun k x hxt hx ↦ ?_⟩
    have hx₁ := hrest k x hxt hx
    by_cases hk : k = .runQueue
    · subst hk
      rw [Function.update_self]
      exact List.mem_append_left _ hx₁
    · rwa [Function.update_of_ne hk]
  · exact ⟨s, ls, rfl, h, fun _ _ _ hx ↦ hx⟩

theorem Settled.step {op : Op} (h : Settled s all) (hl : op.Legal s) :
    ∃ s' all', op.run s = some s' ∧ Settled s' all' ∧ all ⊆ all' := by
  have hsame := List.Subset.refl all
  have hobj : ∀ t, Reaches s.listNext s.allThreads t → t ∈ all := by
    obtain ⟨ls, h⟩ := h
    exact fun t ↦ h.objects.reaches_iff.mp
  -- the CPUs on which a thread other than the idle one runs
  have hself : ∀ c, s.current c ≠ none → s.current c ≠ s.idle c → ∃ t, s.current c = some t ∧ s.idle c ≠ some t := by
    intro c hc hi
    obtain ⟨t, ht⟩ := Option.ne_none_iff_exists'.mp hc
    exact ⟨t, ht, fun h ↦ hi (ht.trans h.symm)⟩
  cases op with
  | spawn seen memory =>
    simp only [Op.run, spawn]
    split
    · exact ⟨s, all, rfl, h, hsame⟩
    · cases memory with
      | none => exact ⟨s, all, rfl, h, hsame⟩
      | some t => exact ⟨_, _, rfl, adopt_spec h (hl t rfl), List.subset_cons_self t all⟩
  | yield c now =>
    obtain ⟨s', hs', h'⟩ := yield_spec h hl now
    exact ⟨s', all, hs', h', hsame⟩
  | schedTick c now =>
    obtain ⟨s', hs', h'⟩ := schedTick_spec h hl now
    exact ⟨s', all, hs', h', hsame⟩
  | threadSleepNs c now nanoseconds =>
    obtain ⟨t, hc, hi⟩ := hself c hl.1 hl.2
    obtain ⟨s', hs', h'⟩ := threadSleepNs_spec h hc hi now nanoseconds
    exact ⟨s', all, hs', h', hsame⟩
  | threadExit c =>
    obtain ⟨t, hc, hi⟩ := hself c hl.1 hl.2
    obtain ⟨s', hs', h'⟩ := threadExit_spec h hc hi
    exact ⟨s', all, hs', h', hsame⟩
  | wait c q =>
    obtain ⟨t, hc, hi⟩ := hself c hl.1 hl.2
    obtain ⟨s', hs', h'⟩ := wait_spec h hc hi q
    exact ⟨s', all, hs', h', hsame⟩
  | wakeOne q => exact ⟨_, all, rfl, wakeOne_spec h q, hsame⟩
  | wakeAll q =>
    obtain ⟨s', hs', h'⟩ := wakeAll_spec h q
    exact ⟨s', all, hs', h', hsame⟩
  | wake t =>
    obtain ⟨ls, hinv⟩ := h
    obtain ⟨s', ls', hs', h', -⟩ := wake_spec hinv (hl.1.imp_left (hobj t)) hl.2
    exact ⟨s', all, hs', ⟨ls', h'⟩, hsame⟩
  | preemptDisable c => exact ⟨_, all, rfl, setPreemptCount_spec h c _, hsame⟩
  | preemptEnable c => exact ⟨_, all, rfl, setPreemptCount_spec h c _, hsame⟩
  | schedStartCpu c idle => exact ⟨_, all, rfl, makeIdle_spec h hl.2 hl.1, hsame⟩
  | schedInit c idle =>
    exact ⟨_, all, rfl, (makeIdle_spec h hl.2 hl.1).of_view (fun _ ↦ rfl) fun _ ↦ rfl, hsame⟩

theorem boot_settled : Settled boot [] := by
  refine ⟨fun _ ↦ [], ⟨fun k ↦ ?_, nofun⟩, rfl, rfl, rfl, rfl, nofun, nofun, nofun, nofun, nofun, nofun,
    nofun, nofun, nofun, fun _ ↦ ⟨fun _ ↦ rfl, fun _ ↦ rfl⟩⟩
  cases k <;> rfl

theorem settled_of_reachable (h : Reachable s) : ∃ all, Settled s all := by
  induction h with
  | boot => exact ⟨[], boot_settled⟩
  | step _ hl hs ih =>
    obtain ⟨all, h⟩ := ih
    obtain ⟨s', all', hs', h', -⟩ := h.step hl
    rw [hs] at hs'
    cases hs'
    exact ⟨all', h'⟩

def place : Spot → Option Place
  | .runQueue => some .runQueue
  | .sleepers => some .sleepers
  | .waitQueue q => some (.waitQueue q)
  | .cpu _ => none

theorem at_iff (h : Inv s none none ∅ ls all) {p : Spot} {k : Place} (hk : place p = some k) :
    s.At t p ↔ t ∈ ls k := by
  cases p with
  | cpu c => cases hk
  | runQueue =>
    cases hk
    exact (h.lists.linked .runQueue).reaches_iff
  | sleepers =>
    cases hk
    exact (h.lists.linked .sleepers).reaches_iff
  | waitQueue q =>
    cases hk
    exact (h.lists.linked (.waitQueue q)).reaches_iff

theorem state_of_at (h : Inv s none none ∅ ls all) {p : Spot} (hp : s.At t p) :
    t ∈ all ∧ s.state t = p.state ∨ ∃ c, p = .cpu c ∧ s.idle c = some t := by
  cases p with
  | cpu c =>
    rcases h.current c nofun t hp with hrun | hi
    · exact .inl hrun
    · exact .inr ⟨c, rfl, hi⟩
  | runQueue =>
    obtain ⟨ha, -, hs⟩ := h.held _ t ((at_iff h rfl).mp hp)
    exact .inl ⟨ha, hs⟩
  | sleepers =>
    obtain ⟨ha, -, hs⟩ := h.held _ t ((at_iff h rfl).mp hp)
    exact .inl ⟨ha, hs⟩
  | waitQueue q =>
    obtain ⟨ha, -, hs⟩ := h.held _ t ((at_iff h rfl).mp hp)
    exact .inl ⟨ha, hs⟩

theorem at_unique (h : Inv s none none ∅ ls all) {p p' : Spot} (ht : t ∈ all) (hp : s.At t p)
    (hp' : s.At t p') : p' = p := by
  have hstate : ∀ {p}, s.At t p → s.state t = p.state := fun {p} hp ↦
    ((state_of_at h hp).resolve_right fun ⟨c, _, hi⟩ ↦ h.idle c t hi ht).2
  have hs := (hstate hp').symm.trans (hstate hp)
  cases p <;> cases p' <;> first | rfl | cases hs
  · rename_i q q'
    have hq := h.lists.apart _ _ t ((at_iff h rfl).mp hp) ((at_iff h rfl).mp hp')
    cases hq
    rfl
  · rename_i c c'
    rw [h.single c c' t nofun nofun hp hp']

theorem Settled.placed (h : Settled s all) : s.Placed := by
  obtain ⟨ls, h⟩ := h
  have hobj : ∀ t, Reaches s.listNext s.allThreads t ↔ t ∈ all := fun t ↦ h.objects.reaches_iff
  refine ⟨⟨_, h.lists.linked .runQueue, h.tail, h.fifo⟩, ⟨_, h.lists.linked .sleepers⟩,
    fun q ↦ ⟨_, h.lists.linked (.waitQueue q)⟩, ⟨all, h.objects, h.alive⟩, fun t ht hd ↦ ?_,
    fun t ht hd p hp ↦ ?_, fun c t hi p hp ↦ ?_⟩
  · rw [hobj] at ht
    suffices ∃ p, s.At t p by
      obtain ⟨p, hp⟩ := this
      have hs := (state_of_at h hp).resolve_right fun ⟨c, _, hi⟩ ↦ h.idle c t hi ht
      exact ⟨p, hs.2.symm, fun p' ↦ ⟨at_unique h ht hp, fun heq ↦ heq ▸ hp⟩⟩
    by_cases hr : s.state t = .running
    · obtain ⟨c, -, hc⟩ := h.running t ht (Set.notMem_empty t) hr
      exact ⟨.cpu c, hc⟩
    · obtain ⟨k, hk⟩ := h.kept t ht (Set.notMem_empty t) hd hr
      cases k with
      | runQueue => exact ⟨.runQueue, (at_iff h rfl).mpr hk⟩
      | sleepers => exact ⟨.sleepers, (at_iff h rfl).mpr hk⟩
      | waitQueue q => exact ⟨.waitQueue q, (at_iff h rfl).mpr hk⟩
      | remaining => simp [h.remaining_eq_nil] at hk
  · rw [hobj] at ht
    have hs := ((state_of_at h hp).resolve_right fun ⟨c, _, hi⟩ ↦ h.idle c t hi ht).2
    rw [hd] at hs
    cases p <;> cases hs
  · rcases state_of_at h hp with ⟨ha, -⟩ | ⟨c', rfl, hi'⟩
    · exact absurd ha (h.idle c t hi)
    · rw [h.idles c c' t hi hi']

/-- In every run, on any number of CPUs. No step gets stuck. -/
theorem reachable_placed (h : Reachable s) :
    s.Placed ∧ ∀ op : Op, op.Legal s → ∃ s', op.run s = some s' := by
  obtain ⟨all, hs⟩ := settled_of_reachable h
  refine ⟨hs.placed, fun op hl ↦ ?_⟩
  obtain ⟨s', -, hs', -⟩ := hs.step hl
  exact ⟨s', hs'⟩

def spawned : Scheduler := (boot.schedInit 0 100).spawn 0 (some 200)

theorem spawned_reachable : Reachable spawned := by
  have hinit : Reachable (boot.schedInit 0 100) := .step .boot
    (show (Op.schedInit 0 100).Legal boot from ⟨rfl, nofun, nofun⟩) rfl
  refine .step hinit (show (Op.spawn 0 (some 200)).Legal _ from ?_) rfl
  intro t ht
  cases ht
  refine ⟨nofun, fun c ↦ ?_⟩
  by_cases hc : c = 0 <;> simp [idle, boot, schedInit, schedStartCpu, makeIdle, hc]

theorem reachable_placed_spawned : spawned.Placed ∧ ∃ s', (Op.yield 0 7).run spawned = some s' := by
  have h := reachable_placed spawned_reachable
  exact ⟨h.1, h.2 (.yield 0 7) (by simp [Op.Legal, spawned, current, spawn, maxThreads, adopt, enqueue, boot, schedInit, schedStartCpu, makeIdle, modify])⟩

end Scheduler

end Eris.Sched
