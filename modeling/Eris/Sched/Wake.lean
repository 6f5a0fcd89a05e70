import Eris.Sched.Runs

namespace Eris.Sched.Scheduler

open Library.Chains List Function

variable {s s' : Scheduler} {ls : Place → List ℕ} {all : List ℕ} {t : ℕ}

/-- What `wake` owes to the thread and to those that sleep or wait beside it. -/
structure Keeps (s s' : Scheduler) (t : ℕ) : Prop where
  placed : s'.Placed
  once : ∀ p p', s'.At t p → s'.At t p' → p = p'
  sleepers : ∀ x ≠ t, s.At x .sleepers → s'.At x .sleepers
  waiters : ∀ x ≠ t, ∀ q, s.At x (.waitQueue q) → s'.At x (.waitQueue q)

section

variable (h : Inv s none none ∅ ls all)

include h

theorem at_once (ht : t ∈ all ∨ ∃ c, s.idle c = some t) (p p' : Spot) (hp : s.At t p) (hp' : s.At t p') : p = p' := by
  rcases ht with ht | ⟨c, hi⟩
  · exact at_unique h ht hp' hp
  · have hidle := (Settled.placed ⟨ls, h⟩).idle c t hi
    rw [hidle p hp, hidle p' hp']

theorem enqueue_at_runQueue (ht : t ∉ ls .runQueue) : (s.enqueue t).At t .runQueue := by
  have htail := h.tail
  cases hlast : s.runQueueTail with
  | none =>
    have hhead : (s.enqueue t).runQueueHead = some t := by simp [enqueue, hlast]
    rw [At, hhead]
    exact .here t
  | some y =>
    rw [hlast] at htail
    have hhead : (s.enqueue t).runQueueHead = s.runQueueHead := by
      simp [enqueue, hlast, setNext, modify]
    rw [At, hhead, next_enqueue_of_some hlast]
    refine ((h.lists.linked .runQueue).snoc htail.symm ht).reaches_iff.mpr ?_
    exact mem_append_right _ (mem_singleton.mpr rfl)

theorem enqueue_at_waitQueue {q : ℕ} (ht : t ∈ ls (.waitQueue q)) : (s.enqueue t).At t (.waitQueue q) := by
  have hl := h.lists.linked (.waitQueue q)
  obtain ⟨l₁, l₂, hk⟩ := append_of_mem ht
  rw [hk] at hl
  have hnot := (nodup_cons.mp (nodup_middle.mp hl.nodup)).1
  have hhead : (s.enqueue t).waitQueues q = s.waitQueues q := by
    unfold enqueue
    split <;> simp [setNext, modify]
  rw [At, hhead]
  refine hl.reaches_of_eq fun y hy ↦ ?_
  have hyt := ne_of_mem_of_not_mem (mem_append_left l₂ hy) hnot
  cases hlast : s.runQueueTail with
  | none =>
    rw [next_enqueue_of_none hlast, update_of_ne hyt]
  | some z =>
    have hyz : y ≠ z := by
      rintro rfl
      have hz := mem_of_getLast? (h.tail.symm.trans hlast)
      have hy' := hk ▸ mem_append_left _ hy
      cases h.lists.apart _ _ y hz hy'
    rw [next_enqueue_of_some hlast, update_of_ne hyz, update_of_ne hyt]

theorem wake_blocked (ht : t ∈ all) (hb : s.state t = .blocked) : s.wake t = some (s.enqueue t) ∧
      ∃ q, (s.enqueue t).At t (.waitQueue q) ∧ (s.enqueue t).At t .runQueue := by
  have hlist : ∀ k, k.state ≠ .blocked → t ∉ ls k := by
    intro k hk hm
    exact hk ((h.held k t hm).2.2.symm.trans hb)
  have hstate : (s.threads t).state = .blocked ∨ (s.threads t).state = .sleeping := .inl hb
  refine ⟨?_, ?_⟩
  · rw [wake, if_pos hstate, detachFromSleepers_of_not_mem h (hlist .sleepers nofun)]
    rfl
  · obtain ⟨k, hk⟩ := h.kept t ht (Set.notMem_empty t) (by simp [hb]) (by simp [hb])
    have hks := (h.held k t hk).2.2
    rw [hb] at hks
    cases k with
    | waitQueue q =>
      exact ⟨q, enqueue_at_waitQueue h hk, enqueue_at_runQueue h (hlist .runQueue nofun)⟩
    | runQueue => cases hks
    | sleepers => cases hks
    | remaining => cases hks

end

/-- Whatever the state and wherever the thread is, `wake` does what it should unless the thread is
blocked. -/
theorem wake_keeps_iff (h : Reachable s) (ht : s.Object t) :
    (∃ s', s.wake t = some s' ∧ Keeps s s' t) ↔ s.state t ≠ .blocked := by
  obtain ⟨all, ls, h⟩ := settled_of_reachable h
  have hobj := ht.imp_left h.objects.reaches_iff.mp
  constructor
  · rintro ⟨s', hs', hkeeps⟩ hb
    have hall : t ∈ all := by
      refine hobj.resolve_right ?_
      rintro ⟨c, hc⟩
      rw [h.awake c t hc] at hb
      cases hb
    obtain ⟨hwake, q, hq, hrun⟩ := wake_blocked h hall hb
    rw [hwake] at hs'
    cases hs'
    cases hkeeps.once _ _ hq hrun
  · intro hb
    obtain ⟨s', ls', hs', h', hrest⟩ := wake_spec h hobj hb
    have hobj' : t ∈ all ∨ ∃ c, s'.idle c = some t := by
      refine hobj.imp_right ?_
      rintro ⟨c, hc⟩
      refine ⟨c, ?_⟩
      have hstate : ¬ ((s.threads t).state = .blocked ∨ (s.threads t).state = .sleeping) := by
        have hrun : (s.threads t).state = .running := h.awake c t hc
        simp [hrun]
      rw [wake, if_neg hstate] at hs'
      cases hs'
      exact hc
    refine ⟨s', hs', Settled.placed ⟨ls', h'⟩, at_once h' hobj', fun x hxt hx ↦ ?_, fun x hxt q hx ↦ ?_⟩
    · exact (at_iff h' rfl).mpr (hrest _ x hxt ((at_iff h rfl).mp hx))
    · exact (at_iff h' rfl).mpr (hrest _ x hxt ((at_iff h rfl).mp hx))

theorem wake_keeps_iff_spawned : ∃ s', spawned.wake 200 = some s' ∧ Keeps spawned s' 200 := by
  have hobj : spawned.Object 200 := .inl (.here 200)
  exact (wake_keeps_iff spawned_reachable hobj).mpr (by decide)

def waiting : Scheduler :=
  ((((spawned.spawn 1 (some 300)).yield 0 0).bind fun s ↦ s.wait 0 7).bind fun s ↦ s.wait 0 7).getD boot

theorem waiting_reachable : Reachable waiting := by
  have hspawn : Reachable (spawned.spawn 1 (some 300)) := by
    refine .step spawned_reachable (show (Op.spawn 1 (some 300)).Legal spawned from ?_) rfl
    intro t ht
    cases ht
    refine ⟨?_, fun c ↦ ?_⟩
    · rintro (_ | h)
      cases h
    · by_cases hc : c = 0 <;>
        simp [idle, spawned, spawn, maxThreads, adopt, enqueue, boot, schedInit, schedStartCpu, makeIdle, modify, hc]
  have hstarted : (spawned.spawn 1 (some 300)).current 0 ≠ none := by decide
  have hyield : Reachable (((spawned.spawn 1 (some 300)).yield 0 0).getD boot) :=
    .step hspawn (show (Op.yield 0 0).Legal _ from hstarted) rfl
  have hwait : Reachable ((((spawned.spawn 1 (some 300)).yield 0 0).bind fun s ↦ s.wait 0 7).getD boot) :=
    .step hyield (show (Op.wait 0 7).Legal _ from ⟨by decide, by decide⟩) rfl
  exact .step hwait (show (Op.wait 0 7).Legal _ from ⟨by decide, by decide⟩) rfl

/-- The thread in front goes to the run queue without leaving the wait queue, and the one behind it
is lost. -/
theorem wake_not_keeps :
    ∃ s', waiting.wake 300 = some s' ∧ waiting.At 200 (.waitQueue 7) ∧ ¬ s'.At 200 (.waitQueue 7) ∧
      s'.At 300 (.waitQueue 7) ∧ s'.At 300 .runQueue ∧ ¬ Keeps waiting s' 300 := by
  have hlost : ¬ (waiting.enqueue 300).At 200 (.waitQueue 7) := by
    rintro (_ | h)
    cases h
  have hbefore : waiting.At 200 (.waitQueue 7) := .there (.here 200)
  refine ⟨waiting.enqueue 300, rfl, hbefore, hlost, .here 300, .here 300, fun hkeeps ↦ ?_⟩
  exact hlost (hkeeps.waiters 200 (by decide) 7 hbefore)

end Eris.Sched.Scheduler
