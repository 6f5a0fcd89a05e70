import Eris.Sched.Placement

namespace Eris.Sched.Scheduler

open Library.Chains List Function

variable {s s' : Scheduler} {r gap : Option ℕ} {hands : Set ℕ} {ls : Place → List ℕ}
  {all rest : List ℕ} {x q t : ℕ}

theorem Inv.not_mem (h : Inv s r gap hands ls all) (hx : x ∈ hands) (k : Place) : x ∉ ls k :=
  fun hm ↦ (h.held k x hm).2.1 hx

theorem Same.modify (s : Scheduler) (t : ℕ) (f : Thread → Thread)
    (hf : (f (s.threads t)).listNext = (s.threads t).listNext) : Same s (s.modify t f) :=
  ⟨s.listNext_modify t f hf, rfl, rfl, rfl, rfl⟩

theorem next_enqueue_of_none (h : s.runQueueTail = none) (x : ℕ) :
    (s.enqueue x).next = update s.next x none := by
  simp only [enqueue, h]
  exact s.next_modify x fun y ↦ { y with queueNext := none, state := .ready }

theorem next_enqueue_of_some {y : ℕ} (h : s.runQueueTail = some y) (x : ℕ) :
    (s.enqueue x).next = update (update s.next x none) y (some x) := by
  simp only [enqueue, h]
  rw [next_setNext]
  exact congrArg (update · y (some x))
    (s.next_modify x fun z ↦ { z with queueNext := none, state := .ready })

theorem state_enqueue (s : Scheduler) (x : ℕ) : (s.enqueue x).state = update s.state x .ready := by
  unfold enqueue
  split
  · exact s.state_modify x fun y ↦ { y with queueNext := none, state := .ready }
  · exact (state_setNext _ _ _).trans (s.state_modify x fun y ↦ { y with queueNext := none, state := .ready })

theorem wakeAt_enqueue (s : Scheduler) (x : ℕ) : (s.enqueue x).wakeAt = s.wakeAt := by
  unfold enqueue
  split
  · exact s.wakeAt_modify x (fun y ↦ { y with queueNext := none, state := .ready }) rfl
  · exact (wakeAt_setNext _ _ _).trans (s.wakeAt_modify x (fun y ↦ { y with queueNext := none, state := .ready }) rfl)

theorem log_enqueue (s : Scheduler) (x : ℕ) : (s.enqueue x).enqueued = s.enqueued ++ [x] ∧
    (s.enqueue x).dequeued = s.dequeued ∧ (s.enqueue x).runQueueTail = some x := by
  unfold enqueue
  split <;> exact ⟨rfl, rfl, rfl⟩

section

variable (h : Inv s r gap hands ls all)

include h

theorem enqueue_spec (hx : x ∈ hands) : Inv (s.enqueue x) r gap (hands \ {x})
      (update ls .runQueue (ls .runQueue ++ [x])) all := by
  have hout := h.not_mem hx
  have hlog := s.log_enqueue x
  have hsame : Same s (s.enqueue x) := by
    have hmod := Same.modify s x (fun y ↦ { y with queueNext := none, state := .ready }) rfl
    unfold enqueue
    split
    · exact ⟨hmod.listNext, rfl, rfl, rfl, rfl⟩
    · exact ⟨(listNext_setNext _ _ _).trans hmod.listNext, rfl, rfl, rfl, rfl⟩
  have hlists : Family (s.enqueue x).next ((s.enqueue x).head r)
      (update ls .runQueue (ls .runQueue ++ [x])) := by
    have htail := h.tail
    cases hlast : s.runQueueTail with
    | none =>
      rw [hlast] at htail
      have hnil := getLast?_eq_none_iff.mp htail.symm
      have hhead : (s.enqueue x).head r = update (s.head r) .runQueue (some x) := by
        funext k
        cases k <;> simp [enqueue, hlast, head, modify]
      rw [next_enqueue_of_none hlast, hhead, hnil]
      exact h.lists.append_nil hnil hout
    | some y =>
      rw [hlast] at htail
      have hhead : (s.enqueue x).head r = s.head r := by
        funext k
        cases k <;> simp [enqueue, hlast, head, modify, setNext]
      rw [next_enqueue_of_some hlast, hhead]
      exact h.lists.append htail.symm hout
  refine h.put hx hlists (fun y ↦ ?_) ?_ ?_ (s.state_enqueue x) hsame
  · simp [or_comm]
  · rw [hlog.2.2]
    simp
  · rw [hlog.1, hlog.2.1, h.fifo]
    simp

theorem dequeue_spec : (s.dequeue = (none, s) ∧ ls .runQueue = []) ∨
    ∃ x rest s', s.dequeue = (some x, s') ∧ ls .runQueue = x :: rest ∧ s'.current = s.current ∧
      s'.idle = s.idle ∧ Inv s' r gap (insert x hands) (update ls .runQueue rest) all := by
  have hhead := h.lists.head_eq .runQueue
  cases hk : ls .runQueue with
  | nil =>
    rw [hk] at hhead
    refine .inl ⟨?_, rfl⟩
    rw [dequeue, show s.runQueueHead = none from hhead]
  | cons x rest =>
    rw [hk] at hhead
    have hx : s.runQueueHead = some x := hhead
    have hs : s.dequeue = (some x, { s.setNext x none with
        runQueueHead := s.next x
        runQueueTail := if s.next x = none then none else s.runQueueTail
        dequeued := s.dequeued ++ [x] }) := by
      rw [dequeue, hx]
      rfl
    have hl := h.lists.linked .runQueue
    rw [hk] at hl
    refine .inr ⟨x, rest, _, hs, rfl, rfl, rfl, h.pop hk ?_ ?_ ?_ (state_setNext s x none)
      ⟨listNext_setNext s x none, rfl, rfl, rfl, rfl⟩⟩
    · refine (h.lists.pop hk none).1.of_eq (s.next_setNext x none) ?_
      funext k
      cases k <;> simp [head, setNext, modify]
    · have htail := h.tail
      rw [hk] at htail
      rw [update_self]
      cases rest with
      | nil =>
        have hnone : s.next x = none := hl.2
        rw [if_pos hnone]
        rfl
      | cons y rest =>
        have hsome := hl.2.1
        rw [if_neg (by simp [hsome])]
        exact htail
    · have hfifo := h.fifo
      rw [hk] at hfifo
      simpa [setNext, modify] using hfifo

theorem parkSleeperAt_spec (hx : x ∈ hands) (deadline : ℕ) : Inv (s.parkSleeperAt x deadline) r gap (hands \ {x})
      (update ls .sleepers (x :: ls .sleepers)) all := by
  let f : Thread → Thread := fun y ↦
    { y with wakeAt := deadline, state := .sleeping, queueNext := s.sleepers }
  refine h.put hx ?_ (fun y ↦ mem_cons) h.tail h.fifo (s.state_modify x f)
    ⟨s.listNext_modify x f rfl, rfl, rfl, rfl, rfl⟩
  refine (h.lists.push (h.not_mem hx) .sleepers).of_eq (s.next_modify x f) ?_
  funext k
  cases k <;> simp [parkSleeperAt, head, modify]

theorem blockOn_spec (hx : x ∈ hands) (q : ℕ) : Inv (s.blockOn q x) r gap (hands \ {x})
      (update ls (.waitQueue q) (x :: ls (.waitQueue q))) all := by
  let f : Thread → Thread := fun y ↦ { y with state := .blocked, queueNext := s.waitQueues q }
  refine h.put hx ?_ (fun y ↦ mem_cons) h.tail h.fifo (s.state_modify x f)
    ⟨s.listNext_modify x f rfl, rfl, rfl, rfl, rfl⟩
  refine (h.lists.push (h.not_mem hx) (.waitQueue q)).of_eq (s.next_modify x f) ?_
  funext k
  cases k with
  | waitQueue q' =>
    by_cases hq : q' = q
    · subst hq
      simp [blockOn, head]
    · simp [blockOn, head, hq]
  | _ => simp [blockOn, head, modify]

theorem takeFrom_spec (q : ℕ) : (s.takeFrom q = (none, s) ∧ ls (.waitQueue q) = []) ∨
    ∃ x rest s', s.takeFrom q = (some x, s') ∧ ls (.waitQueue q) = x :: rest ∧
      Inv s' r gap (insert x hands) (update ls (.waitQueue q) rest) all := by
  have hhead := h.lists.head_eq (.waitQueue q)
  cases hk : ls (.waitQueue q) with
  | nil =>
    rw [hk] at hhead
    refine .inl ⟨?_, rfl⟩
    rw [takeFrom, show s.waitQueues q = none from hhead]
  | cons x rest =>
    rw [hk] at hhead
    have hx : s.waitQueues q = some x := hhead
    have hs : s.takeFrom q = (some x, { s.setNext x none with
        waitQueues := update s.waitQueues q (s.next x) }) := by
      rw [takeFrom, hx]
      rfl
    refine .inr ⟨x, rest, _, hs, rfl, h.pop hk ?_ h.tail h.fifo (state_setNext s x none)
      ⟨listNext_setNext s x none, rfl, rfl, rfl, rfl⟩⟩
    refine (h.lists.pop hk none).1.of_eq (s.next_setNext x none) ?_
    funext k
    cases k with
    | waitQueue q' =>
      by_cases hq : q' = q
      · subst hq
        simp [head]
      · simp [head, hq]
    | _ => simp [head, setNext, modify]

end

theorem enqueue_cpus (s : Scheduler) (x : ℕ) : (s.enqueue x).cpus = s.cpus := by
  unfold enqueue
  split <;> rfl

theorem Inv.length_le (h : Inv s r gap hands ls all) (k : Place) :
    (ls k).length ≤ s.threadsAlive := by
  rw [h.alive]
  refine (subperm_of_subset (h.lists.linked k).nodup fun t ht ↦ ?_).length_le
  obtain ⟨ha, -, hs⟩ := h.held k t ht
  rw [mem_filter]
  exact ⟨ha, by simp [hs, k.state_ne.1]⟩

theorem Inv.length_lt_rounds (h : Inv s r gap hands ls all) (k : Place) : (ls k).length < s.rounds :=
  Nat.lt_succ_of_le (Nat.le_add_right_of_le (h.length_le k))

theorem Inv.restore (h : Inv s r gap hands ls all) (hnil : ls .sleepers = []) :
    Inv { s with sleepers := r } none gap hands
      (update (update ls .sleepers (ls .remaining)) .remaining []) all := by
  have hnew : ∀ k, update (update ls .sleepers (ls .remaining)) .remaining [] k =
      if k = .remaining then [] else if k = .sleepers then ls .remaining else ls k := by
    intro k
    rw [update_apply, update_apply]
  have hlists : ∀ k, Linked s.next (head { s with sleepers := r } none k)
      (if k = .remaining then [] else if k = .sleepers then ls .remaining else ls k) := by
    intro k
    cases k with
    | runQueue => exact h.lists.linked .runQueue
    | sleepers => exact h.lists.linked .remaining
    | remaining => exact rfl
    | waitQueue q => exact h.lists.linked (.waitQueue q)
  have hstate : Place.remaining.state = Place.sleepers.state := rfl
  refine { h with lists := ⟨fun k ↦ by rw [hnew]; exact hlists k, ?_⟩, tail := h.tail, fifo := h.fifo, held := ?_, kept := ?_ }
  all_goals
    generalize update (update ls .sleepers (ls .remaining)) .remaining [] = ls' at hnew ⊢
  · have := h.lists.apart
    grind
  · have hheld := h.held
    change ∀ k, ∀ t ∈ ls' k, t ∈ all ∧ t ∉ hands ∧ s.state t = k.state
    grind
  · intro t ht hh hd hr
    obtain ⟨k, hk⟩ := h.kept t ht hh hd hr
    by_cases hrest : k = .remaining
    · exact ⟨.sleepers, by grind⟩
    · exact ⟨k, by grind⟩

/-- The sleepers whose time has come are at the end of the run queue, in their order, and the others are still asleep. -/
structure Woken (now : ℕ) (s s' : Scheduler) (ls ls' : Place → List ℕ) : Prop where
  runQueue : ls' .runQueue = ls .runQueue ++ (ls .sleepers).filter fun t ↦ s.wakeAt t ≤ now
  sleepers : ls' .sleepers = ((ls .sleepers).filter fun t ↦ ¬ s.wakeAt t ≤ now).reverse ++ ls .remaining
  remaining : ls' .remaining = []
  cpus : s'.cpus = s.cpus
  wakeAt : s'.wakeAt = s.wakeAt
  dequeued : s'.dequeued = s.dequeued

theorem wakeExpired_spec (now : ℕ) {rounds : ℕ} (h : Inv s r gap hands ls all)
    (hlen : (ls .sleepers).length < rounds) :
    ∃ s' ls', wakeExpired now rounds r s = some s' ∧ Woken now s s' ls ls' ∧ Inv s' none gap hands ls' all := by
  induction rounds generalizing s r ls with
  | zero => omega
  | succ rounds ih =>
    have hhead := h.lists.head_eq .sleepers
    cases hk : ls .sleepers with
    | nil =>
      rw [hk] at hhead
      have hnone : s.sleepers = none := hhead
      rw [wakeExpired, hnone]
      exact ⟨_, _, rfl, ⟨by simp [hk], by simp [hk], by simp, rfl, rfl, rfl⟩, h.restore hk⟩
    | cons t rest =>
      rw [hk] at hhead hlen
      have hsome : s.sleepers = some t := hhead
      have hheld := h.held .sleepers t (by rw [hk]; exact mem_cons_self)
      have htake : Inv { s with sleepers := s.next t } r gap (insert t hands)
          (update ls .sleepers rest) all := by
        refine h.pop hk ?_ h.tail h.fifo rfl ⟨rfl, rfl, rfl, rfl, rfl⟩
        refine (h.lists.pop hk (s.next t)).1.of_eq (update_eq_self t s.next).symm ?_
        funext k
        cases k <;> simp [head]
      have hback := Set.insert_sdiff_self_of_notMem hheld.2.1
      rw [wakeExpired, hsome]
      simp only
      split
      · rename_i hexpired
        have hexpired : s.wakeAt t ≤ now := hexpired
        have henq := enqueue_spec htake (Set.mem_insert t hands)
        rw [hback] at henq
        obtain ⟨s', ls', hs', hwoken, hinv⟩ := ih henq (by simpa using hlen)
        have hwake : ({ s with sleepers := s.next t }.enqueue t).wakeAt = s.wakeAt := wakeAt_enqueue _ _
        refine ⟨s', ls', hs', ⟨?_, ?_, hwoken.remaining, hwoken.cpus.trans (enqueue_cpus _ _), ?_, ?_⟩, hinv⟩
        · rw [hwoken.runQueue, hwake, hk, filter_cons_of_pos (by simpa using hexpired)]
          simp
        · rw [hwoken.sleepers, hwake, hk, filter_cons_of_neg (by simpa using hexpired)]
          simp
        · rw [hwoken.wakeAt, hwake]
        · rw [hwoken.dequeued, (log_enqueue _ _).2.1]
      · rename_i hlater
        have hlater : ¬ s.wakeAt t ≤ now := hlater
        have hput : Inv ({ s with sleepers := s.next t }.setNext t r) (some t) gap
            (insert t hands \ {t}) (update (update ls .sleepers rest) .remaining
              (t :: update ls .sleepers rest .remaining)) all := by
          refine htake.put (Set.mem_insert t hands) ?_ (fun y ↦ mem_cons) htake.tail htake.fifo ?_
            ⟨listNext_setNext _ _ _, rfl, rfl, rfl, rfl⟩
          · refine (htake.lists.push (htake.not_mem (Set.mem_insert t hands)) .remaining).of_eq
              (next_setNext _ _ _) ?_
            funext k
            cases k <;> simp [head, setNext, modify]
          · rw [state_setNext]
            exact (update_eq_self_iff.mpr hheld.2.2.symm).symm
        rw [hback] at hput
        obtain ⟨s', ls', hs', hwoken, hinv⟩ := ih hput (by simpa using hlen)
        have hwake : ({ s with sleepers := s.next t }.setNext t r).wakeAt = s.wakeAt := wakeAt_setNext _ _ _
        refine ⟨s', ls', hs', ⟨?_, ?_, hwoken.remaining, hwoken.cpus, hwoken.wakeAt.trans hwake, hwoken.dequeued⟩, hinv⟩
        · rw [hwoken.runQueue, hwake, hk, filter_cons_of_neg (by simpa using hlater)]
          simp
        · rw [hwoken.sleepers, hwake, hk, filter_cons_of_pos (by simpa using hlater)]
          simp

theorem detachAfter_of_not_mem {l : List ℕ} {p rounds : ℕ} (hl : Linked s.next (s.next p) l)
    (ht : t ∉ l) (hlen : l.length < rounds) : s.detachAfter t rounds p = some s := by
  induction l generalizing p rounds with
  | nil =>
    obtain ⟨rounds, rfl⟩ := Nat.exists_eq_succ_of_ne_zero (Nat.ne_of_gt hlen)
    rw [detachAfter, show (s.threads p).queueNext = none from hl]
  | cons x l ih =>
    obtain ⟨rounds, rfl⟩ := Nat.exists_eq_succ_of_ne_zero (Nat.ne_of_gt (Nat.zero_lt_of_lt hlen))
    have hx : (s.threads p).queueNext = some x := hl.1
    have hxt := ne_of_mem_of_not_mem mem_cons_self ht
    simp only [detachAfter, hx, if_neg hxt]
    exact ih hl.2 (fun hm ↦ ht (mem_cons_of_mem x hm)) (by simpa using hlen)

theorem detachAfter_of_mem {l₁ l₂ : List ℕ} {p rounds : ℕ}
    (hl : Linked s.next (s.next p) (l₁ ++ t :: l₂)) (ht : t ∉ l₁) (hlen : l₁.length < rounds) :
    ∃ l y, p :: l₁ = l ++ [y] ∧ s.detachAfter t rounds p = some (s.setNext y (s.next t)) := by
  induction l₁ generalizing p rounds with
  | nil =>
    obtain ⟨rounds, rfl⟩ := Nat.exists_eq_succ_of_ne_zero (Nat.ne_of_gt hlen)
    have hx : (s.threads p).queueNext = some t := hl.1
    exact ⟨[], p, rfl, by simp [detachAfter, hx, next]⟩
  | cons x l₁ ih =>
    obtain ⟨rounds, rfl⟩ := Nat.exists_eq_succ_of_ne_zero (Nat.ne_of_gt (Nat.zero_lt_of_lt hlen))
    have hx : (s.threads p).queueNext = some x := hl.1
    obtain ⟨l, y, hly, hrun⟩ := ih hl.2 (fun hm ↦ ht (mem_cons_of_mem x hm))
      (by simpa using hlen)
    refine ⟨p :: l, y, by rw [hly, cons_append], ?_⟩
    have hxt := ne_of_mem_of_not_mem mem_cons_self ht
    simp only [detachAfter, hx, if_neg hxt, hrun]

theorem detachFromSleepers_of_not_mem (h : Inv s r gap hands ls all) (ht : t ∉ ls .sleepers) :
    s.detachFromSleepers t = some s := by
  have hl := h.lists.linked .sleepers
  have hlen := h.length_lt_rounds .sleepers
  cases hk : ls .sleepers with
  | nil =>
    rw [hk] at hl
    rw [detachFromSleepers, show s.sleepers = none from hl]
  | cons x l =>
    rw [hk] at hl hlen ht
    have hx : s.sleepers = some x := hl.1
    have hxt := ne_of_mem_of_not_mem mem_cons_self ht
    simp only [detachFromSleepers, hx, if_neg hxt]
    rw [length_cons] at hlen
    exact detachAfter_of_not_mem hl.2 (fun hm ↦ ht (mem_cons_of_mem x hm)) (by omega)

theorem detachFromSleepers_of_mem (h : Inv s r gap hands ls all) (ht : t ∈ ls .sleepers) :
    ∃ s' ls', s.detachFromSleepers t = some s' ∧ Inv s' r gap (insert t hands) ls' all ∧
      (∀ k, ∀ x ≠ t, x ∈ ls k → x ∈ ls' k) := by
  have hl := h.lists.linked .sleepers
  have hlen := h.length_lt_rounds .sleepers
  have hn := hl.nodup
  obtain ⟨l₁, l₂, hk⟩ := append_of_mem ht
  have hmem : ∀ y, y ∈ l₁ ++ l₂ ↔ y ≠ t ∧ y ∈ ls .sleepers := by
    intro y
    rw [hk] at hn ⊢
    have hnot := nodup_middle.mp hn
    simp only [mem_append, mem_cons]
    constructor
    · intro hy
      exact ⟨ne_of_mem_of_not_mem (mem_append.mpr hy) (nodup_cons.mp hnot).1, hy.imp_right .inr⟩
    · rintro ⟨hyt, hy | rfl | hy⟩
      · exact .inl hy
      · exact absurd rfl hyt
      · exact .inr hy
  have hrest : ∀ k, ∀ x ≠ t, x ∈ ls k → x ∈ update ls .sleepers (l₁ ++ l₂) k := by
    intro k x hxt hx
    by_cases hks : k = .sleepers
    · subst hks
      rw [update_self, hmem]
      exact ⟨hxt, hx⟩
    · rwa [update_of_ne hks]
  cases l₁ with
  | nil =>
    have hx : s.sleepers = some t := by
      rw [hk] at hl
      exact hl.1
    refine ⟨{ s with sleepers := s.next t }, _, by simp [detachFromSleepers, hx, next],
      h.take ht hmem ?_ h.tail h.fifo rfl ⟨rfl, rfl, rfl, rfl, rfl⟩, hrest⟩
    refine (h.lists.pop hk (s.next t)).1.of_eq (update_eq_self t s.next).symm ?_
    funext k
    cases k <;> simp [head]
  | cons x l₁ =>
    rw [hk] at hl hlen hn
    have hx : s.sleepers = some x := hl.1
    simp only [cons_append, length_cons, length_append] at hlen
    have hnot := (nodup_cons.mp (nodup_middle.mp hn)).1
    have hrounds : l₁.length < s.rounds := by omega
    obtain ⟨l, y, hly, hrun⟩ := detachAfter_of_mem hl.2
      (fun hm ↦ hnot (mem_append_left l₂ (mem_cons_of_mem x hm))) hrounds
    refine ⟨s.setNext y (s.next t), _, ?_, h.take ht hmem ?_ h.tail h.fifo (state_setNext ..)
      ⟨listNext_setNext .., rfl, rfl, rfl, rfl⟩, hrest⟩
    · simp only [detachFromSleepers, hx]
      rw [if_neg, hrun]
      rintro rfl
      exact hnot (mem_append_left l₂ mem_cons_self)
    · have hk' : ls .sleepers = l ++ y :: t :: l₂ := by rw [hk, hly]; simp
      have hun := h.lists.unlink hk'
      rw [show l ++ y :: l₂ = x :: l₁ ++ l₂ by rw [hly]; simp] at hun
      refine hun.of_eq (next_setNext ..) ?_
      funext k
      cases k <;> simp [head, setNext, modify]

end Eris.Sched.Scheduler
