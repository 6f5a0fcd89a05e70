import Eris.Library.Chains
import Eris.Sched.Scheduler

namespace Eris.Sched

open Library.Chains List Function

/-- The lists that use the link of a thread. The third one is local to
`wake_expired_sleepers`. -/
inductive Place
  | runQueue
  | sleepers
  | remaining
  | waitQueue (q : ℕ)
  deriving DecidableEq

def Place.state : Place → ThreadState
  | .runQueue => .ready
  | .sleepers => .sleeping
  | .remaining => .sleeping
  | .waitQueue _ => .blocked

theorem Place.state_ne (k : Place) : k.state ≠ .dead ∧ k.state ≠ .running := by
  cases k <;> exact ⟨nofun, nofun⟩

namespace Scheduler

def next (s : Scheduler) (t : ℕ) : Option ℕ := (s.threads t).queueNext

def state (s : Scheduler) (t : ℕ) : ThreadState := (s.threads t).state

def wakeAt (s : Scheduler) (t : ℕ) : ℕ := (s.threads t).wakeAt

def listNext (s : Scheduler) (t : ℕ) : Option ℕ := (s.threads t).listNext

def current (s : Scheduler) (c : ℕ) : Option ℕ := (s.cpus c).currentThread

def idle (s : Scheduler) (c : ℕ) : Option ℕ := (s.cpus c).idleThread

/-- Where each list starts, the local one at `r`. -/
def head (s : Scheduler) (r : Option ℕ) : Place → Option ℕ
  | .runQueue => s.runQueueHead
  | .sleepers => s.sleepers
  | .remaining => r
  | .waitQueue q => s.waitQueues q

/-- The placement of the threads `all` while an operation is under way. The lists are `ls`. The
threads in `hands` are not in their place yet, and what runs on the CPU `gap` does not count. -/
structure Inv (s : Scheduler) (r gap : Option ℕ) (hands : Set ℕ) (ls : Place → List ℕ)
    (all : List ℕ) : Prop where
  lists : Family s.next (s.head r) ls
  tail : s.runQueueTail = (ls .runQueue).getLast?
  fifo : s.enqueued = s.dequeued ++ ls .runQueue
  objects : Linked s.listNext s.allThreads all
  alive : s.threadsAlive = (all.filter fun t ↦ s.state t ≠ .dead).length
  held : ∀ k, ∀ t ∈ ls k, t ∈ all ∧ t ∉ hands ∧ s.state t = k.state
  kept : ∀ t ∈ all, t ∉ hands → s.state t ≠ .dead → s.state t ≠ .running → ∃ k, t ∈ ls k
  lifted : ∀ t ∈ hands, t ∈ all ∧ s.state t ≠ .dead ∧ ∀ c, gap ≠ some c → s.current c ≠ some t
  running : ∀ t ∈ all, t ∉ hands → s.state t = .running → ∃ c, gap ≠ some c ∧ s.current c = some t
  current : ∀ c, gap ≠ some c → ∀ t, s.current c = some t → t ∈ all ∧ s.state t = .running ∨ s.idle c = some t
  single : ∀ c c' t, gap ≠ some c → gap ≠ some c' → s.current c = some t → s.current c' = some t → c = c'
  idle : ∀ c t, s.idle c = some t → t ∉ all
  idles : ∀ c c' t, s.idle c = some t → s.idle c' = some t → c = c'
  awake : ∀ c t, s.idle c = some t → s.state t = .running
  started : ∀ c, s.current c = none ↔ s.idle c = none

variable {s s' : Scheduler} {r r' gap : Option ℕ} {hands : Set ℕ} {ls : Place → List ℕ}
  {all l rest : List ℕ} {k : Place} {x y c t : ℕ}

section Fields

variable (s) (t) (f : Thread → Thread) (p : Option ℕ)

theorem threads_modify {α : Type} (g : Thread → α) :
    (fun y ↦ g ((s.modify t f).threads y)) = update (fun y ↦ g (s.threads y)) t (g (f (s.threads t))) := by
  funext y
  simp only [modify, update_apply]
  exact apply_ite g ..

theorem next_modify : (s.modify t f).next = update s.next t (f (s.threads t)).queueNext := s.threads_modify t f _

theorem state_modify : (s.modify t f).state = update s.state t (f (s.threads t)).state := s.threads_modify t f _

theorem wakeAt_modify (hf : (f (s.threads t)).wakeAt = (s.threads t).wakeAt) : (s.modify t f).wakeAt = s.wakeAt := by
  refine (s.threads_modify t f Thread.wakeAt).trans ?_
  rw [hf]
  exact update_eq_self t s.wakeAt

theorem listNext_modify (hf : (f (s.threads t)).listNext = (s.threads t).listNext) :
    (s.modify t f).listNext = s.listNext := by
  refine (s.threads_modify t f Thread.listNext).trans ?_
  rw [hf]
  exact update_eq_self t s.listNext

theorem next_setNext : (s.setNext t p).next = update s.next t p := s.next_modify t _

theorem state_setNext : (s.setNext t p).state = s.state := by
  rw [setNext, state_modify]
  exact update_eq_self t s.state

theorem wakeAt_setNext : (s.setNext t p).wakeAt = s.wakeAt := s.wakeAt_modify t _ rfl

theorem listNext_setNext : (s.setNext t p).listNext = s.listNext := s.listNext_modify t _ rfl

end Fields

/-- What moving a thread between lists leaves alone. -/
structure Same (s s' : Scheduler) : Prop where
  listNext : s'.listNext = s.listNext
  allThreads : s'.allThreads = s.allThreads
  threadsAlive : s'.threadsAlive = s.threadsAlive
  current : s'.current = s.current
  idle : s'.idle = s.idle

theorem Inv.state_of_current (h : Inv s r gap hands ls all) (hgap : gap ≠ some c)
    (hc : s.current c = some t) (ht : t ∈ all) : s.state t = .running := by
  rcases h.current c hgap t hc with ⟨-, hs⟩ | hi
  · exact hs
  · exact absurd ht (h.idle c t hi)

theorem Inv.take (h : Inv s r gap hands ls all) (hx : x ∈ ls k) (hl : ∀ y, y ∈ l ↔ y ≠ x ∧ y ∈ ls k)
    (hlists : Family s'.next (s'.head r') (update ls k l))
    (htail : s'.runQueueTail = (update ls k l .runQueue).getLast?)
    (hfifo : s'.enqueued = s'.dequeued ++ update ls k l .runQueue)
    (hstate : s'.state = s.state) (hsame : Same s s') :
    Inv s' r' gap (insert x hands) (update ls k l) all := by
  have ⟨hlist, hthreads, hcount, hcur, hown⟩ := hsame
  constructor
  case lists => exact hlists
  case tail => exact htail
  case fifo => exact hfifo
  case objects => rw [hlist, hthreads]; exact h.objects
  case alive => rw [hcount, hstate]; exact h.alive
  case current => rw [hstate, hcur, hown]; exact h.current
  case single => rw [hcur]; exact h.single
  case idle => rw [hown]; exact h.idle
  case idles => rw [hown]; exact h.idles
  case awake => rw [hown, hstate]; exact h.awake
  case started => rw [hcur, hown]; exact h.started
  all_goals
    have hplace := k.state_ne
    have hheld := h.held
    have hnow := congrFun hstate
    have hnew := update_apply ls k l
    have hhere := congrFun hcur
    generalize update ls k l = ls' at *
  · have := h.lists.apart
    grind
  · have := h.kept
    grind
  · have := h.lifted
    have := h.current
    have := h.idle
    grind
  · have := h.running
    grind

theorem Inv.pop (h : Inv s r gap hands ls all) (hk : ls k = x :: rest)
    (hlists : Family s'.next (s'.head r') (update ls k rest))
    (htail : s'.runQueueTail = (update ls k rest .runQueue).getLast?)
    (hfifo : s'.enqueued = s'.dequeued ++ update ls k rest .runQueue)
    (hstate : s'.state = s.state) (hsame : Same s s') :
    Inv s' r' gap (insert x hands) (update ls k rest) all := by
  have hn := (h.lists.linked k).nodup
  rw [hk] at hn
  refine h.take (by rw [hk]; exact mem_cons_self) (fun y ↦ ?_) hlists htail hfifo hstate hsame
  rw [hk, mem_cons]
  constructor
  · exact fun hy ↦ ⟨ne_of_mem_of_not_mem hy (nodup_cons.mp hn).1, .inr hy⟩
  · exact fun hy ↦ hy.2.resolve_left hy.1

theorem Inv.put (h : Inv s r gap hands ls all) (hx : x ∈ hands)
    (hlists : Family s'.next (s'.head r') (update ls k l))
    (hl : ∀ y, y ∈ l ↔ y = x ∨ y ∈ ls k)
    (htail : s'.runQueueTail = (update ls k l .runQueue).getLast?)
    (hfifo : s'.enqueued = s'.dequeued ++ update ls k l .runQueue)
    (hstate : s'.state = update s.state x k.state) (hsame : Same s s') :
    Inv s' r' gap (hands \ {x}) (update ls k l) all := by
  have ⟨hlist, hthreads, hcount, hcur, hown⟩ := hsame
  have hplace := k.state_ne
  have hlifted := h.lifted
  have hnow := update_apply s.state x k.state
  rw [← hstate] at hnow
  constructor
  case lists => exact hlists
  case tail => exact htail
  case fifo => exact hfifo
  case objects => rw [hlist, hthreads]; exact h.objects
  case alive => rw [hcount, h.alive]; exact congrArg _ (filter_congr fun t _ ↦ by grind)
  case single => rw [hcur]; exact h.single
  case idle => rw [hown]; exact h.idle
  case idles => rw [hown]; exact h.idles
  case started => rw [hcur, hown]; exact h.started
  all_goals
    have hnew := update_apply ls k l
    have hhere := congrFun hcur
    have hthere := congrFun hown
    generalize update ls k l = ls' at *
  · have := h.held
    grind
  · have := h.kept
    grind
  · grind
  · have := h.running
    grind
  · have := h.current
    grind
  · have := h.idle
    have := h.awake
    grind

theorem Inv.vacate (h : Inv s r none hands ls all) (hc : s.current c = some t) (ht : t ∈ all) :
    Inv s r (some c) (insert t hands) ls all := by
  have hs := h.state_of_current nofun hc ht
  refine
    { h with
      held := fun k x hx ↦ ?_
      kept := fun x hx hh ↦ h.kept x hx fun hm ↦ hh (Set.mem_insert_of_mem t hm)
      lifted := ?_
      running := ?_
      current := fun c' _ ↦ h.current c' nofun
      single := fun c₁ c₂ x _ _ ↦ h.single c₁ c₂ x nofun nofun }
  · have := h.held k x hx
    have := k.state_ne
    grind
  · have := h.lifted
    have := h.single
    grind
  · have := h.running
    grind

theorem Inv.vacate_idle (h : Inv s r none hands ls all) (hc : s.current c = s.idle c) :
    Inv s r (some c) hands ls all := by
  refine
    { h with
      lifted := ?_
      running := ?_
      current := fun c' _ ↦ h.current c' nofun
      single := fun c₁ c₂ x _ _ ↦ h.single c₁ c₂ x nofun nofun }
  · have := h.lifted
    grind
  · have := h.running
    have := h.idle
    grind

theorem Inv.setCurrent (h : Inv s r (some c) hands ls all) (hx : x ∈ hands ∨ s.idle c = some x)
    (hc : s.current c ≠ none) : Inv (s.setCurrent c x) r none (hands \ {x}) ls all := by
  have hstate : (s.setCurrent c x).state = update s.state x .running :=
    s.state_modify x fun y ↦ { y with cpu := c, state := .running }
  have hnext : (s.setCurrent c x).next = s.next :=
    (s.next_modify x fun y ↦ { y with cpu := c, state := .running }).trans
      (update_eq_self x s.next)
  have hlist : (s.setCurrent c x).listNext = s.listNext :=
    s.listNext_modify x (fun y ↦ { y with cpu := c, state := .running }) rfl
  have hcur : ∀ c', (s.setCurrent c x).current c' = if c' = c then some x else s.current c' := by
    intro c'
    by_cases hcc : c' = c
    · subst hcc
      simp [Scheduler.setCurrent, Scheduler.current]
    · simp [Scheduler.setCurrent, Scheduler.current, hcc]
  have hidle : (s.setCurrent c x).idle = s.idle := by
    funext c'
    by_cases hcc : c' = c
    · subst hcc
      simp [Scheduler.setCurrent, Scheduler.idle]
    · simp [Scheduler.setCurrent, Scheduler.idle, hcc]
  have hnow := update_apply s.state x .running
  rw [← hstate] at hnow
  have hsame := congrFun hidle
  have hlifted := h.lifted
  have hfree := h.idle
  have hgap : ∀ c' ≠ c, some c ≠ some c' := fun c' hcc heq ↦ hcc (Option.some.inj heq).symm
  have haway : ∀ c' ≠ c, s.current c' ≠ some x := by
    intro c' hcc
    have := h.current c' (hgap c' hcc) x
    have := h.idles c' c x
    grind
  constructor
  case tail => exact h.tail
  case fifo => exact h.fifo
  case alive => exact h.alive.trans (congrArg _ (filter_congr fun t _ ↦ by grind))
  case lists => rw [hnext]; exact h.lists
  case objects => rw [hlist]; exact h.objects
  case idle => rw [hidle]; exact h.idle
  case idles => rw [hidle]; exact h.idles
  · have := h.held
    grind
  · have := h.kept
    grind
  · grind
  · have := h.running
    grind
  · have := h.current
    grind
  · intro c₁ c₂ t _ _
    have := fun h₁ h₂ ↦ h.single c₁ c₂ t (hgap c₁ h₁) (hgap c₂ h₂)
    grind
  · have := h.awake
    grind
  · have := h.started
    grind

theorem length_filter_of_update {p q : ℕ → Bool} (hn : l.Nodup) (hx : x ∈ l) (hp : p x = true)
    (hq : q x = false) (hpq : ∀ y ≠ x, q y = p y) : (l.filter q).length = (l.filter p).length - 1 := by
  have heq : l.filter q = (l.filter p).erase x := by
    rw [List.Nodup.erase_eq_filter (hn.filter p) x, filter_filter]
    refine filter_congr fun y _ ↦ ?_
    by_cases hy : y = x
    · subst hy
      simp [hq]
    · simp [hpq y hy, hy]
  rw [heq, length_erase_of_mem (mem_filter.mpr ⟨hx, hp⟩)]

theorem Inv.markDead (h : Inv s r gap hands ls all) (hx : x ∈ hands) :
    Inv (s.markDead x) r gap (hands \ {x}) ls all := by
  have hstate : (s.markDead x).state = update s.state x .dead :=
    s.state_modify x fun y ↦ { y with state := .dead }
  have hnext : (s.markDead x).next = s.next :=
    (s.next_modify x fun y ↦ { y with state := .dead }).trans (update_eq_self x s.next)
  have hlist : (s.markDead x).listNext = s.listNext :=
    s.listNext_modify x (fun y ↦ { y with state := .dead }) rfl
  have hnow := update_apply s.state x .dead
  rw [← hstate] at hnow
  have hlifted := h.lifted
  have hsame : ∀ c, (s.markDead x).current c = s.current c ∧ (s.markDead x).idle c = s.idle c := fun _ ↦ ⟨rfl, rfl⟩
  obtain ⟨hall, hdead, -⟩ := hlifted x hx
  refine
    { h with
      lists := ?_
      objects := ?_
      alive := ?_
      held := ?_
      kept := ?_
      lifted := ?_
      running := ?_
      current := ?_
      awake := ?_ }
  · rw [hnext]
    exact h.lists
  · rw [hlist]
    exact h.objects
  · refine (congrArg (· - 1) h.alive).trans
      (length_filter_of_update h.objects.nodup hall (by simpa using hdead) (by simp [hnow]) fun y hy ↦ ?_).symm
    rw [hnow, if_neg hy]
  · have := h.held
    grind
  · have := h.kept
    grind
  · grind
  · have := h.running
    grind
  · have := h.current
    grind
  · have := h.idle
    have := h.awake
    grind

end Scheduler

end Eris.Sched
