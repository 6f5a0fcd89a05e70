import Mathlib

namespace Eris.Library.Alarms

open List

/-- Something that is to be done at a time, again and again if the period is not zero. -/
structure Alarm (α : Type) where
  deadline : ℕ
  period : ℕ
  content : α
  deriving DecidableEq

def Alarm.after {α : Type} (a : Alarm α) (now : ℕ) : Option (Alarm α) :=
  if a.period = 0 then none else some { a with deadline := now + a.period }

/-- The events of a timer service. Its passes begin and end, and what is due is called in them. -/
inductive Event (ι α : Type)
  | armed (i : ι) (a : Alarm α)
  | cancelled (i : ι)
  | began (now : ℕ)
  | called (i : ι) (content : α) (now : ℕ)
  | ended
  deriving DecidableEq

open Event

/-! The latest event of a history comes first. -/

section

variable {ι α : Type}

def passTime : List (Event ι α) → Option ℕ
  | [] => none
  | began now :: _ => some now
  | armed _ _ :: l => passTime l
  | cancelled _ :: l => passTime l
  | called _ _ _ :: l => passTime l
  | ended :: l => passTime l

theorem passTime_append {l m : List (Event ι α)} (h : ∀ now, began now ∉ m) : passTime (m ++ l) = passTime l := by
  induction m with
  | nil => rfl
  | cons e m ih =>
    have ih := ih fun now hmem ↦ h now (mem_cons_of_mem _ hmem)
    cases e with
    | began now => exact absurd mem_cons_self (h now)
    | _ => exact ih

variable [DecidableEq ι]

def active (i : ι) : List (Event ι α) → Option (Alarm α)
  | [] => none
  | armed j a :: l => if j = i then some a else active i l
  | cancelled j :: l => if j = i then none else active i l
  | called j _ now :: l => if j = i then (active i l).bind (·.after now) else active i l
  | began _ :: l => active i l
  | ended :: l => active i l

/-- An alarm was due when the latest pass began, and nothing has been done about it since. -/
def Owed (i : ι) : List (Event ι α) → Prop
  | [] => False
  | began now :: l => ∃ a, active i l = some a ∧ a.deadline ≤ now
  | cancelled j :: l => j ≠ i ∧ Owed i l
  | called j _ _ :: l => j ≠ i ∧ Owed i l
  | armed _ _ :: l => Owed i l
  | ended :: l => Owed i l

def Follows : Event ι α → List (Event ι α) → Prop
  | armed i _, l => ∀ a, armed i a ∉ l
  | called i content now, l => passTime l = some now ∧ ∃ a, active i l = some a ∧ a.content = content ∧ a.deadline ≤ now
  | ended, l => ∀ i, ¬ Owed i l
  | cancelled _, _ => True
  | began _, _ => True

/-- Every event follows the ones before it. -/
inductive Conforms : List (Event ι α) → Prop
  | nil : Conforms []
  | cons {e : Event ι α} {l : List (Event ι α)} : Follows e l → Conforms l → Conforms (e :: l)

variable {i : ι} {a a' : Alarm α} {e : Event ι α} {l m : List (Event ι α)} {now : ℕ} {content : α}

@[simp]
theorem active_cancelled_self : active i (cancelled i :: l) = none := if_pos rfl

@[simp]
theorem active_called_self : active i (called i content now :: l) = (active i l).bind (·.after now) := if_pos rfl

theorem active_armed_ne {j : ι} (h : j ≠ i) : active i (armed j a :: l) = active i l := if_neg h

theorem Conforms.tail (h : Conforms (e :: l)) : Conforms l := by
  cases h with
  | cons _ h => exact h

theorem Conforms.follows (h : Conforms (e :: l)) : Follows e l := by
  cases h with
  | cons h _ => exact h

theorem Conforms.of_append (h : Conforms (m ++ l)) : Conforms l := by
  induction m with
  | nil => exact h
  | cons e m ih => exact ih h.tail

theorem Alarm.after_eq_some (h : a.after now = some a') : a' = { a with deadline := now + a.period } := by
  unfold Alarm.after at h
  split at h
  · cases h
  · exact (Option.some.inj h).symm

theorem exists_armed_of_active (h : active i l = some a) :
    ∃ a₀, armed i a₀ ∈ l ∧ a₀.period = a.period ∧ a₀.content = a.content := by
  induction l generalizing a with
  | nil => cases h
  | cons e l ih =>
    cases e with
    | armed j b => grind [active]
    | cancelled j => grind [active]
    | called j content now =>
      by_cases hj : j = i
      · subst hj
        rw [active_called_self] at h
        obtain ⟨b, hb, hafter⟩ := Option.bind_eq_some_iff.mp h
        obtain rfl := Alarm.after_eq_some hafter
        grind
      · grind [active]
    | began now => grind [active]
    | ended => grind [active]

theorem Conforms.armed_unique (h : Conforms l) (ha : armed i a ∈ l) (ha' : armed i a' ∈ l) : a = a' := by
  induction h with
  | nil => cases ha
  | cons hfollows _ ih =>
    obtain rfl | hold := mem_cons.mp ha
    · obtain hsame | hold' := mem_cons.mp ha'
      · cases hsame
        rfl
      · exact absurd hold' (hfollows _)
    · obtain rfl | hold' := mem_cons.mp ha'
      · exact absurd hold (hfollows _)
      · exact ih hold hold'

theorem Conforms.armed_of_active (h : Conforms l) (ha : armed i a ∈ l) (hact : active i l = some a') :
    a.period = a'.period ∧ a.content = a'.content := by
  obtain ⟨a₀, hmem, hsame⟩ := exists_armed_of_active hact
  exact h.armed_unique ha hmem ▸ hsame

theorem Conforms.active_eq_none (h : Conforms (m ++ l)) (harmed : ∃ a, armed i a ∈ l) (hact : active i l = none) :
    active i (m ++ l) = none := by
  induction m with
  | nil => exact hact
  | cons e m ih =>
    have ih := ih h.tail
    have hfollows : Follows e (m ++ l) := h.follows
    cases e with
    | armed j b => grind [active, Follows]
    | _ => grind [active]

theorem Conforms.not_called (h : Conforms (m ++ l)) (harmed : ∃ a, armed i a ∈ l) (hact : active i l = none)
    (content : α) (now : ℕ) : called i content now ∉ m := by
  intro hmem
  obtain ⟨m₁, m₂, rfl⟩ := append_of_mem hmem
  rw [append_assoc, cons_append] at h
  obtain ⟨-, a, ha, -⟩ := h.of_append.follows
  rw [Conforms.active_eq_none h.of_append.tail harmed hact] at ha
  cases ha

theorem Conforms.deadline_ge (h : Conforms l) (hact : active i l = some a) (hcall : called i content now ∈ l) :
    now + a.period ≤ a.deadline := by
  induction l generalizing a with
  | nil => cases hcall
  | cons e l ih =>
    have ih := fun {a} ↦ ih (a := a) h.tail
    cases e with
    | armed j b =>
      have hmem := mem_of_ne_of_mem (by simp) hcall
      by_cases hj : j = i
      · subst hj
        obtain ⟨m₁, m₂, rfl⟩ := append_of_mem hmem
        obtain ⟨-, b, hb, -⟩ := h.tail.of_append.follows
        obtain ⟨b₀, hb₀, -⟩ := exists_armed_of_active hb
        exact absurd (mem_append_right _ (mem_cons_of_mem _ hb₀)) (h.follows b₀)
      · exact ih ((active_armed_ne hj).symm.trans hact) hmem
    | called j content' now' =>
      by_cases hj : j = i
      · subst hj
        rw [active_called_self] at hact
        obtain ⟨b, hb, hafter⟩ := Option.bind_eq_some_iff.mp hact
        obtain rfl := Alarm.after_eq_some hafter
        obtain ⟨-, b', hb', -, hdue⟩ := h.follows
        grind
      · grind [active]
    | cancelled j => grind [active]
    | began now' => grind [active]
    | ended => grind [active]

theorem owed_append (hbegan : ∀ now, began now ∉ m) (hcancelled : cancelled i ∉ m)
    (hcalled : ∀ content now, called i content now ∉ m) (h : Owed i l) : Owed i (m ++ l) := by
  induction m with
  | nil => exact h
  | cons e m ih =>
    have ih := ih (fun now hmem ↦ hbegan now (mem_cons_of_mem _ hmem))
      (fun hmem ↦ hcancelled (mem_cons_of_mem _ hmem))
      (fun content now hmem ↦ hcalled content now (mem_cons_of_mem _ hmem))
    cases e with
    | began now => exact absurd mem_cons_self (hbegan now)
    | cancelled j => exact ⟨fun hj ↦ hcancelled (hj ▸ mem_cons_self), ih⟩
    | called j content now => exact ⟨fun hj ↦ hcalled content now (hj ▸ mem_cons_self), ih⟩
    | _ => exact ih

/-- What the users of a timer service rely on. -/
structure Kept (log : List (Event ι α)) : Prop where
  /-- What is armed once is called at most once. -/
  once : ∀ m l i a content now, log = m ++ called i content now :: l → armed i a ∈ log → a.period = 0 →
    ∀ content' now', called i content' now' ∉ m
  /-- What is called is active at that time, and its deadline is reached. -/
  due : ∀ m l i content now, log = m ++ called i content now :: l →
    passTime l = some now ∧ ∃ a, active i l = some a ∧ a.content = content ∧ a.deadline ≤ now
  /-- What was cancelled is not called again. -/
  silent : ∀ m l i, log = m ++ cancelled i :: l → (∃ a, armed i a ∈ l) → ∀ content now, called i content now ∉ m
  /-- Two calls of a periodic alarm are made in two passes, and a period apart. -/
  spaced : ∀ m k l i a content now content' now',
    log = m ++ called i content' now' :: (k ++ called i content now :: l) → armed i a ∈ log → 0 < a.period →
    now + a.period ≤ now' ∧ ∃ t, began t ∈ k
  /-- What is due when a pass begins is called in the pass, if it is not cancelled first. -/
  complete : ∀ m k l i a now, log = m ++ ended :: (k ++ began now :: l) → (∀ t, began t ∉ k) → active i l = some a →
    a.deadline ≤ now → cancelled i ∉ k → called i a.content now ∈ k

theorem Conforms.once (h : Conforms (m ++ called i content now :: l))
    (ha : armed i a ∈ m ++ called i content now :: l) (hperiod : a.period = 0) (content' : α) (now' : ℕ) :
    called i content' now' ∉ m := by
  obtain ⟨-, a', hact, -⟩ := h.of_append.follows
  obtain ⟨a₀, hmem, hsame, -⟩ := exists_armed_of_active hact
  have hmem' : armed i a₀ ∈ m ++ called i content now :: l := mem_append_right _ (mem_cons_of_mem _ hmem)
  obtain rfl := h.armed_unique ha hmem'
  refine h.not_called ⟨a, mem_cons_of_mem _ hmem⟩ ?_ content' now'
  rw [active_called_self, hact]
  exact if_pos (hsame.symm.trans hperiod)

theorem Conforms.spaced {k : List (Event ι α)} {content' : α} {now' : ℕ}
    (h : Conforms (m ++ called i content' now' :: (k ++ called i content now :: l)))
    (ha : armed i a ∈ m ++ called i content' now' :: (k ++ called i content now :: l)) (hperiod : 0 < a.period) :
    now + a.period ≤ now' ∧ ∃ t, began t ∈ k := by
  obtain ⟨htime', a', hact, -, hdue⟩ := h.of_append.follows
  have hin : called i content now ∈ k ++ called i content now :: l := mem_append_right _ mem_cons_self
  have hge := h.of_append.tail.deadline_ge hact hin
  have hsame : a.period = a'.period := by
    obtain ⟨a₀, hmem, hsame, -⟩ := exists_armed_of_active hact
    obtain rfl := h.armed_unique ha (mem_append_right _ (mem_cons_of_mem _ hmem))
    exact hsame
  refine ⟨by omega, ?_⟩
  by_contra hnone
  have htime := (h.of_append.tail.of_append).follows.1
  rw [passTime_append fun t ht ↦ hnone ⟨t, ht⟩] at htime'
  have hnow := Option.some.inj (htime.symm.trans htime')
  omega

theorem Conforms.complete {k : List (Event ι α)} (h : Conforms (m ++ ended :: (k ++ began now :: l)))
    (hbegan : ∀ t, began t ∉ k) (hact : active i l = some a) (hdue : a.deadline ≤ now) (hcancelled : cancelled i ∉ k) :
    called i a.content now ∈ k := by
  have hcalled : ∃ content t, called i content t ∈ k := by
    by_contra hnone
    refine h.of_append.follows i (owed_append hbegan hcancelled ?_ ⟨a, hact, hdue⟩)
    exact fun content t hmem ↦ hnone ⟨content, t, hmem⟩
  obtain ⟨content, t, hmem⟩ := hcalled
  obtain ⟨k₁, k₂, rfl⟩ := append_of_mem hmem
  have hrest := h.of_append.tail
  rw [append_assoc, cons_append] at hrest
  obtain ⟨htime, a', hact', rfl, -⟩ := hrest.of_append.follows
  rw [passTime_append fun t ht ↦ hbegan t (mem_append_right _ (mem_cons_of_mem _ ht))] at htime
  obtain rfl := Option.some.inj htime
  obtain ⟨a₀, hmem₀, -, hsame⟩ := exists_armed_of_active hact
  have hmem₁ : armed i a₀ ∈ k₂ ++ began now :: l := mem_append_right _ (mem_cons_of_mem _ hmem₀)
  rw [← hsame, (hrest.of_append.tail.armed_of_active hmem₁ hact').2]
  exact hmem

theorem Conforms.kept {log : List (Event ι α)} (h : Conforms log) : Kept log where
  once := by
    rintro m l i a content now rfl
    exact h.once
  due := by
    rintro m l i content now rfl
    exact h.of_append.follows
  silent := by
    rintro m l i rfl ⟨a, ha⟩
    exact h.not_called ⟨a, mem_cons_of_mem _ ha⟩ active_cancelled_self
  spaced := by
    rintro m k l i a content now content' now' rfl
    exact h.spaced
  complete := by
    rintro m k l i a now rfl
    exact h.complete

end

end Eris.Library.Alarms
