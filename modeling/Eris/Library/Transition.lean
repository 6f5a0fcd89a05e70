import Mathlib

namespace Eris.Library

/-- First states, when an action can be taken, and what it leads to. -/
structure System (σ α : Type) where
  init : σ → Prop
  enabled : σ → α → Prop
  step : σ → α → Option σ

namespace System

variable {σ α : Type} {sys : System σ α} {allowed allowed' : σ → α → Prop} {s s' : σ}

/-- The states that actions of some kind lead to. -/
inductive Reached (sys : System σ α) (allowed : σ → α → Prop) : σ → Prop
  | init {s : σ} : sys.init s → Reached sys allowed s
  | step {s s' : σ} (a : α) : Reached sys allowed s → sys.enabled s a → allowed s a → sys.step s a = some s' →
      Reached sys allowed s'

theorem Reached.invariant {I : σ → Prop} (h : Reached sys allowed s) (hinit : ∀ s, sys.init s → I s)
    (hstep : ∀ s s' a, I s → sys.enabled s a → allowed s a → sys.step s a = some s' → I s') : I s := by
  induction h with
  | init hs => exact hinit _ hs
  | step a _ hon hok hs ih => exact hstep _ _ a ih hon hok hs

theorem Reached.strengthen {I : σ → Prop} (h : Reached sys allowed s) (hI : ∀ s, Reached sys allowed' s → I s)
    (himp : ∀ s a, I s → sys.enabled s a → allowed s a → allowed' s a) : Reached sys allowed' s := by
  induction h with
  | init hs => exact .init hs
  | step a _ hon hok hs ih => exact .step a ih hon (himp _ a (hI _ ih) hon hok) hs

def goingOn (sys : System σ α) (s : σ) : System σ α := { sys with init := fun s' ↦ s' = s }

theorem Reached.trans (h : Reached sys allowed s) (h' : Reached (sys.goingOn s) allowed s') : Reached sys allowed s' := by
  induction h' with
  | init hs => exact hs ▸ h
  | step a _ hon hok hs ih => exact .step a ih hon hok hs

def replay (sys : System σ α) (check : σ → α → Bool) : List α → σ → Option σ
  | [], s => some s
  | a :: l, s => if check s a then (sys.step s a).bind (replay sys check l) else none

theorem Reached.replay {check : σ → α → Bool} (hcheck : ∀ s a, check s a = true → sys.enabled s a ∧ allowed s a)
    (h : Reached sys allowed s) {l : List α} (hl : sys.replay check l s = some s') : Reached sys allowed s' := by
  induction l generalizing s with
  | nil =>
    cases hl
    exact h
  | cons a l ih =>
    rw [System.replay] at hl
    split at hl
    · rename_i ha
      obtain ⟨s₁, hs₁, hrest⟩ := Option.bind_eq_some_iff.mp hl
      obtain ⟨hon, hok⟩ := hcheck s a ha
      exact ih (.step a h hon hok hs₁) hrest
    · cases hl

theorem Reached.exists_of_replay {check : σ → α → Bool} (hcheck : ∀ s a, check s a = true → sys.enabled s a ∧ allowed s a)
    (h : Reached sys allowed s) {l : List α} {P : σ → Prop} [DecidablePred P]
    (hl : (sys.replay check l s).any (fun s' ↦ decide (P s')) = true) : ∃ s', Reached sys allowed s' ∧ P s' := by
  cases hr : sys.replay check l s with
  | none =>
    rw [hr] at hl
    cases hl
  | some s' =>
    rw [hr] at hl
    exact ⟨s', h.replay hcheck hr, of_decide_eq_true hl⟩

end System

end Eris.Library
