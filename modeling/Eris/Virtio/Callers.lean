import Eris.Virtio.Runs

namespace Eris.Virtio

open Library Mm State

section Check

variable {ι : Type} [Fintype ι] (s : State ι)

instance (c : Caller) : Decidable c.Building := inferInstanceAs (Decidable (_ ∧ _))

instance (i : ι) : Decidable (s.Uses i) := inferInstanceAs (Decidable (_ ∧ _))

instance (i : ι) : Decidable (s.Own i) := inferInstanceAs (Decidable (_ ∧ _))

instance : Decidable s.Unused :=
  inferInstanceAs (Decidable (∀ j, s.Uses j → ∀ l < 3, ∀ l' < 3,
    (s.nextDescriptor + l) % s.size ≠ ((s.callers j).first + l') % s.size))

/-- The check of an action in a run in which the callers keep out of each other's way. -/
def State.checked : Action ι → Bool
  | .advance i =>
    match (s.callers i).stage with
    | .take => (∀ j, ¬ (s.callers j).Building) ∧ s.Unused
    | .poll => s.usedIndex = s.lastUsed ∨ s.Own i
    | .accept => s.Own i
    | _ => true
  | a => s.plain false a

variable {s}

theorem checked_spec {a : Action ι} (h : s.checked a = true) : s.Enabled a ∧ s.Orderly a ∧ s.Prompt a := by
  cases a with
  | advance i =>
    refine ⟨trivial, ?_, trivial⟩
    simp only [checked] at h
    simp only [Orderly]
    cases hstage : (s.callers i).stage <;> simp only [hstage] at h ⊢
    case take => exact of_decide_eq_true h
    case poll => exact of_decide_eq_true h
    case accept => exact of_decide_eq_true h
  | _ => exact ⟨plain_enabled (show s.plain false _ = true from h), trivial, plain_prompt h⟩

end Check

variable {ι : Type} [Fintype ι] {size : ℕ}

theorem fits_of_dvd [Inhabited ι] (hcallers : 3 * Fintype.card ι ≤ size) (hsize : size ∣ indexSize) : Fits ι size := by
  have hpos : 0 < Fintype.card ι := Fintype.card_pos
  have hle := Nat.le_of_dvd (by decide) hsize
  refine ⟨by omega, fun a b hlt hdist ↦ ?_⟩
  rw [Ring.slot_of_dvd hsize, Ring.slot_of_dvd hsize]
  exact Ring.mod_ne_of_lt hlt (by omega)

variable [DecidableEq ι] [Inhabited ι]

def begin (i : Fin 2) : List (Action (Fin 2)) :=
  .submit i ⟨requestIn, 0, 8192, 512, false⟩ :: List.replicate 10 (.advance i) ++ [.fetch]

end Eris.Virtio
