import Mathlib

namespace Eris.Library.Grounding

open Relation

variable {α : Type} {r : α → α → Prop} {p : α → Prop} {a b : α}

/-- A node is grounded when it is sound and everything it points at is grounded.
A node on a cycle is never grounded, since the derivation has to be finite. -/
inductive Grounded (r : α → α → Prop) (p : α → Prop) : α → Prop
  | mk {a : α} : p a → (∀ b, r a b → Grounded r p b) → Grounded r p a

theorem Grounded.sound (h : Grounded r p a) : p a := by cases h; assumption

theorem Grounded.step (h : Grounded r p a) (hab : r a b) : Grounded r p b := by
  cases h with
  | mk _ hs => exact hs b hab

theorem Grounded.reaches (h : Grounded r p a) (hab : ReflTransGen r a b) : Grounded r p b := by
  induction hab with
  | refl => exact h
  | tail _ hbc ih => exact ih.step hbc

theorem Grounded.not_transGen_self (h : Grounded r p a) : ¬ TransGen r a a := by
  induction h with
  | @mk a _ _ ih =>
    intro hc
    obtain ⟨b, hab, hba⟩ := TransGen.head'_iff.mp hc
    exact ih b hab (TransGen.tail' hba hab)

theorem grounded_iff (hfin : {b | p b}.Finite) (a : α) :
    Grounded r p a ↔ (∀ b, ReflTransGen r a b → p b) ∧ (∀ b, ReflTransGen r a b → ¬ TransGen r b b) := by
  constructor
  · intro h
    exact ⟨fun b hb ↦ (h.reaches hb).sound, fun b hb ↦ (h.reaches hb).not_transGen_self⟩
  · rintro ⟨hp, hc⟩
    let V := {b // ReflTransGen r a b}
    have : Finite V := (hfin.subset fun b hb ↦ hp b hb).to_subtype
    let s : V → V → Prop := fun x y ↦ TransGen r y.1 x.1
    have : Std.Irrefl s := ⟨fun x ↦ hc x.1 x.2⟩
    have hwf := Finite.wellFounded_of_trans_of_irrefl s
    suffices h : ∀ x : V, Grounded r p x.1 from h ⟨a, .refl⟩
    intro x
    induction x using hwf.induction with
    | h x ih => exact .mk (hp x.1 x.2) (fun b hb ↦ ih ⟨b, x.2.tail hb⟩ (.single hb))

end Eris.Library.Grounding
