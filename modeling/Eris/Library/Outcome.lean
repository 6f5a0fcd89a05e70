import Mathlib

namespace Eris.Library.Outcome

open List

variable {ε : Type*} {α β : Type} {x : Except ε α} {f : α → Except ε β} {b : β}

theorem bind_eq_ok : x >>= f = .ok b ↔ ∃ a, x = .ok a ∧ f a = .ok b := by
  constructor
  · intro h
    cases x with
    | error e => cases h
    | ok a => exact ⟨a, rfl, h⟩
  · rintro ⟨a, rfl, h⟩
    exact h

theorem bind_congr_ok {g : α → Except ε β} (h : ∀ a, x = .ok a → f a = g a) : x >>= f = x >>= g := by
  cases x with
  | error e => rfl
  | ok a => exact h a rfl

theorem toOption_eq_some {a : α} : x.toOption = some a ↔ x = .ok a := by
  cases x with
  | error e => exact ⟨nofun, nofun⟩
  | ok b => simp [Except.toOption]

theorem foldlM_induction {f : β → α → Except ε β} {b b' : β} {l : List α} (P : List α → β → Prop)
    (hstep : ∀ done b, ∀ a ∈ l, ∀ b', P done b → f b a = .ok b' → P (done ++ [a]) b') (h0 : P [] b)
    (h : l.foldlM f b = .ok b') : P l b' := by
  suffices ∀ done, P done b → P (done ++ l) b' from this [] h0
  clear h0
  induction l generalizing b with
  | nil =>
    intro done hdone
    cases h
    rwa [List.append_nil]
  | cons a l ih =>
    intro done hdone
    obtain ⟨b₁, hb₁, h⟩ := bind_eq_ok.mp h
    have hfirst := hstep done b a mem_cons_self b₁ hdone hb₁
    have hrest := ih (fun done b c hc ↦ hstep done b c (mem_cons_of_mem a hc)) h _ hfirst
    rwa [append_assoc] at hrest

theorem foldlM_range_ok {g : β → ℕ → Except ε β} {count : ℕ} (I : ℕ → β → Prop) (h0 : I 0 b)
    (hstep : ∀ n < count, ∀ b, I n b → ∃ b', g b n = .ok b' ∧ I (n + 1) b') :
    ∃ b', (List.range count).foldlM g b = .ok b' ∧ I count b' := by
  induction count with
  | zero => exact ⟨b, rfl, h0⟩
  | succ count ih =>
    obtain ⟨b₁, hb₁, hI₁⟩ := ih fun n hn ↦ hstep n (Nat.lt_succ_of_lt hn)
    obtain ⟨b', hb', hI'⟩ := hstep count (Nat.lt_succ_self count) b₁ hI₁
    refine ⟨b', ?_, hI'⟩
    rw [range_succ, foldlM_append]
    refine bind_eq_ok.mpr ⟨b₁, hb₁, ?_⟩
    rw [foldlM_cons]
    exact bind_eq_ok.mpr ⟨b', hb', rfl⟩

def Stops (P : ε → Prop) (x : Except ε α) : Prop := ∀ e, x = .error e → P e

section Stops

variable {P : ε → Prop}

theorem stops_ok (a : α) : Stops P (.ok a : Except ε α) := nofun

theorem Stops.of_eq_ok {a : α} (h : x = .ok a) : Stops P x := h ▸ stops_ok a

theorem Stops.bind (hx : Stops P x) (hf : ∀ a, x = .ok a → Stops P (f a)) : Stops P (x >>= f) := by
  cases x with
  | error e => exact fun e' he ↦ hx e' (congrArg Except.error (Except.error.inj he))
  | ok a => exact hf a rfl

theorem Stops.foldlM {g : β → α → Except ε β} {l : List α} (I : List α → β → Prop)
    (hstep : ∀ done b, ∀ a ∈ l, I done b → Stops P (g b a) ∧ ∀ b', g b a = .ok b' → I (done ++ [a]) b') (h0 : I [] b) :
    Stops P (l.foldlM g b) := by
  suffices ∀ done, I done b → Stops P (l.foldlM g b) from this [] h0
  clear h0
  induction l generalizing b with
  | nil => exact fun _ _ ↦ stops_ok b
  | cons a l ih =>
    intro done hdone
    obtain ⟨hfirst, hnext⟩ := hstep done b a mem_cons_self hdone
    rw [foldlM_cons]
    refine hfirst.bind fun b' hb' ↦ ?_
    exact ih (fun done b c hc ↦ hstep done b c (mem_cons_of_mem a hc)) _ (hnext b' hb')

end Stops

def okWith (t : α → Bool) : Except ε α → Bool
  | .ok a => t a
  | .error _ => false

theorem of_okWith {t : α → Bool} (h : okWith t x = true) : ∃ a, x = .ok a ∧ t a = true := by
  cases x with
  | error e => cases h
  | ok a => exact ⟨a, rfl, h⟩

end Eris.Library.Outcome
