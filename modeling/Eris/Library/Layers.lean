import Mathlib

namespace Eris.Library.Layers

variable {α β γ : Type*}

/-- A layer shows something in some places and covers there what lies below it. -/
structure Layer (α β : Type*) where
  has : α → Bool
  value : α → β

namespace Layer

def onto (l : Layer α β) (f : α → Option β) : α → Option β := fun a ↦ if l.has a then some (l.value a) else f a

def map (g : β → γ) (l : Layer α β) : Layer α γ := ⟨l.has, fun a ↦ g (l.value a)⟩

end Layer

def pile (ls : List (Layer α β)) (f : α → Option β) : α → Option β := ls.foldl (fun f l ↦ l.onto f) f

variable {ls : List (Layer α β)} {l : Layer α β} {f f' : α → Option β} {a : α} {z : β}

@[simp]
theorem pile_cons : pile (l :: ls) f = pile ls (l.onto f) := rfl

theorem pile_cases (ls : List (Layer α β)) (f : α → Option β) (a : α) :
    (∃ l ∈ ls, l.has a = true ∧ pile ls f a = some (l.value a)) ∨ (∀ l ∈ ls, l.has a = false) ∧ pile ls f a = f a := by
  induction ls generalizing f with
  | nil => exact .inr ⟨nofun, rfl⟩
  | cons l ls ih =>
    rcases ih (l.onto f) with ⟨l', hmem, hhas, heq⟩ | ⟨hnone, heq⟩
    · exact .inl ⟨l', List.mem_cons_of_mem l hmem, hhas, heq⟩
    · by_cases hl : l.has a
      · exact .inl ⟨l, List.mem_cons_self, hl, by rw [pile_cons, heq, Layer.onto, if_pos hl]⟩
      · refine .inr ⟨List.forall_mem_cons.mpr ⟨by simpa using hl, hnone⟩, ?_⟩
        rw [pile_cons, heq, Layer.onto, if_neg hl]

theorem pile_congr (h : f a = f' a) (ls : List (Layer α β)) : pile ls f a = pile ls f' a := by
  induction ls generalizing f f' with
  | nil => exact h
  | cons l ls ih =>
    have honto : l.onto f a = l.onto f' a := by rw [Layer.onto, Layer.onto, h]
    exact ih honto

theorem map_pile (g : β → γ) (ls : List (Layer α β)) (f : α → Option β) (a : α) :
    (pile ls f a).map g = pile (ls.map (Layer.map g)) (fun a ↦ (f a).map g) a := by
  induction ls generalizing f with
  | nil => rfl
  | cons l ls ih =>
    rw [pile_cons, ih, List.map_cons, pile_cons]
    apply pile_congr
    unfold Layer.onto Layer.map
    split
    · rfl
    · rfl

section Items

variable {κ : Type*} {ks : List κ} {k : κ} {layer : κ → Layer α β}

theorem pile_of_apart (h : ks.Pairwise fun k k' ↦ ∀ a, (layer k).has a = true → (layer k').has a = false) (hk : k ∈ ks)
    (ha : (layer k).has a = true) : pile (ks.map layer) f a = some ((layer k).value a) := by
  induction ks generalizing f with
  | nil => cases hk
  | cons k' ks ih =>
    obtain ⟨hhead, htail⟩ := List.pairwise_cons.mp h
    rcases List.mem_cons.mp hk with rfl | hk
    · rcases pile_cases (ks.map layer) ((layer k).onto f) a with ⟨l, hl, hhas, -⟩ | ⟨-, heq⟩
      · obtain ⟨t, ht, rfl⟩ := List.mem_map.mp hl
        rw [hhead t ht a ha] at hhas
        cases hhas
      · rw [List.map_cons, pile_cons, heq, Layer.onto, if_pos ha]
    · exact ih htail hk

theorem pile_shows_iff {own want : κ → α → Prop} (hwant : ∀ k ∈ ks, ∀ a, want k a → own k a ∧ (layer k).has a = true)
    (hrest : ∀ k ∈ ks, ∀ a, (layer k).has a = true → ¬ own k a → (layer k).value a = z)
    (hapart : ks.Pairwise fun k k' ↦ ∀ a, own k a → ¬ own k' a) :
    (∀ k ∈ ks, ∀ a, want k a → pile (ks.map layer) f a = some ((layer k).value a)) ↔
      ks.Pairwise fun k k' ↦ ∀ a, want k a → (layer k').has a = true → (layer k).value a = z := by
  induction ks generalizing f with
  | nil => simp
  | cons k ks ih =>
    obtain ⟨hk, hapart⟩ := List.pairwise_cons.mp hapart
    obtain ⟨-, hrest⟩ := List.forall_mem_cons.mp hrest
    obtain ⟨hwant, hwants⟩ := List.forall_mem_cons.mp hwant
    rw [List.forall_mem_cons, List.pairwise_cons]
    refine and_congr ?_ (ih hwants hrest hapart)
    -- what covers a wanted place of the first layer shows `z` there
    have hcover : ∀ t ∈ ks, ∀ a, want k a → (layer t).has a = true → (layer t).value a = z :=
      fun t ht a ha hhas ↦ hrest t ht a hhas (hk t ht a (hwant a ha).1)
    constructor
    · intro hshow t ht a ha hhas
      rcases pile_cases (ks.map layer) ((layer k).onto f) a with ⟨l, hl, hhas', heq⟩ | ⟨hnone, -⟩
      · obtain ⟨u, hu, rfl⟩ := List.mem_map.mp hl
        rw [← hcover u hu a ha hhas']
        exact Option.some.inj ((hshow a ha).symm.trans heq)
      · rw [hnone (layer t) (List.mem_map_of_mem ht)] at hhas
        cases hhas
    · intro hzero a ha
      rcases pile_cases (ks.map layer) ((layer k).onto f) a with ⟨l, hl, hhas, heq⟩ | ⟨-, heq⟩
      · obtain ⟨t, ht, rfl⟩ := List.mem_map.mp hl
        rw [List.map_cons, pile_cons, heq, hcover t ht a ha hhas, hzero t ht a ha hhas]
      · rw [List.map_cons, pile_cons, heq, Layer.onto, if_pos (hwant a ha).2]

end Items

end Eris.Library.Layers
