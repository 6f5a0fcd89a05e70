import Mathlib

/-!
Singly linked lists in a store. A family of them may share one link field, as long as no node is
on two lists.
-/

namespace Eris.Library.Chains

open List Function

variable {ι κ : Type*} {next next' : ι → Option ι} {p : Option ι} {x y : ι} {l l' : List ι}

/-- Following the links from `p` gives the nodes of a list, one after the other. -/
def Linked (next : ι → Option ι) : Option ι → List ι → Prop
  | p, [] => p = none
  | p, x :: l => p = some x ∧ Linked next (next x) l

/-- A node is found by following the links. -/
inductive Reaches (next : ι → Option ι) : Option ι → ι → Prop
  | here (x : ι) : Reaches next (some x) x
  | there {x y : ι} : Reaches next (next x) y → Reaches next (some x) y

theorem Linked.congr (h : Linked next p l) (hn : ∀ x ∈ l, next' x = next x) : Linked next' p l := by
  induction l generalizing p with
  | nil => exact h
  | cons x l ih =>
    refine ⟨h.1, ?_⟩
    rw [hn x mem_cons_self]
    exact ih h.2 fun y hy ↦ hn y (mem_cons_of_mem x hy)

theorem Linked.unique (h : Linked next p l) (h' : Linked next p l') : l = l' := by
  induction l generalizing p l' with
  | nil =>
    cases l' with
    | nil => rfl
    | cons y l' =>
      have hy := h'.1
      rw [show p = none from h] at hy
      cases hy
  | cons x l ih =>
    cases l' with
    | nil =>
      have hx := h.1
      rw [show p = none from h'] at hx
      cases hx
    | cons y l' =>
      obtain rfl := Option.some.inj (h.1.symm.trans h'.1)
      rw [ih h.2 h'.2]

theorem Linked.of_append (h : Linked next p (l ++ l')) : ∃ q, Linked next q l' := by
  induction l generalizing p with
  | nil => exact ⟨p, h⟩
  | cons x l ih => exact ih h.2

theorem Linked.nodup (h : Linked next p l) : l.Nodup := by
  induction l generalizing p with
  | nil => exact nodup_nil
  | cons x l ih =>
    refine nodup_cons.mpr ⟨fun hx ↦ ?_, ih h.2⟩
    obtain ⟨l₁, l₂, rfl⟩ := append_of_mem hx
    obtain ⟨q, hq⟩ := h.2.of_append
    have hlen := congrArg List.length (h.2.unique hq.2)
    simp only [length_append, length_cons] at hlen
    omega

theorem Linked.reaches_iff (h : Linked next p l) : Reaches next p x ↔ x ∈ l := by
  induction l generalizing p with
  | nil =>
    rw [show p = none from h]
    exact ⟨nofun, nofun⟩
  | cons y l ih =>
    rw [h.1, mem_cons, ← ih h.2]
    constructor
    · rintro (_ | hr)
      · exact .inl rfl
      · exact .inr hr
    · rintro (rfl | hr)
      · exact .here x
      · exact .there hr

theorem Linked.reaches_of_eq (h : Linked next p (l ++ x :: l')) (hn : ∀ y ∈ l, next' y = next y) :
    Reaches next' p x := by
  induction l generalizing p with
  | nil =>
    rw [h.1]
    exact .here x
  | cons y l ih =>
    rw [h.1]
    refine .there ?_
    rw [hn y mem_cons_self]
    exact ih h.2 fun z hz ↦ hn z (mem_cons_of_mem y hz)

theorem Linked.snoc [DecidableEq ι] (h : Linked next p l) (hy : l.getLast? = some y) (hx : x ∉ l) :
    Linked (update (update next x none) y (some x)) p (l ++ [x]) := by
  induction l generalizing p with
  | nil => cases hy
  | cons z l ih =>
    have hxz : z ≠ x := fun h ↦ hx (h ▸ mem_cons_self)
    refine ⟨h.1, ?_⟩
    cases l with
    | nil =>
      obtain rfl : z = y := by simpa using hy
      simp [Linked, update_of_ne hxz.symm]
    | cons w l =>
      have hyl := mem_of_getLast? (by simpa using hy)
      have hzy : z ≠ y := fun hzy ↦ (nodup_cons.mp h.nodup).1 (hzy ▸ hyl)
      rw [update_of_ne hzy, update_of_ne hxz]
      exact ih h.2 (by simpa using hy) fun hm ↦ hx (mem_cons_of_mem z hm)

theorem Linked.unlink [DecidableEq ι] {l₁ l₂ : List ι} (h : Linked next p (l₁ ++ y :: x :: l₂)) :
    Linked (update next y (next x)) p (l₁ ++ y :: l₂) := by
  induction l₁ generalizing p with
  | nil =>
    have hnot : y ∉ l₂ := fun hm ↦ (nodup_cons.mp h.nodup).1 (mem_cons_of_mem x hm)
    obtain ⟨hp, -, hl⟩ := h
    refine ⟨hp, ?_⟩
    rw [update_self]
    exact hl.congr fun z hz ↦ update_of_ne (ne_of_mem_of_not_mem hz hnot) _ _
  | cons z l₁ ih =>
    have hzy : z ≠ y := by
      rintro rfl
      exact (nodup_cons.mp h.nodup).1 (mem_append_right _ mem_cons_self)
    refine ⟨h.1, ?_⟩
    rw [update_of_ne hzy]
    exact ih h.2

/-- Lists that share the link field and no node. -/
structure Family (next : ι → Option ι) (head : κ → Option ι) (l : κ → List ι) : Prop where
  linked : ∀ k, Linked next (head k) (l k)
  apart : ∀ k k' x, x ∈ l k → x ∈ l k' → k = k'

namespace Family

variable {head : κ → Option ι} {ls : κ → List ι} {k : κ} {rest : List ι}

theorem head_eq (h : Family next head ls) (k : κ) : head k = (ls k).head? := by
  have hk := h.linked k
  cases hl : ls k with
  | nil =>
    rw [hl] at hk
    exact hk
  | cons x l =>
    rw [hl] at hk
    exact hk.1

theorem of_eq {head' : κ → Option ι} (h : Family next head ls) (hn : next' = next)
    (hh : head' = head) : Family next' head' ls := by
  subst hn hh
  exact h

theorem congr (h : Family next head ls) (hn : ∀ k, ∀ x ∈ ls k, next' x = next x) :
    Family next' head ls :=
  ⟨fun k ↦ (h.linked k).congr (hn k), h.apart⟩

variable [DecidableEq κ]

theorem mem_update {m : List ι} {k' : κ} (hx : x ∈ update ls k m k') :
    k' = k ∧ x ∈ m ∨ k' ≠ k ∧ x ∈ ls k' := by
  by_cases hk : k' = k
  · subst hk
    exact .inl ⟨rfl, by simpa using hx⟩
  · exact .inr ⟨hk, by rwa [update_of_ne hk] at hx⟩

theorem replace {m : List ι} {q : Option ι} (h : Family next head ls) (hm : Linked next' q m)
    (hother : ∀ k' ≠ k, ∀ x ∈ ls k', next' x = next x)
    (hnew : ∀ k' ≠ k, ∀ x ∈ ls k', x ∉ m) :
    Family next' (update head k q) (update ls k m) := by
  refine ⟨fun k' ↦ ?_, fun k₁ k₂ x h₁ h₂ ↦ ?_⟩
  · by_cases hk : k' = k
    · subst hk
      rwa [update_self, update_self]
    · rw [update_of_ne hk, update_of_ne hk]
      exact (h.linked k').congr (hother k' hk)
  · rcases mem_update h₁ with ⟨hk₁, hm₁⟩ | ⟨hk₁, hm₁⟩ <;>
      rcases mem_update h₂ with ⟨hk₂, hm₂⟩ | ⟨hk₂, hm₂⟩
    · exact hk₁.trans hk₂.symm
    · exact absurd hm₁ (hnew k₂ hk₂ x hm₂)
    · exact absurd hm₂ (hnew k₁ hk₁ x hm₁)
    · exact h.apart k₁ k₂ x hm₁ hm₂

variable [DecidableEq ι]

section

variable (h : Family next head ls)

include h

theorem push (hx : ∀ k, x ∉ ls k) (k : κ) : Family (update next x (head k)) (update head k (some x))
      (update ls k (x :: ls k)) := by
  have hne : ∀ k', ∀ z ∈ ls k', z ≠ x := fun k' z hz ↦ ne_of_mem_of_not_mem hz (hx k')
  refine h.replace ⟨rfl, ?_⟩ (fun k' _ z hz ↦ update_of_ne (hne k' z hz) _ _) ?_
  · rw [update_self]
    exact (h.linked k).congr fun z hz ↦ update_of_ne (hne k z hz) _ _
  · intro k' hk' z hz hm
    rcases mem_cons.mp hm with rfl | hm
    · exact hx k' hz
    · exact hk' (h.apart k' k z hz hm)

theorem pop (hk : ls k = x :: rest) (v : Option ι) : Family (update next x v) (update head k (next x))
      (update ls k rest) ∧ ∀ k', x ∉ update ls k rest k' := by
  have hl := h.linked k
  rw [hk] at hl
  have hnot := (nodup_cons.mp hl.nodup).1
  have hmem : x ∈ ls k := by rw [hk]; exact mem_cons_self
  have hother : ∀ k' ≠ k, ∀ z ∈ ls k', z ≠ x := by
    rintro k' hk' z hz rfl
    exact hk' (h.apart k' k z hz hmem)
  refine ⟨h.replace ?_ (fun k' hk' z hz ↦ update_of_ne (hother k' hk' z hz) _ _) ?_, ?_⟩
  · exact hl.2.congr fun z hz ↦ update_of_ne (ne_of_mem_of_not_mem hz hnot) _ _
  · intro k' hk' z hz hm
    exact hk' (h.apart k' k z hz (hk ▸ mem_cons_of_mem x hm))
  · intro k' hm
    rcases mem_update hm with ⟨-, hm⟩ | ⟨hk', hm⟩
    · exact hnot hm
    · exact hother k' hk' x hm rfl

theorem append_nil (hk : ls k = []) (hx : ∀ k, x ∉ ls k) :
    Family (update next x none) (update head k (some x))
      (update ls k [x]) := by
  have hpush := h.push hx k
  rwa [h.head_eq, hk] at hpush

theorem append (hy : (ls k).getLast? = some y) (hx : ∀ k, x ∉ ls k) :
    Family (update (update next x none) y (some x)) head
      (update ls k (ls k ++ [x])) := by
  have hmem := mem_of_getLast? hy
  have hrep := h.replace (k := k) ((h.linked k).snoc hy (hx k)) (fun k' hk' z hz ↦ ?_) ?_
  · rwa [update_eq_self] at hrep
  · have hzy : z ≠ y := by
      rintro rfl
      exact hk' (h.apart k' k z hz hmem)
    rw [update_of_ne hzy, update_of_ne (ne_of_mem_of_not_mem hz (hx k'))]
  · intro k' hk' z hz hm
    rcases mem_append.mp hm with hm | hm
    · exact hk' (h.apart k' k z hz hm)
    · exact hx k' (mem_singleton.mp hm ▸ hz)

theorem unlink {l₁ l₂ : List ι} (hk : ls k = l₁ ++ y :: x :: l₂) :
    Family (update next y (next x)) head (update ls k (l₁ ++ y :: l₂)) := by
  have hl := h.linked k
  rw [hk] at hl
  have hsub : ∀ z ∈ l₁ ++ y :: l₂, z ∈ ls k := by
    intro z hz
    rw [hk]
    simp only [mem_append, mem_cons] at hz ⊢
    tauto
  have hrep := h.replace hl.unlink (fun k' hk' z hz ↦ ?_) fun k' hk' z hz hm ↦
    hk' (h.apart k' k z hz (hsub z hm))
  · rwa [update_eq_self] at hrep
  · refine update_of_ne ?_ _ _
    rintro rfl
    exact hk' (h.apart k' k z hz (hsub z (mem_append_right _ mem_cons_self)))

end

end Family

end Eris.Library.Chains
