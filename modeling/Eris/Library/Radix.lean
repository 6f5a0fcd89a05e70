import Mathlib

/-!
Trees whose edges are the digits of a number. The node for a prefix is found from the root by
one edge for each digit.
-/

namespace Eris.Library.Radix

open Option

variable {F : Type*} (b : ℕ) (root : F) (child child' : F → ℕ → Option F)

def node : ℕ → ℕ → Option F
  | 0, p => if p = 0 then some root else none
  | d + 1, p => (node d (p / b)).bind fun f ↦ child f (p % b)

def Separated (depth : ℕ) : Prop :=
  ∀ ⦃d p d' p' f⦄, d ≤ depth → d' ≤ depth → node b root child d p = some f →
    node b root child d' p' = some f → d = d' ∧ p = p'

variable {b root child child'} {depth d p i : ℕ} {f g : F}

theorem append_digit (hi : i < b) : (p * b + i) / b = p ∧ (p * b + i) % b = i := by
  have hb : 0 < b := by omega
  refine ⟨?_, ?_⟩
  · rw [Nat.mul_comm, Nat.mul_add_div hb, Nat.div_eq_of_lt hi, Nat.add_zero]
  · rw [Nat.mul_comm, Nat.mul_add_mod, Nat.mod_eq_of_lt hi]

theorem node_succ_of_node (hi : i < b) (hf : node b root child d p = some f) :
    node b root child (d + 1) (p * b + i) = child f i := by
  simp only [node, append_digit hi, hf, bind_some]

theorem node_front (hb : 0 < b) (d p : ℕ) :
    node b root child (d + 1) p =
      if p / b ^ d < b then (child root (p / b ^ d)).bind fun f ↦ node b f child d (p % b ^ d) else none := by
  induction d generalizing p with
  | zero =>
    simp only [node, Nat.pow_zero, Nat.div_one, Nat.mod_one, if_true, bind_fun_some, Nat.div_eq_zero_iff,
      Nat.ne_of_gt hb, false_or]
    split
    · rw [bind_some, Nat.mod_eq_of_lt ‹_›]
    · rfl
  | succ d ih =>
    have hdiv : p / b ^ (d + 1) = p / b / b ^ d := by rw [Nat.div_div_eq_div_mul, Nat.pow_succ']
    have hmod : p % b ^ (d + 1) / b = p / b % b ^ d := by rw [Nat.pow_succ', Nat.mod_mul_right_div_self]
    have hlast := Nat.mod_mod_of_dvd p ⟨b ^ d, Nat.pow_succ'⟩
    rw [node, ih, hdiv]
    split
    · simp only [bind_assoc, node, hmod, hlast]
    · rfl

theorem node_congr (h : ∀ e < d, ∀ q f, node b root child e q = some f → child' f = child f)
    (p : ℕ) : node b root child' d p = node b root child d p := by
  induction d generalizing p with
  | zero => rfl
  | succ d ih =>
    have hd := ih (fun e he q f hf ↦ h e (by omega) q f hf) (p / b)
    rw [node, node, hd]
    cases hq : node b root child d (p / b) with
    | none => rfl
    | some f => simp only [bind_some, h d (by omega) _ f hq]

theorem node_graft (hi : i < b) (hs : Separated b root child depth)
    (hd : d < depth) (hf : node b root child d p = some f) (hnone : child f i = none)
    (hg : ∀ e ≤ depth, ∀ q, node b root child e q ≠ some g)
    (hnew : child' f i = some g) (hleaf : d + 1 < depth → ∀ j < b, child' g j = none)
    (hold : ∀ f' ≠ g, ∀ j, (f' = f → j ≠ i) → child' f' j = child f' j)
    {e : ℕ} (he : e ≤ depth) (q : ℕ) :
    node b root child' e q = if e = d + 1 ∧ q = p * b + i then some g
      else node b root child e q := by
  induction e generalizing q with
  | zero =>
    rw [if_neg (by omega)]
    rfl
  | succ e ih =>
    rw [node, ih (by omega)]
    by_cases hcase : e = d + 1 ∧ q / b = p * b + i
    · obtain ⟨rfl, hq⟩ := hcase
      have hbelow : node b root child (d + 1 + 1) q = none := by
        rw [node, hq, node_succ_of_node hi hf, hnone, bind_none]
      rw [if_pos ⟨rfl, hq⟩, bind_some, hleaf (by omega) _ (Nat.mod_lt q (by omega)), if_neg (by omega), hbelow]
    · rw [if_neg hcase]
      cases hq : node b root child e (q / b) with
      | none =>
        rw [bind_none, if_neg, node, hq, bind_none]
        rintro ⟨hed, rfl⟩
        obtain rfl : e = d := by omega
        rw [(append_digit hi).1, hf] at hq
        cases hq
      | some f' =>
        rw [bind_some]
        have hfg : f' ≠ g := fun h ↦ hg e (by omega) _ (h ▸ hq)
        by_cases hedge : f' = f ∧ q % b = i
        · obtain ⟨rfl, hqi⟩ := hedge
          obtain ⟨rfl, hqp⟩ := hs (by omega) (by omega) hq hf
          have hqe : q = p * b + i := by rw [← hqp, ← hqi, Nat.mul_comm, Nat.div_add_mod]
          rw [hqi, hnew, if_pos ⟨rfl, hqe⟩]
        · rw [hold f' hfg _ fun h hj ↦ hedge ⟨h, hj⟩, if_neg, node, hq, bind_some]
          rintro ⟨hed, rfl⟩
          obtain rfl : e = d := by omega
          rw [(append_digit hi).1, hf] at hq
          exact hedge ⟨(Option.some.inj hq).symm, (append_digit hi).2⟩

theorem Separated.graft (hs : Separated b root child depth)
    (hg : ∀ e ≤ depth, ∀ q, node b root child e q ≠ some g)
    (hnode : ∀ e ≤ depth, ∀ q, node b root child' e q =
      if e = d + 1 ∧ q = p * b + i then some g else node b root child e q) :
    Separated b root child' depth := by
  intro e q e' q' f he he' hq hq'
  rw [hnode e he] at hq
  rw [hnode e' he'] at hq'
  split at hq
  · rename_i hc
    cases hq
    split at hq'
    · rename_i hc'
      exact ⟨hc.1.trans hc'.1.symm, hc.2.trans hc'.2.symm⟩
    · exact absurd hq' (hg e' he' q')
  · split at hq'
    · cases hq'
      exact absurd hq (hg e he q)
    · exact hs he he' hq hq'

end Eris.Library.Radix
