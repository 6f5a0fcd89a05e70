import Eris.Library.Radix
import Eris.Mm.Paging

namespace Eris.Mm

open Library.Radix

/-- The first `depth` digits of the page an address lies in, as one number. -/
def pathTo (address depth : ℕ) : ℕ := address / 2 ^ (48 - 9 * depth) % 2 ^ (9 * depth)

theorem pathTo_succ (address : ℕ) {depth : ℕ} (h : depth < 4) :
    pathTo address (depth + 1) = pathTo address depth * entriesPerTable + indexOf address (3 - depth) := by
  unfold pathTo indexOf entriesPerTable
  interval_cases depth <;> norm_num <;> omega

theorem indexOf_lt (address level : ℕ) : indexOf address level < entriesPerTable :=
  Nat.mod_lt _ (by decide)

theorem pathTo_eq_append {address depth p i : ℕ} (h : depth < 4) (hi : i < entriesPerTable) :
    pathTo address (depth + 1) = p * entriesPerTable + i ↔
      pathTo address depth = p ∧ indexOf address (3 - depth) = i := by
  have hlt := indexOf_lt address (3 - depth)
  rw [pathTo_succ address h]
  constructor
  · intro he
    have h1 := append_digit (p := pathTo address depth) hlt
    have h2 := append_digit (p := p) hi
    rw [he] at h1
    exact ⟨h1.1.symm.trans h2.1, h1.2.symm.trans h2.2⟩
  · rintro ⟨rfl, rfl⟩
    rfl

theorem pathTo_succ_iff {a b d : ℕ} (hd : d < 4) :
    pathTo b (d + 1) = pathTo a (d + 1) ↔ pathTo b d = pathTo a d ∧ indexOf b (3 - d) = indexOf a (3 - d) := by
  rw [pathTo_succ a hd]
  exact pathTo_eq_append hd (indexOf_lt a (3 - d))

def pageOf (a : ℕ) : ℕ := a / pageSize % 2 ^ 36

theorem pageOf_eq_iff {a b : ℕ} :
    pageOf b = pageOf a ↔ pathTo b 3 = pathTo a 3 ∧ indexOf b 0 = indexOf a 0 :=
  pathTo_succ_iff (d := 3) (by omega)

namespace Memory

def child (m : Memory) (f i : ℕ) : Option ℕ :=
  if (m.entry f i).present ∧ ¬ (m.entry f i).huge then some (m.entry f i).frame else none

def tableAt (m : Memory) : ℕ → ℕ → Option ℕ := node entriesPerTable m.root m.child

def IsTable (m : Memory) (f : ℕ) : Prop := ∃ d ≤ 3, ∃ p, m.tableAt d p = some f

/-- The tables form a tree in frames that are taken, with huge pages in the third row only. -/
structure Wf (m : Memory) : Prop where
  separated : Separated entriesPerTable m.root m.child 3
  taken : ∀ f, m.IsTable f → f < managedPages ∧ m.frames.bitmap f = true
  low : m.frames.bitmap 0 = true
  flat : ∀ d < 2, ∀ p f i, m.tableAt d p = some f → (m.entry f i).huge = false

def leaf (m : Memory) (a : ℕ) : Entry :=
  match m.tableAt 3 (pathTo a 3) with
  | some f => m.entry f (indexOf a 0)
  | none =>
    match m.tableAt 2 (pathTo a 2) with
    | some f =>
      if (m.entry f (indexOf a 1)).present ∧ (m.entry f (indexOf a 1)).huge then
        (m.entry f (indexOf a 1)).part (indexOf a 0)
      else {}
    | none => {}

def onPath (m : Memory) (d a : ℕ) : Entry :=
  match m.tableAt d (pathTo a d) with
  | some f => m.entry f (indexOf a (3 - d))
  | none => {}

def InHuge (m : Memory) (a : ℕ) : Prop := (m.onPath 2 a).present ∧ (m.onPath 2 a).huge

instance (m : Memory) (a : ℕ) : Decidable (m.InHuge a) := inferInstanceAs (Decidable (_ ∧ _))

variable {m m' : Memory} {a b d p f : ℕ}

theorem tableAt_succ (a : ℕ) (hd : d < 3) (hf : m.tableAt d (pathTo a d) = some f) :
    m.tableAt (d + 1) (pathTo a (d + 1)) = m.child f (indexOf a (3 - d)) := by
  rw [pathTo_succ a (by omega)]
  exact node_succ_of_node (indexOf_lt a (3 - d)) hf

theorem tableAt_zero (m : Memory) (a : ℕ) : m.tableAt 0 (pathTo a 0) = some m.root := by
  simp [tableAt, node, pathTo, Nat.mod_one]

theorem tableAt_succ_none (a : ℕ) (hd : d < 3) (hf : m.tableAt d (pathTo a d) = none) :
    m.tableAt (d + 1) (pathTo a (d + 1)) = none := by
  have hdiv := (append_digit (p := pathTo a d) (indexOf_lt a (3 - d))).1
  rw [pathTo_succ a (by omega), tableAt, node, hdiv]
  rw [tableAt] at hf
  rw [hf, Option.bind_none]

theorem tableAt_none_of_le (a : ℕ) {d' : ℕ} (hle : d ≤ d') (hd' : d' ≤ 3)
    (hf : m.tableAt d (pathTo a d) = none) : m.tableAt d' (pathTo a d') = none := by
  induction d', hle using Nat.le_induction with
  | base => exact hf
  | succ d' _ ih => exact tableAt_succ_none a (by omega) (ih (by omega))

theorem onPath_of_tableAt (hf : m.tableAt d (pathTo a d) = some f) :
    m.onPath d a = m.entry f (indexOf a (3 - d)) := by
  rw [onPath, hf]

theorem onPath_of_none (hf : m.tableAt d (pathTo a d) = none) : m.onPath d a = {} := by
  rw [onPath, hf]

theorem onPath_congr (hd : d < 4) (h : pathTo b (d + 1) = pathTo a (d + 1)) :
    m.onPath d b = m.onPath d a := by
  obtain ⟨hp, hi⟩ := (pathTo_succ_iff hd).mp h
  rw [onPath, onPath, hp, hi]

theorem tableAt_succ_of_link (hd : d < 3) (h : (m.onPath d a).link) :
    m.tableAt (d + 1) (pathTo a (d + 1)) = some (m.onPath d a).frame := by
  cases hf : m.tableAt d (pathTo a d) with
  | none =>
    rw [onPath_of_none hf] at h
    cases h.1
  | some f =>
    rw [onPath_of_tableAt hf] at h ⊢
    exact (tableAt_succ a hd hf).trans (if_pos h)

theorem tableAt_succ_of_not_link (hd : d < 3) (h : ¬ (m.onPath d a).link) :
    m.tableAt (d + 1) (pathTo a (d + 1)) = none := by
  cases hf : m.tableAt d (pathTo a d) with
  | none => exact tableAt_succ_none a hd hf
  | some f =>
    rw [onPath_of_tableAt hf] at h
    exact (tableAt_succ a hd hf).trans (if_neg h)

theorem InHuge.not_link (h : m.InHuge a) : ¬ (m.onPath 2 a).link := fun hl ↦ hl.2 h.2

theorem leaf_eq (m : Memory) (a : ℕ) :
    m.leaf a = if m.InHuge a then (m.onPath 2 a).part (indexOf a 0) else m.onPath 3 a := by
  unfold leaf
  by_cases hl : (m.onPath 2 a).link
  · rw [if_neg fun h ↦ h.not_link hl, onPath, tableAt_succ_of_link (by omega) hl]
  · have h3 := tableAt_succ_of_not_link (by omega) hl
    rw [h3, onPath_of_none h3]
    cases hf : m.tableAt 2 (pathTo a 2) with
    | none => rw [if_neg fun h ↦ by cases (onPath_of_none hf ▸ h.1 : ({} : Entry).present = true)]
    | some f => simp only [InHuge, onPath_of_tableAt hf]

theorem onPath_succ_of_not_link (hd : d < 3) (h : ¬ (m.onPath d a).link)
    (hb : pathTo b (d + 1) = pathTo a (d + 1)) : m.onPath (d + 1) b = {} := by
  apply onPath_of_none
  rw [hb]
  exact tableAt_succ_of_not_link hd h

theorem onPath_link_of_tableAt {t : ℕ} (hd : d < 3) (ht : m.tableAt 3 (pathTo a 3) = some t) :
    (m.onPath d a).link := by
  by_contra hl
  rw [tableAt_none_of_le a (by omega) le_rfl (tableAt_succ_of_not_link hd hl)] at ht
  cases ht

theorem leaf_eq_of_onPath (h2 : m'.onPath 2 b = m.onPath 2 b) (h3 : m'.onPath 3 b = m.onPath 3 b) :
    m'.leaf b = m.leaf b := by
  have hhuge : m'.InHuge b ↔ m.InHuge b := by rw [InHuge, InHuge, h2]
  simp only [leaf_eq, hhuge, h2, h3]

theorem leaf_congr (h : pageOf a = pageOf b) (m : Memory) : m.leaf a = m.leaf b := by
  obtain ⟨h3, h0⟩ := pageOf_eq_iff.mp h
  have h2 := (pathTo_succ_iff (by omega)).mp h3
  unfold leaf
  rw [h3, h2.1, h0, h2.2]

theorem onPath_cases (hm : m.Wf) {level : ℕ} (hd : d + (level + 1) = 3) (hf : m.tableAt d (pathTo a d) = some f) :
    m.entry f (indexOf a (level + 1)) = m.onPath d a ∧ ((m.onPath d a).present = false ∧ m.leaf a = {} ∨
        ((m.onPath d a).present = true ∧ (m.onPath d a).huge = true ∧ level = 0 ∧
          m.leaf a = (m.onPath d a).part (indexOf a 0)) ∨
        (m.onPath d a).link ∧ m.tableAt (d + 1) (pathTo a (d + 1)) = some (m.onPath d a).frame) := by
  have hentry : m.entry f (indexOf a (level + 1)) = m.onPath d a := by
    rw [onPath_of_tableAt hf, show 3 - d = level + 1 by omega]
  refine ⟨hentry, ?_⟩
  by_cases hlink : (m.onPath d a).link
  · exact .inr (.inr ⟨hlink, tableAt_succ_of_link (by omega) hlink⟩)
  have h3 := onPath_of_none (tableAt_none_of_le a (by omega) le_rfl (tableAt_succ_of_not_link (by omega) hlink))
  by_cases hp : (m.onPath d a).present = true
  · have hh : (m.onPath d a).huge = true := by
      by_contra hh
      exact hlink ⟨hp, hh⟩
    obtain rfl : level = 0 := by
      by_contra hne
      rw [← hentry, hm.flat d (by omega) _ f _ hf] at hh
      cases hh
    obtain rfl : d = 2 := by omega
    exact .inr (.inl ⟨hp, hh, rfl, (leaf_eq m a).trans (if_pos ⟨hp, hh⟩)⟩)
  · refine .inl ⟨eq_false_of_ne_true hp, ?_⟩
    rw [leaf_eq, if_neg, h3]
    by_cases hd2 : d = 2
    · subst hd2
      exact fun h ↦ hp h.1
    · rw [InHuge, onPath_of_none (tableAt_none_of_le a (by omega) (by omega) (tableAt_succ_of_not_link (by omega) hlink))]
      exact fun h ↦ nomatch h.1

theorem translateFrom_eq (hm : m.Wf) (a : ℕ) {level : ℕ} (hd : d + level = 3)
    (hf : m.tableAt d (pathTo a d) = some f) :
    m.translateFrom a level f = if (m.leaf a).present then (m.leaf a).frame * pageSize + a % pageSize else 0 := by
  induction level generalizing d f with
  | zero =>
    obtain rfl : d = 3 := by omega
    rw [translateFrom, leaf, hf]
  | succ level ih =>
    obtain ⟨hentry, ⟨hp, hleaf⟩ | ⟨hp, hh, rfl, hleaf⟩ | ⟨⟨hp, hh⟩, hnext⟩⟩ := onPath_cases hm hd hf
    · rw [translateFrom, hentry, hp, hleaf]
      rfl
    · have hoff : a % hugePageSize = indexOf a 0 * pageSize + a % pageSize := by
        unfold hugePageSize indexOf pageSize entriesPerTable
        omega
      have hpart : ((m.onPath d a).part (indexOf a 0)).present = true := hp
      rw [translateFrom, hentry, if_pos hp, if_pos hh, hleaf, if_pos hpart, hoff]
      simp only [Entry.part]
      ring
    · rw [translateFrom, hentry, if_pos hp, if_neg hh]
      exact ih (by omega) hnext

theorem translate_eq (hm : m.Wf) (a : ℕ) :
    m.translate a = if (m.leaf a).present then (m.leaf a).frame * pageSize + a % pageSize else 0 :=
  translateFrom_eq hm a rfl (m.tableAt_zero a)

end Memory

end Eris.Mm
