import Eris.Mm.Edits
import Eris.Mm.Supply

namespace Eris.Mm.Memory

open Library.Bitmap Function Finset

variable {m m' m₁ : Memory} {a d f g n n' t level : ℕ} {A B B' : Finset ℕ}

def freeFrames (m : Memory) : ℕ := population (fun f ↦ !m.frames.bitmap f) managedPages

/-- How many tables `table_for` has to make from a table of level `level` on. -/
def missingTables (address : ℕ) (m : Memory) : ℕ → ℕ → ℕ
  | 0, _ => 0
  | level + 1, table =>
    let e := m.entry table (indexOf address (level + 1))
    if e.present then if e.huge then 1 else missingTables address m level e.frame
    else level + 1

theorem freeFrames_of_full (h : ∀ g < managedPages, m.frames.bitmap g = true) : m.freeFrames = 0 := by
  rw [freeFrames, population, card_eq_zero, filter_eq_empty_iff]
  intro g hg
  simp [h g (mem_range.mp hg)]

theorem freeFrames_markUsed (m' : Memory) (hg : g < managedPages) (hfree : m.frames.bitmap g = false)
    (h : m'.frames = m.frames.markUsed g) : m'.freeFrames + 1 = m.freeFrames := by
  have hflip : (fun f ↦ !m'.frames.bitmap f) = Function.update (fun f ↦ !m.frames.bitmap f) g false := by
    funext f
    rw [h, Frames.bitmap_markUsed hg, update_apply, update_apply]
    split
    · rfl
    · rfl
  rw [freeFrames, hflip]
  exact population_update_false hg (by simp [hfree])

theorem missingTables_blank (h : ∀ i, m.entry f i = {}) : m.missingTables a level f = level := by
  cases level with
  | zero => rfl
  | succ level => simp [missingTables, h]

/-- The memory after a new table `g` was hung at entry `i` of the table `f`. -/
def hung (f i g : ℕ) (content : ℕ → Entry) (m : Memory) : Memory :=
  { m with
    frames := m.frames.markUsed g
    tables := Function.update m.tables g content }.setEntry f i (.table g)

theorem hung_spec (hm : m.Wf) (hd : d + (level + 1) = 3) (hf : m.tableAt d (pathTo a d) = some f)
    (hnone : m.tableAt (d + 1) (pathTo a (d + 1)) = none) (hg : g < managedPages)
    (hfree : m.frames.bitmap g = false) {content : ℕ → Entry} (hempty : d < 2 → ∀ j, content j = {}) :
    (m.hung f (indexOf a (level + 1)) g content).Wf ∧
      (m.hung f (indexOf a (level + 1)) g content).freeFrames + 1 = m.freeFrames ∧
      (m.hung f (indexOf a (level + 1)) g content).missingTables a level g = level ∧
      ∀ d' ≤ 3, ∀ p, (m.hung f (indexOf a (level + 1)) g content).tableAt d' p =
        if d' = d + 1 ∧ p = pathTo a (d + 1) then some g else m.tableAt d' p := by
  have hlevel : 3 - d = level + 1 := by omega
  have hne := hm.ne_of_free (by omega) hf hfree
  have hgr : Grafted m (m.hung f (indexOf a (level + 1)) g content) f (indexOf a (level + 1)) g :=
    grafted_setEntry hg hfree f _ content
  have hchild : m.child f (indexOf a (level + 1)) = none := by
    rw [← hlevel, ← tableAt_succ a (by omega) hf, hnone]
  have hnew : d < 2 → ∀ j, (m.hung f (indexOf a (level + 1)) g content).entry g j = {} := by
    intro hd2 j
    rw [hung, entry_setEntry, if_neg fun h ↦ hne h.1.symm]
    simp [entry, hempty hd2]
  have hpath := pathTo_succ a (show d < 4 by omega)
  rw [hlevel] at hpath
  refine ⟨(hgr.grow hm (by omega) (indexOf_lt a _) hf hchild hnew).wf, freeFrames_markUsed _ hg hfree rfl, ?_, ?_⟩
  · cases level with
    | zero => rfl
    | succ level => exact missingTables_blank (hnew (by omega))
  · intro d' hd' p
    rw [hpath]
    exact hgr.tableAt hm (by omega) (indexOf_lt a _) hf hchild hnew hd' p

theorem tableFor_step (hm : m.Wf) (hd : d + (level + 1) = 3) (hf : m.tableAt d (pathTo a d) = some f) :
    (∃ t, m.tableAt (d + 1) (pathTo a (d + 1)) = some t ∧ m.missingTables a (level + 1) f = m.missingTables a level t ∧
      m.tableFor a true false (level + 1) f = m.tableFor a true false level t) ∨
    m.tableAt (d + 1) (pathTo a (d + 1)) = none ∧ m.missingTables a (level + 1) f = level + 1 ∧
      (m.freeFrames = 0 ∧ m.tableFor a true false (level + 1) f = (m, none) ∨
        ∃ (m₁ : Memory) (g : ℕ), m₁.Wf ∧ m₁.freeFrames + 1 = m.freeFrames ∧ m₁.missingTables a level g = level ∧
          (∀ d' ≤ 3, ∀ p, m₁.tableAt d' p = if d' = d + 1 ∧ p = pathTo a (d + 1) then some g else m.tableAt d' p) ∧
          m.tableFor a true false (level + 1) f = m₁.tableFor a true false level g) := by
  have hnew : ∀ g content, ((m.hung f (indexOf a (level + 1)) g content).entry f (indexOf a (level + 1))) = .table g := by
    intro g content
    rw [hung, entry_setEntry, if_pos ⟨rfl, rfl⟩]
  obtain ⟨hentry, ⟨hpresent, -⟩ | ⟨hpresent, hhuge, rfl, -⟩ | ⟨⟨hpresent, hhuge⟩, hnext⟩⟩ := onPath_cases hm hd hf
  · have habsent := ne_true_of_eq_false hpresent
    have hnone := tableAt_succ_of_not_link (by omega) fun hlink : (m.onPath d a).link ↦ habsent hlink.1
    refine .inr ⟨hnone, by rw [missingTables, hentry, if_neg habsent], ?_⟩
    rw [tableFor, enterTable, hentry, if_neg habsent, if_pos rfl]
    rcases allocateTable_cases hm.low with ⟨hfull, hall⟩ | ⟨g, hg, hfree, hsome⟩
    · rw [hfull]
      exact .inl ⟨freeFrames_of_full hall, rfl⟩
    · obtain ⟨hwf, hcount, hmissing, htables⟩ := hung_spec hm hd hf hnone hg hfree
        (show d < 2 → ∀ j : ℕ, (fun _ ↦ {} : ℕ → Entry) j = {} from fun _ _ ↦ rfl)
      rw [hsome]
      refine .inr ⟨_, g, hwf, hcount, hmissing, htables, ?_⟩
      simp only [allowUser, Bool.false_eq_true, if_false]
      rw [← hung, hnew]
      exact if_neg fun h ↦ by cases h.2
  · have hnone := tableAt_succ_of_not_link (by omega) fun hlink : (m.onPath d a).link ↦ hlink.2 hhuge
    refine .inr ⟨hnone, by rw [missingTables, hentry, if_pos hpresent, if_pos hhuge], ?_⟩
    simp only [tableFor, enterTable, allowUser, hentry, hpresent, hhuge, splitHugePage, if_true, and_self,
      Bool.false_eq_true, if_false]
    rcases allocateTable_cases hm.low with ⟨hfull, hall⟩ | ⟨g, hg, hfree, hsome⟩
    · rw [hfull]
      exact .inl ⟨freeFrames_of_full hall, rfl⟩
    · obtain ⟨hwf, hcount, hmissing, htables⟩ := hung_spec hm hd hf hnone hg hfree
        (show d < 2 → ∀ j, (m.onPath d a).part j = {} by omega)
      rw [hsome]
      refine .inr ⟨_, g, hwf, hcount, hmissing, htables, ?_⟩
      simp only [update_idem]
      rw [← hung, hnew]
      rfl
  · refine .inl ⟨_, hnext, ?_, ?_⟩
    · rw [missingTables, hentry, if_pos hpresent, if_neg hhuge]
    · rw [tableFor, enterTable, hentry, if_pos hpresent]
      simp only [allowUser, Bool.false_eq_true, if_false, hentry, hhuge, and_false]

theorem tableFor_isSome_iff (hm : m.Wf) (hd : d + level = 3) (hf : m.tableAt d (pathTo a d) = some f) :
    (m.tableFor a true false level f).2.isSome = true ↔ m.missingTables a level f ≤ m.freeFrames := by
  induction level generalizing d f m with
  | zero => simp [tableFor, missingTables]
  | succ level ih =>
    rcases tableFor_step hm hd hf with ⟨t, ht, hmissing, hwalk⟩ | ⟨-, hmissing, ⟨hfull, hwalk⟩ | hnew⟩
    · rw [hwalk, hmissing]
      exact ih hm (by omega) ht
    · rw [hwalk, hmissing, hfull]
      exact ⟨by simp, by simp⟩
    · obtain ⟨m₁, g, hwf, hcount, hleft, htables, hwalk⟩ := hnew
      have hg : m₁.tableAt (d + 1) (pathTo a (d + 1)) = some g := by rw [htables _ (by omega), if_pos ⟨rfl, rfl⟩]
      rw [hwalk, hmissing, ih hwf (by omega) hg, hleft]
      omega

theorem tableFor_takes (hm : m.Wf) (hd : d + level = 3) (hf : m.tableAt d (pathTo a d) = some f)
    (h : m.tableFor a true false level f = (m', some t)) :
    m'.freeFrames + m.missingTables a level f = m.freeFrames ∧
      ∀ d' ≤ 3, ∀ p, m'.tableAt d' p = none ↔ m.tableAt d' p = none ∧ p ≠ pathTo a d' := by
  induction level generalizing d f m with
  | zero =>
    obtain rfl : d = 3 := by omega
    obtain ⟨rfl, -⟩ := Prod.mk.inj h
    refine ⟨Nat.add_zero _, fun d' hd' p ↦ ⟨fun hnone ↦ ⟨hnone, ?_⟩, And.left⟩⟩
    rintro rfl
    rw [tableAt_none_of_le a hd' le_rfl hnone] at hf
    cases hf
  | succ level ih =>
    rcases tableFor_step hm hd hf with ⟨t', ht, hmissing, hwalk⟩ | ⟨-, hmissing, ⟨hfull, hwalk⟩ | hnew⟩
    · rw [hwalk] at h
      rw [hmissing]
      exact ih hm (by omega) ht h
    · rw [hwalk] at h
      cases h
    · obtain ⟨m₁, g, hwf, hcount, hleft, htables, hwalk⟩ := hnew
      have hg : m₁.tableAt (d + 1) (pathTo a (d + 1)) = some g := by rw [htables _ (by omega), if_pos ⟨rfl, rfl⟩]
      rw [hwalk] at h
      obtain ⟨hspent, hrest⟩ := ih hwf (by omega) hg h
      refine ⟨by omega, fun d' hd' p ↦ ?_⟩
      rw [hrest d' hd' p, htables d' hd' p]
      split
      · rename_i hhere
        obtain ⟨rfl, rfl⟩ := hhere
        exact ⟨fun hnone ↦ (nomatch hnone.1), fun hnone ↦ absurd rfl hnone.2⟩
      · rfl

def placesTo (pages : Finset ℕ) : Finset (ℕ × ℕ) := (pages ×ˢ Finset.Icc 1 3).image fun x ↦ (x.2, pathTo x.1 x.2)

def lacking (m : Memory) (pages : Finset ℕ) : ℕ := ((placesTo pages).filter fun x ↦ m.tableAt x.1 x.2 = none).card

theorem mem_placesTo {x : ℕ × ℕ} : x ∈ placesTo A ↔ ∃ a ∈ A, 1 ≤ x.1 ∧ x.1 ≤ 3 ∧ x.2 = pathTo a x.1 := by
  obtain ⟨d, p⟩ := x
  simp only [placesTo, mem_image, mem_product, mem_Icc, Prod.exists, Prod.mk.injEq]
  constructor
  · rintro ⟨a, d', ⟨ha, hlo, hhi⟩, rfl, rfl⟩
    exact ⟨a, ha, hlo, hhi, rfl⟩
  · rintro ⟨a, ha, hlo, hhi, rfl⟩
    exact ⟨a, d, ⟨ha, hlo, hhi⟩, rfl, rfl⟩

theorem placesTo_union (A B : Finset ℕ) : placesTo (A ∪ B) = placesTo A ∪ placesTo B := by
  rw [placesTo, union_product, image_union]
  rfl

theorem lacking_mono (m : Memory) (h : A ⊆ B) : m.lacking A ≤ m.lacking B := by
  apply card_le_card
  apply filter_subset_filter
  exact image_subset_image (product_subset_product_left h)

theorem lacking_le (m : Memory) (A : Finset ℕ) : m.lacking A ≤ A.card * 3 := by
  have hcard := (card_filter_le (placesTo A) fun x ↦ m.tableAt x.1 x.2 = none).trans card_image_le
  rwa [card_product, Nat.card_Icc] at hcard

theorem lacking_congr (h : m'.tableAt = m.tableAt) (A : Finset ℕ) : m'.lacking A = m.lacking A := by
  rw [lacking, h, lacking]

theorem missingTables_eq (hm : m.Wf) (hd : d + level = 3) (hf : m.tableAt d (pathTo a d) = some f) :
    m.missingTables a level f = ((Finset.Ioc d 3).filter fun d' ↦ m.tableAt d' (pathTo a d') = none).card := by
  induction level generalizing d f with
  | zero =>
    obtain rfl : d = 3 := by omega
    rfl
  | succ level ih =>
    rcases tableFor_step hm hd hf with ⟨t, ht, hmissing, -⟩ | ⟨hnone, hmissing, -⟩
    · rw [hmissing, ih (by omega) ht]
      congr 1
      ext d'
      simp only [mem_filter, mem_Ioc]
      constructor
      · intro ⟨⟨hlo, hhi⟩, hnone⟩
        exact ⟨⟨by omega, hhi⟩, hnone⟩
      · intro ⟨⟨hlo, hhi⟩, hnone⟩
        refine ⟨⟨Nat.lt_of_le_of_ne hlo ?_, hhi⟩, hnone⟩
        rintro rfl
        rw [ht] at hnone
        cases hnone
    · have hall : ∀ d' ∈ Finset.Ioc d 3, m.tableAt d' (pathTo a d') = none := by
        intro d' hd'
        obtain ⟨hlo, hhi⟩ := mem_Ioc.mp hd'
        exact tableAt_none_of_le a hlo hhi hnone
      rw [hmissing, filter_true_of_mem hall, Nat.card_Ioc]
      omega

theorem lacking_singleton (hm : m.Wf) (a : ℕ) : m.lacking {a} = m.missingTables a 3 m.root := by
  rw [missingTables_eq hm (Nat.zero_add 3) (m.tableAt_zero a), lacking]
  have hplaces : (placesTo {a}).filter (fun x ↦ m.tableAt x.1 x.2 = none) =
      ((Finset.Ioc 0 3).filter fun d ↦ m.tableAt d (pathTo a d) = none).image fun d ↦ (d, pathTo a d) := by
    ext ⟨d, p⟩
    simp only [mem_filter, mem_placesTo, mem_singleton, exists_eq_left, mem_image, mem_Ioc, Prod.mk.injEq]
    constructor
    · rintro ⟨⟨hlo, hhi, rfl⟩, hnone⟩
      exact ⟨d, ⟨⟨hlo, hhi⟩, hnone⟩, rfl, rfl⟩
    · rintro ⟨d, ⟨⟨hlo, hhi⟩, hnone⟩, rfl, rfl⟩
      exact ⟨⟨hlo, hhi, rfl⟩, hnone⟩
  rw [hplaces, card_image_of_injective _ fun d d' h ↦ (Prod.mk.inj h).1]

/-- After `n` frames were taken, and one for each table that the pages in `B` lacked. -/
structure Spent (m m' : Memory) (n : ℕ) (B : Finset ℕ) : Prop where
  wf : m'.Wf
  frames : m'.freeFrames + (n + m.lacking B) = m.freeFrames
  tables : ∀ d p, 1 ≤ d → d ≤ 3 → (m'.tableAt d p = none ↔ m.tableAt d p = none ∧ (d, p) ∉ placesTo B)

namespace Spent

theorem lacking (h : Spent m m' n B) (A : Finset ℕ) : m'.lacking A + m.lacking B = m.lacking (A ∪ B) := by
  rw [Memory.lacking, Memory.lacking, Memory.lacking, ← card_union_of_disjoint]
  · congr 1
    ext x
    simp only [mem_union, mem_filter, placesTo_union]
    constructor
    · rintro (⟨hA, hnone⟩ | ⟨hB, hnone⟩)
      · obtain ⟨-, -, hlo, hhi, -⟩ := mem_placesTo.mp hA
        exact ⟨.inl hA, ((h.tables _ _ hlo hhi).mp hnone).1⟩
      · exact ⟨.inr hB, hnone⟩
    · intro ⟨hplace, hnone⟩
      by_cases hB : x ∈ placesTo B
      · exact .inr ⟨hB, hnone⟩
      · have hA := hplace.resolve_right hB
        obtain ⟨-, -, hlo, hhi, -⟩ := mem_placesTo.mp hA
        exact .inl ⟨hA, (h.tables _ _ hlo hhi).mpr ⟨hnone, hB⟩⟩
  · rw [disjoint_left]
    intro x hA hB
    obtain ⟨hB, -⟩ := mem_filter.mp hB
    obtain ⟨-, -, hlo, hhi, -⟩ := mem_placesTo.mp hB
    exact ((h.tables _ _ hlo hhi).mp (mem_filter.mp hA).2).2 hB

theorem trans (h : Spent m m₁ n B) (h' : Spent m₁ m' n' B') : Spent m m' (n + n') (B' ∪ B) where
  wf := h'.wf
  frames := by
    have hsum := h.lacking B'
    have hfirst := h.frames
    have hsecond := h'.frames
    omega
  tables d p hlo hhi := by
    rw [h'.tables d p hlo hhi, h.tables d p hlo hhi, placesTo_union, mem_union, not_or, and_assoc]
    exact and_congr_right fun _ ↦ and_comm

theorem take (hm : m.Wf) (hg : g < managedPages) (hfree : m.frames.bitmap g = false) :
    Spent m { m with frames := m.frames.markUsed g } 1 ∅ where
  wf := by
    have hbit := Frames.bitmap_markUsed (s := m.frames) hg
    refine ⟨hm.separated, fun f hf ↦ ⟨(hm.taken f hf).1, ?_⟩, ?_, hm.flat⟩
    · simp [hbit, update_apply, (hm.taken f hf).2]
    · simp [hbit, update_apply, hm.low]
  frames := freeFrames_markUsed _ hg hfree rfl
  tables d p _ _ := ⟨fun hnone ↦ ⟨hnone, notMem_empty _⟩, And.left⟩

end Spent

theorem tableAt_setEntry (hm : m.Wf) (ht : m.tableAt 3 (pathTo a 3) = some t) (i : ℕ) (e : Entry) (hd : d ≤ 3) (p : ℕ) :
    (m.setEntry t i e).tableAt d p = m.tableAt d p := by
  refine Library.Radix.node_congr (fun d' hd' q f hf ↦ ?_) p
  have hne : f ≠ t := by
    rintro rfl
    obtain ⟨rfl, -⟩ := hm.separated (by omega) le_rfl hf ht
    omega
  funext j
  have hentry : (m.setEntry t i e).entry f j = m.entry f j := by rw [entry_setEntry, if_neg fun h ↦ hne h.1]
  simp only [child, hentry]

theorem map_page_demand (hm : m.Wf) (a frame : ℕ) {flags : PageFlags} (hu : flags.user = false) :
    ((m.map a frame pageSize flags).2 = true ↔ m.lacking {a} ≤ m.freeFrames) ∧
      ((m.map a frame pageSize flags).2 = true → Spent m (m.map a frame pageSize flags).1 0 {a}) := by
  have hpages : pagesOf pageSize = 1 := rfl
  have hwalk := tableFor_isSome_iff hm (Nat.zero_add 3) (m.tableAt_zero a)
  obtain ⟨m₁, r, htf, hedit, hsome, -⟩ := tableFor_edit a false hm (Nat.zero_add 3) (m.tableAt_zero a)
  rw [map, hpages, mapPages, hu, htf, lacking_singleton hm]
  rw [htf] at hwalk
  cases r with
  | none => exact ⟨hwalk, by simp⟩
  | some t =>
    obtain ⟨hcount, htables⟩ := tableFor_takes hm (Nat.zero_add 3) (m.tableAt_zero a) htf
    have ht := (hsome t rfl).1
    refine ⟨hwalk, fun _ ↦ ⟨(setEntry_edit false hedit.grow.wf ht _).1.grow.wf, ?_, fun d p hlo hhi ↦ ?_⟩⟩
    · rw [Nat.zero_add, lacking_singleton hm]
      exact hcount
    · change (m₁.setEntry t _ _).tableAt d p = none ↔ _
      rw [tableAt_setEntry hedit.grow.wf ht _ _ hhi, htables d hhi, mem_placesTo]
      simp [hlo, hhi]

end Eris.Mm.Memory
