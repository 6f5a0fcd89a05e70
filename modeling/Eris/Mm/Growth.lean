import Eris.Mm.Walk

namespace Eris.Mm.Memory

open Library.Radix Function

variable {m m' m'' : Memory} {a b d p f g i : ℕ} {e : Entry}

/-- What the walk for a table may change: new tables in frames that were free. -/
structure Grow (m m' : Memory) : Prop where
  wf : m'.Wf
  root : m'.root = m.root
  vmalloc : m'.vmalloc = m.vmalloc
  bytes : m'.bytes = m.bytes
  used : ∀ f, m.frames.bitmap f = true → m'.frames.bitmap f = true
  spent : ∀ f, m'.frames.bitmap f = true → m.frames.bitmap f = true ∨ m'.IsTable f
  tables : ∀ d ≤ 3, ∀ p f, m.tableAt d p = some f → m'.tableAt d p = some f
  fresh : ∀ f, m'.IsTable f → m.IsTable f ∨ m.frames.bitmap f = false

theorem Grow.refl (hm : m.Wf) : Grow m m :=
  ⟨hm, rfl, rfl, rfl, fun _ h ↦ h, fun _ ↦ .inl, fun _ _ _ _ h ↦ h, fun _ ↦ .inl⟩

theorem Grow.isTable (h : Grow m m') (hf : m.IsTable f) : m'.IsTable f := by
  obtain ⟨d, hd, p, hp⟩ := hf
  exact ⟨d, hd, p, h.tables d hd p f hp⟩

theorem Grow.trans (h : Grow m m') (h' : Grow m' m'') : Grow m m'' where
  wf := h'.wf
  root := h'.root.trans h.root
  vmalloc := h'.vmalloc.trans h.vmalloc
  bytes := h'.bytes.trans h.bytes
  used f hf := h'.used f (h.used f hf)
  spent f hf := (h'.spent f hf).elim (fun hm ↦ (h.spent f hm).imp_right h'.isTable) .inr
  tables d hd p f hf := h'.tables d hd p f (h.tables d hd p f hf)
  fresh f hf := (h'.fresh f hf).elim (h.fresh f) fun hf' ↦ .inr <| by
    by_contra hused
    rw [h.used f (by simpa using hused)] at hf'
    cases hf'

theorem Grow.tableAt_of_used (h : Grow m m') (hd : d ≤ 3) (hf : m.frames.bitmap f = true)
    (ht : m'.tableAt d p = some f) : m.tableAt d p = some f := by
  rcases h.fresh f ⟨d, hd, p, ht⟩ with ⟨d', hd', p', ht'⟩ | hfree
  · obtain ⟨rfl, rfl⟩ := h.wf.separated hd hd' ht (h.tables d' hd' p' f ht')
    exact ht'
  · rw [hf] at hfree
    cases hfree

theorem allocPage_cases (hlow : m.frames.bitmap 0 = true) :
    (m.allocPage = (m, 0) ∧ ∀ f < managedPages, m.frames.bitmap f = true) ∨
    ∃ g < managedPages, g ≠ 0 ∧ m.frames.bitmap g = false ∧
      m.allocPage = ({ m with frames := m.frames.markUsed g }, g * pageSize) := by
  rcases m.frames.allocPage_cases with ⟨hnone, hall⟩ | ⟨g, hg, hfree, hsome⟩
  · exact .inl ⟨by rw [allocPage, hnone], hall⟩
  · refine .inr ⟨g, hg, ?_, hfree, by rw [allocPage, hsome]⟩
    rintro rfl
    rw [hlow] at hfree
    cases hfree

theorem allocateTable_cases (hlow : m.frames.bitmap 0 = true) :
    (m.allocateTable = (m, none) ∧ ∀ f < managedPages, m.frames.bitmap f = true) ∨
    ∃ g < managedPages, m.frames.bitmap g = false ∧ m.allocateTable = ({ m with
        frames := m.frames.markUsed g
        tables := update m.tables g fun _ ↦ {} }, some g) := by
  rcases allocPage_cases hlow with ⟨hnone, hall⟩ | ⟨g, hg, hg0, hfree, hsome⟩
  · exact .inl ⟨by simp [allocateTable, hnone], hall⟩
  · have hne : g * pageSize ≠ 0 := Nat.mul_ne_zero hg0 (by decide)
    have hdiv : g * pageSize / pageSize = g := Nat.mul_div_cancel g (by decide)
    refine .inr ⟨g, hg, hfree, ?_⟩
    rw [allocateTable, hsome, if_neg hne]
    simp only [hdiv]

/-- A new table `g` at entry `i` of the table `f`. -/
structure Grafted (m m' : Memory) (f i g : ℕ) : Prop where
  room : g < managedPages
  free : m.frames.bitmap g = false
  root : m'.root = m.root
  vmalloc : m'.vmalloc = m.vmalloc
  bytes : m'.bytes = m.bytes
  frames : m'.frames = m.frames.markUsed g
  link : m'.entry f i = .table g
  old : ∀ f' ≠ g, ∀ j, (f' = f → j ≠ i) → m'.entry f' j = m.entry f' j

namespace Grafted

theorem not_tableAt (hm : m.Wf) (h : Grafted m m' f i g) (hd : d ≤ 3) (q : ℕ) :
    m.tableAt d q ≠ some g := by
  intro hq
  have hused := (hm.taken g ⟨d, hd, q, hq⟩).2
  rw [h.free] at hused
  cases hused

section

variable (hm : m.Wf) (h : Grafted m m' f i g) (hd : d < 3) (hi : i < entriesPerTable) (hf : m.tableAt d p = some f)
  (hnone : m.child f i = none) (hempty : d < 2 → ∀ j, m'.entry g j = {})

include hm h hd hi hf hnone hempty

theorem tableAt {d' : ℕ} (hd' : d' ≤ 3) (q : ℕ) :
    m'.tableAt d' q = if d' = d + 1 ∧ q = p * entriesPerTable + i then some g else m.tableAt d' q := by
  have hnode : node entriesPerTable m.root m'.child d' q = _ := node_graft hi hm.separated hd hf hnone
    (fun e he q ↦ h.not_tableAt hm he q) (by simp [child, h.link, Entry.table])
    (fun hd2 j _ ↦ by simp [child, hempty (by omega) j])
    (fun f' hf' j hj ↦ by simp [child, h.old f' hf' j hj]) hd' q
  rw [Memory.tableAt, h.root]
  exact hnode

theorem grow : Grow m m' := by
  have hat := fun (d' : ℕ) (hd' : d' ≤ 3) q ↦ h.tableAt hm hd hi hf hnone hempty hd' q
  have hnew : m'.tableAt (d + 1) (p * entriesPerTable + i) = some g := by
    rw [hat _ (by omega), if_pos ⟨rfl, rfl⟩]
  have hbit : m'.frames.bitmap = update m.frames.bitmap g true := by
    rw [h.frames, Frames.bitmap_markUsed h.room]
  have hcases : ∀ d' ≤ 3, ∀ q f', m'.tableAt d' q = some f' → f' = g ∧ d' = d + 1 ∨ m.tableAt d' q = some f' := by
    intro d' hd' q f' hq
    rw [hat d' hd'] at hq
    split at hq
    · rename_i hc
      exact .inl ⟨(Option.some.inj hq).symm, hc.1⟩
    · exact .inr hq
  refine ⟨⟨?_, ?_, ?_, ?_⟩, h.root, h.vmalloc, h.bytes, ?_, ?_, ?_, ?_⟩
  · have hsep := hm.separated.graft
      (fun e he q ↦ h.not_tableAt hm he q) (fun e he q ↦ by
        have hq := hat e he q
        rw [Memory.tableAt, h.root] at hq
        exact hq)
    rw [h.root]
    exact hsep
  · rintro f' ⟨d', hd', q, hq⟩
    rw [hbit]
    rcases hcases d' hd' q f' hq with ⟨rfl, -⟩ | hq
    · exact ⟨h.room, update_self ..⟩
    · obtain ⟨hlt, hused⟩ := hm.taken f' ⟨d', hd', q, hq⟩
      refine ⟨hlt, ?_⟩
      rw [update_apply, hused, ite_self]
  · rw [hbit, update_apply, hm.low, ite_self]
  · intro d' hd' q f' j hq
    rcases hcases d' (by omega) q f' hq with ⟨rfl, rfl⟩ | hq
    · rw [hempty (by omega)]
    · by_cases hj : f' = f ∧ j = i
      · rw [hj.1, hj.2, h.link]
        rfl
      · have hne : f' ≠ g := fun hfg ↦ h.not_tableAt hm (by omega) q (hfg ▸ hq)
        rw [h.old f' hne j fun hff hji ↦ hj ⟨hff, hji⟩]
        exact hm.flat d' hd' q f' j hq
  · intro f' hf'
    rw [hbit, update_apply, hf', ite_self]
  · intro f' hf'
    rw [hbit, update_apply] at hf'
    split at hf'
    · rename_i hfg
      exact .inr ⟨d + 1, by omega, _, hfg ▸ hnew⟩
    · exact .inl hf'
  · intro d' hd' q f' hq
    rw [hat d' hd', if_neg, hq]
    rintro ⟨rfl, rfl⟩
    rw [Memory.tableAt, node_succ_of_node hi hf, hnone] at hq
    cases hq
  · rintro f' ⟨d', hd', q, hq⟩
    rcases hcases d' hd' q f' hq with ⟨rfl, -⟩ | hq
    · exact .inr h.free
    · exact .inl ⟨d', hd', q, hq⟩

end

section

variable (hm : m.Wf) (h : Grafted m m' f (indexOf a (3 - d)) g) (hd : d < 3) (hf : m.tableAt d (pathTo a d) = some f)
  (hl : ¬ (m.onPath d a).link) (hempty : d < 2 → ∀ j, m'.entry g j = {})

include hm h hd hf hl hempty

theorem onPath {d' : ℕ} (hd' : d' ≤ 3) (b : ℕ) : m'.onPath d' b = if pathTo b (d + 1) = pathTo a (d + 1) then
        if d' = d then .table g
        else if d' = d + 1 then m'.entry g (indexOf b (3 - d')) else m.onPath d' b
      else m.onPath d' b := by
  have hchild := (tableAt_succ a hd hf).symm.trans (tableAt_succ_of_not_link hd hl)
  have hat := h.tableAt hm hd (indexOf_lt a _) hf hchild hempty hd' (pathTo b d')
  rw [← pathTo_succ a (by omega)] at hat
  by_cases hnew : d' = d + 1 ∧ pathTo b d' = pathTo a (d + 1)
  · obtain ⟨rfl, hpath⟩ := hnew
    rw [if_pos ⟨rfl, hpath⟩] at hat
    rw [if_pos hpath, if_neg (by omega), if_pos rfl, onPath_of_tableAt hat]
  · rw [if_neg hnew] at hat
    have hrest : pathTo b (d + 1) = pathTo a (d + 1) → d' ≠ d + 1 := fun hpath hdd ↦
      hnew ⟨hdd, by rw [hdd, hpath]⟩
    cases ht : m.tableAt d' (pathTo b d') with
    | none =>
      rw [onPath_of_none (hat.trans ht), onPath_of_none ht]
      split
      · rename_i hpath
        rw [if_neg, if_neg (hrest hpath)]
        rintro rfl
        rw [((pathTo_succ_iff (by omega)).mp hpath).1, hf] at ht
        cases ht
      · rfl
    | some f' =>
      have hfg : f' ≠ g := fun hfg ↦ h.not_tableAt hm hd' _ (hfg ▸ ht)
      rw [onPath_of_tableAt (hat.trans ht), onPath_of_tableAt ht]
      by_cases hhere : d' = d ∧ pathTo b (d + 1) = pathTo a (d + 1)
      · obtain ⟨rfl, hpath⟩ := hhere
        obtain ⟨hp, hi⟩ := (pathTo_succ_iff (by omega)).mp hpath
        rw [hp, hf] at ht
        cases ht
        rw [if_pos hpath, if_pos rfl, hi, h.link]
      · rw [h.old f' hfg _ fun hff hij ↦ ?_]
        · split
          · rename_i hpath
            rw [if_neg fun hdd ↦ hhere ⟨hdd, hpath⟩, if_neg (hrest hpath)]
          · rfl
        · subst hff
          obtain ⟨rfl, hpp⟩ := hm.separated hd' (by omega) ht hf
          exact hhere ⟨rfl, (pathTo_succ_iff (by omega)).mpr ⟨hpp, hij⟩⟩

theorem leaf (hsame : d = 2 → ∀ b, pathTo b 3 = pathTo a 3 → m'.entry g (indexOf b 0) = m.leaf b) (b : ℕ) :
    m'.leaf b = m.leaf b := by
  have h3 := h.onPath hm hd hf hl hempty le_rfl b
  have h2 := h.onPath hm hd hf hl hempty (show 2 ≤ 3 by omega) b
  by_cases hd2 : d = 2
  · subst hd2
    by_cases hpath : pathTo b 3 = pathTo a 3
    · rw [if_pos hpath, if_pos rfl] at h2
      rw [if_pos hpath, if_neg (by omega), if_pos rfl] at h3
      rw [leaf_eq, if_neg, h3]
      · exact hsame rfl b hpath
      · rw [InHuge, h2]
        rintro ⟨-, hh⟩
        cases hh
    · rw [if_neg hpath] at h2 h3
      exact leaf_eq_of_onPath h2 h3
  · rw [if_neg (show ¬ 3 = d by omega), if_neg (show ¬ 3 = d + 1 by omega), ite_self] at h3
    have h2' : m'.onPath 2 b = m.onPath 2 b := by
      rw [h2]
      split
      · rename_i hpath
        rw [if_neg (by omega)]
        split
        · rename_i hdd
          obtain rfl : d = 1 := by omega
          rw [hempty (by omega), onPath_succ_of_not_link (by omega) hl hpath]
        · rfl
      · rfl
    exact leaf_eq_of_onPath h2' h3

end

end Grafted

theorem entry_setEntry (m : Memory) (f i f' j : ℕ) (e : Entry) :
    (m.setEntry f i e).entry f' j = if f' = f ∧ j = i then e else m.entry f' j := by
  unfold setEntry entry
  by_cases hf : f' = f
  · subst hf
    simp [update_apply]
  · simp [hf]

theorem grafted_setEntry (hg : g < managedPages) (hfree : m.frames.bitmap g = false)
    (f i : ℕ) (content : ℕ → Entry) :
    Grafted m ({ m with
      frames := m.frames.markUsed g
      tables := update m.tables g content }.setEntry f i (.table g)) f i g where
  room := hg
  free := hfree
  root := rfl
  vmalloc := rfl
  bytes := rfl
  frames := rfl
  link := by simp [entry_setEntry]
  old f' hf' j hj := by
    rw [entry_setEntry, if_neg fun h ↦ hj h.1 h.2]
    simp [entry, update_of_ne hf']

theorem Wf.ne_of_free (hm : m.Wf) (hd : d ≤ 3) (hf : m.tableAt d p = some f)
    (hfree : m.frames.bitmap g = false) : f ≠ g := by
  rintro rfl
  rw [(hm.taken f ⟨d, hd, p, hf⟩).2] at hfree
  cases hfree

theorem setEntry_at (hm : m.Wf) (hd : d ≤ 3) (hf : m.tableAt d (pathTo a d) = some f)
    (he : d < 3 → e.present = (m.onPath d a).present ∧ e.huge = (m.onPath d a).huge ∧ e.frame = (m.onPath d a).frame) :
    Grow m (m.setEntry f (indexOf a (3 - d)) e) ∧ ∀ d' ≤ 3, ∀ b, (m.setEntry f (indexOf a (3 - d)) e).onPath d' b =
        if d' = d ∧ pathTo b (d + 1) = pathTo a (d + 1) then e else m.onPath d' b := by
  have hold := onPath_of_tableAt hf
  have hlower : ∀ d' < 3, ∀ p f' j, m.tableAt d' p = some f' →
      ((m.setEntry f (indexOf a (3 - d)) e).entry f' j).present = (m.entry f' j).present ∧
      ((m.setEntry f (indexOf a (3 - d)) e).entry f' j).huge = (m.entry f' j).huge ∧
      ((m.setEntry f (indexOf a (3 - d)) e).entry f' j).frame = (m.entry f' j).frame := by
    intro d' hd' p f' j hf'
    rw [entry_setEntry]
    split
    · rename_i hhere
      obtain ⟨rfl, rfl⟩ := hhere
      have hdd := (hm.separated (by omega) hd hf' hf).1
      rw [← hold]
      exact he (by omega)
    · exact ⟨rfl, rfl, rfl⟩
  have hat : ∀ d' ≤ 3, ∀ p, (m.setEntry f (indexOf a (3 - d)) e).tableAt d' p = m.tableAt d' p := by
    intro d' hd' p
    refine node_congr (fun d₁ hd₁ q f' hf' ↦ ?_) p
    funext j
    obtain ⟨hp, hh, hfr⟩ := hlower d₁ (by omega) q f' j hf'
    simp only [child, hp, hh, hfr]
  have htable : ∀ f', (m.setEntry f (indexOf a (3 - d)) e).IsTable f' ↔ m.IsTable f' := fun f' ↦
    exists_congr fun d' ↦ and_congr_right fun hd' ↦ exists_congr fun p ↦ by rw [hat d' hd']
  refine ⟨⟨⟨fun d₁ p₁ d₂ p₂ f' hd₁ hd₂ hf₁ hf₂ ↦ ?_, fun f' hf' ↦ hm.taken f' ((htable f').mp hf'),
      hm.low, fun d₁ hd₁ p f' j hf' ↦ ?_⟩, rfl, rfl, rfl, fun _ h ↦ h, fun _ ↦ .inl,
    fun d' hd' p f' hf' ↦ (hat d' hd' p).trans hf', fun f' hf' ↦ .inl ((htable f').mp hf')⟩, fun d' hd' b ↦ ?_⟩
  · exact hm.separated hd₁ hd₂ ((hat d₁ hd₁ p₁).symm.trans hf₁) ((hat d₂ hd₂ p₂).symm.trans hf₂)
  · rw [hat d₁ (by omega)] at hf'
    rw [(hlower d₁ (by omega) p f' j hf').2.1]
    exact hm.flat d₁ hd₁ p f' j hf'
  · have hat' := hat d' hd' (pathTo b d')
    cases ht : m.tableAt d' (pathTo b d') with
    | none =>
      rw [onPath_of_none (hat'.trans ht), onPath_of_none ht, if_neg]
      rintro ⟨rfl, hpath⟩
      rw [((pathTo_succ_iff (by omega)).mp hpath).1, hf] at ht
      cases ht
    | some f' =>
      rw [onPath_of_tableAt (hat'.trans ht), onPath_of_tableAt ht, entry_setEntry]
      refine if_congr ⟨?_, ?_⟩ rfl rfl
      · rintro ⟨rfl, hij⟩
        obtain ⟨rfl, hpp⟩ := hm.separated hd' hd ht hf
        exact ⟨rfl, (pathTo_succ_iff (by omega)).mpr ⟨hpp, hij⟩⟩
      · rintro ⟨rfl, hpath⟩
        obtain ⟨hp, hij⟩ := (pathTo_succ_iff (by omega)).mp hpath
        rw [hp, hf] at ht
        exact ⟨(Option.some.inj ht).symm, hij⟩

end Eris.Mm.Memory
