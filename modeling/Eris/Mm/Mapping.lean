import Eris.Mm.Edits

namespace Eris.Mm.Memory

variable {m m' : Memory} {a b : ℕ}

def span (a n : ℕ) : Set ℕ := { c | ∃ k < n, c = a + k * pageSize }

theorem mem_span_succ {c n : ℕ} : c ∈ span a (n + 1) ↔ c = a ∨ c ∈ span (a + pageSize) n := by
  constructor
  · rintro ⟨k, hk, rfl⟩
    cases k with
    | zero => exact .inl (by omega)
    | succ k => exact .inr ⟨k, by omega, by ring⟩
  · rintro (rfl | ⟨k, hk, rfl⟩)
    · exact ⟨0, by omega, by omega⟩
    · exact ⟨k + 1, by omega, by ring⟩

theorem mem_pages_succ {q n : ℕ} :
    q ∈ Set.image pageOf (span a (n + 1)) ↔ q = pageOf a ∨ q ∈ Set.image pageOf (span (a + pageSize) n) := by
  constructor
  · rintro ⟨c, hc, rfl⟩
    exact (mem_span_succ.mp hc).imp (fun h ↦ by rw [h]) fun h ↦ ⟨c, h, rfl⟩
  · rintro (rfl | ⟨c, hc, rfl⟩)
    · exact ⟨a, mem_span_succ.mpr (.inl rfl), rfl⟩
    · exact ⟨c, mem_span_succ.mpr (.inr hc), rfl⟩

/-- The loop that `map`, `unmap` and `protect` share: the entry of page `k` is replaced by what
`new k` makes of it. -/
def rewritePages (user : Bool) : (ℕ → Entry → Option Entry) → ℕ → ℕ → Memory → Memory × Bool
  | _, 0, _, m => (m, true)
  | new, pages + 1, address, m =>
    match m.tableFor address true user 3 m.root with
    | (m, none) => (m, false)
    | (m, some table) =>
      match new 0 (m.entry table (indexOf address 0)) with
      | some e =>
        rewritePages user (fun k ↦ new (k + 1)) pages (address + pageSize)
          (m.setEntry table (indexOf address 0) e)
      | none => (m, false)

theorem mapPages_eq (flags : PageFlags) (pages address frame : ℕ) (m : Memory) :
    m.mapPages flags pages address frame =
      m.rewritePages flags.user (fun k _ ↦ some (encode flags ((frame + k * pageSize) / pageSize % 2 ^ 40)))
        pages address := by
  induction pages generalizing address frame m with
  | zero => rfl
  | succ pages ih =>
    rw [mapPages, rewritePages]
    rcases m.tableFor address true flags.user 3 m.root with ⟨m₁, _ | t⟩
    · rfl
    · have hnext : ∀ k, frame + pageSize + k * pageSize = frame + (k + 1) * pageSize := fun k ↦ by ring
      simp only [ih, hnext, Nat.zero_mul, Nat.add_zero]

theorem unmapPages_eq (pages address : ℕ) (m : Memory) :
    m.unmapPages pages address = m.rewritePages false (fun _ _ ↦ some {}) pages address := by
  induction pages generalizing address m with
  | zero => rfl
  | succ pages ih =>
    rw [unmapPages, rewritePages]
    rcases m.tableFor address true false 3 m.root with ⟨m₁, _ | t⟩
    · rfl
    · exact ih _ _

theorem protectPages_eq (flags : PageFlags) (pages address : ℕ) (m : Memory) :
    m.protectPages flags pages address = m.rewritePages flags.user
      (fun _ e ↦ if e.present then some (encode flags e.frame) else none) pages address := by
  induction pages generalizing address m with
  | zero => rfl
  | succ pages ih =>
    rw [protectPages, rewritePages]
    rcases m.tableFor address true flags.user 3 m.root with ⟨m₁, _ | t⟩
    · rfl
    · simp only
      split
      · exact ih _ _
      · rfl

/-- What the loop has done once it stops, after `done` of the pages. -/
structure Rewritten (user : Bool) (new : ℕ → Entry → Option Entry) (pages a : ℕ) (m m' : Memory) (ok : Bool)
    (done : ℕ) : Prop where
  le : done ≤ pages
  edit : Edit m m' (span a pages) (Set.image pageOf (span a done)) user
  written : ∀ b, pageOf b ∈ Set.image pageOf (span a done) →
    ∃ k < done, pageOf b = pageOf (a + k * pageSize) ∧ ∃ e, new k e = some (m'.leaf b)
  tables : ∀ k < done, ∃ t, m'.tableAt 3 (pathTo (a + k * pageSize) 3) = some t
  opened : user = true → (∀ c ∈ span a pages, ¬ m.InHuge c) →
    ∀ k < done, ∀ d < 3, (m'.onPath d (a + k * pageSize)).user = true
  finished : ok = true → done = pages
  stopped : ok = false → done < pages ∧ ((∀ g < managedPages, m'.frames.bitmap g = true) ∨ ∃ e, new done e = none)

theorem rewritePages_spec (hm : m.Wf) (user : Bool) (new : ℕ → Entry → Option Entry) (pages a : ℕ)
    (hnew : user = true → ∀ k e e', new k e = some e' → e'.user = true) :
    ∃ m' ok done, m.rewritePages user new pages a = (m', ok) ∧ Rewritten user new pages a m m' ok done := by
  induction pages generalizing m a new with
  | zero =>
    exact ⟨m, true, 0, rfl, le_rfl, .refl hm, fun b ⟨_, ⟨_, hk, _⟩, _⟩ ↦ absurd hk (by omega),
      fun _ hk ↦ absurd hk (by omega), fun _ _ _ hk ↦ absurd hk (by omega), fun _ ↦ rfl, nofun⟩
  | succ pages ih =>
    have hshift : ∀ k, a + pageSize + k * pageSize = a + (k + 1) * pageSize := fun k ↦ by ring
    have hS : ({a} : Set ℕ) ⊆ span a (pages + 1) := fun c hc ↦ mem_span_succ.mpr (.inl hc)
    obtain ⟨m₁, r, htf, hedit, hsome, hfull⟩ := tableFor_edit a user hm (Nat.zero_add 3) (m.tableAt_zero a)
    have hstop : ∀ ok, ok = false → ((∀ g < managedPages, m₁.frames.bitmap g = true) ∨ ∃ e, new 0 e = none) →
        Rewritten user new (pages + 1) a m m₁ ok 0 := fun ok hok hwhy ↦
      ⟨by omega, hedit.mono hS (Set.empty_subset _), fun b ⟨_, ⟨_, hk, _⟩, _⟩ ↦ absurd hk (by omega),
        fun _ hk ↦ absurd hk (by omega), fun _ _ _ hk ↦ absurd hk (by omega), fun h ↦ by simp [hok] at h,
        fun _ ↦ ⟨by omega, hwhy⟩⟩
    rw [rewritePages, htf]
    cases r with
    | none => exact ⟨m₁, false, 0, rfl, hstop false rfl (.inl (hfull rfl))⟩
    | some t =>
      obtain ⟨ht, hopen⟩ := hsome t rfl
      simp only
      cases he : new 0 (m₁.entry t (indexOf a 0)) with
      | none => exact ⟨m₁, false, 0, rfl, hstop false rfl (.inr ⟨_, he⟩)⟩
      | some e =>
        obtain ⟨hset, hleaf⟩ := setEntry_edit user hedit.grow.wf ht e
        obtain ⟨m', ok, done, hm', hrest⟩ := ih hset.grow.wf (fun k ↦ new (k + 1)) (a + pageSize)
          fun hu k ↦ hnew hu (k + 1)
        have hfirst := (hedit.mono subset_rfl (Set.empty_subset _)).trans hset
        have hS' : span (a + pageSize) pages ⊆ span a (pages + 1) := fun c hc ↦ mem_span_succ.mpr (.inr hc)
        have ht' := hset.grow.tables 3 le_rfl _ _ ht
        refine ⟨m', ok, done + 1, hm', by have := hrest.le; omega,
          (hfirst.mono hS fun q hq ↦ mem_pages_succ.mpr (.inl hq)).trans
            (hrest.edit.mono hS' fun q hq ↦ mem_pages_succ.mpr (.inr hq)), fun b hb ↦ ?_, fun k hk ↦ ?_,
          fun hu hhuge k hk d hd ↦ ?_, fun h ↦ by rw [hrest.finished h], fun h ↦ ?_⟩
        · by_cases hb' : pageOf b ∈ Set.image pageOf (span (a + pageSize) done)
          · obtain ⟨k, hk, hpage, hwrite⟩ := hrest.written b hb'
            exact ⟨k + 1, by omega, by rw [hpage, hshift], hwrite⟩
          · have hba := (mem_pages_succ.mp hb).resolve_right hb'
            refine ⟨0, by omega, by rw [hba, Nat.zero_mul, Nat.add_zero], m₁.entry t (indexOf a 0), ?_⟩
            rw [he]
            rcases hrest.edit.leaf b hb' with hb' | ⟨hu, -, hb'⟩
            · rw [hb', hleaf, if_pos hba]
            · have heu := hnew hu 0 _ _ he
              rw [hb', hleaf, if_pos hba, ← heu]
        · cases k with
          | zero =>
            rw [Nat.zero_mul, Nat.add_zero]
            exact ⟨t, hrest.edit.grow.tables 3 le_rfl _ _ ht'⟩
          | succ k =>
            rw [← hshift]
            exact hrest.tables k (by omega)
        · cases k with
          | zero =>
            rw [Nat.zero_mul, Nat.add_zero]
            have hnot := hhuge a (mem_span_succ.mpr (.inl rfl))
            have hu₁ := hopen hu hnot d (Nat.zero_le d) hd
            have hl₁ := onPath_link_of_tableAt hd ht
            exact hrest.edit.user_of_user hd (hset.link hd hl₁) (hset.user_of_user hd hl₁ hu₁)
          | succ k =>
            have hhuge' : ∀ c ∈ span (a + pageSize) pages, ¬ (m₁.setEntry t (indexOf a 0) e).InHuge c :=
              fun c hc h ↦ hhuge c (hS' hc) (hfirst.huge c h)
            rw [← hshift]
            exact hrest.opened hu hhuge' k (by omega) d hd
        · obtain ⟨hlt, hwhy⟩ := hrest.stopped h
          exact ⟨by omega, hwhy⟩

theorem rewritePages_content (hm : m.Wf) (user : Bool) {new : ℕ → Entry → Option Entry} (pages a : ℕ)
    (hnew : ∀ k e e', new k e = some e' → e'.present = e.present ∧ e'.frame = e.frame) (b : ℕ) :
    ((m.rewritePages user new pages a).1.leaf b).present = (m.leaf b).present ∧
      ((m.rewritePages user new pages a).1.leaf b).frame = (m.leaf b).frame := by
  induction pages generalizing m a new with
  | zero => exact ⟨rfl, rfl⟩
  | succ pages ih =>
    obtain ⟨m₁, r, htf, hedit, hsome, -⟩ := tableFor_edit a user hm (Nat.zero_add 3) (m.tableAt_zero a)
    have hwalk : (m₁.leaf b).present = (m.leaf b).present ∧ (m₁.leaf b).frame = (m.leaf b).frame := by
      rcases hedit.leaf b (Set.notMem_empty _) with he | ⟨-, -, he⟩
      · rw [he]
        exact ⟨rfl, rfl⟩
      · rw [he]
        exact ⟨rfl, rfl⟩
    rw [rewritePages, htf]
    cases r with
    | none => exact hwalk
    | some t =>
      have ht := (hsome t rfl).1
      simp only
      cases he : new 0 (m₁.entry t (indexOf a 0)) with
      | none => exact hwalk
      | some e =>
        obtain ⟨hset, hleaf⟩ := setEntry_edit user hedit.grow.wf ht e
        obtain ⟨hp, hf⟩ := ih hset.grow.wf (a + pageSize) fun k ↦ hnew (k + 1)
        rw [hp, hf, hleaf, ← hwalk.1, ← hwalk.2]
        split
        · rename_i hb
          obtain ⟨hpath, hindex⟩ := pageOf_eq_iff.mp hb
          have hb₁ : m₁.leaf b = m₁.entry t (indexOf a 0) := by rw [leaf, hpath, ht, hindex]
          rw [hb₁]
          exact hnew 0 _ _ he
        · exact ⟨rfl, rfl⟩

theorem map_page_spec (hm : m.Wf) (a : ℕ) {frame : ℕ} (hframe : frame < 2 ^ 40) (flags : PageFlags)
    (hu : flags.user = false) :
    ∃ m' ok, m.map a (frame * pageSize) pageSize flags = (m', ok) ∧ Grow m m' ∧ (m.Plain → m'.Plain) ∧
      (∀ b, m'.InHuge b → m.InHuge b) ∧ (ok = true → ∃ t, m'.tableAt 3 (pathTo a 3) = some t) ∧
      (∀ b, m'.leaf b = if ok = true ∧ pageOf b = pageOf a then encode flags frame else m.leaf b) ∧
      (ok = false → ∀ g < managedPages, m'.frames.bitmap g = true) := by
  obtain ⟨m₁, r, htf, hedit, hsome, hfull⟩ := tableFor_edit a false hm (Nat.zero_add 3) (m.tableAt_zero a)
  have hleaf : ∀ b, m₁.leaf b = m.leaf b := fun b ↦
    (hedit.leaf b (Set.notMem_empty _)).resolve_right fun h ↦ by cases h.1
  have hpages : pagesOf pageSize = 1 := rfl
  have hdiv : frame * pageSize / pageSize % 2 ^ 40 = frame := by
    rw [Nat.mul_div_cancel frame (by decide), Nat.mod_eq_of_lt hframe]
  rw [map, hpages, mapPages, hu, htf]
  cases r with
  | none => exact ⟨m₁, false, rfl, hedit.grow, hedit.plain, hedit.huge, nofun, by simpa using hleaf, fun _ ↦ hfull rfl⟩
  | some t =>
    have ht := (hsome t rfl).1
    obtain ⟨hset, hsleaf⟩ := setEntry_edit false hedit.grow.wf ht (encode flags frame)
    refine ⟨_, true, by simp only [mapPages, hdiv], hedit.grow.trans hset.grow, fun hp ↦ hset.plain (hedit.plain hp),
      fun b hb ↦ hedit.huge b (hset.huge b hb), fun _ ↦ ⟨t, hset.grow.tables 3 le_rfl _ _ ht⟩, fun b ↦ ?_, nofun⟩
    rw [hsleaf, hleaf]
    simp

theorem unmap_page_spec {t : ℕ} (hm : m.Wf) (ht : m.tableAt 3 (pathTo a 3) = some t) :
    ∃ m', m.unmap a pageSize = (m', true) ∧ Grow m m' ∧
      ∀ b, m'.leaf b = if pageOf b = pageOf a then {} else m.leaf b := by
  have htf := tableFor_of_tableAt a (Nat.zero_add 3) (m.tableAt_zero a) ht
  have hpages : pagesOf pageSize = 1 := rfl
  obtain ⟨hset, hsleaf⟩ := setEntry_edit false hm ht {}
  exact ⟨_, by simp only [unmap, hpages, unmapPages, htf], hset.grow, hsleaf⟩

theorem protect_page_spec {t : ℕ} (hm : m.Wf) (ht : m.tableAt 3 (pathTo a 3) = some t)
    (hp : (m.leaf a).present = true) (flags : PageFlags) (hu : flags.user = false) :
    ∃ m', m.protect a pageSize flags = (m', true) ∧ Grow m m' ∧
      ∀ b, m'.leaf b = if pageOf b = pageOf a then encode flags (m.leaf a).frame else m.leaf b := by
  have htf := tableFor_of_tableAt a (Nat.zero_add 3) (m.tableAt_zero a) ht
  have hpages : pagesOf pageSize = 1 := rfl
  have hentry : m.entry t (indexOf a 0) = m.leaf a := by rw [leaf, ht]
  obtain ⟨hset, hsleaf⟩ := setEntry_edit false hm ht (encode flags (m.leaf a).frame)
  exact ⟨_, by simp only [protect, hpages, protectPages, hu, htf, hentry, hp, if_true], hset.grow, hsleaf⟩

theorem protectPages_spec (hm : m.Wf) (flags : PageFlags) (pages a : ℕ) :
    ∃ m' ok, m.protectPages flags pages a = (m', ok) ∧ Grow m m' ∧
      ∀ b, (m'.leaf b).present = (m.leaf b).present ∧ (m'.leaf b).frame = (m.leaf b).frame := by
  have hnew : ∀ (k : ℕ) (e e' : Entry), (if e.present then some (encode flags e.frame) else none) = some e' →
        e'.present = e.present ∧ e'.frame = e.frame ∧ e'.user = flags.user := by
    intro k e e' he
    split at he
    · rename_i hp
      cases he
      exact ⟨hp.symm, rfl, rfl⟩
    · cases he
  rw [protectPages_eq]
  obtain ⟨m', ok, done, heq, hdone⟩ := rewritePages_spec hm flags.user _ pages a
    fun hu k e e' he ↦ ((hnew k e e' he).2.2).trans hu
  refine ⟨m', ok, heq, hdone.edit.grow, fun b ↦ ?_⟩
  have hcontent := rewritePages_content hm flags.user pages a
    (fun k e e' he ↦ ⟨(hnew k e e' he).1, (hnew k e e' he).2.1⟩) b
  rwa [heq] at hcontent

theorem tableAt_of_leaf (h : (m.leaf a).present = true) (hh : ¬ m.InHuge a) :
    ∃ t, m.tableAt 3 (pathTo a 3) = some t := by
  cases ht : m.tableAt 3 (pathTo a 3) with
  | none =>
    rw [leaf_eq, if_neg hh, onPath_of_none ht] at h
    cases h
  | some t => exact ⟨t, rfl⟩

theorem tableFor_of_tableAt_user {d f t : ℕ} (a : ℕ) (user : Bool) {level : ℕ} (hm : m.Wf) (hd : d + level = 3)
    (hf : m.tableAt d (pathTo a d) = some f) (ht : m.tableAt 3 (pathTo a 3) = some t) :
    (m.tableFor a true user level f).2 = some t := by
  induction level generalizing d f m with
  | zero =>
    obtain rfl : d = 3 := by omega
    rw [tableFor, ← ht, hf]
  | succ level ih =>
    have hlevel : 3 - d = level + 1 := by omega
    have hl : (m.onPath d a).link := onPath_link_of_tableAt (by omega) ht
    obtain ⟨hedit, hon⟩ := allowUser_spec hm (by omega) hf user
    rw [hlevel] at hedit hon
    have hf₁ := hedit.grow.tables d (by omega) _ _ hf
    have hl₁ := hedit.link (by omega) hl
    have hnext := tableAt_succ_of_link (by omega) hl₁
    rw [onPath_of_tableAt hf₁, hlevel] at hl₁ hnext
    have hp : (m.entry f (indexOf a (level + 1))).present = true := by
      rw [onPath_of_tableAt hf, hlevel] at hl
      exact hl.1
    obtain ⟨-, hh⟩ := hl₁
    simp only [tableFor, enterTable, hp, if_true, hh, and_false, Bool.false_eq_true, if_false]
    exact ih hedit.grow.wf (by omega) hnext (hedit.grow.tables 3 le_rfl _ _ ht)

theorem protectPages_ok (hm : m.Wf) (flags : PageFlags) (pages a : ℕ)
    (h : ∀ k < pages, ¬ m.InHuge (a + k * pageSize) ∧ (m.leaf (a + k * pageSize)).present = true) :
    (m.protectPages flags pages a).2 = true := by
  induction pages generalizing m a with
  | zero => rfl
  | succ pages ih =>
    obtain ⟨hnot, hpres⟩ := h 0 (Nat.succ_pos pages)
    rw [Nat.zero_mul, Nat.add_zero] at hnot hpres
    obtain ⟨t, ht⟩ := tableAt_of_leaf hpres hnot
    obtain ⟨m₁, r, htf, hedit, hsome, -⟩ := tableFor_edit a flags.user hm (Nat.zero_add 3) (m.tableAt_zero a)
    have hr := tableFor_of_tableAt_user a flags.user hm (Nat.zero_add 3) (m.tableAt_zero a) ht
    rw [htf] at hr
    obtain rfl := hr
    have ht₁ := (hsome t rfl).1
    have hkeep : ∀ b, (m₁.leaf b).present = (m.leaf b).present := by
      intro b
      rcases hedit.leaf b (Set.notMem_empty _) with hb | ⟨-, -, hb⟩
      · rw [hb]
      · rw [hb]
    have hentry : (m₁.entry t (indexOf a 0)).present = true := by
      rw [← hpres, ← hkeep, leaf, ht₁]
    obtain ⟨hset, hleaf⟩ := setEntry_edit flags.user hedit.grow.wf ht₁ (encode flags (m₁.entry t (indexOf a 0)).frame)
    rw [protectPages, htf]
    simp only [hentry, if_true]
    apply ih hset.grow.wf
    intro k hk
    obtain ⟨hnot, hpres⟩ := h (k + 1) (by omega)
    rw [show a + (k + 1) * pageSize = a + pageSize + k * pageSize by ring] at hnot hpres
    refine ⟨fun hh ↦ hnot (hedit.huge _ (hset.huge _ hh)), ?_⟩
    rw [hleaf]
    split
    · rfl
    · rw [hkeep]
      exact hpres

end Eris.Mm.Memory
