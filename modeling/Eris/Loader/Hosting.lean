import Eris.Loader.Images

namespace Eris.Loader

open Library.Outcome Mm Mm.Memory Modules List

variable {m m' m'' m₀ : Memory} {loaded loaded' : LoadedImage} {s : Sections}

def LoadedImage.Rewrites (loaded : LoadedImage) (m m' : Memory) : Prop :=
  m' = { m with bytes := m'.bytes } ∧ loaded.Confines m m'.bytes

namespace LoadedImage.Rewrites

theorem refl (loaded : LoadedImage) (m : Memory) : loaded.Rewrites m m :=
  ⟨rfl, fun _ _ ↦ rfl⟩

theorem translate (h : loaded.Rewrites m m') (a : ℕ) : m'.translate a = m.translate a := by
  rw [h.1, translate_bytes]

theorem trans (h : loaded.Rewrites m m') (h' : loaded.Rewrites m' m'') : loaded.Rewrites m m'' := by
  refine ⟨?_, fun p hp ↦ ?_⟩
  · rw [h'.1, h.1]
  · rw [h'.2 p fun a ha ↦ ?_, h.2 p hp]
    rw [h.translate]
    exact hp a ha

theorem congr (h : loaded.Rewrites m m') (hbase : loaded'.base = loaded.base)
    (hpages : loaded'.pages = loaded.pages) : loaded'.Rewrites m m' := by
  refine ⟨h.1, fun p hp ↦ h.2 p fun a ha ↦ hp a ?_⟩
  rwa [Holds, hbase, hpages]

theorem store {address : ℕ} {data : List UInt8} (h : loaded.store address data m = .ok m') :
    loaded.Rewrites m m' := by
  unfold LoadedImage.store at h
  split at h
  · rename_i hin
    cases h
    exact ⟨write_eq .., confines_write (fun _ _ ↦ rfl) hin.1 hin.2⟩
  · cases h

end LoadedImage.Rewrites

open LoadedImage

theorem Occupied.rewrites {gs : List ℕ} (h : Occupied m₀ m loaded.base gs)
    (hpages : loaded.pages = gs.length) (hw : loaded.Rewrites m m') :
    Occupied m₀ m' loaded.base gs := by
  rw [hw.1]
  refine h.write fun p hp ↦ hw.2 p fun a ⟨ha, ha'⟩ heq ↦ ?_
  rw [hpages] at ha'
  obtain ⟨g, hg, hf⟩ := h.frameAt ha ha'
  rw [translate_of_frameAt h.holding.wf hf] at heq
  have hgp : p / pageSize = g := by
    rw [← heq]
    unfold pageSize
    omega
  exact hp (hgp ▸ mem_of_getElem? hg)

section Hosts

variable {v : Vmalloc} {gs : List ℕ}

theorem Hosts.rewrites (h : Hosts m m' loaded v gs) (hw : loaded.Rewrites m' m'') :
    Hosts m m'' loaded v gs :=
  ⟨h.reserved, h.low, h.high, h.count, h.free, h.occupied.rewrites h.count hw⟩

end Hosts

section Place

/-- What is known of the placements once some of the sections have been laid out. -/
structure Placed (s : Sections) (loaded loaded' : LoadedImage) (done : List ℕ) : Prop where
  base : loaded'.base = loaded.base
  pages : loaded'.pages = loaded.pages
  read : ∀ i ∈ done, ∃ size, s.toPlace i = .ok size
  inside : ∀ i ∈ done, ∀ size, s.toPlace i = .ok (some size) → loaded.base ≤ (loaded'.placement i).address ∧
      (loaded'.placement i).address + size ≤ loaded.base + loaded.pages * pageSize
  outside : ∀ i, (i ∈ done → s.toPlace i = .ok none) → loaded'.placement i = loaded.placement i

theorem length_sectionData {i size : ℕ} {data : List UInt8} (h : sectionData s i size = .ok data) :
    data.length = size := by
  obtain ⟨type, -, h⟩ := bind_eq_ok.mp h
  split at h
  · cases h
    exact length_replicate
  · obtain ⟨offset, -, h⟩ := bind_eq_ok.mp h
    exact length_slice h

theorem placeSection_spec {done : List ℕ} {cursor cursor' i : ℕ}
    (h : Placed s loaded loaded' done) (hw : loaded.Rewrites m m') {loaded'' : LoadedImage}
    (hstep : placeSection s (loaded', cursor, m') i = .ok (loaded'', cursor', m'')) :
    Placed s loaded loaded'' (done ++ [i]) ∧ loaded.Rewrites m m'' := by
  obtain ⟨size, hsize, hstep⟩ := bind_eq_ok.mp hstep
  have hread : ∀ j ∈ done ++ [i], ∃ size, s.toPlace j = .ok size := by
    intro j hj
    rcases mem_append.mp hj with hj | hj
    · exact h.read j hj
    · exact ⟨size, mem_singleton.mp hj ▸ hsize⟩
  cases size with
  | none =>
    cases hstep
    refine ⟨⟨h.base, h.pages, hread, fun j hj size hp ↦ ?_, fun j hj ↦ h.outside j fun hd ↦ hj ?_⟩, hw⟩
    · rcases mem_append.mp hj with hj | hj
      · exact h.inside j hj size hp
      · rw [mem_singleton.mp hj, hsize] at hp
        cases hp
    · exact mem_append_left _ hd
  | some size =>
    obtain ⟨flags, -, hstep⟩ := bind_eq_ok.mp hstep
    obtain ⟨data, hdata, hstep⟩ := bind_eq_ok.mp hstep
    obtain ⟨m₁, hstore, hstep⟩ := bind_eq_ok.mp hstep
    cases hstep
    have hlen := length_sectionData hdata
    have hin := hstore
    unfold LoadedImage.store at hin
    split at hin
    · rename_i hrange
      rw [h.base, h.pages, hlen] at hrange
      refine ⟨⟨h.base, h.pages, hread, fun j hj size' hp ↦ ?_, fun j hj ↦ ?_⟩,
        hw.trans ((Rewrites.store hstore).congr h.base.symm h.pages.symm)⟩
      · simp only [place, Function.update_apply]
        split
        · rename_i hji
          rw [hji, hsize] at hp
          cases hp
          rw [h.base]
          exact hrange
        · rename_i hji
          rcases mem_append.mp hj with hj | hj
          · exact h.inside j hj size' hp
          · exact absurd (mem_singleton.mp hj) hji
      · have hji : j ≠ i := by
          rintro rfl
          have hnone := hj (mem_append_right _ mem_cons_self)
          rw [hsize] at hnone
          cases hnone
        have hkeep := h.outside j fun hd ↦ hj (mem_append_left _ hd)
        exact (Function.update_of_ne hji _ _).trans hkeep
    · cases hin

theorem placeSections_spec {cursor : ℕ} (h : placeSections s loaded m = .ok (loaded', cursor, m')) :
    Placed s loaded loaded' (List.range s.count) ∧ loaded.Rewrites m m' :=
  foldlM_induction (fun done st ↦ Placed s loaded st.1 done ∧ loaded.Rewrites m st.2.2)
    (fun _ _ _ _ _ hst hstep ↦ placeSection_spec hst.1 hst.2 hstep)
    ⟨⟨rfl, rfl, nofun, nofun, fun _ _ ↦ rfl⟩, .refl loaded m⟩ h

end Place

def Refusal.Relocating : Refusal → Prop
  | .unresolved | .nothingExports _ | .doesNotReach | .doesNotFit | .typeNotHandled _ => True
  | _ => False

section Phases

variable {exports : Symbols} {code : Code} {r : Option Refusal}

theorem symbolAddress_error {symbols strings index : ℕ} {e : Refusal}
    (h : symbolAddress s loaded exports m symbols strings index = .ok (.error e)) : e.Relocating := by
  obtain ⟨table, -, h⟩ := bind_eq_ok.mp h
  obtain ⟨size, -, h⟩ := bind_eq_ok.mp h
  split at h
  · cases h
    trivial
  · obtain ⟨section', -, h⟩ := bind_eq_ok.mp h
    split at h
    · obtain ⟨names, -, h⟩ := bind_eq_ok.mp h
      obtain ⟨offset, -, h⟩ := bind_eq_ok.mp h
      obtain ⟨name, -, h⟩ := bind_eq_ok.mp h
      obtain ⟨address, -, h⟩ := bind_eq_ok.mp h
      split at h
      · cases h
        trivial
      · cases h
    · split at h
      · cases h
        trivial
      · obtain ⟨value, -, h⟩ := bind_eq_ok.mp h
        cases h

theorem relocate_error {symbol addend place : ℕ} {type : RelocationType} {e : Refusal}
    (h : relocate symbol addend place type = .error e) : e.Relocating := by
  cases type <;> simp only [relocate] at h <;> (try split at h) <;> cases h <;> trivial

theorem applyEntry_rewrites {target symbols strings entry : ℕ}
    (h : applyEntry s loaded exports target symbols strings m entry = .ok (m', r)) :
    loaded.Rewrites m m' ∧ ∀ e ∈ r, e.Relocating := by
  obtain ⟨info, -, h⟩ := bind_eq_ok.mp h
  obtain ⟨symbol, hsymbol, h⟩ := bind_eq_ok.mp h
  split at h
  · cases h
    exact ⟨.refl loaded _, fun e he ↦ Option.some.inj he ▸ symbolAddress_error hsymbol⟩
  · obtain ⟨address, -, h⟩ := bind_eq_ok.mp h
    obtain ⟨offset, -, h⟩ := bind_eq_ok.mp h
    obtain ⟨addend, -, h⟩ := bind_eq_ok.mp h
    split at h
    · cases h
      exact ⟨.refl loaded _, fun e he ↦ Option.some.inj he ▸ trivial⟩
    · simp only at h
      split at h
      · rename_i hrelocate
        cases h
        exact ⟨.refl loaded _, fun e he ↦ Option.some.inj he ▸ relocate_error hrelocate⟩
      · obtain ⟨m₁, hstore, h⟩ := bind_eq_ok.mp h
        cases h
        exact ⟨.store hstore, nofun⟩

theorem applyEntries_rewrites {target symbols strings left entry : ℕ}
    (h : applyEntries s loaded exports target symbols strings left entry m = .ok (m', r)) :
    loaded.Rewrites m m' ∧ ∀ e ∈ r, e.Relocating := by
  induction left generalizing entry m with
  | zero =>
    cases h
    exact ⟨.refl loaded _, nofun⟩
  | succ left ih =>
    obtain ⟨⟨m₁, r₁⟩, hentry, h⟩ := bind_eq_ok.mp h
    cases r₁ with
    | none => exact ⟨(applyEntry_rewrites hentry).1.trans (ih h).1, (ih h).2⟩
    | some e =>
      cases h
      exact applyEntry_rewrites hentry

theorem applySection_rewrites {i : ℕ} (h : applySection s loaded exports m i = .ok (m', r)) :
    loaded.Rewrites m m' ∧ ∀ e ∈ r, e.Relocating := by
  obtain ⟨type, -, h⟩ := bind_eq_ok.mp h
  split at h
  · cases h
    exact ⟨.refl loaded _, nofun⟩
  · obtain ⟨target, -, h⟩ := bind_eq_ok.mp h
    obtain ⟨allocated, -, h⟩ := bind_eq_ok.mp h
    split at h
    · cases h
      exact ⟨.refl loaded _, nofun⟩
    · obtain ⟨symbols, -, h⟩ := bind_eq_ok.mp h
      obtain ⟨strings, -, h⟩ := bind_eq_ok.mp h
      obtain ⟨entries, -, h⟩ := bind_eq_ok.mp h
      obtain ⟨size, -, h⟩ := bind_eq_ok.mp h
      exact applyEntries_rewrites h

theorem applySections_rewrites {is : List ℕ}
    (h : applySections s loaded exports is m = .ok (m', r)) :
    loaded.Rewrites m m' ∧ ∀ e ∈ r, e.Relocating := by
  induction is generalizing m with
  | nil =>
    cases h
    exact ⟨.refl loaded _, nofun⟩
  | cons i is ih =>
    obtain ⟨⟨m₁, r₁⟩, hsection, h⟩ := bind_eq_ok.mp h
    cases r₁ with
    | none => exact ⟨(applySection_rewrites hsection).1.trans (ih h).1, (ih h).2⟩
    | some e =>
      cases h
      exact applySection_rewrites hsection

theorem callConstructor_rewrites {pointer : ℕ} (h : callConstructor code loaded m pointer = .ok m') :
    loaded.Rewrites m m' := by
  obtain ⟨entry, -, h⟩ := bind_eq_ok.mp h
  split at h
  · cases h
    exact .refl loaded _
  · split at h
    · cases h
      exact ⟨rfl, fun p hp ↦ code.confined _ _ _ m p fun a ha ha' ↦ hp a ⟨ha, ha'⟩⟩
    · cases h

theorem callConstructors_rewrites {left pointer : ℕ}
    (h : callConstructors code loaded left pointer m = .ok m') : loaded.Rewrites m m' := by
  induction left generalizing pointer m with
  | zero =>
    cases h
    exact .refl loaded _
  | succ left ih =>
    obtain ⟨m₁, hcall, h⟩ := bind_eq_ok.mp h
    exact (callConstructor_rewrites hcall).trans (ih h)

theorem runConstructors_rewrites (h : runConstructors code s loaded m = .ok m') :
    loaded.Rewrites m m' := by
  refine foldlM_induction (fun _ m₁ ↦ loaded.Rewrites m m₁) (fun _ m₁ i _ m₂ hm₁ hstep ↦ ?_)
    (.refl loaded m) h
  obtain ⟨has, -, hstep⟩ := bind_eq_ok.mp hstep
  split at hstep
  · obtain ⟨size, -, hstep⟩ := bind_eq_ok.mp hstep
    exact hm₁.trans (callConstructors_rewrites hstep)
  · cases hstep
    exact hm₁

theorem protect_spec (hm : m.Wf) (a length : ℕ) (flags : PageFlags) :
    Grow m (m.protect a length flags).1 ∧ ∀ b, (m.protect a length flags).1.frameAt b = m.frameAt b := by
  obtain ⟨m', ok, heq, hgrow, hleaf⟩ := protectPages_spec hm flags (pagesOf length) a
  rw [protect, heq]
  refine ⟨hgrow, fun b ↦ ?_⟩
  rw [frameAt, frameAt, (hleaf b).1, (hleaf b).2]

theorem applyProtections_spec {a : ℕ} {gs : List ℕ} (h : Occupied m₀ m a gs)
    (hp : applyProtections s loaded m = .ok m') : Occupied m₀ m' a gs := by
  refine foldlM_induction (fun _ m₁ ↦ Occupied m₀ m₁ a gs) (fun _ m₁ i _ m₂ hm₁ hstep ↦ ?_) h hp
  obtain ⟨size, -, hstep⟩ := bind_eq_ok.mp hstep
  cases size with
  | none =>
    cases hstep
    exact hm₁
  | some size =>
    cases hstep
    have hspec := protect_spec hm₁.holding.wf
    exact hm₁.grow (hspec _ _ _).1 (hspec _ _ _).2

end Phases

end Eris.Loader
