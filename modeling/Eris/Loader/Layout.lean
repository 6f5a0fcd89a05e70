import Eris.Loader.Bounds

namespace Eris.Loader

open Library.Outcome Mm Mm.Memory List

variable {s : Sections} {i j : ℕ}

namespace Sections

def allocatedSize (s : Sections) (i : ℕ) : ℕ :=
  match s.toPlace i with
  | .ok (some size) => size
  | _ => 0

/-- A file that passes the checks of the loader, with the table and the contents of its sections inside it. -/
structure Inside (s : Sections) : Prop where
  sane : headerLooksSane s.header s.image.length = true
  count : s.count ≤ maxSections
  table : s.header.sectionHeaderOffset + s.count * sectionHeaderSize < 2 ^ 64
  contents : ∀ i < s.count, ∀ offset size, s.offset i = .ok offset → s.toPlace i = .ok (some size) →
    s.type i ≠ .ok sectionNobits → offset + size ≤ s.image.length
  sizes : ((range s.count).map s.allocatedSize).sum < 2 ^ 40

theorem start_le (s : Sections) (n : ℕ) : s.start n ≤ ((range n).map s.allocatedSize).sum + n * pageSize := by
  induction n with
  | zero => exact Nat.zero_le _
  | succ n ih =>
    have hextent : s.extent n ≤ s.allocatedSize n + pageSize := by
      rcases hsize : s.toPlace n with _ | _ | size <;> simp only [extent, allocatedSize, hsize]
      · exact Nat.zero_le _
      · exact Nat.zero_le _
      · exact (Nat.div_mul_le_self _ _).trans (Nat.add_le_add_left (Nat.sub_le _ _) size)
    rw [start, range_succ, map_append, sum_append, map_singleton, sum_singleton, Nat.add_mul]
    omega

namespace Inside

theorem layout (h : s.Inside) : s.start s.count < 2 ^ 64 := by
  have hle := start_le s s.count
  have hcount := Nat.mul_le_mul_right pageSize h.count
  have hsizes := h.sizes
  unfold maxSections pageSize at *
  omega

theorem sectionData_eq (h : s.Inside) (hi : i < s.count) {size : ℕ} (hsize : s.toPlace i = .ok (some size)) :
    ∃ type offset, s.type i = .ok type ∧ s.offset i = .ok offset ∧ sectionData s i size =
      .ok (if type = sectionNobits then replicate size 0 else (s.image.drop offset).take size) := by
  obtain ⟨type, htype⟩ : ∃ n, s.type i = .ok n := field_ok h.sane h.table hi (by decide)
  obtain ⟨offset, hoffset⟩ : ∃ n, s.offset i = .ok n := field_ok h.sane h.table hi (by decide)
  refine ⟨type, offset, htype, hoffset, ?_⟩
  rw [sectionData, htype]
  dsimp only [Bind.bind, Except.bind]
  by_cases hnobits : type = sectionNobits
  · rw [if_pos hnobits, if_pos hnobits]
    rfl
  · have hmod : offset % 2 ^ 64 = offset := Nat.mod_eq_of_lt (word_lt hoffset)
    have hend : offset % 2 ^ 64 + size ≤ s.image.length := by
      rw [hmod]
      refine h.contents i hi offset size hoffset hsize fun heq ↦ hnobits ?_
      exact Except.ok.inj (htype.symm.trans heq)
    rw [if_neg hnobits, if_neg hnobits, hoffset]
    dsimp only
    rw [Image.slice, if_pos hend, hmod]

end Inside

end Sections

theorem Filled.readBytes {m m' : Memory} {loaded : LoadedImage} {n size : ℕ} {data : List UInt8}
    (h : Filled s loaded m m' n) (hb : loaded.Backed m) (hi : i < n) (hsize : s.toPlace i = .ok (some size))
    (hend : s.start i + size ≤ loaded.pages * pageSize) (hdata : sectionData s i size = .ok data) :
    m'.readBytes size (loaded.base + s.start i) = .ok data := by
  have htranslate : ∀ a, m'.translate a = m.translate a := fun a ↦ by rw [h.others, translate_bytes]
  have hlength := length_sectionData hdata
  rw [readBytes_of_mapped fun c hc hlt ↦ ?_]
  · refine congrArg _ (ext_getElem (by simp [hlength]) fun j hj hj' ↦ ?_)
    rw [getElem_map, getElem_range, htranslate]
    exact h.bytes i hi size data hsize hdata j _ (getElem?_eq_getElem hj')
  · rw [htranslate]
    exact hb.mapped c ⟨by omega, by omega⟩

/-- The sections are placed page by page as the first loop counted them, each with its own pages and contents. -/
theorem placeSections_layout (h : s.Inside) {m : Memory} (hm : m.Orderly) :
    ∃ total, totalSize s = .ok total ∧ ∀ m₀ loaded, allocateImage total m = (m₀, some loaded) →
      ∃ loaded' m₁, placeSections s loaded m₀ = .ok (loaded', total, m₁) ∧
        (∀ i < s.count, ∀ size, s.toPlace i = .ok (some size) → (loaded'.placement i).address % pageSize = 0 ∧
          loaded.base ≤ (loaded'.placement i).address ∧
          (loaded'.placement i).address + size ≤ loaded.base + loaded.pages * pageSize ∧
          ∃ type offset, s.type i = .ok type ∧ s.offset i = .ok offset ∧
            m₁.readBytes size (loaded'.placement i).address =
              .ok (if type = sectionNobits then replicate size 0 else (s.image.drop offset).take size)) ∧
        ∀ i < s.count, ∀ j < s.count, i ≠ j → ∀ size size', s.toPlace i = .ok (some size) →
          s.toPlace j = .ok (some size') → ∀ k < size, ∀ l < size',
            ((loaded'.placement i).address + k) / pageSize ≠ ((loaded'.placement j).address + l) / pageSize := by
  refine ⟨_, totalSize_eq h.sane h.table h.layout, fun m₀ loaded halloc ↦ ?_⟩
  obtain ⟨⟨v, gs, hh⟩, -⟩ := allocateImage_some hm halloc
  have hpages := pages_of_allocateImage h.layout halloc
  have hbacked := hh.occupied.backed rfl hh.count
  obtain ⟨loaded', m₁, hplace, hlaid, hfilled⟩ := placeSections_ok h.sane h.table h.layout (fun i hi size hsize ↦ by
    obtain ⟨type, offset, -, -, hdata⟩ := h.sectionData_eq hi hsize
    exact ⟨_, hdata⟩) hpages (hh.high.trans (by decide)) m₀
  have hat : ∀ i < s.count, ∀ size, s.toPlace i = .ok (some size) →
      (loaded'.placement i).address = loaded.base + s.start i ∧ size ≤ s.extent i := by
    intro i hi size hsize
    have hfits := (roundUpPages_eq hsize hi h.layout).2
    exact ⟨hlaid.address i hi ((Nat.pos_of_ne_zero (size_of_toPlace hsize).2).trans_le hfits), hfits⟩
  have haligned := hh.occupied.aligned
  refine ⟨loaded', m₁, hplace, fun i hi size hsize ↦ ?_, fun i hi j hj hne size size' hsize hsize' k hk l hl ↦ ?_⟩
  · obtain ⟨haddress, hfits⟩ := hat i hi size hsize
    have hnext : s.start i + s.extent i ≤ s.start s.count := start_mono hi
    obtain ⟨type, offset, htype, hoffset, hdata⟩ := h.sectionData_eq hi hsize
    rw [haddress]
    refine ⟨?_, Nat.le_add_right _ _, by omega, type, offset, htype, hoffset, ?_⟩
    · rw [Nat.add_mod, haligned, start_mod]
      rfl
    · exact (hfilled hbacked).readBytes hbacked hi hsize (by omega) hdata
  · obtain ⟨haddress, hfits⟩ := hat i hi size hsize
    obtain ⟨haddress', hfits'⟩ := hat j hj size' hsize'
    have hmod := start_mod s i
    have hmod' := start_mod s j
    rw [haddress, haddress']
    unfold pageSize at *
    obtain hlt | hlt := Nat.lt_or_gt_of_ne hne
    · have hnext : s.start i + s.extent i ≤ s.start j := start_mono hlt
      omega
    · have hnext : s.start j + s.extent j ≤ s.start i := start_mono hlt
      omega

theorem placeSections_layout_relocating : ∃ m₀ loaded loaded' m₁,
    allocateImage pageSize (blankMemory (· < 2)) = (m₀, some loaded) ∧
      placeSections relocatingSections loaded m₀ = .ok (loaded', pageSize, m₁) ∧
      m₁.readBytes 8 (loaded'.placement 1).address = .ok (replicate 8 0) := by
  have hplaced : ∀ i < 5, i ≠ 1 → relocatingSections.toPlace i = .ok none := by decide +kernel
  have hdata : relocatingSections.offset 1 = .ok 384 ∧ relocatingSections.toPlace 1 = .ok (some 8) := by decide +kernel
  have hinside : relocatingSections.Inside := by
    refine ⟨by decide +kernel, by decide +kernel, by decide +kernel, fun i hi offset size hoffset hsize _ ↦ ?_,
      by decide +kernel⟩
    obtain rfl : i = 1 := by
      by_contra hne
      rw [hplaced i hi hne] at hsize
      cases hsize
    rw [hdata.1] at hoffset
    rw [hdata.2] at hsize
    cases hoffset
    cases hsize
    decide +kernel
  have htotal : totalSize relocatingSections = .ok pageSize := by decide +kernel
  obtain ⟨total, htotal', hall⟩ := placeSections_layout hinside (m := blankMemory (· < 2)) (blank_orderly rfl rfl)
  obtain rfl := Except.ok.inj (htotal.symm.trans htotal')
  have hsome : (allocateImage pageSize (blankMemory (· < 2))).2.isSome = true := by decide +kernel
  obtain ⟨loaded, hloaded⟩ := Option.isSome_iff_exists.mp hsome
  obtain ⟨loaded', m₁, hplace, hsections, -⟩ := hall _ loaded (Prod.ext rfl hloaded)
  obtain ⟨-, -, -, type, offset, htype, hoffset, hread⟩ := hsections 1 (by decide) 8 hdata.2
  obtain rfl := Except.ok.inj (hdata.1.symm.trans hoffset)
  refine ⟨_, loaded, loaded', m₁, Prod.ext rfl hloaded, hplace, hread.trans ?_⟩
  have hzeros : (relocatingSections.image.drop 384).take 8 = replicate 8 0 := by decide +kernel
  rw [hzeros, ite_self]

end Eris.Loader
