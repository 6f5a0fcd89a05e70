import Eris.Proc.Process

namespace Eris.Proc

open Mm Mm.Memory Finset

def free (m : Memory) : ℕ := ((Finset.range managedPages).filter fun f ↦ m.frames.bitmap f = false).card

variable {m m' : Memory} {ps : List ℕ} {r a : ℕ} {process : Process} {flags : PageFlags} {program : Program}

theorem free_le (h : ∀ f, m.frames.bitmap f = true → m'.frames.bitmap f = true) : free m' ≤ free m := by
  refine card_le_card fun f hf ↦ ?_
  simp only [mem_filter, mem_range] at hf ⊢
  refine ⟨hf.1, ?_⟩
  by_contra hused
  rw [h f (by simpa using hused)] at hf
  cases hf.2

theorem free_lt {g : ℕ} (h : ∀ f, m.frames.bitmap f = true → m'.frames.bitmap f = true) (hg : g < managedPages)
    (hfree : m.frames.bitmap g = false) (hused : m'.frames.bitmap g = true) : free m' < free m := by
  refine card_lt_card (ssubset_iff_of_subset (fun f hf ↦ ?_) |>.mpr ⟨g, ?_, ?_⟩)
  · simp only [mem_filter, mem_range] at hf ⊢
    refine ⟨hf.1, ?_⟩
    by_contra hused
    rw [h f (by simpa using hused)] at hf
    cases hf.2
  · simp [hg, hfree]
  · simp [hused]

/-- Only one process may have changed, and frames were only taken. -/
structure Quiet (m m' : Memory) (ps : List ℕ) (r : ℕ) : Prop where
  root : m'.root = m.root
  used : ∀ f, m.frames.bitmap f = true → m'.frames.bitmap f = true
  kernel : Kept m m'
  others : ∀ r' ∈ ps, r' ≠ r → Kept (m.under r') (m'.under r')

theorem Quiet.refl (m : Memory) (ps : List ℕ) (r : ℕ) : Quiet m m ps r :=
  ⟨rfl, fun _ ↦ id, .refl m, fun _ _ _ ↦ .refl _⟩

theorem Quiet.trans {m'' : Memory} (h : Quiet m m' ps r) (h' : Quiet m' m'' ps r) : Quiet m m'' ps r where
  root := h'.root.trans h.root
  used f hf := h'.used f (h.used f hf)
  kernel := h.kernel.trans h'.kernel
  others r' hr' hne := (h.others r' hr' hne).trans (h'.others r' hr' hne)

theorem Quiet.of_eq {r' : ℕ} (h : Quiet m m' ps r) (he : r = r') : Quiet m m' ps r' := he ▸ h

theorem Quiet.of_kept (hroot : m'.root = m.root) (hused : ∀ f, m.frames.bitmap f = true → m'.frames.bitmap f = true)
    (h : ∀ r ∈ m.root :: ps, Kept (m.under r) (m'.under r)) : Quiet m m' ps r where
  root := hroot
  used := hused
  kernel := by
    have hk := h m.root List.mem_cons_self
    rwa [under_self, ← hroot, under_self] at hk
  others r' hr' _ := h r' (List.mem_cons_of_mem _ hr')

theorem within_spec (h : Spaces m ps) (hr : r ∈ ps) (c : Call) (hc : ∀ a ∈ c.span, indexOf a 3 ≠ 0)
    (hdata : ∀ a, indexOf a 3 ≠ 0 → ((c.run (m.under r)).1.leaf a).present = true →
      m.Data ps ((c.run (m.under r)).1.leaf a).frame) :
    Spaces (within r c.run m).1 ps ∧ Quiet m (within r c.run m).1 ps r := by
  obtain ⟨done, hdone⟩ := c.run_spec (h.view r hr)
  obtain ⟨hspaces, hkernel, hothers⟩ := h.process hr hdone.edit hc hdata
  exact ⟨hspaces, rfl, hdone.edit.grow.used, hkernel, hothers⟩

/-- A round of `map_fresh` with a frame. -/
def mapPage (r : ℕ) (flags : PageFlags) (address g : ℕ) (m : Memory) : Memory × Bool :=
  within r (Call.map address (g * pageSize) pageSize flags).run (clearFrame g { m with frames := m.frames.markUsed g })

section

variable {g address : ℕ} (hg : g < managedPages)

theorem mapFresh_succ (hlow : m.frames.bitmap 0 = true) (flags : PageFlags) (left address : ℕ) (process : Process) :
    mapFresh flags (left + 1) address m process = (m, process, false) ∨
    ∃ g < managedPages, g ≠ 0 ∧ m.frames.bitmap g = false ∧ mapFresh flags (left + 1) address m process =
      match mapPage process.root flags address g m with
      | (m', false) => (m', process, false)
      | (m', true) => mapFresh flags left (address + pageSize) m' { process with pageCount := process.pageCount + 1 } := by
  rw [mapFresh]
  rcases allocPage_cases hlow with ⟨hnone, -⟩ | ⟨g, hg, hg0, hfree, hsome⟩
  · exact .inl (by simp [hnone])
  · refine .inr ⟨g, hg, hg0, hfree, ?_⟩
    have hpage : g * pageSize ≠ 0 := Nat.mul_ne_zero hg0 (by decide)
    simp only [hsome, hpage, if_false, Nat.mul_div_cancel g (show 0 < pageSize by decide)]
    rfl

theorem pages_page {frame : ℕ} : pagesOf (Call.map address frame pageSize flags).length = 1 := by
  rw [Call.length]
  rfl

theorem page_span {frame : ℕ} (haddress : indexOf address 3 ≠ 0) :
    ∀ a ∈ (Call.map address frame pageSize flags).span, indexOf a 3 ≠ 0 := by
  rintro a ⟨k, hk, rfl⟩
  rw [pages_page] at hk
  obtain rfl : k = 0 := by omega
  simpa [Call.address] using haddress

include hg

theorem used_markUsed (f : ℕ) (hf : m.frames.bitmap f = true) : (m.frames.markUsed g).bitmap f = true := by
  rw [Frames.bitmap_markUsed hg, Function.update_apply, hf, ite_self]

theorem frame_of_page : (g * pageSize + 0 * pageSize) / pageSize % 2 ^ 40 = g := by
  rw [Nat.zero_mul, Nat.add_zero, Nat.mul_div_cancel g (by decide)]
  exact Nat.mod_eq_of_lt (lt_trans hg (by decide))

theorem mapPage_spec (h : Spaces m ps) (hr : r ∈ ps) (flags : PageFlags) (hfree : m.frames.bitmap g = false)
    (haddress : indexOf address 3 ≠ 0) :
    Spaces (mapPage r flags address g m).1 ps ∧ Quiet m (mapPage r flags address g m).1 ps r ∧
      free (mapPage r flags address g m).1 < free m := by
  rw [mapPage]
  set m₂ := clearFrame g { m with frames := m.frames.markUsed g } with hm₂
  obtain ⟨hspaces₁, hkept₁, hdata₁, -⟩ := h.alloc hg hfree
  obtain ⟨hspaces₂, hkept₂, htable₂⟩ := hspaces₁.write hdata₁ (show m₂.root = m.root from rfl) rfl fun f hf ↦ entry_clearFrame hf
  have hdata₂ : m₂.Data ps g := ⟨hdata₁.1, fun ht ↦ hdata₁.2 (htable₂ g ht)⟩
  have hquiet₁ : Quiet m { m with frames := m.frames.markUsed g } ps r := .of_kept rfl (used_markUsed hg) hkept₁
  have hquiet₂ : Quiet m m₂ ps r := hquiet₁.trans (.of_kept rfl (fun _ ↦ id) hkept₂)
  obtain ⟨hspaces, hquiet⟩ := within_spec hspaces₂ hr (.map address (g * pageSize) pageSize flags)
    (page_span haddress) fun a ha ↦ by
    obtain ⟨done, hdone⟩ := (Call.map address (g * pageSize) pageSize flags).run_spec (hspaces₂.view r hr)
    intro hpres
    by_cases hW : pageOf a ∈ Set.image pageOf (span address done)
    · obtain ⟨k, hk, -, e, he⟩ := hdone.written a hW
      have hone := hdone.le
      rw [pages_page] at hone
      obtain rfl : k = 0 := by omega
      rw [← Option.some.inj he]
      simp only [encode, frame_of_page hg]
      exact hdata₂
    · rcases hdone.edit.leaf a hW with he | ⟨-, -, he⟩
      · rw [he] at hpres ⊢
        exact hspaces₂.data r hr a ha hpres
      · rw [he] at hpres ⊢
        exact hspaces₂.data r hr a ha hpres
  refine ⟨hspaces, hquiet₂.trans hquiet, ?_⟩
  exact free_lt (fun f hf ↦ hquiet.used f (hquiet₂.used f hf)) hg hfree (hquiet.used g hdata₂.1)

end

theorem mapFresh_spec (h : Spaces m ps) (hr : process.root ∈ ps) (flags : PageFlags) (left address : ℕ)
    (haddress : ∀ k < left, k < free m → indexOf (address + k * pageSize) 3 ≠ 0) :
    ∃ m' process' ok, mapFresh flags left address m process = (m', process', ok) ∧ Spaces m' ps ∧
      Quiet m m' ps process.root ∧ process'.root = process.root ∧ (ok = true → left ≤ free m) := by
  induction left generalizing m address process with
  | zero => exact ⟨m, process, true, rfl, h, .refl m ps _, rfl, fun _ ↦ Nat.zero_le _⟩
  | succ left ih =>
    rcases mapFresh_succ h.wf.low flags left address process with hnone | ⟨g, hg, -, hfree, hsome⟩
    · exact ⟨m, process, false, hnone, h, .refl m ps _, rfl, nofun⟩
    · have hpos : 0 < free m := card_pos.mpr ⟨g, by simp [hg, hfree]⟩
      have hhere := haddress 0 (by omega) hpos
      rw [Nat.zero_mul, Nat.add_zero] at hhere
      obtain ⟨hspaces, hquiet, hlt⟩ := mapPage_spec hg h hr flags hfree hhere
      rw [hsome]
      rcases hout : mapPage process.root flags address g m with ⟨m₃, _ | _⟩
      all_goals rw [hout] at hspaces hquiet hlt
      · exact ⟨m₃, process, false, rfl, hspaces, hquiet, rfl, nofun⟩
      · obtain ⟨m', process', ok, hrun, hspaces', hquiet', hroot', hle⟩ :=
          ih hspaces (show ({ process with pageCount := process.pageCount + 1 } : Process).root ∈ ps from hr)
            (address + pageSize) fun k hk hfree' ↦ by
              have hnext := haddress (k + 1) (by omega) (lt_of_le_of_lt hfree' hlt)
              rwa [show address + (k + 1) * pageSize = address + pageSize + k * pageSize by ring] at hnext
        refine ⟨m', process', ok, hrun, hspaces', hquiet.trans hquiet', hroot', fun hok ↦ ?_⟩
        exact lt_of_le_of_lt (hle hok) hlt

theorem copyByte_spec (h : Spaces m ps) (hr : r ∈ ps) (ha : indexOf a 3 ≠ 0) (hne : (m.under r).translate a ≠ 0)
    (v : UInt8) :
    Spaces (m.store ((m.under r).translate a) v) ps ∧
      (∀ r' ∈ m.root :: ps, Kept (m.under r') ((m.store ((m.under r).translate a) v).under r')) ∧
      ∃ t, (m.under r).tableAt 3 (pathTo a 3) = some t := by
  have htrans := translate_eq (h.view r hr) a
  by_cases hpres : ((m.under r).leaf a).present
  · rw [if_pos hpres] at htrans
    have hframe : (m.under r).translate a / pageSize = ((m.under r).leaf a).frame := by
      rw [htrans]
      unfold pageSize
      omega
    have hdata := h.data r hr a ha hpres
    rw [← hframe] at hdata
    obtain ⟨hspaces, hkept, -⟩ := h.write hdata (show (m.store ((m.under r).translate a) v).root = m.root from rfl) rfl
      fun f hf ↦ entry_store v hf
    refine ⟨hspaces, hkept, ?_⟩
    rw [leaf_eq, if_neg (h.small r hr a ha)] at hpres
    cases ht : (m.under r).tableAt 3 (pathTo a 3) with
    | none =>
      rw [onPath_of_none ht] at hpres
      cases hpres
    | some t => exact ⟨t, rfl⟩
  · rw [if_neg hpres] at htrans
    exact absurd htrans hne

theorem copyBytes_spec (program : Program) (h : Spaces m ps) (hr : r ∈ ps) (left source address : ℕ)
    (hsafe : ∀ j < left, (∀ i < j, indexOf (address + i) 3 ≠ 0 ∧
        ∃ t, (m.under r).tableAt 3 (pathTo (address + i) 3) = some t) →
      indexOf (address + j) 3 ≠ 0 ∨ (m.under r).translate (address + j) = 0) :
    ∃ m' ok, copyBytes program r left source address m = (m', ok) ∧ Spaces m' ps ∧ m'.root = m.root ∧
      m'.frames = m.frames ∧ ∀ r' ∈ m.root :: ps, Kept (m.under r') (m'.under r') := by
  induction left generalizing m source address with
  | zero => exact ⟨m, true, rfl, h, rfl, rfl, fun _ _ ↦ .refl _⟩
  | succ left ih =>
    rw [copyBytes]
    by_cases hzero : (m.under r).translate address = 0
    · exact ⟨m, false, by simp only [hzero, if_true], h, rfl, rfl, fun _ _ ↦ .refl _⟩
    · have ha : indexOf address 3 ≠ 0 := (hsafe 0 (by omega) nofun).resolve_right hzero
      obtain ⟨hspaces, hkept, ht⟩ := copyByte_spec h hr ha hzero (program.bytes (source % 2 ^ 64))
      have hview := hkept r (List.mem_cons_of_mem _ hr)
      obtain ⟨m', ok, hrun, hspaces', hroot, hframes, hkept'⟩ :=
        ih hspaces (source + 1) (address + 1) fun j hj hreached ↦ by
          have hnext := hsafe (j + 1) (by omega) fun i hi ↦ by
            cases i with
            | zero => exact ⟨ha, ht⟩
            | succ i =>
              obtain ⟨hi', t, ht'⟩ := hreached i (by omega)
              rw [Nat.add_right_comm, Nat.add_assoc] at hi' ht'
              exact ⟨hi', t, (hview.tableAt le_rfl _).symm.trans ht'⟩
          rw [Nat.add_right_comm, Nat.add_assoc]
          exact hnext.imp_right (hview.translate _).trans
      refine ⟨m', ok, by simp only [hzero, if_false, hrun], hspaces', hroot, hframes, fun r' hr' ↦ ?_⟩
      exact (hkept r' hr').trans (hkept' r' hr')

theorem indexOf_three_ne_zero_iff : indexOf a 3 ≠ 0 ↔ userBase ≤ a % 2 ^ 48 := by
  unfold indexOf entriesPerTable userBase
  omega

theorem translate_mod (m : Memory) (h : a % 2 ^ 48 = 0) : m.translate a = m.translate 0 := by
  have hindex : ∀ level ≤ 3, indexOf a level = indexOf 0 level := by
    intro level hlevel
    unfold indexOf entriesPerTable
    interval_cases level <;> omega
  have hfrom : ∀ level ≤ 3, ∀ f, translateFrom a m level f = translateFrom 0 m level f := by
    intro level
    induction level with
    | zero =>
      intro _ f
      have ha : a % pageSize = 0 % pageSize := by
        unfold pageSize
        omega
      rw [translateFrom, translateFrom, hindex 0 (by omega), ha]
    | succ level ih =>
      intro hlevel f
      have ha : a % hugePageSize = 0 % hugePageSize := by
        unfold hugePageSize
        omega
      rw [translateFrom, translateFrom, hindex _ hlevel, ha, ih (by omega)]
  exact hfrom 3 le_rfl m.root

theorem safe_of_zero (h : Spaces m ps) (hr : r ∈ ps) (hzero : m.translate 0 = 0) {address : ℕ}
    (ha : indexOf address 3 ≠ 0) (j : ℕ) (hprev : ∀ i < j, indexOf (address + i) 3 ≠ 0) :
    indexOf (address + j) 3 ≠ 0 ∨ (m.under r).translate (address + j) = 0 := by
  cases j with
  | zero => exact .inl ha
  | succ j =>
    have hj := indexOf_three_ne_zero_iff.mp (hprev j (by omega))
    by_cases hnext : userBase ≤ (address + (j + 1)) % 2 ^ 48
    · exact .inl (indexOf_three_ne_zero_iff.mpr hnext)
    · refine .inr ?_
      have hwrap : (address + (j + 1)) % 2 ^ 48 = 0 := by
        omega
      have hshared := h.shared r hr
      rw [translate_mod _ hwrap]
      exact (translate_under_congr hshared).trans hzero

theorem safe_of_tables (h : Spaces m ps) (hr : r ∈ ps) {address j : ℕ}
    (hprev : ∀ i < j, ∃ t, (m.under r).tableAt 3 (pathTo (address + i) 3) = some t) : j < 2 ^ 40 := by
  have hcount : j / pageSize ≤ entriesPerTable * managedPages :=
    le_of_tables (h.view r hr) fun k hk ↦ hprev (k * pageSize) (by unfold pageSize at *; omega)
  unfold entriesPerTable managedPages pageSize at hcount
  omega

/-- The pages that a segment gets, as far as there are frames for them, lie in the user half, and so do
the bytes copied to it unless a copy stops at address 0. -/
def ProgramHeader.Confined (segment : ProgramHeader) (m : Memory) : Prop :=
  (∀ k < segment.pages, k < free m → userBase ≤ (segment.start + k * pageSize) % 2 ^ 48) ∧
    ((userBase ≤ segment.virtualAddress % 2 ^ 48 ∧ m.translate 0 = 0) ∨
      ∀ j < segment.fileSize, j < 2 ^ 40 → userBase ≤ (segment.virtualAddress + j) % 2 ^ 48)

def Program.Confined (program : Program) (m : Memory) : Prop :=
  ∀ i < program.programHeaderCount, (program.programHeader i).loads = true →
    (∀ j ≤ i, (program.programHeader j).loads = true → userBase ≤ (program.programHeader j).virtualAddress) →
    (program.programHeader i).Confined m

variable {segment : ProgramHeader}

theorem ProgramHeader.Confined.of_quiet (h : segment.Confined m) (hq : Quiet m m' ps r) :
    segment.Confined m' := by
  refine ⟨fun k hk hfree ↦ h.1 k hk (lt_of_lt_of_le hfree (free_le hq.used)), h.2.imp_left fun ⟨hv, hz⟩ ↦ ⟨hv, ?_⟩⟩
  rw [hq.kernel.translate]
  exact hz

theorem protect_data (h : Spaces m ps) (hr : r ∈ ps) (address length : ℕ) (flags : PageFlags)
    (ha : indexOf a 3 ≠ 0) (hpres : (((m.under r).protect address length flags).1.leaf a).present = true) :
    m.Data ps (((m.under r).protect address length flags).1.leaf a).frame := by
  obtain ⟨m₁, ok, heq, -, hleaf⟩ := protectPages_spec (h.view r hr) flags (pagesOf length) address
  rw [protect, heq] at hpres ⊢
  rw [(hleaf a).2]
  rw [(hleaf a).1] at hpres
  exact h.data r hr a ha hpres

theorem ProgramHeader.Confined.safe (hc : segment.Confined m) (h : Spaces m ps) (hr : r ∈ ps) (j : ℕ)
    (hj : j < segment.fileSize)
    (hprev : ∀ i < j, indexOf (segment.virtualAddress + i) 3 ≠ 0 ∧
      ∃ t, (m.under r).tableAt 3 (pathTo (segment.virtualAddress + i) 3) = some t) :
    indexOf (segment.virtualAddress + j) 3 ≠ 0 ∨ (m.under r).translate (segment.virtualAddress + j) = 0 := by
  rcases hc.2 with ⟨hv, hz⟩ | hall
  · exact safe_of_zero h hr hz (indexOf_three_ne_zero_iff.mpr hv) j fun i hi ↦ (hprev i hi).1
  · exact .inl (indexOf_three_ne_zero_iff.mpr (hall j hj (safe_of_tables h hr fun i hi ↦ (hprev i hi).2)))

theorem loadSegment_spec (program : Program) (h : Spaces m ps) (hr : process.root ∈ ps)
    (hc : userBase ≤ segment.virtualAddress → segment.Confined m) :
    ∃ m' process' ok, loadSegment program segment m process = (m', process', ok) ∧ Spaces m' ps ∧
      Quiet m m' ps process.root ∧ process'.root = process.root ∧ (ok = true → userBase ≤ segment.virtualAddress) := by
  unfold loadSegment
  by_cases hlow : segment.virtualAddress < userBase
  · exact ⟨m, process, false, if_pos hlow, h, .refl m ps _, rfl, nofun⟩
  · have hc := hc (Nat.le_of_not_lt hlow)
    obtain ⟨m₁, process₁, ok, hmap, h₁, hq₁, hroot₁, hle⟩ := mapFresh_spec h hr segment.mapFlags segment.pages
      segment.start fun k hk hfree ↦ indexOf_three_ne_zero_iff.mpr (hc.1 k hk hfree)
    rw [if_neg hlow, hmap]
    cases ok with
    | false => exact ⟨m₁, process₁, false, rfl, h₁, hq₁, hroot₁, nofun⟩
    | true =>
      have hr₁ := hroot₁ ▸ hr
      have hc₁ := hc.of_quiet hq₁
      obtain ⟨m₂, ok, hcopy, h₂, hmroot, hframes, hkept⟩ := copyBytes_spec program h₁ hr₁
        segment.fileSize segment.offset segment.virtualAddress fun j hj hprev ↦ hc₁.safe h₁ hr₁ j hj hprev
      have hq₂ := hq₁.trans (.of_kept hmroot (fun f hf ↦ by rwa [hframes]) hkept)
      simp only [hcopy]
      cases ok with
      | false => exact ⟨m₂, process₁, false, rfl, h₂, hq₂, hroot₁, nofun⟩
      | true =>
        by_cases hw : segment.writes
        · exact ⟨m₂, _, true, if_pos hw, h₂, hq₂, hroot₁, fun _ ↦ Nat.le_of_not_lt hlow⟩
        · obtain ⟨h₃, hq₃⟩ := within_spec h₂ hr₁
            (.protect segment.start (segment.pages * pageSize) segment.finalFlags) (by
              rintro a ⟨k, hk, rfl⟩
              have hpages : pagesOf (segment.pages * pageSize) = segment.pages := by
                unfold pagesOf pageSize
                omega
              have hk' := hpages ▸ hk
              exact indexOf_three_ne_zero_iff.mpr (hc.1 k hk' (lt_of_lt_of_le hk' (hle rfl))))
            fun a ha hpres ↦ protect_data h₂ hr₁ _ _ _ ha hpres
          exact ⟨_, _, true, if_neg hw, h₃, hq₂.trans (hq₃.of_eq hroot₁), hroot₁, fun _ ↦ Nat.le_of_not_lt hlow⟩

theorem loadSegments_spec (h : Spaces m ps) (hr : process.root ∈ ps) (left i : ℕ)
    (hc : ∀ k, i ≤ k → k < i + left → (program.programHeader k).loads = true →
      (∀ j, i ≤ j → j ≤ k → (program.programHeader j).loads = true →
        userBase ≤ (program.programHeader j).virtualAddress) → (program.programHeader k).Confined m) :
    ∃ m' process' ok, loadSegments program left i m process = (m', process', ok) ∧ Spaces m' ps ∧
      Quiet m m' ps process.root ∧ process'.root = process.root := by
  induction left generalizing m i process with
  | zero => exact ⟨m, process, true, rfl, h, .refl m ps _, rfl⟩
  | succ left ih =>
    rw [loadSegments]
    by_cases hl : (program.programHeader i).loads = true
    · obtain ⟨m₁, process₁, ok, hseg, h₁, hq₁, hroot₁, hbase⟩ := loadSegment_spec program h hr
        fun hbase ↦ hc i le_rfl (by omega) hl fun j hij hji _ ↦ by rwa [Nat.le_antisymm hji hij]
      rw [if_pos hl, hseg]
      cases ok with
      | false => exact ⟨m₁, process₁, false, rfl, h₁, hq₁, hroot₁⟩
      | true =>
        obtain ⟨m₂, process₂, ok, hrun, h₂, hq₂, hroot₂⟩ := ih h₁ (hroot₁ ▸ hr) (i + 1)
          fun k hk hlt hlk hall ↦ (hc k (by omega) (by omega) hlk fun j hij hjk hlj ↦ by
            rcases Nat.eq_or_lt_of_le hij with rfl | hij
            · exact hbase rfl
            · exact hall j hij hjk hlj).of_quiet hq₁
        exact ⟨m₂, process₂, ok, hrun, h₂, hq₁.trans (hq₂.of_eq hroot₁), hroot₂.trans hroot₁⟩
    · obtain ⟨m₂, process₂, ok, hrun, h₂, hq₂, hroot₂⟩ := ih h hr (i + 1)
        fun k hk hlt hlk hall ↦ hc k (by omega) (by omega) hlk fun j hij hjk hlj ↦ by
          rcases Nat.eq_or_lt_of_le hij with rfl | hij
          · exact absurd hlj hl
          · exact hall j hij hjk hlj
      rw [if_neg hl]
      exact ⟨m₂, process₂, ok, hrun, h₂, hq₂, hroot₂⟩

theorem newRoot_spec (h : Spaces m ps) {g : ℕ} (hg : g < managedPages) (hfree : m.frames.bitmap g = false) :
    let m₂ := clearFrame g { m with frames := m.frames.markUsed g }
    let m₃ := m₂.setEntry g 0 (m₂.entry m₂.root 0)
    Spaces m₃ (g :: ps) ∧ Quiet m m₃ ps g ∧ ∀ r ∈ m.root :: ps, r ≠ g ∧ Kept (m.under r) (m₃.under r) := by
  intro m₂ m₃
  obtain ⟨h₁, hkept₁, hdata₁, hunmapped₁⟩ := h.alloc hg hfree
  have hold : ∀ f ≠ g, ∀ i, m₃.entry f i = m.entry f i := fun f hf i ↦ by
    rw [entry_setEntry, if_neg fun he ↦ hf he.1]
    exact entry_clearFrame hf i
  obtain ⟨h₃, hkept₃, htable₃⟩ := h₁.write hdata₁ (show m₃.root = m.root from rfl) rfl hold
  have hkept : ∀ r ∈ m.root :: ps, Kept (m.under r) (m₃.under r) := fun r hr ↦
    (hkept₁ r hr).trans (hkept₃ r hr)
  have hroot : m.root ≠ g := fun he ↦ hdata₁.2 (.inl (he ▸ m.root_isTable))
  refine ⟨h₃.join hg ⟨hdata₁.1, fun ht ↦ hdata₁.2 (htable₃ g ht)⟩ (fun r hr a ha hpres ↦ ?_) ?_ fun i hi ↦ ?_,
    .of_kept rfl (used_markUsed hg) hkept, fun r hr ↦ ⟨?_, hkept r hr⟩⟩
  · rw [(hkept₃ r (List.mem_cons_of_mem _ hr)).leaf] at hpres ⊢
    exact hunmapped₁ r hr a ha hpres
  · rw [entry_setEntry, if_pos ⟨rfl, rfl⟩, hold m₃.root hroot]
    exact entry_clearFrame hroot 0
  · rw [entry_setEntry, if_neg fun he ↦ hi he.2]
    exact entry_clearFrame_self g i
  · rintro rfl
    rcases List.mem_cons.mp hr with he | hr
    · exact hroot he.symm
    · exact hdata₁.2 (.inr ⟨r, hr, m.root_private r⟩)

theorem load_spec (h : Spaces m ps) (hc : program.Confined m) :
    ∃ m' process' ok, load program m process = (m', process', ok) ∧ m'.root = m.root ∧
      (∀ r ∈ m.root :: ps, Kept (m.under r) (m'.under r)) ∧ ((process'.root = process.root ∧ Spaces m' ps) ∨
        (process'.root ≠ 0 ∧ Spaces m' (process'.root :: ps))) := by
  unfold load
  by_cases hsane : program.looksSane
  · rw [if_pos hsane]
    rcases allocPage_cases h.wf.low with ⟨hnone, -⟩ | ⟨g, hg, hg0, hfree, hsome⟩
    · exact ⟨m, process, false, by simp [hnone], rfl, fun _ _ ↦ .refl _, .inl ⟨rfl, h⟩⟩
    · have hpage : g * pageSize ≠ 0 := Nat.mul_ne_zero hg0 (by decide)
      have hdiv : g * pageSize / pageSize = g := Nat.mul_div_cancel g (by decide)
      obtain ⟨h₃, hq₃, hkept₃⟩ := newRoot_spec h hg hfree
      have hmem : ({ process with root := g, entry := program.entry } : Process).root ∈ g :: ps := List.mem_cons_self
      obtain ⟨m', process', ok, hrun, hspaces, hquiet, hroot'⟩ := loadSegments_spec h₃ hmem
        program.programHeaderCount 0 fun k _ hk hl hall ↦
          (hc k (by omega) hl fun j hj ↦ hall j (Nat.zero_le j) hj).of_quiet hq₃
      refine ⟨m', process', ok, by simp only [hsome, hpage, if_false, hdiv, hrun], hquiet.root, fun r hr ↦ ?_,
        .inr ⟨fun he ↦ hg0 (hroot'.symm.trans he), by rw [hroot']; exact hspaces⟩⟩
      obtain ⟨hne, hkept⟩ := hkept₃ r hr
      refine hkept.trans ?_
      rcases List.mem_cons.mp hr with rfl | hr
      · have hk := hquiet.kernel
        exact ⟨rfl, hk.entries⟩
      · exact hquiet.others r (List.mem_cons_of_mem _ hr) hne
  · exact ⟨m, process, false, if_neg hsane, rfl, fun _ _ ↦ .refl _, .inl ⟨rfl, h⟩⟩

end Eris.Proc
