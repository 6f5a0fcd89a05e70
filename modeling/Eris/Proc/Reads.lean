import Eris.Proc.Sharing

namespace Eris.Proc

open Mm Mm.Memory Library.Words List

variable {program other : Program} {segment : ProgramHeader} {m : Memory} {process : Process}
  {root left source address i x n : ℕ}

def Program.headerReads (program : Program) (i : ℕ) : List ℕ :=
  (List.range programHeaderSize).map fun k ↦
    (program.programHeaderOffset + i * programHeaderSize + k) % 2 ^ 64

/-- The places of the image that `copyBytes` reads. -/
def copyReads (program : Program) (root : ℕ) : ℕ → ℕ → ℕ → Memory → List ℕ
  | 0, _, _, _ => []
  | left + 1, source, address, m =>
    let frame := (m.under root).translate address
    if frame = 0 then []
    else source % 2 ^ 64 :: copyReads program root left (source + 1) (address + 1)
      (m.store frame (program.bytes (source % 2 ^ 64)))

def segmentReads (program : Program) (segment : ProgramHeader) (m : Memory) (process : Process) : List ℕ :=
  if segment.virtualAddress < userBase then []
  else
    match mapFresh segment.mapFlags segment.pages segment.start m process with
    | (_, _, false) => []
    | (m, process, true) =>
      copyReads program process.root segment.fileSize segment.offset segment.virtualAddress m

def segmentsReads (program : Program) : ℕ → ℕ → Memory → Process → List ℕ
  | 0, _, _, _ => []
  | left + 1, i, m, process =>
    program.headerReads i ++
      if (program.programHeader i).loads then
        segmentReads program (program.programHeader i) m process ++
          match loadSegment program (program.programHeader i) m process with
          | (_, _, false) => []
          | (m, process, true) => segmentsReads program left (i + 1) m process
      else segmentsReads program left (i + 1) m process

/-- The places of the image that `load` reads, its file header apart. -/
def loadReads (program : Program) (m : Memory) (process : Process) : List ℕ :=
  if program.looksSane then
    let (m, page) := m.allocPage
    if page = 0 then []
    else
      let root := page / pageSize
      let m := m.clearFrame root
      let m := m.setEntry root 0 (m.entry m.root 0)
      segmentsReads program program.programHeaderCount 0 m { process with root := root, entry := program.entry }
  else []

section Congr

theorem Program.word_congr {width offset : ℕ}
    (h : ∀ k < width, other.bytes ((offset + k) % 2 ^ 64) = program.bytes ((offset + k) % 2 ^ 64)) :
    other.word width offset = program.word width offset := by
  rw [word, word]
  exact congrArg fromBytes (map_congr_left fun k hk ↦ h k (mem_range.mp hk))

theorem Program.mem_headerReads {k : ℕ} (hk : k < programHeaderSize) :
    (program.programHeaderOffset + i * programHeaderSize + k) % 2 ^ 64 ∈ program.headerReads i :=
  mem_map.mpr ⟨k, mem_range.mpr hk, rfl⟩

theorem Program.programHeader_congr (hoffset : other.programHeaderOffset = program.programHeaderOffset)
    (h : ∀ x ∈ program.headerReads i, other.bytes x = program.bytes x) :
    other.programHeader i = program.programHeader i := by
  have hword : ∀ width start : ℕ, start + width ≤ programHeaderSize →
      other.word width (program.programHeaderOffset + i * programHeaderSize + start) =
        program.word width (program.programHeaderOffset + i * programHeaderSize + start) := by
    intro width start hle
    apply word_congr
    intro k hk
    rw [Nat.add_assoc _ start k]
    exact h _ (mem_headerReads (by omega))
  have hfirst := hword 4 0 (by decide)
  have hflags := hword 4 4 (by decide)
  have hplace := hword 8 8 (by decide)
  have haddress := hword 8 16 (by decide)
  have hfile := hword 8 32 (by decide)
  have hmemory := hword 8 40 (by decide)
  rw [Nat.add_zero] at hfirst
  simp only [programHeader, hoffset, hfirst, hflags, hplace, haddress, hfile, hmemory]

theorem copyBytes_congr
    (h : ∀ x ∈ copyReads program root left source address m, other.bytes x = program.bytes x) :
    copyBytes other root left source address m = copyBytes program root left source address m := by
  induction left generalizing source address m with
  | zero => rfl
  | succ left ih =>
    rw [copyReads] at h
    rw [copyBytes, copyBytes]
    by_cases hframe : (m.under root).translate address = 0
    · simp only [hframe, if_true]
    · simp only [hframe, if_false] at h ⊢
      rw [h _ mem_cons_self]
      exact ih fun x hx ↦ h x (mem_cons_of_mem _ hx)

theorem loadSegment_congr (h : ∀ x ∈ segmentReads program segment m process, other.bytes x = program.bytes x) :
    loadSegment other segment m process = loadSegment program segment m process := by
  rw [segmentReads] at h
  rw [loadSegment, loadSegment]
  by_cases hlow : segment.virtualAddress < userBase
  · rw [if_pos hlow, if_pos hlow]
  · rw [if_neg hlow] at h ⊢
    rw [if_neg hlow]
    generalize mapFresh segment.mapFlags segment.pages segment.start m process = out at h ⊢
    obtain ⟨m₁, process₁, ok⟩ := out
    cases ok with
    | false => rfl
    | true =>
      have hcopy := copyBytes_congr h
      simp only [hcopy]

theorem loadSegments_congr (hoffset : other.programHeaderOffset = program.programHeaderOffset)
    (h : ∀ x ∈ segmentsReads program left i m process, other.bytes x = program.bytes x) :
    loadSegments other left i m process = loadSegments program left i m process := by
  induction left generalizing i m process with
  | zero => rfl
  | succ left ih =>
    rw [segmentsReads] at h
    have hheader : other.programHeader i = program.programHeader i :=
      Program.programHeader_congr hoffset fun x hx ↦ h x (mem_append_left _ hx)
    rw [loadSegments, loadSegments, hheader]
    by_cases hloads : (program.programHeader i).loads = true
    · rw [if_pos hloads] at h
      have hsegment : loadSegment other (program.programHeader i) m process =
          loadSegment program (program.programHeader i) m process :=
        loadSegment_congr fun x hx ↦ h x (mem_append_right _ (mem_append_left _ hx))
      rw [if_pos hloads, if_pos hloads, hsegment]
      generalize loadSegment program (program.programHeader i) m process = out at h ⊢
      obtain ⟨m₁, process₁, ok⟩ := out
      cases ok with
      | false => rfl
      | true => exact ih fun x hx ↦ h x (mem_append_right _ (mem_append_right _ hx))
    · rw [if_neg hloads] at h
      rw [if_neg hloads, if_neg hloads]
      exact ih fun x hx ↦ h x (mem_append_right _ hx)

end Congr

namespace Program

/-- No segment before a program header lies below the user's half, where the loop would have stopped. -/
def Visits (program : Program) (i : ℕ) : Prop :=
  ∀ j < i, (program.programHeader j).loads = true → userBase ≤ (program.programHeader j).virtualAddress

instance (program : Program) (i : ℕ) : Decidable (program.Visits i) :=
  inferInstanceAs (Decidable (∀ j < i, _ → _))

def LeadsTo (program : Program) (i x : ℕ) : Prop :=
  x ∈ program.headerReads i ∨
    (program.programHeader i).loads = true ∧ userBase ≤ (program.programHeader i).virtualAddress ∧
      ∃ k < (program.programHeader i).fileSize, x = ((program.programHeader i).offset + k) % 2 ^ 64

def Contained (program : Program) : Prop :=
  program.looksSane = true → ∀ i < program.programHeaderCount, program.Visits i →
    program.programHeaderOffset + (i + 1) * programHeaderSize ≤ program.length ∧
    ((program.programHeader i).loads = true → userBase ≤ (program.programHeader i).virtualAddress →
      (program.programHeader i).fileSize = 0 ∨
        (program.programHeader i).offset + (program.programHeader i).fileSize ≤ program.length)

instance (program : Program) : Decidable program.Contained :=
  inferInstanceAs (Decidable (_ → ∀ i < _, _ → _))

end Program

theorem row_lt_iff {start len : ℕ} (hstart : start < 2 ^ 64) (hn : n < 2 ^ 64) :
    (∀ k < len, (start + k) % 2 ^ 64 < n) ↔ len = 0 ∨ start + len ≤ n := by
  constructor
  · intro h
    induction len with
    | zero => exact .inl rfl
    | succ len ih =>
      right
      have hlast := h len (Nat.lt_succ_self len)
      obtain rfl | hle := ih fun k hk ↦ h k (Nat.lt_succ_of_lt hk)
      · rw [Nat.add_zero, Nat.mod_eq_of_lt hstart] at hlast
        exact hlast
      · rw [Nat.mod_eq_of_lt (Nat.lt_of_le_of_lt hle hn)] at hlast
        exact hlast
  · intro h k hk
    obtain rfl | hle := h
    · exact absurd hk (Nat.not_lt_zero k)
    · rw [Nat.mod_eq_of_lt (by omega)]
      omega

section Bounds

/-- What is read lies in a row, and a copy that succeeds reads all of it. -/
theorem copyReads_spec (program : Program) (root left source address : ℕ) (m : Memory) :
    (∀ x ∈ copyReads program root left source address m, ∃ k < left, x = (source + k) % 2 ^ 64) ∧
      ((copyBytes program root left source address m).2 = true →
        ∀ k < left, (source + k) % 2 ^ 64 ∈ copyReads program root left source address m) := by
  induction left generalizing source address m with
  | zero => exact ⟨by simp [copyReads], fun _ k hk ↦ absurd hk (Nat.not_lt_zero k)⟩
  | succ left ih =>
    rw [copyReads, copyBytes]
    split
    · exact ⟨by simp, by simp⟩
    · obtain ⟨hmem, hall⟩ := ih (source + 1) (address + 1) (m.store _ (program.bytes (source % 2 ^ 64)))
      simp only [Nat.add_assoc, Nat.add_comm 1] at hmem hall
      constructor
      · rintro x (_ | ⟨_, hx⟩)
        · exact ⟨0, Nat.succ_pos left, rfl⟩
        · obtain ⟨k, hk, rfl⟩ := hmem x hx
          exact ⟨k + 1, Nat.succ_lt_succ hk, rfl⟩
      · rintro hok (_ | k) hk
        · exact mem_cons_self
        · exact mem_cons_of_mem _ (hall hok k (Nat.lt_of_succ_lt_succ hk))

theorem segmentReads_spec (program : Program) (segment : ProgramHeader) (m : Memory) (process : Process) :
    (∀ x ∈ segmentReads program segment m process,
      userBase ≤ segment.virtualAddress ∧ ∃ k < segment.fileSize, x = (segment.offset + k) % 2 ^ 64) ∧
    ((loadSegment program segment m process).2.2 = true → userBase ≤ segment.virtualAddress ∧
      ∀ k < segment.fileSize, (segment.offset + k) % 2 ^ 64 ∈ segmentReads program segment m process) := by
  rw [segmentReads, loadSegment]
  split
  · exact ⟨nofun, nofun⟩
  · rename_i hlow
    have hbase := Nat.le_of_not_lt hlow
    generalize mapFresh segment.mapFlags segment.pages segment.start m process = out
    obtain ⟨m₁, process₁, ok⟩ := out
    cases ok with
    | false => exact ⟨nofun, nofun⟩
    | true =>
      obtain ⟨hmem, hall⟩ :=
        copyReads_spec program process₁.root segment.fileSize segment.offset segment.virtualAddress m₁
      refine ⟨fun x hx ↦ ⟨hbase, hmem x hx⟩, fun hok ↦ ⟨hbase, hall ?_⟩⟩
      rcases hcopy : copyBytes program process₁.root segment.fileSize segment.offset segment.virtualAddress m₁
        with ⟨m₂, copied⟩
      cases copied with
      | false =>
        simp only [hcopy] at hok
        cases hok
      | true => rfl

theorem Program.Visits.succ (h : program.Visits i)
    (hi : (program.programHeader i).loads = true → userBase ≤ (program.programHeader i).virtualAddress) :
    program.Visits (i + 1) := by
  intro j hj
  obtain hj | rfl := Nat.lt_succ_iff_lt_or_eq.mp hj
  · exact h j hj
  · exact hi

theorem segmentsReads_spec (program : Program) (left i : ℕ) (m : Memory) (process : Process) :
    (program.Visits i → ∀ x ∈ segmentsReads program left i m process,
      ∃ j < i + left, program.Visits j ∧ program.LeadsTo j x) ∧
    ((loadSegments program left i m process).2.2 = true →
      ∀ j x, i ≤ j → j < i + left → program.LeadsTo j x → x ∈ segmentsReads program left i m process) := by
  induction left generalizing i m process with
  | zero => exact ⟨nofun, fun _ j _ hij hj ↦ absurd hj (Nat.not_lt.mpr hij)⟩
  | succ left ih =>
    have hlt : i < i + (left + 1) := Nat.lt_add_of_pos_right (Nat.succ_pos left)
    rw [segmentsReads, loadSegments]
    by_cases hloads : (program.programHeader i).loads = true
    · rw [if_pos hloads, if_pos hloads]
      obtain ⟨hmem, hall⟩ := segmentReads_spec program (program.programHeader i) m process
      generalize loadSegment program (program.programHeader i) m process = out at hall
      obtain ⟨m₁, process₁, ok⟩ := out
      obtain ⟨hmem', hall'⟩ := ih (i + 1) m₁ process₁
      constructor
      · intro hi x hx
        obtain hx | hx := mem_append.mp hx
        · exact ⟨i, hlt, hi, .inl hx⟩
        obtain hx | hx := mem_append.mp hx
        · exact ⟨i, hlt, hi, .inr ⟨hloads, hmem x hx⟩⟩
        cases ok with
        | false => exact absurd hx not_mem_nil
        | true =>
          obtain ⟨j, hj, hx⟩ := hmem' (hi.succ fun _ ↦ (hall rfl).1) x hx
          exact ⟨j, by omega, hx⟩
      · intro hok j x hij hj hx
        cases ok with
        | false => cases hok
        | true =>
          obtain rfl | hlt := Nat.eq_or_lt_of_le hij
          · obtain hheader | ⟨-, -, k, hk, rfl⟩ := hx
            · exact mem_append_left _ hheader
            · exact mem_append_right _ (mem_append_left _ ((hall rfl).2 k hk))
          · exact mem_append_right _ (mem_append_right _ (hall' hok j x hlt (by omega) hx))
    · rw [if_neg hloads, if_neg hloads]
      obtain ⟨hmem, hall⟩ := ih (i + 1) m process
      constructor
      · intro hi x hx
        obtain hx | hx := mem_append.mp hx
        · exact ⟨i, hlt, hi, .inl hx⟩
        · obtain ⟨j, hj, hx⟩ := hmem (hi.succ fun hl ↦ absurd hl hloads) x hx
          exact ⟨j, by omega, hx⟩
      · intro hok j x hij hj hx
        obtain rfl | hlt := Nat.eq_or_lt_of_le hij
        · exact mem_append_left _ (hx.resolve_right fun h ↦ hloads h.1)
        · exact mem_append_right _ (hall hok j x hlt (by omega) hx)

theorem loadReads_spec (program : Program) (m : Memory) (process : Process) :
    (∀ x ∈ loadReads program m process, program.looksSane = true ∧
      ∃ i < program.programHeaderCount, program.Visits i ∧ program.LeadsTo i x) ∧
    ((load program m process).2.2 = true →
      ∀ i x, i < program.programHeaderCount → program.LeadsTo i x → x ∈ loadReads program m process) := by
  rw [loadReads, load]
  split
  · rename_i hs
    generalize m.allocPage = out
    obtain ⟨m₁, page⟩ := out
    dsimp only
    split
    · exact ⟨nofun, nofun⟩
    · obtain ⟨hmem, hall⟩ := segmentsReads_spec program program.programHeaderCount 0 _ _
      rw [Nat.zero_add] at hmem hall
      exact ⟨fun x hx ↦ ⟨hs, hmem nofun x hx⟩, fun hok i x hi hx ↦ hall hok i x (Nat.zero_le i) hi hx⟩
  · exact ⟨nofun, nofun⟩

end Bounds

theorem Program.word_lt (width offset : ℕ) : program.word width offset < 256 ^ width := by
  have h := fromBytes_lt ((List.range width).map fun i ↦ program.bytes ((offset + i) % 2 ^ 64))
  rw [length_map, length_range] at h
  exact h

/-- A file header that announces two program headers, the first of them ahead of the image. -/
def strayProgram : Program :=
  let image := [0x7F, 0x45, 0x4C, 0x46] ++ toBytes 12 0 ++ toBytes 2 2 ++ toBytes 2 62 ++ toBytes 4 1 ++
    toBytes 8 userBase ++ toBytes 8 (2 ^ 64 - programHeaderSize) ++ toBytes 16 0 ++ toBytes 2 2 ++ toBytes 6 0
  ⟨fun i ↦ image.getD i 0, image.length⟩

end Eris.Proc
