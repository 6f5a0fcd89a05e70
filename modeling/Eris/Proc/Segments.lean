import Eris.Mm.Supply
import Eris.Proc.Contents

namespace Eris.Proc

open Mm Mm.Memory Library.Layers Finset

namespace ProgramHeader

variable (segment : ProgramHeader) (a : ℕ)

def HasPage : Prop := segment.start ≤ a ∧ a < segment.start + segment.pages * pageSize

def Covers : Prop := segment.virtualAddress ≤ a ∧ a < segment.virtualAddress + segment.memorySize

instance : Decidable (segment.HasPage a) := inferInstanceAs (Decidable (_ ∧ _))

instance : Decidable (segment.Covers a) := inferInstanceAs (Decidable (_ ∧ _))

end ProgramHeader

variable {m m' m₁ m₂ : Memory} {ps : List ℕ} {a : ℕ} {process process₁ process₂ : Process} {program : Program}
  {segment : ProgramHeader}

theorem ProgramHeader.Fits.user (h : segment.Fits) (ha : segment.HasPage a) : UserAddress a := by
  obtain ⟨-, hbase, -, -, hroom⟩ := h.span
  exact ⟨Nat.le_trans hbase ha.1, Nat.lt_of_lt_of_le ha.2 hroom⟩

theorem has_layer_iff (program : Program) : (segment.layer program).has a = true ↔ segment.HasPage a := decide_eq_true_iff

theorem byte_of_lt (program : Program) {k : ℕ} (hk : k < segment.fileSize) :
    segment.byte program (segment.virtualAddress + k) = program.bytes ((segment.offset + k) % 2 ^ 64) := by
  rw [ProgramHeader.byte, if_pos (by omega), Nat.add_sub_cancel_left]

def Finds (m : Memory) (process : Process) (a : ℕ) (v : UInt8) : Prop :=
  (m.under process.root).translate a ≠ 0 ∧ m.bytes ((m.under process.root).translate a) = v

theorem finds_iff (h : Separate m ps process.root) (ha : indexOf a 3 ≠ 0) {v : UInt8} :
    Finds m process a v ↔ (look m process.root a).map Cell.byte = some v := by
  constructor
  · rintro ⟨hne, hv⟩
    have htranslate := h.translate a
    by_cases hpres : ((m.under process.root).leaf a).present = true
    · rw [if_pos hpres] at htranslate
      rw [look, if_pos hpres, ← hv, htranslate]
      rfl
    · rw [if_neg hpres] at htranslate
      exact absurd htranslate hne
  · intro hmap
    obtain ⟨c, hc, rfl⟩ := Option.map_eq_some_iff.mp hmap
    exact (h.of_look ha hc).2

/-- The bytes of segments that do not meet, but may share pages. They can all be found after the program was loaded if
those on a page of a later segment are zero. -/
theorem load_finds_iff (h : Reachable Program.Confined m ps) (hfits : ∀ s ∈ program.segments, s.Fits)
    (hapart : program.segments.Pairwise fun s t ↦ ∀ a, s.Covers a → ¬ t.Covers a)
    (hrun : load program m process = (m', process₁, true)) :
    (∀ s ∈ program.segments, ∀ k < s.fileSize,
      Finds m' process₁ (s.virtualAddress + k) (program.bytes ((s.offset + k) % 2 ^ 64))) ↔
    program.segments.Pairwise fun s t ↦ ∀ k < s.fileSize, t.HasPage (s.virtualAddress + k) →
      program.bytes ((s.offset + k) % 2 ^ 64) = 0 := by
  obtain ⟨hplain, hsealed⟩ := h.plain_sealed fun _ _ ↦ id
  obtain ⟨hsep, -, hlook⟩ := load_look (h.spaces fun _ _ ↦ id) hplain hsealed hfits hrun
  have hin : ∀ s ∈ program.segments, ∀ k < s.fileSize, UserAddress (s.virtualAddress + k) ∧
      s.Covers (s.virtualAddress + k) ∧ s.HasPage (s.virtualAddress + k) := by
    intro s hs k hk
    have hfit := hfits s hs
    obtain ⟨-, -, hle, hend, -⟩ := hfit.span
    obtain ⟨hbase, htop, hfile⟩ := hfit
    exact ⟨⟨by omega, by omega⟩, ⟨by omega, by omega⟩, ⟨by omega, by omega⟩⟩
  have hwant : ∀ s ∈ program.segments, ∀ a, (∃ k < s.fileSize, a = s.virtualAddress + k) →
      s.Covers a ∧ ((s.layer program).map Cell.byte).has a = true := by
    rintro s hs _ ⟨k, hk, rfl⟩
    obtain ⟨-, hcovers, hpage⟩ := hin s hs k hk
    exact ⟨hcovers, (has_layer_iff program).mpr hpage⟩
  have hrest : ∀ s ∈ program.segments, ∀ a, ((s.layer program).map Cell.byte).has a = true → ¬ s.Covers a →
      ((s.layer program).map Cell.byte).value a = 0 := by
    intro s hs a _ hnot
    have hfile := (hfits s hs).file
    exact if_neg fun hbytes ↦ hnot ⟨hbytes.1, by omega⟩
  have hbyte : ∀ a, UserAddress a → (look m' process₁.root a).map Cell.byte =
      pile (program.segments.map fun s ↦ (s.layer program).map Cell.byte) (fun _ ↦ none) a := by
    intro a ha
    rw [hlook a ha, map_pile, List.map_map]
    rfl
  refine Iff.trans ?_ ((pile_shows_iff (f := fun _ ↦ none) hwant hrest hapart).trans ?_)
  · refine forall₂_congr fun s hs ↦ ⟨?_, ?_⟩
    · rintro hfinds _ ⟨k, hk, rfl⟩
      have hu := (hin s hs k hk).1
      rw [← hbyte _ hu]
      exact ((finds_iff hsep hu.index).mp (hfinds k hk)).trans (congrArg some (byte_of_lt program hk).symm)
    · intro hshow k hk
      have hu := (hin s hs k hk).1
      rw [finds_iff hsep hu.index, hbyte _ hu, hshow _ ⟨k, hk, rfl⟩]
      exact congrArg some (byte_of_lt program hk)
  · constructor
    · refine List.Pairwise.imp fun hzero k hk hpage ↦ ?_
      exact (byte_of_lt program hk).symm.trans (hzero _ ⟨k, hk, rfl⟩ ((has_layer_iff program).mpr hpage))
    · refine List.Pairwise.imp fun hzero a hk hpage ↦ ?_
      obtain ⟨k, hk, rfl⟩ := hk
      exact (byte_of_lt program hk).trans (hzero k hk ((has_layer_iff program).mp hpage))

/-- Two segments that begin in the same page, with some bytes of the file in the first one. -/
def sharingProgram (offset : ℕ) : Program :=
  .ofSegments [{ type := 1, flags := 5, offset := offset, virtualAddress := userBase + 0x1000, fileSize := 3, memorySize := 3 },
    { type := 1, flags := 6, offset := 0, virtualAddress := userBase + 0x1800, fileSize := 3, memorySize := 3 }]

theorem sharingProgram_fits {offset : ℕ} (h : ∀ s ∈ (sharingProgram offset).segments,
      userBase ≤ s.virtualAddress ∧ s.virtualAddress + s.memorySize ≤ 2 ^ 48 ∧ s.fileSize ≤ s.memorySize) :
    ∀ s ∈ (sharingProgram offset).segments, s.Fits :=
  fun s hs ↦ ⟨(h s hs).1, (h s hs).2.1, (h s hs).2.2⟩

theorem sharingProgram_apart {offset : ℕ} (h : (sharingProgram offset).segments.Pairwise fun s t ↦
      s.virtualAddress + s.memorySize ≤ t.virtualAddress) :
    (sharingProgram offset).segments.Pairwise fun s t ↦ ∀ a, s.Covers a → ¬ t.Covers a := by
  refine h.imp fun hle a hs ht ↦ ?_
  have hlt := Nat.lt_of_lt_of_le hs.2 hle
  exact absurd ht.1 (Nat.not_le.mpr hlt)

/-- The bytes of the first segment are zeros. -/
theorem load_finds_sharingProgram :
    (load (sharingProgram 4) booted {}).2.2 = true ∧ ∀ s ∈ (sharingProgram 4).segments, ∀ k < s.fileSize,
        Finds (load (sharingProgram 4) booted {}).1 (load (sharingProgram 4) booted {}).2.1 (s.virtualAddress + k)
          ((sharingProgram 4).bytes ((s.offset + k) % 2 ^ 64)) := by
  have hok : (load (sharingProgram 4) booted {}).2.2 = true := by decide +kernel
  have hboot : Reachable Program.Confined booted [] := .boot rfl pagingInit_bareMemory
  have hrun : load (sharingProgram 4) booted {} =
      ((load (sharingProgram 4) booted {}).1, (load (sharingProgram 4) booted {}).2.1, true) := by rw [← hok]
  refine ⟨hok, (load_finds_iff hboot (sharingProgram_fits ?_) (sharingProgram_apart ?_) hrun).mpr ?_⟩
  · decide +kernel
  · decide +kernel
  · decide +kernel

/-- The first byte of the first segment is lost when the second one is loaded. -/
theorem load_loses_sharingProgram :
    Reachable Program.Confined booted [] ∧ (∀ s ∈ (sharingProgram 0).segments, s.Fits) ∧
      ((sharingProgram 0).segments.Pairwise fun s t ↦ ∀ a, s.Covers a → ¬ t.Covers a) ∧
      (load (sharingProgram 0) booted {}).2.2 = true ∧
      (∃ s ∈ (sharingProgram 0).segments, s.fileSize = 3 ∧ s.virtualAddress = userBase + 0x1000 ∧ s.offset = 0) ∧
      (sharingProgram 0).bytes 0 = 0x7F ∧
      ¬ Finds (load (sharingProgram 0) booted {}).1 (load (sharingProgram 0) booted {}).2.1 (userBase + 0x1000) 0x7F := by
  refine ⟨.boot rfl pagingInit_bareMemory, sharingProgram_fits ?_, sharingProgram_apart ?_, ?_⟩
  · decide +kernel
  · decide +kernel
  · unfold Finds
    decide +kernel

section WellFormed

def stackBase : ℕ := userStackTop - userStackPages * pageSize

/-- An executable whose parts lie in it, with segments in the user half that have their pages to themselves. -/
structure Program.WellFormed (program : Program) : Prop where
  length : program.length < 2 ^ 64
  headers : program.programHeaderOffset + program.programHeaderCount * programHeaderSize ≤ program.length
  inside : ∀ s ∈ program.segments, s.offset + s.fileSize ≤ program.length
  placed : ∀ s ∈ program.segments, userBase ≤ s.virtualAddress ∧ s.virtualAddress + s.memorySize ≤ 2 ^ 47
  file : ∀ s ∈ program.segments, s.fileSize ≤ s.memorySize
  apart : program.segments.Pairwise fun s t ↦ ∀ a, s.HasPage a → ¬ t.HasPage a
  stack : ∀ s ∈ program.segments, ∀ a, s.HasPage a → ¬ (stackBase ≤ a ∧ a < userStackTop)

theorem Program.WellFormed.fits (h : program.WellFormed) : ∀ s ∈ program.segments, s.Fits :=
  fun s hs ↦ ⟨(h.placed s hs).1, Nat.le_trans (h.placed s hs).2 (by decide), h.file s hs⟩

theorem mapStack_look (h : Separate m ps process.root) (hrun : mapStack m process = (m', process₁, true)) :
    Separate m' ps process.root ∧ process₁ = { process with pageCount := process.pageCount + userStackPages } ∧
      ∀ a, UserAddress a → look m' process.root a =
        if stackBase ≤ a ∧ a < userStackTop then some ⟨⟨true, true, true⟩, 0⟩ else look m process.root a := by
  obtain ⟨h', hprocess, hlook⟩ := mapFresh_look h hrun (by decide) (by decide) (by decide)
  exact ⟨h', hprocess, hlook⟩

def userPages (m : Memory) : Finset ℕ :=
  (Finset.range (2 ^ 36)).filter fun q ↦ userBase ≤ q * pageSize ∧ (m.rights (q * pageSize)).isSome = true

theorem hasPage_iff (h : segment.Fits) (q : ℕ) :
    segment.HasPage (q * pageSize) ↔
      q ∈ Finset.Ico (segment.start / pageSize) (segment.start / pageSize + segment.pages) := by
  obtain ⟨haligned, -⟩ := h.span
  rw [ProgramHeader.HasPage, mem_Ico]
  unfold pageSize at *
  omega

theorem card_pages {l : List ProgramHeader} {S T : Finset ℕ} (hfits : ∀ s ∈ l, s.Fits)
    (hapart : l.Pairwise fun s t ↦ ∀ a, s.HasPage a → ¬ t.HasPage a)
    (hS : ∀ s ∈ l, ∀ q ∈ S, ¬ s.HasPage (q * pageSize))
    (hT : ∀ q, q ∈ T ↔ q ∈ S ∨ ∃ s ∈ l, s.HasPage (q * pageSize)) :
    T.card = S.card + (l.map ProgramHeader.pages).sum := by
  induction l generalizing S with
  | nil =>
    obtain rfl : T = S := by
      ext q
      simp [hT q]
    rfl
  | cons s l ih =>
    obtain ⟨hs, hl⟩ := List.forall_mem_cons.mp hfits
    obtain ⟨hhead, htail⟩ := List.pairwise_cons.mp hapart
    obtain ⟨hSs, hSl⟩ := List.forall_mem_cons.mp hS
    have hdisjoint : Disjoint S (Finset.Ico (s.start / pageSize) (s.start / pageSize + s.pages)) := by
      refine disjoint_left.mpr fun q hq hin ↦ ?_
      exact hSs q hq ((hasPage_iff hs q).mpr hin)
    have hcard := card_union_of_disjoint hdisjoint
    rw [Nat.card_Ico, Nat.add_sub_cancel_left] at hcard
    rw [ih (S := S ∪ Finset.Ico (s.start / pageSize) (s.start / pageSize + s.pages)) hl htail ?_ ?_, hcard, List.map_cons,
      List.sum_cons, Nat.add_assoc]
    · intro t ht q hq hpage
      rcases mem_union.mp hq with hq | hq
      · exact hSl t ht q hq hpage
      · exact hhead t ht _ ((hasPage_iff hs q).mpr hq) hpage
    · intro q
      rw [hT q, List.exists_mem_cons_iff, mem_union, hasPage_iff hs q, or_assoc]

theorem load_stack_look (h : Reachable Program.Confined m ps) (hp : program.WellFormed)
    (hload : load program m {} = (m₁, process₁, true)) (hstack : mapStack m₁ process₁ = (m₂, process₂, true)) :
    Separate m₂ (process₂.root :: ps) process₂.root ∧
      process₂.pageCount = userStackPages + (program.segments.map ProgramHeader.pages).sum ∧
      ∀ a, UserAddress a → look m₂ process₂.root a =
        if stackBase ≤ a ∧ a < userStackTop then some ⟨⟨true, true, true⟩, 0⟩
        else pile (program.segments.map (·.layer program)) (fun _ ↦ none) a := by
  obtain ⟨hplain, hsealed⟩ := h.plain_sealed fun _ _ ↦ id
  obtain ⟨hsep₁, hcount, hlook₁⟩ := load_look (h.spaces fun _ _ ↦ id) hplain hsealed hp.fits hload
  obtain ⟨hsep, rfl, hlook₂⟩ := mapStack_look hsep₁ hstack
  refine ⟨hsep, ?_, fun a ha ↦ ?_⟩
  · rw [hcount, Nat.zero_add, Nat.add_comm]
  · rw [← hlook₁ a ha]
    exact hlook₂ a ha

theorem pile_segments (hp : program.WellFormed) (hs : segment ∈ program.segments) (ha : segment.HasPage a) :
    pile (program.segments.map (·.layer program)) (fun _ ↦ none) a = some ⟨segment.rights, segment.byte program a⟩ := by
  have hapart : program.segments.Pairwise fun s t ↦ ∀ a, (s.layer program).has a = true →
      (t.layer program).has a = false := by
    refine hp.apart.imp fun hst a hs' ↦ ?_
    exact decide_eq_false (hst a ((has_layer_iff program).mp hs'))
  exact pile_of_apart hapart hs ((has_layer_iff program).mpr ha)

theorem mem_userPages (hp : program.WellFormed) (hsep : Separate m ps process.root)
    (hlook : ∀ a, UserAddress a → look m process.root a =
      if stackBase ≤ a ∧ a < userStackTop then some ⟨⟨true, true, true⟩, 0⟩
      else pile (program.segments.map (·.layer program)) (fun _ ↦ none) a) (q : ℕ) :
    q ∈ userPages (m.under process.root) ↔ q ∈ Finset.Ico (stackBase / pageSize) (userStackTop / pageSize) ∨
      ∃ s ∈ program.segments, s.HasPage (q * pageSize) := by
  have hS : q ∈ Finset.Ico (stackBase / pageSize) (userStackTop / pageSize) ↔
      stackBase ≤ q * pageSize ∧ q * pageSize < userStackTop := by
    rw [mem_Ico]
    unfold stackBase userStackTop userStackPages userBase pageSize
    omega
  have hstack : userBase ≤ stackBase ∧ userStackTop ≤ 2 ^ 48 := by decide
  rw [hS, userPages, mem_filter, mem_range]
  have hmem : ∀ c, UserAddress (q * pageSize) → look m process.root (q * pageSize) = some c →
      q < 2 ^ 36 ∧ userBase ≤ q * pageSize ∧ ((m.under process.root).rights (q * pageSize)).isSome = true := by
    intro c hu hc
    have htop := hu.2
    refine ⟨by unfold pageSize at htop; omega, hu.1, ?_⟩
    rw [(hsep.of_look hu.index hc).1]
    rfl
  constructor
  · rintro ⟨hlt, hbase, hsome⟩
    have hu : UserAddress (q * pageSize) := ⟨hbase, by unfold pageSize; omega⟩
    by_cases hin : stackBase ≤ q * pageSize ∧ q * pageSize < userStackTop
    · exact .inl hin
    · have hpile := hlook _ hu
      rw [if_neg hin] at hpile
      rcases pile_cases (program.segments.map (·.layer program)) (fun _ ↦ none) (q * pageSize) with
        ⟨l, hl, hhas, -⟩ | ⟨-, hnone⟩
      · obtain ⟨s, hs, rfl⟩ := List.mem_map.mp hl
        exact .inr ⟨s, hs, (has_layer_iff program).mp hhas⟩
      · rw [hsep.rights_of_look_none (hpile.trans hnone)] at hsome
        cases hsome
  · rintro (hin | ⟨s, hs, hpage⟩)
    · have hu : UserAddress (q * pageSize) := ⟨by omega, by omega⟩
      exact hmem _ hu ((hlook _ hu).trans (if_pos hin))
    · have hu := (hp.fits s hs).user hpage
      have hpile := hlook _ hu
      rw [if_neg (hp.stack s hs _ hpage), pile_segments hp hs hpage] at hpile
      exact hmem _ hu hpile

/-- What a program finds once it was loaded and has a stack. -/
theorem load_contents (h : Reachable Program.Confined m ps) (hp : program.WellFormed)
    (hload : load program m {} = (m₁, process₁, true)) (hstack : mapStack m₁ process₁ = (m₂, process₂, true)) :
    (∀ s ∈ program.segments,
      (∀ k < s.fileSize, Finds m₂ process₂ (s.virtualAddress + k) (program.bytes (s.offset + k))) ∧
      (∀ a, s.virtualAddress + s.fileSize ≤ a → a < s.start + s.pages * pageSize → Finds m₂ process₂ a 0) ∧
      ∀ a, s.HasPage a → (m₂.under process₂.root).rights a = some ⟨s.writes, true, !s.executes⟩) ∧
    (∀ a, stackBase ≤ a → a < userStackTop → (m₂.under process₂.root).rights a = some ⟨true, true, true⟩) ∧
    process₂.pageCount = (userPages (m₂.under process₂.root)).card := by
  obtain ⟨hsep, hcount, hlook⟩ := load_stack_look h hp hload hstack
  have hsegment : ∀ s ∈ program.segments, ∀ a, s.HasPage a →
      (m₂.under process₂.root).rights a = some s.rights ∧ Finds m₂ process₂ a (s.byte program a) := by
    intro s hs a ha
    have hu := (hp.fits s hs).user ha
    have hpile := hlook a hu
    rw [if_neg (hp.stack s hs a ha), pile_segments hp hs ha] at hpile
    exact hsep.of_look hu.index hpile
  refine ⟨fun s hs ↦ ⟨fun k hk ↦ ?_, fun a hlo hhi ↦ ?_, fun a ha ↦ ?_⟩, fun a hlo hhi ↦ ?_, ?_⟩
  · obtain ⟨-, -, hle, hend, -⟩ := (hp.fits s hs).span
    have hfile := hp.file s hs
    have hinside := hp.inside s hs
    have hlength := hp.length
    have hbyte := byte_of_lt program hk
    rw [Nat.mod_eq_of_lt (by omega)] at hbyte
    rw [← hbyte]
    exact (hsegment s hs _ ⟨by omega, by omega⟩).2
  · obtain ⟨-, -, hle, -⟩ := (hp.fits s hs).span
    have hzero : s.byte program a = 0 := if_neg (by omega)
    rw [← hzero]
    exact (hsegment s hs a ⟨by omega, hhi⟩).2
  · exact (hsegment s hs a ha).1
  · have hbelow : userBase ≤ stackBase ∧ userStackTop ≤ 2 ^ 48 := by decide
    have hu : UserAddress a := ⟨by omega, by omega⟩
    exact (hsep.of_look hu.index ((hlook a hu).trans (if_pos ⟨hlo, hhi⟩))).1
  · have hpages := mem_userPages hp hsep hlook
    have hapart : ∀ s ∈ program.segments, ∀ q ∈ Finset.Ico (stackBase / pageSize) (userStackTop / pageSize),
        ¬ s.HasPage (q * pageSize) := by
      intro s hs q hq hpage
      apply hp.stack s hs _ hpage
      rw [mem_Ico] at hq
      unfold stackBase userStackTop userStackPages userBase pageSize at *
      omega
    have hsize : (Finset.Ico (stackBase / pageSize) (userStackTop / pageSize)).card = userStackPages := by decide
    rw [card_pages hp.fits hp.apart hapart hpages, hsize, hcount]

theorem mapFresh_of_supplied {n left address : ℕ} (h : Supplied (n + 7 * left) m) (flags : PageFlags) (process : Process) :
    (mapFresh flags left address m process).2.2 = true := by
  induction left generalizing m address process with
  | zero => rfl
  | succ left ih =>
    obtain ⟨hne, hrest⟩ := Supplied.allocPage h
    rw [mapFresh]
    obtain ⟨⟨m₁, page⟩, hpage⟩ : ∃ out, m.allocPage = out := ⟨_, rfl⟩
    rw [hpage] at hne hrest ⊢
    have hview : Supplied (n + 7 * left + 6 * 1) ((m₁.clearFrame (page / pageSize)).under process.root) := hrest.congr rfl
    obtain ⟨m₂, hmap, h₂⟩ := hview.mapPages 1 flags address page
    have hwithin : within process.root (·.map address page pageSize flags) (m₁.clearFrame (page / pageSize)) =
        (m₂.under m₁.root, true) := congrArg (fun out : Memory × Bool ↦ (out.1.under m₁.root, out.2)) hmap
    have h₃ : Supplied (n + 7 * left) (m₂.under m₁.root) := h₂.congr rfl
    simp only [hne, if_false, hwithin]
    exact ih h₃ _

theorem smallProgram_wellFormed : smallProgram.WellFormed where
  length := by decide +kernel
  headers := by decide +kernel
  inside := by decide +kernel
  placed := by decide +kernel
  file := by decide +kernel
  apart := by
    have hle : smallProgram.segments.Pairwise fun s t ↦ s.start + s.pages * pageSize ≤ t.start := by decide +kernel
    refine hle.imp fun hle a hs ht ↦ ?_
    exact absurd ht.1 (Nat.not_le.mpr (Nat.lt_of_lt_of_le hs.2 hle))
  stack := by
    have hle : ∀ s ∈ smallProgram.segments, s.start + s.pages * pageSize ≤ stackBase := by decide +kernel
    intro s hs a ha hin
    exact absurd hin.1 (Nat.not_le.mpr (Nat.lt_of_lt_of_le ha.2 (hle s hs)))

/-- The program of one page finds its three bytes and has seventeen pages. -/
theorem load_contents_smallProgram :
    ∃ m₁ process₁ m₂ process₂, load smallProgram booted {} = (m₁, process₁, true) ∧
      mapStack m₁ process₁ = (m₂, process₂, true) ∧
      (∀ k < 3, Finds m₂ process₂ (userBase + 0x1000 + k) (smallProgram.bytes k)) ∧
      process₂.pageCount = (userPages (m₂.under process₂.root)).card := by
  have hboot : Reachable Program.Confined booted [] := .boot rfl pagingInit_bareMemory
  obtain ⟨hok, hlow, hfree⟩ : (load smallProgram booted {}).2.2 = true ∧
      (load smallProgram booted {}).1.frames.bitmap 0 = true ∧
      ∀ i < 112, (load smallProgram booted {}).1.frames.bitmap (800 + i) = false := by decide +kernel
  rcases hload : load smallProgram booted {} with ⟨m₁, process₁, ok⟩
  rw [hload] at hok hlow hfree
  obtain rfl := hok
  have hcount : 112 ≤ Library.Bitmap.population (fun f ↦ !m₁.frames.bitmap f) managedPages := by
    have hsub : Finset.Ico 800 912 ⊆ (Finset.range managedPages).filter fun f ↦ (!m₁.frames.bitmap f) = true := by
      intro f hf
      obtain ⟨hlo, hhi⟩ := mem_Ico.mp hf
      obtain ⟨i, rfl⟩ := Nat.exists_eq_add_of_le hlo
      refine mem_filter.mpr ⟨mem_range.mpr (Nat.lt_trans hhi (by decide)), ?_⟩
      have hbit := hfree i (by omega)
      rw [hbit]
      rfl
    have hcard := card_le_card hsub
    rwa [Nat.card_Ico] at hcard
  have hsupply : Supplied (0 + 7 * userStackPages) m₁ := ⟨hlow, hcount⟩
  have hok : (mapStack m₁ process₁).2.2 = true := mapFresh_of_supplied hsupply _ process₁
  rcases hstack : mapStack m₁ process₁ with ⟨m₂, process₂, ok⟩
  rw [hstack] at hok
  obtain rfl : ok = true := hok
  have hall := load_contents hboot smallProgram_wellFormed hload hstack
  refine ⟨m₁, process₁, m₂, process₂, rfl, hstack, ?_, hall.2.2⟩
  obtain ⟨s, hs, hfile, haddress, hoffset⟩ : ∃ s ∈ smallProgram.segments, s.fileSize = 3 ∧
      s.virtualAddress = userBase + 0x1000 ∧ s.offset = 0 := by decide +kernel
  have hbytes := (hall.1 s hs).1
  rw [hfile, haddress, hoffset] at hbytes
  simpa using hbytes

end WellFormed

end Eris.Proc
