import Eris.Mm.Mapping

namespace Eris.Mm

open Function

/-- Where the linker put the kernel, and the guard pages below its stacks. -/
structure KernelImage where
  kernelStart : ℕ
  textStart : ℕ
  textEnd : ℕ
  rodataStart : ℕ
  rodataEnd : ℕ
  dataStart : ℕ
  dataEnd : ℕ
  stackGuards : List ℕ

def distance (first last : ℕ) : ℕ := (2 ^ 64 - first + last) % 2 ^ 64

def KernelImage.segments (image : KernelImage) : List (ℕ × ℕ) :=
  [(image.kernelStart, distance image.kernelStart image.textStart),
    (image.textStart, distance image.textStart image.textEnd),
    (image.rodataStart, distance image.rodataStart image.rodataEnd),
    (image.dataStart, distance image.dataStart image.dataEnd)]

namespace Memory

/-- Entry `i` of the directory of the first gigabyte. -/
def directEntry (i : ℕ) : Entry where
  present := true
  write := true
  huge := true
  noExecute := true
  frame := i * (hugePageSize / pageSize)

def setDirectMap (pml4 pdpt directory : ℕ) (m : Memory) : Memory :=
  let m := (m.setEntry pml4 0 (.table pdpt)).setEntry pdpt 0 (.table directory)
  { m with tables := update m.tables directory fun i ↦
      if i < entriesPerTable then directEntry i else m.entry directory i }

def mapKernel (image : KernelImage) (m : Memory) : Memory :=
  let m := (m.map image.kernelStart image.kernelStart (distance image.kernelStart image.textStart)
    { noExecute := true }).1
  let m := (m.map image.textStart image.textStart (distance image.textStart image.textEnd) {}).1
  let m := (m.map image.rodataStart image.rodataStart (distance image.rodataStart image.rodataEnd)
    { noExecute := true }).1
  (m.map image.dataStart image.dataStart (distance image.dataStart image.dataEnd)
    { write := true, noExecute := true }).1

def unmapStackGuards (image : KernelImage) (m : Memory) : Memory :=
  image.stackGuards.foldl (fun m guard ↦ (m.unmap guard pageSize).1) m

/-- The tables of `paging_init` before the kernel is mapped into them; `none` where it panics. -/
def pagingTables (m : Memory) : Option Memory :=
  match m.allocateTable with
  | (_, none) => none
  | (m, some pml4) =>
    let m := { m with root := pml4 }
    let (m, pdpt) := m.allocateTable
    let (m, directory) := m.allocateTable
    match pdpt, directory with
    | some pdpt, some directory => some (m.setDirectMap pml4 pdpt directory)
    | _, _ => none

def pagingInit (image : KernelImage) (m : Memory) : Option Memory :=
  m.pagingTables.map fun m ↦ (m.mapKernel image).unmapStackGuards image

/-- Three tables for the first gigabyte and nothing else. -/
structure DirectMap (m : Memory) (pdpt directory : ℕ) : Prop where
  low : m.frames.bitmap 0 = true
  taken : ∀ f ∈ [m.root, pdpt, directory], f < managedPages ∧ m.frames.bitmap f = true
  distinct : [m.root, pdpt, directory].Nodup
  pml4 : ∀ i, m.entry m.root i = if i = 0 then .table pdpt else {}
  pdpt : ∀ i, m.entry pdpt i = if i = 0 then .table directory else {}
  directory : ∀ i < entriesPerTable, m.entry directory i = directEntry i

variable {m m' : Memory} {pdpt directory a d p f : ℕ}

theorem allocateTable_taken {g : ℕ} (hlow : m.frames.bitmap 0 = true) (h : m.allocateTable = (m', some g)) :
    g < managedPages ∧ m.frames.bitmap g = false ∧ m'.frames.bitmap = update m.frames.bitmap g true ∧
      m'.root = m.root ∧ m'.tables = update m.tables g fun _ ↦ {} := by
  rcases allocateTable_cases hlow with ⟨hnone, -⟩ | ⟨g', hg, hfree, hsome⟩
  · rw [hnone] at h
    cases h
  · rw [hsome] at h
    cases h
    exact ⟨hg, hfree, Frames.bitmap_markUsed hg, rfl, rfl⟩

theorem pagingTables_spec (hlow : m.frames.bitmap 0 = true) (h : m.pagingTables = some m') :
    ∃ pdpt directory, DirectMap m' pdpt directory := by
  unfold pagingTables at h
  split at h
  · cases h
  · rename_i m₁ g₁ h₁
    obtain ⟨hg₁, hfree₁, hbit₁, hroot₁, htab₁⟩ := allocateTable_taken hlow h₁
    have hlow₁ : m₁.frames.bitmap 0 = true := by rw [hbit₁, update_apply, hlow, ite_self]
    rcases h₂ : ({ m₁ with root := g₁ } : Memory).allocateTable with ⟨m₂, _ | g₂⟩
    · simp only [h₂] at h
      cases h
    · obtain ⟨hg₂, hfree₂, hbit₂, hroot₂, htab₂⟩ :=
        allocateTable_taken (m := { m₁ with root := g₁ }) hlow₁ h₂
      have hlow₂ : m₂.frames.bitmap 0 = true := by rw [hbit₂, update_apply, hlow₁, ite_self]
      rcases h₃ : m₂.allocateTable with ⟨m₃, _ | g₃⟩
      · simp only [h₂, h₃] at h
        cases h
      · obtain ⟨hg₃, hfree₃, hbit₃, hroot₃, htab₃⟩ := allocateTable_taken hlow₂ h₃
        have hne₁₂ : g₁ ≠ g₂ := by
          rintro rfl
          simp [hbit₁] at hfree₂
        have hne₁₃ : g₁ ≠ g₃ := by
          rintro rfl
          simp [hbit₂, hbit₁, hne₁₂] at hfree₃
        have hne₂₃ : g₂ ≠ g₃ := by
          rintro rfl
          simp [hbit₂] at hfree₃
        simp only [h₂, h₃] at h
        cases h
        have hroot : (m₃.setDirectMap g₁ g₂ g₃).root = g₁ := hroot₃.trans hroot₂
        refine ⟨g₂, g₃, ?_, fun f hf ↦ ?_, ?_, fun i ↦ ?_, fun i ↦ ?_, fun i hi ↦ ?_⟩
        · simp [setDirectMap, setEntry, hbit₃, update_apply, hlow₂]
        · rw [hroot] at hf
          simp only [List.mem_cons, List.not_mem_nil, or_false] at hf
          rcases hf with rfl | rfl | rfl <;>
            simp [setDirectMap, setEntry, hbit₃, hbit₂, hbit₁, update_apply, hg₁, hg₂, hg₃]
        · rw [hroot]
          simp [hne₁₂, hne₁₃, hne₂₃]
        · rw [hroot]
          simp [setDirectMap, setEntry, entry, update_apply, hne₁₂, hne₁₃, htab₃, htab₂, htab₁]
        · simp [setDirectMap, setEntry, entry, update_apply, hne₂₃, hne₁₂.symm, htab₃, htab₂]
        · simp [setDirectMap, entry, hi]

theorem tableAt_succ_of_single {g : ℕ}
    (hd : ∀ p, m.tableAt d p = if p = 0 then some f else none)
    (hf : ∀ i < entriesPerTable, m.child f i = if i = 0 then some g else none) (p : ℕ) :
    m.tableAt (d + 1) p = if p = 0 then some g else none := by
  have hsplit : p = 0 ↔ p / entriesPerTable = 0 ∧ p % entriesPerTable = 0 := by
    unfold entriesPerTable
    omega
  rw [Memory.tableAt, Library.Radix.node, ← Memory.tableAt, hd]
  by_cases hp : p / entriesPerTable = 0
  · rw [if_pos hp, Option.bind_some, hf _ (Nat.mod_lt p (by decide))]
    simp only [hsplit, hp, true_and]
  · rw [if_neg hp, if_neg fun h ↦ hp (hsplit.mp h).1]
    rfl

namespace DirectMap

section

variable (h : DirectMap m pdpt directory)

include h

theorem tableAt_eq (hd : d ≤ 3) (p : ℕ) : m.tableAt d p = if p = 0 then [m.root, pdpt, directory][d]? else none := by
  have h0 : ∀ p, m.tableAt 0 p = if p = 0 then some m.root else none := fun _ ↦ rfl
  have h1 : ∀ p, m.tableAt 1 p = if p = 0 then some pdpt else none := tableAt_succ_of_single h0 fun i _ ↦ by
    rw [child, h.pml4]
    by_cases hi : i = 0 <;> simp [hi, Entry.table]
  have h2 : ∀ p, m.tableAt 2 p = if p = 0 then some directory else none := tableAt_succ_of_single h1 fun i _ ↦ by
    rw [child, h.pdpt]
    by_cases hi : i = 0 <;> simp [hi, Entry.table]
  have h3 : ∀ p, m.tableAt 3 p = none := fun p ↦ by
    rw [Memory.tableAt, Library.Radix.node, ← Memory.tableAt, h2]
    split
    · rw [Option.bind_some, child, h.directory _ (Nat.mod_lt p (by decide))]
      simp [directEntry]
    · rfl
  interval_cases d
  · exact h0 p
  · exact h1 p
  · exact h2 p
  · rw [h3]
    simp

theorem mem_of_tableAt (hd : d ≤ 3) (hf : m.tableAt d p = some f) : p = 0 ∧ [m.root, pdpt, directory][d]? = some f := by
  rw [h.tableAt_eq hd] at hf
  split at hf
  · exact ⟨‹_›, hf⟩
  · cases hf

theorem wf : m.Wf where
  separated d p d' p' f hd hd' hf hf' := by
    obtain ⟨rfl, hget⟩ := h.mem_of_tableAt hd hf
    obtain ⟨rfl, hget'⟩ := h.mem_of_tableAt hd' hf'
    have hlt := (List.getElem?_eq_some_iff.mp hget).1
    exact ⟨(List.getElem?_inj hlt h.distinct).mp (hget.trans hget'.symm), rfl⟩
  taken f := by
    rintro ⟨d, hd, p, hf⟩
    exact h.taken f (List.mem_of_getElem? (h.mem_of_tableAt hd hf).2)
  low := h.low
  flat d hd p f i hf := by
    obtain ⟨-, hf⟩ := h.mem_of_tableAt (by omega) hf
    interval_cases d
    · cases hf
      rw [h.pml4]
      split <;> rfl
    · cases hf
      rw [h.pdpt]
      split <;> rfl

theorem onPath_two (a : ℕ) : m.onPath 2 a = if pathTo a 2 = 0 then directEntry (indexOf a 1) else {} := by
  have hat := h.tableAt_eq (d := 2) (by omega) (pathTo a 2)
  split
  · rename_i ha
    rw [if_pos ha] at hat
    rw [onPath_of_tableAt hat, h.directory _ (indexOf_lt a 1)]
  · rename_i ha
    rw [if_neg ha] at hat
    exact onPath_of_none hat

theorem leaf (a : ℕ) : m.leaf a = if pathTo a 2 = 0 then (directEntry (indexOf a 1)).part (indexOf a 0) else {} := by
  have h3 : m.onPath 3 a = {} := onPath_of_none (by rw [h.tableAt_eq le_rfl]; simp)
  rw [leaf_eq, h3, h.onPath_two]
  by_cases ha : pathTo a 2 = 0
  · rw [if_pos, if_pos ha, if_pos ha]
    rw [InHuge, h.onPath_two, if_pos ha]
    exact ⟨rfl, rfl⟩
  · rw [if_neg, if_neg ha]
    rw [InHuge, h.onPath_two, if_neg ha]
    exact fun hh ↦ by cases hh.1

theorem plain : m.Plain := by
  intro d hd a hlink
  have hat := h.tableAt_eq (show d ≤ 3 by omega) (pathTo a d)
  split at hat
  · interval_cases d
    · rw [onPath_of_tableAt hat, h.pml4] at hlink ⊢
      split at hlink
      · rw [if_pos ‹_›]
        exact ⟨rfl, rfl⟩
      · cases hlink.1
    · rw [onPath_of_tableAt hat, h.pdpt] at hlink ⊢
      split at hlink
      · rw [if_pos ‹_›]
        exact ⟨rfl, rfl⟩
      · cases hlink.1
    · rw [onPath_of_tableAt hat, h.directory _ (indexOf_lt a 1)] at hlink
      cases hlink.2 rfl
  · rw [onPath_of_none hat] at hlink
    cases hlink.1

end

end DirectMap

def smallKernel : KernelImage where
  kernelStart := 0x100000
  textStart := 0x101000
  textEnd := 0x102000
  rodataStart := 0x102000
  rodataEnd := 0x103000
  dataStart := 0x103000
  dataEnd := 0x104000
  stackGuards := [0x103000]

/-- A machine before `paging_init`, with the second megabyte free. -/
def bareMemory : Memory where
  frames := ⟨fun f ↦ f < 512 || 1024 ≤ f, 0⟩
  vmalloc := ⟨[], false, Nat.zero_le _⟩
  root := 0
  tables := fun _ _ ↦ {}
  bytes := fun _ ↦ 0

def booted : Memory := (bareMemory.pagingInit smallKernel).getD bareMemory

theorem pagingInit_bareMemory : bareMemory.pagingInit smallKernel = some booted := by
  have hsome : (bareMemory.pagingInit smallKernel).isSome = true := by decide +kernel
  obtain ⟨m, hm⟩ := Option.isSome_iff_exists.mp hsome
  rw [booted, hm]
  rfl

end Memory

end Eris.Mm
