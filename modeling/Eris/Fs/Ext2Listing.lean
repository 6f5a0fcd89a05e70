import Eris.Fs.Ext2Directory
import Eris.Fs.Ext2Read

namespace Eris.Fs.Ext2

open Block Library.Bytes List

def entriesIn (block : List UInt8) : List (List UInt8 × ℕ) :=
  (liveEntries block).map fun e ↦ ((block.drop (e.offset + entrySize)).take e.nameLength, e.inode)

section Directory

variable (dev : Device)

def fileBlock (disk : DiskInode) (index : ℕ) : List UInt8 :=
  span dev.bytes (pointerOn dev disk index * blockSizeOn dev) (blockSizeOn dev)

def blockTotal (disk : DiskInode) : ℕ := disk.size ⌈/⌉ blockSizeOn dev

def visited (disk : DiskInode) : ℕ := min (blockTotal dev disk) (12 + blockSizeOn dev / 4)

def listed (disk : DiskInode) : List (List UInt8 × ℕ) :=
  ((List.range (visited dev disk)).map (fileBlock dev disk)).flatMap entriesIn

/-- A directory without holes; its names lie inside their blocks and are unique. -/
structure Listable (disk : DiskInode) : Prop where
  indirect : 12 * blockSizeOn dev < disk.size → 0 < disk.indirect ∧ disk.indirect < (superOn dev).blockCount
  pointers : ∀ index < visited dev disk, 0 < pointerOn dev disk index ∧ pointerOn dev disk index < (superOn dev).blockCount
  inside : ∀ index < visited dev disk, ∀ e ∈ liveEntries (fileBlock dev disk index),
    e.offset + entrySize + e.nameLength ≤ blockSizeOn dev ∧ e.inode ≤ (superOn dev).inodeCount
  unique : ((listed dev disk).map Prod.fst).Nodup

end Directory

variable {dev : Device} {disk : DiskInode} {index : ℕ} {block name : List UInt8} {cache : List Ext2Inode}

theorem named_iff {entry : Entry} (hinside : entry.offset + entrySize + entry.nameLength ≤ block.length) :
    Named block name entry ↔ (block.drop (entry.offset + entrySize)).take entry.nameLength = name := by
  constructor
  · rintro ⟨hlength, hnamed⟩
    rw [← hlength]
    exact (prefix_iff_eq_take.mp hnamed).symm
  · rintro rfl
    refine ⟨?_, take_prefix _ _⟩
    rw [length_take, length_drop]
    omega

theorem scan_eq_lookup {fs : Ext2Fs} (hblock : block.length = fs.blockSize)
    (hinside : ∀ e ∈ liveEntries block, e.offset + entrySize + e.nameLength ≤ block.length) :
    fs.scan block name = .ok (match (entriesIn block).lookup name with | none => .inr () | some n => .inl n) := by
  rw [scan_eq hblock, entriesIn]
  generalize liveEntries block = entries at hinside
  induction entries with
  | nil => rfl
  | cons e entries ih =>
    have he := hinside e mem_cons_self
    have hcrosses : ¬ Crosses block name e := fun h ↦ Nat.not_lt.mpr he h.2.2
    rw [map_cons, lookup_cons]
    by_cases hnamed : Named block name e
    · rw [find?_cons_of_pos (by simp [hnamed]), beq_iff_eq.mpr ((named_iff he).mp hnamed).symm]
      exact if_pos hnamed
    · rw [find?_cons_of_neg (by simp [hnamed, hcrosses]),
        beq_eq_false_iff_ne.mpr fun h ↦ hnamed ((named_iff he).mpr h.symm)]
      exact ih fun e' he' ↦ hinside e' (mem_cons_of_mem _ he')

theorem lookupIn_eq {fs : Ext2Fs} (hlength : block.length = fs.blockSize)
    (hinside : ∀ e ∈ liveEntries block, e.offset + entrySize + e.nameLength ≤ block.length) (cache : List Ext2Inode) :
    fs.lookupIn allFrames name 0 cache block =
      match (entriesIn block).lookup name with
      | none => .ok (.inr cache)
      | some n => fs.openFound allFrames n cache := by
  rw [Ext2Fs.lookupIn, scan_eq_lookup hlength hinside]
  cases (entriesIn block).lookup name <;> rfl

theorem visitAll_lookupIn {fs : Ext2Fs} {blocks : List (List UInt8)} (hblocks : ∀ block ∈ blocks, block.length = fs.blockSize ∧
      ∀ e ∈ liveEntries block, e.offset + entrySize + e.nameLength ≤ block.length)
    (hunique : ((blocks.flatMap entriesIn).map Prod.fst).Nodup) (cache : List Ext2Inode) :
    visitAll (fs.lookupIn allFrames name 0) blocks cache =
      match (blocks.flatMap entriesIn).lookup name with
      | none => .ok (.inr cache)
      | some n => fs.openFound allFrames n cache := by
  induction blocks generalizing cache with
  | nil => rfl
  | cons block blocks ih =>
    have hrest : ∀ b ∈ blocks, b.length = fs.blockSize ∧
        ∀ e ∈ liveEntries b, e.offset + entrySize + e.nameLength ≤ b.length :=
      fun b hb ↦ hblocks b (mem_cons_of_mem _ hb)
    obtain ⟨hlength, hinside⟩ := hblocks block mem_cons_self
    rw [flatMap_cons] at hunique ⊢
    rw [map_append, nodup_append] at hunique
    rw [visitAll, lookupIn_eq hlength hinside, List.lookup_append]
    cases hfind : (entriesIn block).lookup name with
    | none => exact ih hrest hunique.2.1 cache
    | some n =>
      have hmem : name ∈ (entriesIn block).map Prod.fst := by
        obtain ⟨l₁, l₂, hsplit, -⟩ := lookup_eq_some_iff.mp hfind
        simp [hsplit]
      have hnone : (blocks.flatMap entriesIn).lookup name = none := by
        refine lookup_eq_none_iff.mpr fun p hp ↦ bne_iff_ne.mpr fun hname ↦ ?_
        exact hunique.2.2 name hmem p.1 (mem_map_of_mem hp) hname
      rw [Option.some_or]
      dsimp only
      cases fs.openFound allFrames n cache with
      | error fault => rfl
      | ok r =>
        cases r with
        | inl b => rfl
        | inr cache' =>
          refine (ih hrest hunique.2.1 cache').trans ?_
          rw [hnone]

theorem WellFormed.lt_blockTotal_iff (h : WellFormed dev) (index : ℕ) :
    index < blockTotal dev disk ↔ index * blockSizeOn dev < disk.size := by
  rw [← not_le, blockTotal, ceilDiv_le_iff_le_mul h.blockSize_pos, not_le, Nat.mul_comm]

theorem Listable.directoryBlock_eq (h : WellFormed dev) (hdir : Listable dev disk) :
    (∀ index < visited dev disk, directoryBlock dev disk index = some (fileBlock dev disk index)) ∧
      directoryBlock dev disk (visited dev disk) = none ∧ visited dev disk < (mountedOn dev).rounds := by
  have hsize : disk.size < 2 ^ 32 := Library.Words.field_lt ..
  refine ⟨fun index hindex ↦ ?_, ?_, ?_⟩
  · obtain ⟨htotal, hroom⟩ := lt_min_iff.mp hindex
    have hinside := (h.lt_blockTotal_iff index).mp htotal
    obtain ⟨hnonzero, hcount⟩ := hdir.pointers index hindex
    have hwrap : index * blockSizeOn dev % 2 ^ 32 < disk.size := by rwa [Nat.mod_eq_of_lt (hinside.trans hsize)]
    have hpointer := h.pointerAt_eq hroom fun hle ↦
      hdir.indirect ((Nat.mul_le_mul_right _ hle).trans_lt hinside)
    rw [directoryBlock, hpointer, h.mounted_blockSize, if_pos ⟨hwrap, hnonzero.ne'⟩, blockAt,
      h.mounted_blockSize, if_pos (h.readable_block hcount), fileBlock]
  · obtain hle | hle := le_total (12 + blockSizeOn dev / 4) (blockTotal dev disk)
    · rw [visited, min_eq_right hle]
      exact directoryBlock_eq_none (by rw [h.mounted_blockSize])
    · rw [visited, min_eq_left hle]
      refine if_neg fun hblock ↦ ?_
      have hend : disk.size ≤ blockTotal dev disk * blockSizeOn dev :=
        Nat.not_lt.mp (mt (h.lt_blockTotal_iff _).mpr (lt_irrefl _))
      have hwrap : blockTotal dev disk * blockSizeOn dev < 2 ^ 32 := by
        refine (Nat.mul_le_mul_right _ hle).trans_lt ?_
        obtain hbs | hbs | hbs := h.blockSize_cases <;> rw [hbs] <;> decide
      rw [h.mounted_blockSize, Nat.mod_eq_of_lt hwrap] at hblock
      omega
  · have hle : visited dev disk ≤ 12 + blockSizeOn dev / 4 := min_le_right _ _
    rw [Ext2Fs.rounds, h.mounted_blockSize]
    omega

theorem Listable.overBlocks_eq {α β : Type} {visit : α → List UInt8 → Except Fault (β ⊕ α)} (h : WellFormed dev)
    (hdir : Listable dev disk) (a : α) :
    (mountedOn dev).overBlocks allFrames disk (fun _ ↦ visit) (mountedOn dev).rounds 0 a =
      visitAll visit ((List.range (visited dev disk)).map (fileBlock dev disk)) a := by
  obtain ⟨hblocks, hend, hrounds⟩ := hdir.directoryBlock_eq h
  rw [range_eq_range']
  exact Ext2.overBlocks_eq (fun _ ↦ ⟨fun _ ↦ h.fits _, fun _ ↦ h.fits _⟩) (fun _ ↦ ⟨rfl, rfl, rfl⟩) hblocks hend
    (Nat.zero_add _) hrounds

theorem Listable.blocks_inside (hdir : Listable dev disk) :
    ∀ block ∈ (List.range (visited dev disk)).map (fileBlock dev disk), block.length = blockSizeOn dev ∧
      ∀ e ∈ liveEntries block, e.offset + entrySize + e.nameLength ≤ block.length := by
  intro block hblock
  obtain ⟨index, hindex, rfl⟩ := mem_map.mp hblock
  rw [fileBlock, length_span]
  exact ⟨rfl, fun e he ↦ (hdir.inside index (mem_range.mp hindex) e he).1⟩

theorem Listable.lookup_eq (h : WellFormed dev) (hdir : Listable dev disk) (hdirectory : disk.isDirectory = true)
    (name : List UInt8) (cache : List Ext2Inode) :
    (mountedOn dev).lookup allFrames disk name cache =
      match (listed dev disk).lookup name with
      | none => .ok (none, cache)
      | some child => (mountedOn dev).openInode allFrames child cache := by
  have hpage : allFrames.page = true := rfl
  have hloop : (mountedOn dev).overBlocks allFrames disk ((mountedOn dev).lookupIn allFrames name)
      (mountedOn dev).rounds 0 cache = _ := hdir.overBlocks_eq h cache
  rw [Ext2Fs.lookup, if_pos hdirectory, if_pos hpage, hloop,
    visitAll_lookupIn (by rw [h.mounted_blockSize]; exact hdir.blocks_inside) hdir.unique, ← listed]
  cases (listed dev disk).lookup name with
  | none => rfl
  | some child =>
    dsimp only
    rw [Ext2Fs.openFound]
    cases (mountedOn dev).openInode allFrames child cache with
    | error fault => rfl
    | ok r =>
      obtain ⟨node, cache'⟩ := r
      cases node <;> rfl

end Eris.Fs.Ext2
