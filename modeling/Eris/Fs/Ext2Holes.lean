import Eris.Fs.Ext2Read

namespace Eris.Fs.Ext2

open Block Library.Bytes Library.Words

section Sparse

variable (dev : Device) (beyond : ℕ → ℕ) (disk : DiskInode)

/-- The number of a block of a file, which is zero in a hole. The blocks that the indirect block has no room for are
numbered elsewhere. -/
def blockOf (index : ℕ) : ℕ :=
  if index < 12 then disk.direct index
  else if index < 12 + blockSizeOn dev / 4 then if disk.indirect = 0 then 0 else pointerOn dev disk index
  else beyond index

def sparseByte (position : ℕ) : UInt8 :=
  if blockOf dev beyond disk (position / blockSizeOn dev) = 0 then 0
  else dev.bytes (blockOf dev beyond disk (position / blockSizeOn dev) * blockSizeOn dev + position % blockSizeOn dev)

/-- A file whose blocks lie inside the file system. -/
structure Sparse : Prop where
  indirect : 12 * blockSizeOn dev < disk.size → disk.indirect < (superOn dev).blockCount
  blocks : ∀ index, index * blockSizeOn dev < disk.size → index < 12 + blockSizeOn dev / 4 →
    blockOf dev beyond disk index < (superOn dev).blockCount

end Sparse

variable {dev : Device} {frames : Frames} {beyond : ℕ → ℕ} {disk : DiskInode} {index : ℕ}

theorem Sparse.pointerAt_eq (h : WellFormed dev) (hsparse : Sparse dev beyond disk)
    (hindex : index * blockSizeOn dev < disk.size) :
    pointerAt dev disk index = if index < 12 + blockSizeOn dev / 4 then blockOf dev beyond disk index else 0 := by
  rw [pointerAt, blockOf, pointerOn, h.mounted_blockSize]
  by_cases hdirect : index < 12
  · rw [if_pos hdirect, if_pos (by omega), if_pos hdirect]
  · rw [if_neg hdirect, if_neg hdirect, if_neg hdirect]
    have hindirect : Indirect dev disk index ↔ index < 12 + blockSizeOn dev / 4 ∧ disk.indirect ≠ 0 := by
      rw [Indirect, h.mounted_blockSize]
      omega
    have hcount := hsparse.indirect ((Nat.mul_le_mul_right _ (Nat.not_lt.mp hdirect)).trans_lt hindex)
    by_cases hroom : index < 12 + blockSizeOn dev / 4
    · rw [if_pos hroom, if_pos hroom]
      by_cases hzero : disk.indirect = 0
      · rw [if_pos hzero, if_neg fun hread ↦ (hindirect.mp hread.1).2 hzero]
      · rw [if_neg hzero, if_pos ⟨hindirect.mpr ⟨hroom, hzero⟩, h.readable_block hcount⟩]
    · rw [if_neg hroom, if_neg fun hread ↦ hroom (hindirect.mp hread.1).1]

/-- The bytes of a range are read, with zeros for its holes, exactly if it has no holes and the indirect block has room
for it. -/
theorem read_sparse_iff (h : WellFormed dev) (hframes : frames.Available) (hsparse : Sparse dev beyond disk)
    (offset length : ℕ) :
    (mountedOn dev).read frames disk offset length = .ok (((min length (disk.size - offset) : ℕ) : ℤ),
          span (sparseByte dev beyond disk) offset (min length (disk.size - offset))) ↔
      ∀ p, offset ≤ p → p < offset + min length (disk.size - offset) →
        p / blockSizeOn dev < 12 + blockSizeOn dev / 4 ∧ blockOf dev beyond disk (p / blockSizeOn dev) ≠ 0 := by
  have hinside : ∀ {p : ℕ}, p < offset + min length (disk.size - offset) → offset ≤ p →
      p / blockSizeOn dev * blockSizeOn dev < disk.size :=
    fun hp hle ↦ (Nat.div_mul_le_self ..).trans_lt (by omega)
  have hcount : ∀ index, index * blockSizeOn dev < disk.size → pointerAt dev disk index < (superOn dev).blockCount := by
    intro index hindex
    have hblocks := hsparse.blocks 0
    rw [hsparse.pointerAt_eq h hindex]
    split
    · rename_i hroom
      exact hsparse.blocks index hindex hroom
    · exact (Nat.zero_le _).trans_lt (hblocks (by omega) (by omega))
  have hpointer : ∀ p, offset ≤ p → p < offset + min length (disk.size - offset) →
      (pointerAt dev disk (p / blockSizeOn dev) ≠ 0 ↔
        p / blockSizeOn dev < 12 + blockSizeOn dev / 4 ∧ blockOf dev beyond disk (p / blockSizeOn dev) ≠ 0) := by
    intro p hle hp
    rw [hsparse.pointerAt_eq h (hinside hp hle), Ne, ite_eq_right_iff, Classical.not_imp]
  obtain ⟨n, hn, hread, hblocks, hlast⟩ := read_spec h hframes hcount offset length
  rw [hread]
  constructor
  · intro heq p hle hp
    have hall := congrArg Prod.fst (Except.ok.inj heq)
    exact (hpointer p hle hp).mp (hblocks p hle (by omega))
  · intro hall
    obtain rfl | ⟨hlt, hzero⟩ := hlast
    · congr 2
      refine span_congr fun k hk ↦ ?_
      have hp := hall (offset + k) (by omega) (by omega)
      rw [byteAt, sparseByte, if_neg hp.2, hsparse.pointerAt_eq h (hinside (by omega) (by omega)), if_pos hp.1]
    · exact absurd hzero ((hpointer (offset + n) (by omega) (by omega)).mpr (hall _ (by omega) (by omega)))

/-- The file of `indirectImage`, with a hole in place of its second block. -/
def sparseImage : Device where
  readable _ := true
  bytes address := if address = 3372 then 0 else indirectImage.bytes address

theorem sparseImage_wellFormed : WellFormed sparseImage :=
  ⟨by decide +kernel, by decide +kernel, by decide +kernel, by decide +kernel, by decide +kernel, by decide +kernel,
    by decide +kernel, by decide +kernel, by decide +kernel, fun _ _ ↦ rfl⟩

theorem sparseImage_sparse : Sparse sparseImage (fun _ ↦ 0) (inodeOn sparseImage 3) := by
  refine ⟨by decide +kernel, fun index hindex _ ↦ ?_⟩
  have hsize : (inodeOn sparseImage 3).size = 12292 := by decide +kernel
  have hblock : blockSizeOn sparseImage = 1024 := by decide +kernel
  clear hindex hsize hblock
  revert index
  decide +kernel

theorem read_sparse_behind :
    (mountedOn sparseImage).read (fun _ ↦ true) (inodeOn sparseImage 3) 12287 3 = .ok (3, [8, 9, 10]) := by
  have hframes : Frames.Available fun _ ↦ true := fun _ ↦ rfl
  have hiff := read_sparse_iff sparseImage_wellFormed hframes sparseImage_sparse 12287 3
  refine (hiff.mpr fun p hle hlt ↦ ?_).trans ?_
  · obtain rfl | rfl | rfl : p = 12287 ∨ p = 12288 ∨ p = 12289 := by omega
    all_goals decide +kernel
  · decide +kernel

/-- The bytes behind the hole are there, and a read that starts before it ends at it. -/
theorem read_stops : WellFormed sparseImage ∧ Sparse sparseImage (fun _ ↦ 0) (inodeOn sparseImage 3) ∧
    (inodeOn sparseImage 3).size = 12292 ∧ sparseByte sparseImage (fun _ ↦ 0) (inodeOn sparseImage 3) 12287 = 8 ∧
    (mountedOn sparseImage).read (fun _ ↦ true) (inodeOn sparseImage 3) 1023 12000 = .ok (1, [0]) :=
  ⟨sparseImage_wellFormed, sparseImage_sparse, by decide +kernel, by decide +kernel, by decide +kernel⟩

end Eris.Fs.Ext2
