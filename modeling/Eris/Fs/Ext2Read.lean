import Eris.Fs.Ext2Layout

namespace Eris.Fs.Ext2

open Block Library.Bytes Library.Words

variable {dev : Device} {frames : Frames} {disk : DiskInode} {offset length index : ℕ}

namespace WellFormed

section

variable (h : WellFormed dev)

include h

theorem fits (block : ℕ) : Fits dev block := by
  apply fits_of_le
  rw [h.mounted_blockSize]
  obtain hsize | hsize | hsize := h.blockSize_cases <;> rw [hsize] <;> decide

theorem blockSize_pos : 0 < blockSizeOn dev := by
  obtain hsize | hsize | hsize := h.blockSize_cases <;> rw [hsize] <;> decide

theorem readable_block {block : ℕ} (hblock : block < (superOn dev).blockCount) :
    dev.Readable (block * blockSizeOn dev) (blockSizeOn dev) := by
  have hle := Nat.mul_le_mul_right (blockSizeOn dev) hblock
  rw [Nat.succ_mul] at hle
  exact h.readable_inside hle

theorem readBlock_eq (hframes : frames.Available) {block : ℕ} (hblock : block < (superOn dev).blockCount) :
    (mountedOn dev).readBlock frames block =
      .ok (some (span dev.bytes (block * blockSizeOn dev) (blockSizeOn dev))) := by
  have hcount : (superOn dev).blockCount < 2 ^ 32 := field_lt ..
  rw [Ext2.readBlock_eq dev (hblock.trans hcount), if_neg fun hleaves ↦ hleaves.2 (h.fits block), if_pos hframes.page,
    blockAt, h.mounted_blockSize, if_pos (h.readable_block hblock)]

theorem pointerAt_eq (hroom : index < 12 + blockSizeOn dev / 4)
    (htable : 12 ≤ index → 0 < disk.indirect ∧ disk.indirect < (superOn dev).blockCount) :
    pointerAt dev disk index = pointerOn dev disk index := by
  rw [pointerAt, pointerOn, h.mounted_blockSize]
  by_cases hdirect : index < 12
  · rw [if_pos hdirect, if_pos hdirect]
  · obtain ⟨hpos, hcount⟩ := htable (Nat.not_lt.mp hdirect)
    have hindirect : Indirect dev disk index := by
      refine ⟨Nat.not_lt.mp hdirect, ?_, hpos.ne'⟩
      rw [h.mounted_blockSize]
      omega
    rw [if_neg hdirect, if_neg hdirect, if_pos ⟨hindirect, h.readable_block hcount⟩]

theorem blockFor_eq (hframes : frames.Available) (index : ℕ) :
    (mountedOn dev).blockFor frames disk index = .ok (pointerAt dev disk index) := by
  have hpages : frames.page = true ∧ (frames.below 0).page = true := ⟨hframes.page, (hframes.below 0).page⟩
  simp only [Ext2.blockFor_eq, hpages, h.fits, and_self, if_true, ite_self]

theorem span_block (number : ℕ → ℕ) {position chunk : ℕ}
    (hchunk : position % blockSizeOn dev + chunk ≤ blockSizeOn dev) :
    ((span dev.bytes (number (position / blockSizeOn dev) * blockSizeOn dev) (blockSizeOn dev)).drop
      (position % blockSizeOn dev)).take chunk =
      span (fun p ↦ dev.bytes (number (p / blockSizeOn dev) * blockSizeOn dev + p % blockSizeOn dev)) position chunk := by
  rw [take_drop_span hchunk]
  refine span_congr fun k hk ↦ ?_
  have hsplit := Nat.div_add_mod position (blockSizeOn dev)
  obtain ⟨hdiv, hmod⟩ := (Nat.div_mod_unique h.blockSize_pos).mpr
    (⟨by omega, by omega⟩ : position % blockSizeOn dev + k + blockSizeOn dev * (position / blockSizeOn dev) =
      position + k ∧ position % blockSizeOn dev + k < blockSizeOn dev)
  rw [hdiv, hmod, Nat.add_assoc]

end

end WellFormed

def byteAt (dev : Device) (disk : DiskInode) (position : ℕ) : UInt8 :=
  dev.bytes (pointerAt dev disk (position / blockSizeOn dev) * blockSizeOn dev + position % blockSizeOn dev)

section

variable (h : WellFormed dev) (hframes : frames.Available)
  (hcount : ∀ index, index * blockSizeOn dev < disk.size → pointerAt dev disk index < (superOn dev).blockCount)

include h hframes hcount

theorem readFrom_spec (hend : offset + length ≤ disk.size) {fuel done : ℕ} (hdone : done ≤ length)
    (hfuel : length ≤ done + fuel) : ∃ n, done ≤ n ∧ n ≤ length ∧
      (mountedOn dev).readFrom frames disk offset length fuel (span (byteAt dev disk) offset done) =
        .ok (span (byteAt dev disk) offset n) ∧
      (∀ p, offset + done ≤ p → p < offset + n → pointerAt dev disk (p / blockSizeOn dev) ≠ 0) ∧
      (n = length ∨ n < length ∧ pointerAt dev disk ((offset + n) / blockSizeOn dev) = 0) := by
  induction fuel generalizing done with
  | zero =>
    obtain rfl : done = length := by omega
    exact ⟨done, le_rfl, le_rfl, rfl, fun p hp hlt ↦ by omega, .inl rfl⟩
  | succ fuel ih =>
    rw [Ext2Fs.readFrom, length_span]
    split
    · rename_i hmore
      have hpos := h.blockSize_pos
      have hsize : disk.size < 2 ^ 32 := field_lt ..
      have hindex : (offset + done) / blockSizeOn dev * blockSizeOn dev < disk.size :=
        (Nat.div_mul_le_self ..).trans_lt (by omega)
      have hinside : (offset + done) % blockSizeOn dev < blockSizeOn dev := Nat.mod_lt _ hpos
      have hu32 : (offset + done) / blockSizeOn dev % 2 ^ 32 = (offset + done) / blockSizeOn dev :=
        Nat.mod_eq_of_lt ((Nat.div_le_self ..).trans_lt (by omega))
      rw [h.mounted_blockSize, if_neg hpos.ne', hu32, h.blockFor_eq ((hframes.below done).below 0)]
      dsimp only [Bind.bind, Except.bind]
      by_cases hzero : pointerAt dev disk ((offset + done) / blockSizeOn dev) = 0
      · rw [if_pos hzero]
        exact ⟨done, le_rfl, hdone, rfl, fun p hp hlt ↦ by omega, .inr ⟨hmore, hzero⟩⟩
      · rw [if_neg hzero, h.readBlock_eq ((hframes.below done).below 1) (hcount _ hindex)]
        dsimp only
        generalize hchunk : (if length - done < blockSizeOn dev - (offset + done) % blockSizeOn dev then length - done
          else blockSizeOn dev - (offset + done) % blockSizeOn dev) = chunk
        have hle : 0 < chunk ∧ done + chunk ≤ length ∧ (offset + done) % blockSizeOn dev + chunk ≤ blockSizeOn dev := by
          split at hchunk <;> omega
        obtain ⟨n, hn, hlength, hread, hblocks, hlast⟩ := ih hle.2.1 (by omega)
        refine ⟨n, by omega, hlength, ?_, fun p hp hlt ↦ ?_, hlast⟩
        · rw [h.span_block (pointerAt dev disk) hle.2.2, ← hread, span_add]
          rfl
        · by_cases hchunk : p < offset + (done + chunk)
          · have hsame : p / blockSizeOn dev = (offset + done) / blockSizeOn dev := by
              have hsplit := Nat.div_add_mod (offset + done) (blockSizeOn dev)
              exact ((Nat.div_mod_unique hpos).mpr (⟨by omega, by omega⟩ :
                (p - (offset + done) + (offset + done) % blockSizeOn dev) +
                  blockSizeOn dev * ((offset + done) / blockSizeOn dev) = p ∧ _ < blockSizeOn dev)).1
            rwa [hsame]
          · exact hblocks p (Nat.not_lt.mp hchunk) hlt
    · obtain rfl : done = length := by omega
      exact ⟨done, le_rfl, le_rfl, rfl, fun p hp hlt ↦ by omega, .inl rfl⟩

theorem read_spec (offset length : ℕ) : ∃ n ≤ min length (disk.size - offset),
      (mountedOn dev).read frames disk offset length = .ok ((n : ℤ), span (byteAt dev disk) offset n) ∧
      (∀ p, offset ≤ p → p < offset + n → pointerAt dev disk (p / blockSizeOn dev) ≠ 0) ∧
      (n = min length (disk.size - offset) ∨
        n < min length (disk.size - offset) ∧ pointerAt dev disk ((offset + n) / blockSizeOn dev) = 0) := by
  rw [Ext2Fs.read]
  split
  · rename_i hpast
    rw [Nat.sub_eq_zero_of_le hpast, Nat.min_zero]
    exact ⟨0, le_rfl, rfl, fun p hp hlt ↦ by omega, .inl rfl⟩
  · have hmin : (if disk.size - offset < length then disk.size - offset else length) =
        min length (disk.size - offset) := by
      split <;> omega
    rw [if_pos hframes.page, hmin]
    dsimp only [Bind.bind, Except.bind]
    obtain ⟨n, -, hn, hread, hblocks, hlast⟩ := readFrom_spec h hframes hcount
      (by omega : offset + min length (disk.size - offset) ≤ disk.size) (Nat.zero_le _)
      (by omega : min length (disk.size - offset) ≤ 0 + min length (disk.size - offset))
    rw [span_zero] at hread
    refine ⟨n, hn, ?_, hblocks, hlast⟩
    rw [hread]
    dsimp only
    rw [length_span]
    rfl

end

/-- On a well-formed file system inodes and files are read as the format lays them out. -/
theorem read_layout (h : WellFormed dev) (hframes : frames.Available) (fs : Ext2Fs) :
    fs.mount frames dev = .ok (true, mountedOn dev) ∧ (∀ number, 0 < number → number ≤ (superOn dev).inodeCount →
      (mountedOn dev).readInode frames number = .ok (some (inodeOn dev number))) ∧
    ∀ disk, Mapped dev disk → ∀ offset length, (mountedOn dev).read frames disk offset length =
      .ok (((min length (disk.size - offset) : ℕ) : ℤ), span (byteOn dev disk) offset (min length (disk.size - offset))) := by
  refine ⟨h.mount_eq fs hframes.page, fun number hpos hle ↦ ?_, fun disk hmapped offset length ↦ ?_⟩
  · have hnumber := hle.trans_lt (field_lt ..)
    rw [readInode_eq h.inodesPerGroup hnumber, if_pos ⟨(hframes.below 0).page, (hframes.below 1).page⟩,
      h.inodeAt_eq hpos hle]
  · have hpointer : ∀ index, index * blockSizeOn dev < disk.size → pointerAt dev disk index = pointerOn dev disk index :=
      fun index hindex ↦ h.pointerAt_eq (Nat.lt_of_mul_lt_mul_right (hindex.trans_le hmapped.size_le)) fun hle ↦
        hmapped.indirect ((Nat.mul_le_mul_right _ hle).trans_lt hindex)
    have hinside : ∀ {p n : ℕ}, n ≤ min length (disk.size - offset) → p < offset + n → offset ≤ p →
        p / blockSizeOn dev * blockSizeOn dev < disk.size :=
      fun hn hp hle ↦ (Nat.div_mul_le_self ..).trans_lt (by omega)
    obtain ⟨n, hn, hread, -, rfl | ⟨hlt, hzero⟩⟩ := read_spec h hframes
      (fun index hindex ↦ (hpointer index hindex).trans_lt (hmapped.pointers index hindex).2) offset length
    · rw [hread]
      congr 2
      refine span_congr fun k hk ↦ ?_
      rw [byteAt, byteOn, hpointer _ (hinside le_rfl (by omega) (by omega))]
    · have hindex := hinside hlt (Nat.lt_succ_self (offset + n)) (Nat.le_add_right _ _)
      rw [hpointer _ hindex] at hzero
      exact absurd hzero (hmapped.pointers _ hindex).1.ne'

/-- A file system of blocks of 1024 bytes with a file whose last bytes are in an indirect block. -/
def indirectImage : Device where
  readable _ := true
  bytes
    | 1024 => 8
    | 1028 => 32
    | 1044 => 1
    | 1056 => 64
    | 1064 => 8
    | 1080 => 0x53
    | 1081 => 0xEF
    | 1100 => 1
    | 1112 => 128
    | 2056 => 3
    | 3332 => 4
    | 3333 => 48
    | 3416 => 24
    | 22526 => 7
    | 22527 => 8
    | 24576 => 25
    | 25600 => 9
    | 25601 => 10
    | address => if 3368 ≤ address ∧ address < 3416 ∧ address % 4 = 0 then (10 + (address - 3368) / 4).toUInt8 else 0

theorem read_layout_indirect : (mountedOn indirectImage).read (fun _ ↦ true) (inodeOn indirectImage 3) 12286 10 =
    .ok (6, [7, 8, 9, 10, 0, 0]) := by
  have hwell : WellFormed indirectImage :=
    ⟨by decide +kernel, by decide +kernel, by decide +kernel, by decide +kernel, by decide +kernel, by decide +kernel,
      by decide +kernel, by decide +kernel, by decide +kernel, fun _ _ ↦ rfl⟩
  have hmapped : Mapped indirectImage (inodeOn indirectImage 3) := by
    refine ⟨by decide +kernel, by decide +kernel, fun index hindex ↦ ?_⟩
    have hsize : (inodeOn indirectImage 3).size = 12292 := by decide +kernel
    have hblock : blockSizeOn indirectImage = 1024 := by decide +kernel
    have hlt : index < 13 := by
      rw [hsize, hblock] at hindex
      omega
    clear hindex hsize hblock
    revert index
    decide +kernel
  have hframes : Frames.Available fun _ ↦ true := fun _ ↦ rfl
  obtain ⟨-, -, hread⟩ := read_layout hwell hframes (mountedOn indirectImage)
  rw [hread _ hmapped]
  decide +kernel

end Eris.Fs.Ext2
