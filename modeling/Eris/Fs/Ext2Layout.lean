import Eris.Fs.Ext2

namespace Eris.Fs.Ext2

open Block Library.Bytes Library.Words Device

def allFrames : Frames := fun _ ↦ true

/-! Where the format puts things on a device. -/

section Layout

variable (dev : Device)

def superOn : Superblock := ⟨span dev.bytes superblockOffset superblockSize, length_span ..⟩

def blockSizeOn : ℕ := 1024 * 2 ^ (superOn dev).logBlockSize

def inodeSizeOn : ℕ := if (superOn dev).revision = 0 then 128 else (superOn dev).inodeSize

def groupsOn : ℕ := ((superOn dev).blockCount - (superOn dev).firstDataBlock) ⌈/⌉ (superOn dev).blocksPerGroup

def inodeTableOn (group : ℕ) : ℕ :=
  field (span dev.bytes (((superOn dev).firstDataBlock + 1) * blockSizeOn dev + group * descriptorSize) descriptorSize) 8 4

def inodeOn (number : ℕ) : DiskInode where
  raw := span dev.bytes (inodeTableOn dev ((number - 1) / (superOn dev).inodesPerGroup) * blockSizeOn dev +
    (number - 1) % (superOn dev).inodesPerGroup * inodeSizeOn dev) diskInodeSize

def pointerOn (disk : DiskInode) (index : ℕ) : ℕ :=
  if index < 12 then disk.direct index
  else fromBytes (span dev.bytes (disk.indirect * blockSizeOn dev + 4 * (index - 12)) 4)

def byteOn (disk : DiskInode) (position : ℕ) : UInt8 :=
  dev.bytes (pointerOn dev disk (position / blockSizeOn dev) * blockSizeOn dev + position % blockSizeOn dev)

/-- The tables lie inside the file system, and all of it can be read. -/
structure WellFormed : Prop where
  magic : (superOn dev).magic = ext2Magic
  small : (superOn dev).logBlockSize ≤ 2
  blocksPerGroup : 0 < (superOn dev).blocksPerGroup
  inodesPerGroup : 0 < (superOn dev).inodesPerGroup
  firstDataBlock : (superOn dev).firstDataBlock = if blockSizeOn dev = 1024 then 1 else 0
  inodeSize : 128 ≤ inodeSizeOn dev
  inodeCount : (superOn dev).inodeCount ≤ groupsOn dev * (superOn dev).inodesPerGroup
  descriptors : ((superOn dev).firstDataBlock + 1) * blockSizeOn dev + groupsOn dev * descriptorSize ≤
    (superOn dev).blockCount * blockSizeOn dev
  tables : ∀ group < groupsOn dev, inodeTableOn dev group * blockSizeOn dev +
    (superOn dev).inodesPerGroup * inodeSizeOn dev ≤ (superOn dev).blockCount * blockSizeOn dev
  readable : dev.Readable 0 ((superOn dev).blockCount * blockSizeOn dev)

/-- A file that direct blocks and one indirect block are enough for, without holes. -/
structure Mapped (disk : DiskInode) : Prop where
  size_le : disk.size ≤ (12 + blockSizeOn dev / 4) * blockSizeOn dev
  indirect : 12 * blockSizeOn dev < disk.size → 0 < disk.indirect ∧ disk.indirect < (superOn dev).blockCount
  pointers : ∀ index, index * blockSizeOn dev < disk.size →
    0 < pointerOn dev disk index ∧ pointerOn dev disk index < (superOn dev).blockCount

def mountedOn : Ext2Fs where
  device := some dev
  super := superOn dev
  blockSize := 1024 <<< ((superOn dev).logBlockSize % 32) % 2 ^ 32
  inodeSize := if 1 ≤ (superOn dev).revision ∧ (superOn dev).inodeSize ≠ 0 then (superOn dev).inodeSize else 128
  groupCount := ((superOn dev).blockCount + (superOn dev).blocksPerGroup - 1) % 2 ^ 32 / (superOn dev).blocksPerGroup

/-- Where the descriptor of the group of an inode is read, whatever the device holds. -/
def descriptorPlace (number : ℕ) : ℕ :=
  (if (mountedOn dev).blockSize = 1024 then 2 else 1) * (mountedOn dev).blockSize +
    (number - 1) / (superOn dev).inodesPerGroup * descriptorSize

def inodePlace (number : ℕ) : ℕ :=
  field (span dev.bytes (descriptorPlace dev number) descriptorSize) 8 4 * (mountedOn dev).blockSize +
    (number - 1) % (superOn dev).inodesPerGroup * (mountedOn dev).inodeSize

def inodeAt (number : ℕ) : Option DiskInode :=
  if number ≠ 0 ∧ dev.Readable (descriptorPlace dev number) descriptorSize ∧
    dev.Readable (inodePlace dev number) diskInodeSize then
    some ⟨span dev.bytes (inodePlace dev number) diskInodeSize⟩
  else none

def Fits (block : ℕ) : Prop :=
  ¬ (pageSize < (mountedOn dev).blockSize ∧ dev.Readable (block * (mountedOn dev).blockSize) (pageSize + 1))

instance (block : ℕ) : Decidable (Fits dev block) := inferInstanceAs (Decidable (¬ (_ ∧ _)))

def blockAt (block : ℕ) : Option (List UInt8) :=
  if dev.Readable (block * (mountedOn dev).blockSize) (mountedOn dev).blockSize then
    some (span dev.bytes (block * (mountedOn dev).blockSize) (mountedOn dev).blockSize)
  else none

def Indirect (disk : DiskInode) (index : ℕ) : Prop :=
  12 ≤ index ∧ index - 12 < (mountedOn dev).blockSize / 4 ∧ disk.indirect ≠ 0

instance (disk : DiskInode) (index : ℕ) : Decidable (Indirect dev disk index) := inferInstanceAs (Decidable (_ ∧ _ ∧ _))

def pointerAt (disk : DiskInode) (index : ℕ) : ℕ :=
  if index < 12 then disk.direct index
  else if Indirect dev disk index ∧ dev.Readable (disk.indirect * (mountedOn dev).blockSize) (mountedOn dev).blockSize then
    fromBytes (span dev.bytes (disk.indirect * (mountedOn dev).blockSize + 4 * (index - 12)) 4)
  else 0

end Layout

variable {dev : Device} {frames : Frames} {fs : Ext2Fs} {disk : DiskInode}

theorem Superblock.overwritten_eq (super : Superblock)
    (hok : (dev.readBytes frames superblockOffset superblockSize).1 = true) :
    super.overwritten (dev.readBytes frames superblockOffset superblockSize).2
      (length_readBytes_le (by decide)) = superOn dev := by
  obtain ⟨-, -, hout⟩ := readBytes_eq_true (by decide) hok
  refine Superblock.ext ?_
  change _ ++ List.drop _ _ = _
  rw [hout, List.drop_eq_nil_of_le (by rw [length_span, super.length_raw]), List.append_nil]
  rfl

theorem Ext2Fs.mount_eq (fs : Ext2Fs) (hpage : frames.page = true)
    (hread : dev.Readable superblockOffset superblockSize) (hmagic : (superOn dev).magic = ext2Magic) :
    fs.mount frames dev =
      if (superOn dev).blocksPerGroup = 0 then .error .divideByZero else .ok (true, mountedOn dev) := by
  have hok : (dev.readBytes frames superblockOffset superblockSize).1 = true := by
    rw [readBytes_of_readable hpage (by decide) hread]
  rw [mount, fs.super.overwritten_eq hok, if_pos ⟨hok, hmagic⟩]
  rfl

theorem Ext2Fs.mount_eq_false (fs : Ext2Fs) (h : ¬ (frames.page = true ∧ dev.Readable superblockOffset superblockSize ∧
    (superOn dev).magic = ext2Magic)) : ∃ fs', fs.mount frames dev = .ok (false, fs') := by
  have hnot : ¬ ((dev.readBytes frames superblockOffset superblockSize).1 = true ∧
      (fs.super.overwritten (dev.readBytes frames superblockOffset superblockSize).2
        (length_readBytes_le (by decide))).magic = ext2Magic) := by
    rintro ⟨hok, hmagic⟩
    obtain ⟨hpage, hread, -⟩ := readBytes_eq_true (by decide) hok
    rw [fs.super.overwritten_eq hok] at hmagic
    exact h ⟨hpage, hread, hmagic⟩
  rw [mount, if_neg hnot]
  exact ⟨_, rfl⟩

theorem mounted_device (dev : Device) : (mountedOn dev).device = some dev := rfl

theorem mounted_super (dev : Device) : (mountedOn dev).super = superOn dev := rfl

theorem mounted_blockSize_le (dev : Device) : (mountedOn dev).blockSize ≤ 2 ^ 31 := by
  have hlt : (superOn dev).logBlockSize % 32 < 32 := Nat.mod_lt _ (by decide)
  change 1024 <<< ((superOn dev).logBlockSize % 32) % 2 ^ 32 ≤ 2 ^ 31
  interval_cases (superOn dev).logBlockSize % 32 <;> decide

theorem mounted_inodeSize_lt (dev : Device) : (mountedOn dev).inodeSize < 2 ^ 16 := by
  change (if _ then _ else _) < _
  split
  · exact field_lt ..
  · decide

theorem descriptorPlace_le {number : ℕ} (hnumber : number < 2 ^ 32) :
    descriptorPlace dev number + descriptorSize ≤ 2 ^ 64 := by
  have hsize := mounted_blockSize_le dev
  have hgroup : (number - 1) / (superOn dev).inodesPerGroup ≤ number - 1 := Nat.div_le_self ..
  have hdescriptor : descriptorSize = 32 := rfl
  rw [descriptorPlace, hdescriptor]
  split <;> omega

theorem inodePlace_le (hgroup : 0 < (superOn dev).inodesPerGroup) (number : ℕ) :
    inodePlace dev number + diskInodeSize ≤ 2 ^ 64 := by
  have htable : field (span dev.bytes (descriptorPlace dev number) descriptorSize) 8 4 < 2 ^ 32 := field_lt ..
  have hindex : (number - 1) % (superOn dev).inodesPerGroup < 2 ^ 32 :=
    (Nat.mod_lt _ hgroup).trans (field_lt (superOn dev).raw 40 4)
  have hblocks := Nat.mul_le_mul htable.le (mounted_blockSize_le dev)
  have hinodes := Nat.mul_le_mul hindex.le (mounted_inodeSize_lt dev).le
  have hdisk : diskInodeSize = 100 := rfl
  rw [inodePlace]
  omega

theorem readInode_eq (hgroup : 0 < (superOn dev).inodesPerGroup) {number : ℕ} (hnumber : number < 2 ^ 32)
    (frames : Frames) : (mountedOn dev).readInode frames number =
      .ok (if (frames.below 0).page = true ∧ (frames.below 1).page = true then inodeAt dev number else none) := by
  have hnone : ((frames.below 0).page = true ∧ (frames.below 1).page = true →
      ¬ (number ≠ 0 ∧ dev.Readable (descriptorPlace dev number) descriptorSize ∧
        dev.Readable (inodePlace dev number) diskInodeSize)) →
      (if (frames.below 0).page = true ∧ (frames.below 1).page = true then inodeAt dev number else none) = none := by
    intro hnot
    split
    · rename_i hpages
      exact if_neg (hnot hpages)
    · rfl
  by_cases hzero : number = 0
  · rw [hnone fun _ h ↦ h.1 hzero, hzero]
    rfl
  · rw [Ext2Fs.readInode, mounted_device]
    dsimp only
    rw [if_neg hzero, mounted_super, if_neg hgroup.ne', ← descriptorPlace]
    obtain ⟨⟨hpage, hread⟩, hok⟩ | ⟨hnot, out, hfail⟩ :=
      dev.readBytes_cases (frames.below 0) (descriptorPlace_le hnumber)
    · rw [hok]
      dsimp only
      rw [← inodePlace]
      obtain ⟨⟨hpage', hread'⟩, hok'⟩ | ⟨hnot', out, hfail'⟩ :=
        dev.readBytes_cases (frames.below 1) (inodePlace_le hgroup number)
      · rw [hok', if_pos ⟨hpage, hpage'⟩, inodeAt, if_pos ⟨hzero, hread, hread'⟩]
        rfl
      · rw [hfail', hnone fun h h' ↦ hnot' ⟨h.2, h'.2.2⟩]
        rfl
    · rw [hfail, hnone fun h h' ↦ hnot ⟨h.1, h'.2.1⟩]
      rfl

theorem readBlock_eq (dev : Device) {block : ℕ} (hblock : block < 2 ^ 32) (frames : Frames) :
    (mountedOn dev).readBlock frames block = if frames.page = true ∧ ¬ Fits dev block then .error .outsidePage
      else .ok (if frames.page = true then blockAt dev block else none) := by
  have hend : block * (mountedOn dev).blockSize + (mountedOn dev).blockSize ≤ 2 ^ 64 := by
    have hmul := Nat.mul_le_mul hblock (mounted_blockSize_le dev)
    rw [Nat.succ_mul] at hmul
    omega
  have hlong : pageSize < (dev.readBytes frames (block * (mountedOn dev).blockSize) (mountedOn dev).blockSize).2.length ↔
      frames.page = true ∧ ¬ Fits dev block := by
    rw [lt_length_readBytes hend, Fits, not_not]
  rw [Ext2Fs.readBlock, mounted_device]
  dsimp only
  by_cases hleaves : frames.page = true ∧ ¬ Fits dev block
  · rw [if_pos (hlong.mpr hleaves), if_pos hleaves]
  · rw [if_neg (mt hlong.mp hleaves), if_neg hleaves]
    obtain ⟨⟨hpage, hread⟩, hok⟩ | ⟨hnot, out, hfail⟩ := dev.readBytes_cases frames hend
    · rw [hok, if_pos hpage, blockAt, if_pos hread]
      rfl
    · rw [hfail]
      by_cases hpage : frames.page = true
      · rw [if_pos hpage, blockAt, if_neg fun hread ↦ hnot ⟨hpage, hread⟩]
        rfl
      · rw [if_neg hpage]
        rfl

theorem direct_lt (disk : DiskInode) (index : ℕ) : disk.direct index < 2 ^ 32 := field_lt ..

theorem indirect_lt (disk : DiskInode) : disk.indirect < 2 ^ 32 := field_lt ..

theorem fits_of_le (h : (mountedOn dev).blockSize ≤ pageSize) (block : ℕ) : Fits dev block :=
  fun hleaves ↦ Nat.not_lt.mpr h hleaves.1

theorem length_blockAt {block : ℕ} {bytes : List UInt8} (h : blockAt dev block = some bytes) :
    bytes.length = (mountedOn dev).blockSize := by
  obtain ⟨-, h⟩ := Option.ite_none_right_eq_some.mp h
  cases h
  exact length_span ..

theorem blockFor_eq (disk : DiskInode) (index : ℕ) (frames : Frames) :
    (mountedOn dev).blockFor frames disk index = if Indirect dev disk index then
        if frames.page = true ∧ (frames.below 0).page = true then
          if Fits dev disk.indirect then .ok (pointerAt dev disk index) else .error .outsidePage
        else .ok 0
      else .ok (pointerAt dev disk index) := by
  rw [Ext2Fs.blockFor]
  by_cases hdirect : index < 12
  · have hnot : ¬ Indirect dev disk index := fun h ↦ Nat.not_le.mpr hdirect h.1
    rw [if_pos hdirect, if_neg hnot, pointerAt, if_pos hdirect]
    rfl
  · rw [if_neg hdirect]
    by_cases hindirect : Indirect dev disk index
    · have hnull : ¬ ((mountedOn dev).blockSize / 4 ≤ index - 12 ∨ disk.indirect = 0) := by
        rintro (hroom | hnull)
        · exact Nat.not_lt.mpr hroom hindirect.2.1
        · exact hindirect.2.2 hnull
      have htable := readBlock_eq dev (indirect_lt disk) (frames.below 0)
      rw [if_neg hnull, if_pos hindirect]
      by_cases hpage : frames.page = true
      · rw [if_pos hpage]
        by_cases hpage' : (frames.below 0).page = true
        · rw [if_pos ⟨hpage, hpage'⟩]
          by_cases hfits : Fits dev disk.indirect
          · rw [if_neg fun h ↦ h.2 hfits, if_pos hpage', blockAt] at htable
            rw [if_pos hfits, htable, pointerAt, if_neg hdirect]
            by_cases hread : dev.Readable (disk.indirect * (mountedOn dev).blockSize) (mountedOn dev).blockSize
            · rw [if_pos hread, if_pos ⟨hindirect, hread⟩]
              have hinside : 4 * (index - 12) + 4 ≤ (mountedOn dev).blockSize := by
                omega
              dsimp only [Bind.bind, Except.bind]
              rw [slice_of_le (by rwa [length_span]), take_drop_span hinside]
              rfl
            · rw [if_neg hread, if_neg fun h ↦ hread h.2]
              rfl
          · rw [if_pos ⟨hpage', hfits⟩] at htable
            rw [htable, if_neg hfits]
            rfl
        · rw [if_neg fun h ↦ hpage' h.1, if_neg hpage'] at htable
          rw [htable, if_neg fun h ↦ hpage' h.2]
          rfl
      · rw [if_neg hpage, if_neg fun h ↦ hpage h.1]
        rfl
    · have hnull : (mountedOn dev).blockSize / 4 ≤ index - 12 ∨ disk.indirect = 0 := by
        by_contra hnull
        obtain ⟨hroom, hnull⟩ := not_or.mp hnull
        exact hindirect ⟨Nat.not_lt.mp hdirect, Nat.not_le.mp hroom, hnull⟩
      rw [if_pos hnull, if_neg hindirect, pointerAt, if_neg hdirect, if_neg fun h ↦ hindirect h.1]
      rfl

section

variable (h : WellFormed dev)

include h

theorem WellFormed.blockSize_cases : blockSizeOn dev = 1024 ∨ blockSizeOn dev = 2048 ∨ blockSizeOn dev = 4096 := by
  have hsmall := h.small
  rw [blockSizeOn]
  interval_cases (superOn dev).logBlockSize
  · exact .inl rfl
  · exact .inr (.inl rfl)
  · exact .inr (.inr rfl)

theorem WellFormed.mounted_blockSize : (mountedOn dev).blockSize = blockSizeOn dev := by
  have hsmall := h.small
  rw [blockSizeOn, mountedOn]
  interval_cases (superOn dev).logBlockSize <;> rfl

theorem WellFormed.mounted_inodeSize : (mountedOn dev).inodeSize = inodeSizeOn dev := by
  have hsize := h.inodeSize
  rw [inodeSizeOn] at hsize ⊢
  rw [mountedOn]
  split at hsize
  · rename_i hrevision
    rw [if_neg (by omega), if_pos hrevision]
  · rename_i hrevision
    rw [if_pos (by omega), if_neg hrevision]

theorem WellFormed.readable_inside {offset length : ℕ}
    (hle : offset + length ≤ (superOn dev).blockCount * blockSizeOn dev) : dev.Readable offset length := by
  obtain ⟨-, hread⟩ := readable_add.mp (h.readable.mono hle)
  rwa [Nat.zero_add] at hread

theorem WellFormed.mount_eq (fs : Ext2Fs) (hpage : frames.page = true) :
    fs.mount frames dev = .ok (true, mountedOn dev) := by
  have hsuper : superblockOffset + superblockSize ≤ (superOn dev).blockCount * blockSizeOn dev := by
    have hfirst := h.firstDataBlock
    have hoffset : superblockOffset + superblockSize ≤ ((superOn dev).firstDataBlock + 1) * blockSizeOn dev := by
      obtain hsize | hsize | hsize := h.blockSize_cases <;> rw [hfirst, hsize] <;> decide
    have hdescriptors := h.descriptors
    omega
  rw [fs.mount_eq hpage (h.readable_inside hsuper) h.magic, if_neg h.blocksPerGroup.ne']

theorem WellFormed.group_lt {number : ℕ} (hpos : 0 < number) (hle : number ≤ (superOn dev).inodeCount) :
    (number - 1) / (superOn dev).inodesPerGroup < groupsOn dev := by
  have hcount := h.inodeCount
  exact Nat.div_lt_of_lt_mul (by rw [Nat.mul_comm]; omega)

theorem WellFormed.inodeAt_eq {number : ℕ} (hpos : 0 < number) (hle : number ≤ (superOn dev).inodeCount) :
    inodeAt dev number = some (inodeOn dev number) := by
  have hgroup := h.group_lt hpos hle
  have hfirst : (superOn dev).firstDataBlock + 1 = if blockSizeOn dev = 1024 then 2 else 1 := by
    rw [h.firstDataBlock]
    split <;> rfl
  have hdescriptor : descriptorPlace dev number = ((superOn dev).firstDataBlock + 1) * blockSizeOn dev +
      (number - 1) / (superOn dev).inodesPerGroup * descriptorSize := by
    rw [descriptorPlace, h.mounted_blockSize, hfirst]
  have hplace : inodePlace dev number = inodeTableOn dev ((number - 1) / (superOn dev).inodesPerGroup) * blockSizeOn dev +
      (number - 1) % (superOn dev).inodesPerGroup * inodeSizeOn dev := by
    rw [inodePlace, hdescriptor, h.mounted_blockSize, h.mounted_inodeSize]
    rfl
  have hread : dev.Readable (descriptorPlace dev number) descriptorSize := by
    have hdescriptors := h.descriptors
    have hsucc := Nat.mul_le_mul_right descriptorSize hgroup
    rw [Nat.succ_mul] at hsucc
    exact h.readable_inside (by rw [hdescriptor]; omega)
  have hread' : dev.Readable (inodePlace dev number) diskInodeSize := by
    have htable := h.tables _ hgroup
    have hsize := h.inodeSize
    have hdisk : diskInodeSize = 100 := rfl
    have hsucc := Nat.mul_le_mul_right (inodeSizeOn dev) (Nat.mod_lt (number - 1) h.inodesPerGroup)
    rw [Nat.succ_mul] at hsucc
    exact h.readable_inside (by rw [hplace]; omega)
  rw [inodeAt, if_pos ⟨hpos.ne', hread, hread'⟩, hplace]
  rfl

end

end Eris.Fs.Ext2
