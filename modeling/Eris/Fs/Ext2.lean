import Eris.Block.Device
import Eris.Library.Words

namespace Eris.Fs.Ext2

open Block Library.Bytes Library.Words

def ext2Magic : ℕ := 0xEF53

def superblockOffset : ℕ := 1024

def superblockSize : ℕ := 90

def descriptorSize : ℕ := 32

def diskInodeSize : ℕ := 100

def entrySize : ℕ := 8

def maxOpenInodes : ℕ := 32

def rootInode : ℕ := 2

def modeDirectory : ℕ := 0x4000

def pageSize : ℕ := 4096

/-- What must not happen: a division by zero, a write behind the page of a buffer, a read outside the block in it, and a
loop that does not end. -/
inductive Fault
  | divideByZero
  | outsidePage
  | outsideBlock
  | endless
  deriving DecidableEq

@[ext]
structure Superblock where
  raw : List UInt8
  length_raw : raw.length = superblockSize

namespace Superblock

variable (super : Superblock)

def overwritten (out : List UInt8) (h : out.length ≤ superblockSize) : Superblock where
  raw := out ++ super.raw.drop out.length
  length_raw := by
    rw [List.length_append, List.length_drop, super.length_raw]
    omega

def inodeCount : ℕ := field super.raw 0 4

def blockCount : ℕ := field super.raw 4 4

def firstDataBlock : ℕ := field super.raw 20 4

def logBlockSize : ℕ := field super.raw 24 4

def blocksPerGroup : ℕ := field super.raw 32 4

def inodesPerGroup : ℕ := field super.raw 40 4

def magic : ℕ := field super.raw 56 2

def revision : ℕ := field super.raw 76 4

def inodeSize : ℕ := field super.raw 88 2

end Superblock

structure DiskInode where
  raw : List UInt8
  deriving DecidableEq

namespace DiskInode

variable (disk : DiskInode)

def mode : ℕ := field disk.raw 0 2

def size : ℕ := field disk.raw 4 4

def direct (index : ℕ) : ℕ := field disk.raw (40 + 4 * index) 4

def indirect : ℕ := field disk.raw 88 4

def isDirectory : Bool := disk.mode &&& modeDirectory ≠ 0

end DiskInode

structure Ext2Fs where
  device : Option Device
  super : Superblock
  blockSize : ℕ
  inodeSize : ℕ
  groupCount : ℕ

structure Ext2Inode where
  number : ℕ
  disk : DiskInode
  deriving DecidableEq

/-- A directory entry by its place in the block. -/
structure Entry where
  offset : ℕ
  inode : ℕ
  length : ℕ
  nameLength : ℕ

/-- The loop over the entries of a block. What is done with an entry that is in use ends the loop or goes on. -/
def overEntries {α β : Type} (block : List UInt8) (blockSize : ℕ) (visit : α → Entry → Except Fault (β ⊕ α)) :
    ℕ → ℕ → α → Except Fault (β ⊕ α)
  | 0, _, _ => .error .endless
  | fuel + 1, offset, a =>
    if offset + entrySize < blockSize then
      match slice block offset entrySize with
      | none => .error .outsideBlock
      | some raw => do
        let entry : Entry := ⟨offset, field raw 0 4, field raw 4 2, field raw 6 1⟩
        if entry.length = 0 then return .inr a
        match ← if entry.inode ≠ 0 then visit a entry else pure (.inr a) with
        | .inl b => return .inl b
        | .inr a => overEntries block blockSize visit fuel (offset + entry.length) a
    else return .inr a

/-- `memcmp` of some bytes of a block with a name. -/
def sameAt (block : List UInt8) : List UInt8 → ℕ → Except Fault Bool
  | [], _ => return true
  | c :: name, p =>
    match block[p]? with
    | none => .error .outsideBlock
    | some b => if b = c then sameAt block name (p + 1) else return false

namespace Ext2Fs

variable (fs : Ext2Fs) (frames : Frames)

def mount (dev : Device) : Except Fault (Bool × Ext2Fs) :=
  let result := dev.readBytes frames superblockOffset superblockSize
  let super := fs.super.overwritten result.2 (Device.length_readBytes_le (by decide))
  if result.1 = true ∧ super.magic = ext2Magic then
    if super.blocksPerGroup = 0 then .error .divideByZero
    else
      return (true, {
        device := some dev
        super
        blockSize := 1024 <<< (super.logBlockSize % 32) % 2 ^ 32
        inodeSize := if 1 ≤ super.revision ∧ super.inodeSize ≠ 0 then super.inodeSize else 128
        groupCount := (super.blockCount + super.blocksPerGroup - 1) % 2 ^ 32 / super.blocksPerGroup })
  else return (false, { fs with device := none, super })

def readBlock (block : ℕ) : Except Fault (Option (List UInt8)) :=
  match fs.device with
  | none => return none
  | some dev =>
    let (ok, out) := dev.readBytes frames (block * fs.blockSize) fs.blockSize
    if pageSize < out.length then .error .outsidePage
    else return if ok then some out else none

def readInode (number : ℕ) : Except Fault (Option DiskInode) :=
  match fs.device with
  | none => return none
  | some dev =>
    if number = 0 then return none
    else if fs.super.inodesPerGroup = 0 then .error .divideByZero
    else
      let group := (number - 1) / fs.super.inodesPerGroup
      let index := (number - 1) % fs.super.inodesPerGroup
      let descriptorBlock := if fs.blockSize = 1024 then 2 else 1
      match dev.readBytes (frames.below 0) (descriptorBlock * fs.blockSize + group * descriptorSize) descriptorSize with
      | (false, _) => return none
      | (true, descriptor) =>
        let offset := field descriptor 8 4 * fs.blockSize + index * fs.inodeSize
        match dev.readBytes (frames.below 1) offset diskInodeSize with
        | (false, _) => return none
        | (true, raw) => return some ⟨raw⟩

def openInode (number : ℕ) (cache : List Ext2Inode) : Except Fault (Option Ext2Inode × List Ext2Inode) :=
  match cache.find? (·.number = number) with
  | some node => return (some node, cache)
  | none =>
    if maxOpenInodes ≤ cache.length then return (none, cache)
    else do
      match ← fs.readInode frames number with
      | none => return (none, cache)
      | some disk => return (some ⟨number, disk⟩, cache ++ [⟨number, disk⟩])

def root (cache : List Ext2Inode) : Except Fault (Option Ext2Inode × List Ext2Inode) := fs.openInode frames rootInode cache

variable (disk : DiskInode)

def blockFor (index : ℕ) : Except Fault ℕ :=
  if index < 12 then return disk.direct index
  else if fs.blockSize / 4 ≤ index - 12 ∨ disk.indirect = 0 then return 0
  else if frames.page then do
    match ← fs.readBlock (frames.below 0) disk.indirect with
    | none => return 0
    | some table =>
      match slice table (4 * (index - 12)) 4 with
      | none => .error .outsideBlock
      | some pointer => return fromBytes pointer
  else return 0

/-- The loop of `read`, with what it has delivered so far. Every round delivers a byte. -/
def readFrom (offset length : ℕ) : ℕ → List UInt8 → Except Fault (List UInt8)
  | 0, out => return out
  | fuel + 1, out =>
    if out.length < length then
      if fs.blockSize = 0 then .error .divideByZero
      else do
        let inside := (offset + out.length) % fs.blockSize
        let block ← fs.blockFor ((frames.below out.length).below 0) disk ((offset + out.length) / fs.blockSize % 2 ^ 32)
        if block = 0 then return out
        match ← fs.readBlock ((frames.below out.length).below 1) block with
        | none => return out
        | some scratch =>
          let chunk := if length - out.length < fs.blockSize - inside then length - out.length else fs.blockSize - inside
          readFrom offset length fuel (out ++ (scratch.drop inside).take chunk)
    else return out

def read (offset length : ℕ) : Except Fault (ℤ × List UInt8) :=
  if disk.size ≤ offset then return (0, [])
  else if frames.page then do
    let length := if disk.size - offset < length then disk.size - offset else length
    let out ← fs.readFrom frames disk offset length length []
    return (out.length, out)
  else return (-1, [])

def overBlocks {α β : Type} (visit : ℕ → α → List UInt8 → Except Fault (β ⊕ α)) : ℕ → ℕ → α → Except Fault (β ⊕ α)
  | 0, _, _ => .error .endless
  | fuel + 1, index, a =>
    if index * fs.blockSize % 2 ^ 32 < disk.size then do
      let number ← fs.blockFor ((frames.below index).below 0) disk index
      if number = 0 then return .inr a
      match ← fs.readBlock ((frames.below index).below 1) number with
      | none => return .inr a
      | some block =>
        match ← visit index a block with
        | .inl b => return .inl b
        | .inr a => overBlocks visit fuel (index + 1) a
    else return .inr a

def rounds : ℕ := 12 + fs.blockSize / 4 + 1

def scan (block : List UInt8) (name : List UInt8) : Except Fault (ℕ ⊕ Unit) :=
  let visit (_ : Unit) (entry : Entry) : Except Fault (ℕ ⊕ Unit) := do
    if name.length = entry.nameLength then
      if ← sameAt block name (entry.offset + entrySize) then return .inl entry.inode
    return .inr ()
  overEntries block fs.blockSize visit (fs.blockSize + 1) 0 ()

def openFound (number : ℕ) (cache : List Ext2Inode) : Except Fault (Ext2Inode × List Ext2Inode ⊕ List Ext2Inode) := do
  match ← fs.openInode frames number cache with
  | (some node, cache) => return .inl (node, cache)
  | (none, cache) => return .inr cache

/-- The work of `lookup` on one block. -/
def lookupIn (name : List UInt8) (index : ℕ) (cache : List Ext2Inode) (block : List UInt8) :
    Except Fault (Ext2Inode × List Ext2Inode ⊕ List Ext2Inode) := do
  match ← fs.scan block name with
  | .inr () => return .inr cache
  | .inl number => fs.openFound ((frames.below index).below 2) number cache

def lookup (name : List UInt8) (cache : List Ext2Inode) : Except Fault (Option Ext2Inode × List Ext2Inode) :=
  if disk.isDirectory then
    if frames.page then do
      match ← fs.overBlocks frames disk (fs.lookupIn frames name) fs.rounds 0 cache with
      | .inl (node, cache) => return (some node, cache)
      | .inr cache => return (none, cache)
    else return (none, cache)
  else return (none, cache)

/-- The work of `entry_at` on one entry: its name is put into `entry_name_`. -/
def listEntry (wanted : ℕ) (block : List UInt8) (seen : ℕ) (entry : Entry) : Except Fault (List UInt8 ⊕ ℕ) :=
  if seen = wanted then
    match slice block (entry.offset + entrySize) (min 63 entry.nameLength) with
    | none => .error .outsideBlock
    | some name => return .inl name
  else return .inr (seen + 1)

def entryAt (wanted : ℕ) : Except Fault (Option (List UInt8)) :=
  if disk.isDirectory then
    if frames.page then do
      let visit (_ : ℕ) (seen : ℕ) (block : List UInt8) : Except Fault (List UInt8 ⊕ ℕ) :=
        overEntries block fs.blockSize (listEntry wanted block) (fs.blockSize + 1) 0 seen
      match ← fs.overBlocks frames disk visit fs.rounds 0 0 with
      | .inl name => return some name
      | .inr _ => return none
    else return none
  else return none

end Ext2Fs

end Eris.Fs.Ext2
