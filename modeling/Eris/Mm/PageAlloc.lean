import Eris.Library.Bitmap
import Eris.Library.Words
import Eris.Mm.Frames

namespace Eris.Mm

open Library.Bitmap Library.Words

def multibootBootloaderMagic : ℕ := 0x2BADB002

def multibootMmapTypeAvailable : ℕ := 1

def managedLimit : ℕ := 2 ^ 30

/-- What `page_alloc_init` reads: the memory the boot loader left and where the kernel ends in it. -/
structure BootData where
  bytes : ℕ → UInt8
  kernelEnd : ℕ

namespace BootData

variable (b : BootData)

def word (width address : ℕ) : ℕ := fromBytes ((List.range width).map fun i ↦ b.bytes (address + i))

/-- The length of a text, `none` when it does not end within the given number of bytes. -/
def strlen : ℕ → ℕ → Option ℕ
  | 0, _ => none
  | room + 1, address => if b.bytes address = 0 then some 0 else (strlen room (address + 1)).map (· + 1)

end BootData

/-- The fields of `MultibootInfo` that are read. -/
structure MultibootInfo where
  flags : ℕ
  cmdline : ℕ
  modsCount : ℕ
  modsAddr : ℕ
  mmapLength : ℕ
  mmapAddr : ℕ

def multibootInfoSize : ℕ := 52

def multibootModuleSize : ℕ := 16

def BootData.info (b : BootData) (address : ℕ) : MultibootInfo where
  flags := b.word 4 address
  cmdline := b.word 4 (address + 16)
  modsCount := b.word 4 (address + 20)
  modsAddr := b.word 4 (address + 24)
  mmapLength := b.word 4 (address + 44)
  mmapAddr := b.word 4 (address + 48)

/-- The allocator as it lies in memory. -/
structure PageAlloc where
  bitmap : Packed
  usedPages : ℕ

namespace PageAlloc

def frames (p : PageAlloc) : Frames := ⟨p.bitmap.test, p.usedPages⟩

def markUsed (i : ℕ) (p : PageAlloc) : PageAlloc :=
  if i < managedPages ∧ p.bitmap.test i = false then ⟨p.bitmap.set i, p.usedPages + 1⟩ else p

def markAll : ℕ → ℕ → PageAlloc → PageAlloc
  | 0, _, p => p
  | count + 1, i, p => markAll count (i + 1) (p.markUsed i)

def clear (i : ℕ) (p : PageAlloc) : PageAlloc :=
  if i < managedPages ∧ p.bitmap.test i = true then ⟨p.bitmap.clear i, p.usedPages - 1⟩ else p

def clearAll : ℕ → ℕ → PageAlloc → PageAlloc
  | 0, _, p => p
  | count + 1, i, p => clearAll count (i + 1) (p.clear i)

def markRangeUsed (start stop : ℕ) (p : PageAlloc) : PageAlloc :=
  p.markAll ((stop + pageSize - 1) % 2 ^ 64 / pageSize - start / pageSize) (start / pageSize)

def markRangeFree (start stop : ℕ) (p : PageAlloc) : PageAlloc :=
  let first := (start + pageSize - 1) / pageSize
  p.clearAll (min (stop / pageSize) managedPages - first) first

def reserveString (b : BootData) (address : ℕ) (p : PageAlloc) : Option PageAlloc :=
  (b.strlen (2 ^ 64) address).map fun length ↦ p.markRangeUsed address (address + length + 1)

def reserveModule (b : BootData) (modsAddr : ℕ) (p : PageAlloc) (i : ℕ) : Option PageAlloc :=
  let address := modsAddr + i * multibootModuleSize
  let p := p.markRangeUsed (b.word 4 address) (b.word 4 (address + 4))
  let string := b.word 4 (address + 8)
  if string ≠ 0 then p.reserveString b string else some p

def reserveCmdline (b : BootData) (info : MultibootInfo) (p : PageAlloc) : Option PageAlloc :=
  if info.flags.testBit 2 then p.reserveString b info.cmdline else some p

def reserveModules (b : BootData) (info : MultibootInfo) (p : PageAlloc) : Option PageAlloc :=
  if info.flags.testBit 3 then
    (List.range info.modsCount).foldlM (reserveModule b info.modsAddr)
      (p.markRangeUsed info.modsAddr (info.modsAddr + info.modsCount * multibootModuleSize))
  else some p

def reserveBootData (b : BootData) (infoAddress : ℕ) (info : MultibootInfo) (p : PageAlloc) : Option PageAlloc :=
  let p := p.markRangeUsed infoAddress (infoAddress + multibootInfoSize)
  let p := p.markRangeUsed info.mmapAddr (info.mmapAddr + info.mmapLength)
  (p.reserveCmdline b info).bind (reserveModules b info)

def freeEntry (b : BootData) (cursor : ℕ) (p : PageAlloc) : PageAlloc :=
  let start := b.word 8 (cursor + 4)
  let stop := (start + b.word 8 (cursor + 12)) % 2 ^ 64
  if b.word 4 (cursor + 20) = multibootMmapTypeAvailable ∧ start < managedLimit then
    p.markRangeFree start (min stop managedLimit)
  else p

/-- The loop over the memory map. The cursor advances in each round, so that as many rounds are enough as
there are bytes. -/
def freeEntries (b : BootData) (stop : ℕ) : ℕ → ℕ → PageAlloc → PageAlloc
  | 0, _, p => p
  | left + 1, cursor, p =>
    if cursor < stop then freeEntries b stop left (cursor + b.word 4 cursor + 4) (p.freeEntry b cursor) else p

/-- `none` where it panics or does not come to an end. -/
def pageAllocInit (magic infoAddress : ℕ) (b : BootData) : Option PageAlloc :=
  let info := b.info infoAddress
  if magic ≠ multibootBootloaderMagic then none
  else if info.flags.testBit 6 = false then none
  else
    let p : PageAlloc := ⟨fun _ ↦ 0xFF#8, managedPages⟩
    let p := p.freeEntries b (info.mmapAddr + info.mmapLength) info.mmapLength info.mmapAddr
    let p := p.markRangeUsed 0 (2 ^ 20)
    let p := p.markRangeUsed (2 ^ 20) b.kernelEnd
    p.reserveBootData b infoAddress info

def allocPages (count : ℕ) (p : PageAlloc) : PageAlloc × ℕ :=
  if count = 0 then (p, 0)
  else
    match p.frames.findRun count managedPages 0 0 with
    | none => (p, 0)
    | some first => (p.markAll count first, first * pageSize)

def freePages (page count : ℕ) (p : PageAlloc) : PageAlloc := p.clearAll count (page / pageSize)

section Refinement

variable (p : PageAlloc) (i count : ℕ)

theorem frames_markUsed : (p.markUsed i).frames = p.frames.markUsed i := by
  unfold markUsed Frames.markUsed frames
  split
  · rw [Packed.test_set]
  · rfl

theorem frames_clear : (p.clear i).frames = p.frames.clear i := by
  unfold clear Frames.clear frames
  split
  · rw [Packed.test_clear]
  · rfl

theorem frames_markAll : (p.markAll count i).frames = p.frames.markAll count i := by
  induction count generalizing i p with
  | zero => rfl
  | succ count ih => rw [markAll, ih, frames_markUsed, Frames.markAll]

theorem frames_clearAll : (p.clearAll count i).frames = p.frames.clearAll count i := by
  induction count generalizing i p with
  | zero => rfl
  | succ count ih => rw [clearAll, ih, frames_clear, Frames.clearAll]

end Refinement

end PageAlloc

end Eris.Mm
