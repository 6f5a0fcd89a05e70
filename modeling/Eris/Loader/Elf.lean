import Eris.Loader.Kernel

namespace Eris.Loader

open Library.Words Modules

/-- The bytes from `data` on, `length` of them. -/
abbrev Image := List UInt8

def headerSize : ℕ := 64

def sectionHeaderSize : ℕ := 64

def symbolSize : ℕ := 24

def relaSize : ℕ := 24

def typeRelocatable : ℕ := 1

def machineX8664 : ℕ := 62

def sectionRela : ℕ := 4

def sectionNobits : ℕ := 8

def sectionUndefined : ℕ := 0

/-- The fields of the file header that the loader looks at. -/
structure Header where
  ident : List UInt8
  type : ℕ
  machine : ℕ
  sectionHeaderOffset : ℕ
  sectionHeaderSize : ℕ
  sectionHeaderCount : ℕ
  sectionNameIndex : ℕ

namespace Image

variable (image : Image)

/-- Bytes at an offset from `data`. Addresses wrap around, so the offset does as well. -/
def slice (offset width : ℕ) : Except Fault (List UInt8) :=
  if offset % 2 ^ 64 + width ≤ image.length then
    .ok ((image.drop (offset % 2 ^ 64)).take width)
  else .error (.imageRead (offset % 2 ^ 64) width)

def word (width offset : ℕ) : Except Fault ℕ := (image.slice offset width).map fromBytes

def header : Except Fault Header := do
  return {
    ident := ← image.slice 0 6
    type := ← image.word 2 16
    machine := ← image.word 2 18
    sectionHeaderOffset := ← image.word 8 40
    sectionHeaderSize := ← image.word 2 58
    sectionHeaderCount := ← image.word 2 60
    sectionNameIndex := ← image.word 2 62 }

def stringFrom : ℕ → ℕ → Except Fault CString
  | 0, offset => .error (.imageRead (offset % 2 ^ 64) 1)
  | bound + 1, offset => do
    let b ← image.word 1 offset
    if b = 0 then return []
    let bs ← stringFrom bound (offset + 1)
    return b.toUInt8 :: bs

def string (offset : ℕ) : Except Fault CString := image.stringFrom (image.length + 1) offset

/-- `strcmp` of a string in the file with a name, up to the first difference. -/
def matchesAt : CString → ℕ → Except Fault Bool
  | [], offset => do
    let b ← image.word 1 offset
    return b == 0
  | c :: cs, offset => do
    let b ← image.word 1 offset
    if b = c.toNat then matchesAt cs (offset + 1) else return false

end Image

def headerLooksSane (header : Header) (length : ℕ) : Bool :=
  header.ident = [0x7F, 0x45, 0x4C, 0x46, 2, 1] ∧
    header.type = typeRelocatable ∧ header.machine = machineX8664 ∧
    header.sectionHeaderSize = sectionHeaderSize ∧
    (header.sectionHeaderOffset + header.sectionHeaderCount * header.sectionHeaderSize) % 2 ^ 64 ≤ length

/-- An image with its header read. Its section headers are read field by field: an index may
lead anywhere. -/
structure Sections where
  image : Image
  header : Header

namespace Sections

variable (s : Sections) (i : ℕ)

def field (width offset : ℕ) : Except Fault ℕ :=
  s.image.word width (s.header.sectionHeaderOffset + i * sectionHeaderSize + offset)

def name : Except Fault ℕ := s.field i 4 0

def type : Except Fault ℕ := s.field i 4 4

def flags : Except Fault ℕ := s.field i 8 8

def offset : Except Fault ℕ := s.field i 8 24

def size : Except Fault ℕ := s.field i 8 32

def link : Except Fault ℕ := s.field i 4 40

def info : Except Fault ℕ := s.field i 4 44

def count : ℕ := s.header.sectionHeaderCount

def allocated : Except Fault Bool := do
  let flags ← s.flags i
  return flags.testBit 1

def toPlace : Except Fault (Option ℕ) := do
  if ← s.allocated i then
    let size ← s.size i
    if size = 0 then return none else return some size
  else return none

/-- `strcmp` of the name of a section, which `section_name_index` says where to find. -/
def named (what : CString) : Except Fault Bool := do
  let names ← s.offset s.header.sectionNameIndex
  let name ← s.name i
  s.image.matchesAt what (names + name)

end Sections

end Eris.Loader
