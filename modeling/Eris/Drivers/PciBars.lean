import Mathlib

namespace Eris.Drivers.Pci

open Function BitVec

/-- A register of the configuration space, with the bits of it that can be written. -/
structure Register where
  value : BitVec 32
  writable : BitVec 32

/-- The error bits of the status register: writing a one clears them. -/
def statusErrors : BitVec 32 := 0xF9000000

/-- The registers of one function. -/
abbrev Registers := ℕ → Register

structure Bar where
  address : BitVec 64
  length : BitVec 64
  memory : Bool
  prefetchable : Bool
  deriving DecidableEq

namespace Registers

variable (f : Registers)

def read32 (offset : ℕ) : BitVec 32 := (f (offset / 4)).value

def read16 (offset : ℕ) : BitVec 16 := (f.read32 offset >>> (offset % 4 / 2 * 16)).setWidth 16

def write32 (offset : ℕ) (value : BitVec 32) : Registers :=
  let old := f (offset / 4)
  let kept := if offset / 4 = 1 then ~~~(value &&& statusErrors) else allOnes 32
  update f (offset / 4) { old with value := value &&& old.writable ||| old.value &&& ~~~old.writable &&& kept }

def write16 (offset : ℕ) (value : BitVec 16) : Registers :=
  let shift := offset % 4 / 2 * 16
  f.write32 offset (f.read32 offset &&& ~~~(0xFFFF#32 <<< shift) ||| value.setWidth 32 <<< shift)

/-- What sticks when all ones are written to the register, which then gets its old value back. -/
def probe (offset : ℕ) (original : BitVec 32) : BitVec 32 × Registers :=
  let f := f.write32 offset 0xFFFFFFFF
  (f.read32 offset, f.write32 offset original)

/-- The register and the one behind it hold an address of 64 bits. -/
def Wide (original : BitVec 32) (index : ℕ) : Prop := original &&& 1 = 0 ∧ (original >>> 1) &&& 3 = 2 ∧ index < 5

instance (original : BitVec 32) (index : ℕ) : Decidable (Wide original index) := inferInstanceAs (Decidable (_ ∧ _))

/-- The range, where the upper half of a short address counts as zero and the upper half of its mask as ones. -/
def decode (original mask highOriginal highMask : BitVec 32) : Bar :=
  if original &&& 1 = 0 then
    { address := (original &&& ~~~0xF).setWidth 64 ||| highOriginal.setWidth 64 <<< 32
      length := ~~~((mask &&& ~~~0xF).setWidth 64 ||| highMask.setWidth 64 <<< 32) + 1
      memory := true
      prefetchable := original &&& 8 ≠ 0 }
  else ⟨(original &&& ~~~3).setWidth 64, ((~~~(mask &&& ~~~3) + 1) &&& 0xFFFF).setWidth 64, false, false⟩

def bar (index : ℕ) : Bar × Registers :=
  if 6 ≤ index then (⟨0, 0, false, false⟩, f)
  else
    let offset := 0x10 + index * 4
    let original := f.read32 offset
    let command := f.read16 0x04
    let f := f.write16 0x04 (command &&& ~~~3)
    let (mask, f) := f.probe offset original
    if Wide original index then
      let highOriginal := f.read32 (offset + 4)
      let (highMask, f) := f.probe (offset + 4) highOriginal
      (decode original mask highOriginal highMask, f.write16 0x04 command)
    else (decode original mask 0 0xFFFFFFFF, f.write16 0x04 command)

end Registers

/-- What a base address register stands for, with the logarithm of the size. -/
inductive Range
  | unimplemented
  | port (shift : ℕ) (base : BitVec 32)
  | memory (shift : ℕ) (base : BitVec 32) (prefetchable : Bool)
  | pair (shift : ℕ) (base : BitVec 64) (prefetchable : Bool)

def Range.bar : Range → Bar
  | unimplemented => ⟨0, 0, true, false⟩
  | port shift base => ⟨base.setWidth 64, 1#64 <<< shift, false, false⟩
  | memory shift base prefetchable => ⟨base.setWidth 64, 1#64 <<< shift, true, prefetchable⟩
  | pair shift base prefetchable => ⟨base, 1#64 <<< shift, true, prefetchable⟩

namespace Registers

/-- The range that begins at a base address register. A port range may leave out the upper half of its address. -/
def Decodes (f : Registers) (index : ℕ) : Range → Prop
  | .unimplemented => f (4 + index) = ⟨0, 0⟩
  | .port shift base => 2 ≤ shift ∧ shift ≤ 15 ∧ (f (4 + index)).value = base ||| 1 ∧
      base &&& (f (4 + index)).writable = base ∧ (f (4 + index)).writable.setWidth 16 = allOnes 16 <<< shift
  | .memory shift base prefetchable => 4 ≤ shift ∧ shift ≤ 31 ∧ base &&& (allOnes 64 <<< shift).setWidth 32 = base ∧
      f (4 + index) = ⟨base ||| if prefetchable then 8 else 0, (allOnes 64 <<< shift).setWidth 32⟩
  | .pair shift base prefetchable => index < 5 ∧ 4 ≤ shift ∧ shift ≤ 63 ∧ base &&& allOnes 64 <<< shift = base ∧
      f (4 + index) = ⟨base.setWidth 32 ||| if prefetchable then 12 else 4, (allOnes 64 <<< shift).setWidth 32⟩ ∧
      f (5 + index) = ⟨(base >>> 32).setWidth 32, (allOnes 64 <<< shift >>> 32).setWidth 32⟩

variable {f : Registers} {index shift : ℕ} {prefetchable : Bool}

/-- What is read back after all ones have been written. -/
def sized (r : Register) : BitVec 32 := r.writable ||| r.value &&& ~~~r.writable

theorem write16_of_ne (f : Registers) {i : ℕ} (h : i ≠ 1) (value : BitVec 16) : f.write16 0x04 value i = f i := update_of_ne h ..

theorem read32_bar (f : Registers) (index : ℕ) : f.read32 (0x10 + index * 4) = (f (4 + index)).value := by
  rw [read32, show (0x10 + index * 4) / 4 = 4 + index by omega]

theorem probe_eq (f : Registers) (index : ℕ) :
    f.probe (0x10 + index * 4) (f (4 + index)).value = (sized (f (4 + index)), f) := by
  have hvalue : ∀ v w : BitVec 32, v &&& w ||| (w ||| v &&& ~~~w) &&& ~~~w = v := by
    intro v w
    ext i hi
    simp
    grind
  rw [probe, write32, write32, read32, show (0x10 + index * 4) / 4 = 4 + index by omega, update_self, update_idem,
    if_neg (by omega)]
  rw [if_neg (by omega), show (0xFFFFFFFF : BitVec 32) = allOnes 32 from rfl, allOnes_and, and_allOnes, and_allOnes, hvalue,
    update_eq_self]
  rfl

/-- The registers after the command register has been cleared and set again. -/
def settled (f : Registers) : Registers := (f.write16 0x04 (f.read16 0x04 &&& ~~~3)).write16 0x04 (f.read16 0x04)

def ranged (f : Registers) (index : ℕ) : Bar :=
  if Wide (f (4 + index)).value index then
    decode (f (4 + index)).value (sized (f (4 + index))) (f (5 + index)).value (sized (f (5 + index)))
  else decode (f (4 + index)).value (sized (f (4 + index))) 0 0xFFFFFFFF

theorem bar_eq (hindex : index < 6) : f.bar index = (f.ranged index, f.settled) := by
  rw [bar, if_neg (by omega), ranged]
  dsimp only
  generalize hf : f.write16 0x04 (f.read16 0x04 &&& ~~~3) = f'
  have hlow : f' (4 + index) = f (4 + index) := by rw [← hf, write16_of_ne _ (by omega)]
  have hhigh : f' (4 + (index + 1)) = f (5 + index) := by
    rw [← hf, write16_of_ne _ (by omega)]
    congr 1
    omega
  rw [read32_bar, ← hlow, probe_eq, show 0x10 + index * 4 + 4 = 0x10 + (index + 1) * 4 by omega, settled, hf]
  dsimp only
  rw [read32_bar, probe_eq, hhigh]
  split <;> rfl

theorem read16_write16 (f : Registers) (value : BitVec 16) :
    ((f.write16 0x04 value).write16 0x04 (f.read16 0x04)).read16 0x04 = f.read16 0x04 := by
  have hstatus : ∀ i < 16, statusErrors.getLsbD i = false := by decide
  simp only [read16, write16, write32, read32, update_self]
  ext i hi
  simp
  grind

theorem recombine (x : BitVec 64) :
    (x.setWidth 32).setWidth 64 ||| ((x >>> 32).setWidth 32).setWidth 64 <<< 32 = x := by
  ext i hi
  simp
  grind

section

variable {base writable flags low : BitVec 32} (hbase : base &&& writable = base) (hflags : flags &&& low = flags)
  (hlow : writable &&& low = 0)

include hbase hlow

theorem flag_bits (mask : BitVec 32) (hmask : mask &&& low = mask) : (base ||| flags) &&& mask = flags &&& mask := by
  ext i hi
  have := congrArg (·.getLsbD i) hlow
  grind

include hflags

theorem address_bits : (base ||| flags) &&& ~~~low = base := by
  ext i hi
  have := congrArg (·.getLsbD i) hlow
  grind

theorem size_bits : (writable ||| (base ||| flags) &&& ~~~writable) &&& ~~~low = writable := by
  ext i hi
  have := congrArg (·.getLsbD i) hlow
  grind

end

theorem type_bits (value : BitVec 32) : (value >>> 1) &&& (3 : BitVec 32) = (value &&& (6 : BitVec 32)) >>> 1 := by
  have hbits : ∀ i < 32, (3#32).getLsbD i = (6#32).getLsbD (1 + i) := by decide
  ext i hi
  grind

theorem size_eq {shift : ℕ} (h : shift ≤ 63) : ~~~(allOnes 64 <<< shift) + 1 = 1#64 <<< shift := by
  have hall : ∀ shift : Fin 64, ~~~(allOnes 64 <<< shift.val) + 1 = 1#64 <<< shift.val := by decide
  exact hall ⟨shift, by omega⟩

theorem low_bits {shift : ℕ} (h : 4 ≤ shift) (h' : shift ≤ 63) : (allOnes 64 <<< shift).setWidth 32 &&& 0xF = 0 := by
  have hall : ∀ shift : Fin 64, 4 ≤ shift.val → (allOnes 64 <<< shift.val).setWidth 32 &&& 0xF = 0 := by decide
  exact hall ⟨shift, by omega⟩ h

/-- A register for memory, with its flags in the low bits. -/
theorem decode_memory {base flags writable : BitVec 32} (hbase : base &&& writable = base) (hflags : flags &&& 0xF = flags)
    (hlow : writable &&& 0xF = 0) (heven : flags &&& 1 = 0) (high highMask : BitVec 32) :
    decode (base ||| flags) (sized ⟨base ||| flags, writable⟩) high highMask =
      ⟨base.setWidth 64 ||| high.setWidth 64 <<< 32, ~~~(writable.setWidth 64 ||| highMask.setWidth 64 <<< 32) + 1, true,
        flags &&& 8 ≠ 0⟩ := by
  rw [decode, sized, flag_bits hbase hlow 1 rfl, if_pos heven, flag_bits hbase hlow 8 rfl,
    address_bits hbase hflags hlow, size_bits hbase hflags hlow]

theorem decode_port {base writable : BitVec 32} (hlow : 2 ≤ shift) (hhigh : shift ≤ 15) (hbase : base &&& writable = base)
    (hwritable : writable.setWidth 16 = allOnes 16 <<< shift) (high highMask : BitVec 32) :
    decode (base ||| 1) (sized ⟨base ||| 1, writable⟩) high highMask = (Range.port shift base).bar := by
  have hbits : ∀ i < 32, (3#32).getLsbD i = decide (i < 2) := by decide
  have hhalf : ∀ i < 32, (0xFFFF#32).getLsbD i = decide (i < 16) := by decide
  have hone : (1 : BitVec 32) &&& 3 = 1 := rfl
  have hthree : writable &&& 3 = 0 := by
    ext i hi
    have := congrArg (·.getLsbD i) hwritable
    grind
  have hsize : ∀ shift : Fin 16, ((~~~(allOnes 16 <<< shift.val) + 1).setWidth 32).setWidth 64 = 1#64 <<< shift.val := by
    decide
  have hlength : (~~~writable + 1) &&& 0xFFFF = (~~~(writable.setWidth 16) + 1).setWidth 32 := by
    rw [← setWidth_not (by decide), show (1 : BitVec 16) = (1 : BitVec 32).setWidth 16 from rfl,
      ← setWidth_add _ _ (by decide)]
    ext i hi
    simp at *
    grind
  rw [decode, sized, flag_bits hbase hthree 1 hone, if_neg (by decide), size_bits hbase hone hthree,
    address_bits hbase hone hthree, hlength, hwritable, hsize ⟨shift, by omega⟩]
  rfl

theorem decode_of_decodes {range : Range} (h : f.Decodes index range) (hne : range ≠ .unimplemented) :
    f.ranged index = range.bar := by
  unfold ranged
  cases range with
  | unimplemented => exact absurd rfl hne
  | port shift base =>
    obtain ⟨hlow, hhigh, hvalue, hbase, hwritable⟩ := h
    generalize f (4 + index) = r at *
    obtain ⟨value, writable⟩ := r
    subst hvalue
    simp only [decode_port hlow hhigh hbase hwritable, ite_self]
  | memory shift base prefetchable =>
    obtain ⟨hlow, hhigh, hbase, hvalue⟩ := h
    have hmask : ∀ shift : Fin 32, ((allOnes 64 <<< shift.val).setWidth 32).setWidth 64 |||
        (0xFFFFFFFF : BitVec 32).setWidth 64 <<< 32 = allOnes 64 <<< shift.val := by decide
    have hflags : (if prefetchable then 8 else 0 : BitVec 32) &&& 0xF = if prefetchable then 8 else 0 := by
      cases prefetchable <;> rfl
    have hbits := low_bits hlow (by omega)
    rw [hvalue]
    rw [if_neg]
    · rw [decode_memory hbase hflags hbits (by cases prefetchable <;> rfl), hmask ⟨shift, by omega⟩, size_eq (by omega)]
      cases prefetchable <;> simp [Range.bar]
    · rintro ⟨-, htype, -⟩
      rw [type_bits, flag_bits hbase hbits 6 rfl] at htype
      cases prefetchable <;> cases htype
  | pair shift base prefetchable =>
    obtain ⟨hindex, hlow, hhigh, hbase, hvalue, hupper⟩ := h
    have hflags : (if prefetchable then 12 else 4 : BitVec 32) &&& 0xF = if prefetchable then 12 else 4 := by
      cases prefetchable <;> rfl
    have hbits := low_bits hlow hhigh
    have hbase' : base.setWidth 32 &&& (allOnes 64 <<< shift).setWidth 32 = base.setWidth 32 := by
      rw [← setWidth_and, hbase]
    have hsized : sized (f (5 + index)) = (allOnes 64 <<< shift >>> 32).setWidth 32 := by
      rw [sized, hupper]
      ext i hi
      grind
    rw [hsized, hupper, hvalue]
    dsimp only
    rw [if_pos]
    · rw [decode_memory hbase' hflags hbits (by cases prefetchable <;> rfl), recombine, recombine, size_eq hhigh]
      cases prefetchable <;> simp [Range.bar]
    · rw [Wide, type_bits, flag_bits hbase' hbits 1 rfl, flag_bits hbase' hbits 6 rfl]
      cases prefetchable <;> exact ⟨rfl, rfl, hindex⟩

/-- The size and the base of every implemented register are right; one that is not implemented is taken for four
gigabytes of memory. -/
theorem bar_iff {range : Range} (hindex : index < 6) (h : f.Decodes index range) :
    (f.bar index).1 = range.bar ∧ (∀ i, i ≠ 1 → (f.bar index).2 i = f i) ∧ (f.bar index).2.read16 0x04 = f.read16 0x04 ↔
      range ≠ .unimplemented := by
  have hkept : ∀ i, i ≠ 1 → f.settled i = f i := by
    intro i hi
    rw [settled, write16_of_ne _ hi, write16_of_ne _ hi]
  rw [bar_eq hindex]
  refine ⟨?_, fun hne ↦ ⟨decode_of_decodes h hne, hkept, read16_write16 f _⟩⟩
  rintro ⟨hbar, -⟩ rfl
  rw [ranged, show f (4 + index) = ⟨0, 0⟩ from h, if_neg fun hwide ↦ absurd hwide.2.1 (by decide)] at hbar
  have hlength : (decode 0 (sized ⟨0, 0⟩) 0 0xFFFFFFFF).length = 0 := congrArg Bar.length hbar
  exact absurd hlength (by decide)

theorem bar_iff_memory : (bar (fun _ ↦ ⟨0xFEBC0008, 0xFFFC0000⟩) 0).1 = ⟨0xFEBC0000, 0x40000, true, true⟩ := by
  have h : Decodes (fun _ ↦ ⟨0xFEBC0008, 0xFFFC0000⟩) 0 (.memory 18 0xFEBC0000 true) := ⟨by decide, by decide, rfl, rfl⟩
  exact ((bar_iff (by decide) h).mpr nofun).1

/-- A register that is not there takes no ones, and is said to decode 4 GiB. -/
theorem bar_unimplemented : Decodes (fun _ ↦ ⟨0, 0⟩) 0 .unimplemented ∧ Range.unimplemented.bar.length = 0 ∧
    (bar (fun _ ↦ ⟨0, 0⟩) 0).1.length = 0x100000000 := ⟨rfl, rfl, by decide⟩

end Registers

end Eris.Drivers.Pci
