import Eris.Library.Bytes
import Eris.Mm.Frames

namespace Eris.Block

open Library.Bytes Function

def sectorSize : ℕ := 512

/-- Whether `alloc_page` finds a page. The calls of it below a call are told apart by their places. -/
def Frames := List ℕ → Bool

namespace Frames

def page (frames : Frames) : Bool := frames []

def below (frames : Frames) (place : ℕ) : Frames := fun places ↦ frames (place :: places)

def Available (frames : Frames) : Prop := ∀ places, frames places = true

variable {frames : Frames}

theorem Available.page (h : frames.Available) : frames.page = true := h []

theorem Available.below (h : frames.Available) (place : ℕ) : (frames.below place).Available := fun places ↦ h (place :: places)

end Frames

/-- The bytes on a device, and the sectors that can be read. -/
structure Device where
  bytes : ℕ → UInt8
  readable : ℕ → Bool

namespace Device

variable (dev : Device)

def read (sector : ℕ) : Option (List UInt8) :=
  if dev.readable sector then some (span dev.bytes (sector * sectorSize) sectorSize) else none

/-- The loop of `read_bytes`, with what it has delivered so far. Every round delivers a byte. -/
def readFrom : ℕ → ℕ → ℕ → List UInt8 → Bool × List UInt8
  | 0, _, _, out => (true, out)
  | fuel + 1, offset, length, out =>
    if length = 0 then (true, out)
    else
      let inside := offset % sectorSize
      let chunk := if length < sectorSize - inside then length else sectorSize - inside
      match dev.read (offset / sectorSize) with
      | none => (false, out)
      | some bounce =>
        readFrom fuel ((offset + chunk) % 2 ^ 64) (length - chunk) (out ++ (bounce.drop inside).take chunk)

def readBytes (frames : Frames) (offset length : ℕ) : Bool × List UInt8 :=
  if frames.page then dev.readFrom length offset length [] else (false, [])

def readBytesIn (s : Mm.Frames) (offset length : ℕ) : Mm.Frames × Bool × List UInt8 :=
  let (s, frame) := s.allocPage
  if frame = 0 then (s, false, [])
  else (s.freePage frame, dev.readFrom length offset length [])

def Readable (offset length : ℕ) : Prop := ∀ k < length, dev.readable ((offset + k) / sectorSize) = true

instance (offset length : ℕ) : Decidable (dev.Readable offset length) :=
  inferInstanceAs (Decidable (∀ k < length, _))

variable {dev} {frames : Frames} {offset length m n : ℕ}

theorem Readable.mono (h : dev.Readable offset n) (hmn : m ≤ n) : dev.Readable offset m :=
  fun k hk ↦ h k (hk.trans_le hmn)

theorem readable_add : dev.Readable offset (m + n) ↔ dev.Readable offset m ∧ dev.Readable (offset + m) n := by
  constructor
  · intro h
    refine ⟨h.mono (Nat.le_add_right m n), fun k hk ↦ ?_⟩
    have := h (m + k) (by omega)
    rwa [← Nat.add_assoc] at this
  · rintro ⟨hm, hn⟩ k hk
    by_cases hkm : k < m
    · exact hm k hkm
    · have := hn (k - m) (by omega)
      rwa [Nat.add_assoc, Nat.add_sub_of_le (Nat.not_lt.mp hkm)] at this

theorem readable_inside (h : offset % sectorSize + n ≤ sectorSize) (hn : 0 < n) :
    dev.Readable offset n ↔ dev.readable (offset / sectorSize) = true := by
  have hsector : ∀ k < n, (offset + k) / sectorSize = offset / sectorSize := by
    intro k hk
    have hsize : sectorSize = 512 := rfl
    rw [hsize] at h ⊢
    omega
  constructor
  · exact fun h ↦ hsector 0 hn ▸ h 0 hn
  · intro h k hk
    rwa [hsector k hk]

theorem span_inside (h : offset % sectorSize + n ≤ sectorSize) :
    ((span dev.bytes (offset / sectorSize * sectorSize) sectorSize).drop (offset % sectorSize)).take n =
      span dev.bytes offset n := by
  rw [take_drop_span h, Nat.div_add_mod']

theorem readFrom_spec (dev : Device) {fuel : ℕ} (hfuel : length ≤ fuel) (hend : offset + length ≤ 2 ^ 64) (out : List UInt8) :
    ∃ n ≤ length, (dev.readFrom fuel offset length out).2 = out ++ span dev.bytes offset n ∧ dev.Readable offset n ∧
      ((dev.readFrom fuel offset length out).1 = true ∧ n = length ∨
        (dev.readFrom fuel offset length out).1 = false ∧ n < length ∧ dev.readable ((offset + n) / sectorSize) = false) := by
  induction fuel generalizing offset length out with
  | zero =>
    obtain rfl : length = 0 := by omega
    exact ⟨0, le_rfl, (List.append_nil out).symm, nofun, .inl ⟨rfl, rfl⟩⟩
  | succ fuel ih =>
    rw [readFrom]
    split
    · rename_i hzero
      exact ⟨0, Nat.zero_le _, (List.append_nil out).symm, nofun, .inl ⟨rfl, hzero.symm⟩⟩
    · rename_i hpos
      dsimp only
      have hinside : offset % sectorSize < sectorSize := Nat.mod_lt _ (by decide)
      generalize hchunk : (if length < sectorSize - offset % sectorSize then length
        else sectorSize - offset % sectorSize) = chunk
      have hle : chunk ≤ length ∧ 0 < chunk ∧ offset % sectorSize + chunk ≤ sectorSize := by
        split at hchunk <;> omega
      cases hread : dev.readable (offset / sectorSize) with
      | false =>
        have hnone : dev.read (offset / sectorSize) = none := by rw [read, hread]; rfl
        rw [hnone]
        exact ⟨0, Nat.zero_le _, (List.append_nil out).symm, nofun, .inr ⟨rfl, by omega, hread⟩⟩
      | true =>
        have hsome : dev.read (offset / sectorSize) =
            some (span dev.bytes (offset / sectorSize * sectorSize) sectorSize) := by rw [read, hread]; rfl
        rw [hsome]
        dsimp only
        rw [span_inside hle.2.2]
        by_cases hlast : chunk = length
        · have hdone : ∀ {o out}, dev.readFrom fuel o (length - chunk) out = (true, out) := by
            intro o out
            rw [hlast, Nat.sub_self]
            cases fuel <;> rfl
          rw [hdone]
          refine ⟨length, le_rfl, by rw [hlast], ?_, .inl ⟨rfl, rfl⟩⟩
          exact (readable_inside (by omega) (by omega)).mpr hread
        · rw [Nat.mod_eq_of_lt (by omega)]
          obtain ⟨n, hn, hout, hreadable, hend⟩ := ih (by omega : length - chunk ≤ fuel)
            (by omega : offset + chunk + (length - chunk) ≤ 2 ^ 64) (out ++ span dev.bytes offset chunk)
          refine ⟨chunk + n, by omega, ?_, readable_add.mpr ⟨?_, hreadable⟩, ?_⟩
          · rw [hout, List.append_assoc, ← span_add]
          · exact (readable_inside hle.2.2 hle.2.1).mpr hread
          · rw [← Nat.add_assoc]
            obtain ⟨hok, rfl⟩ | ⟨hfail, hlt, hsector⟩ := hend
            · exact .inl ⟨hok, by omega⟩
            · exact .inr ⟨hfail, by omega, hsector⟩

theorem readBytes_spec (dev : Device) (hpage : frames.page = true) (hend : offset + length ≤ 2 ^ 64) :
    ∃ n ≤ length, (dev.readBytes frames offset length).2 = span dev.bytes offset n ∧ dev.Readable offset n ∧
      ((dev.readBytes frames offset length).1 = true ∧ n = length ∨
        (dev.readBytes frames offset length).1 = false ∧ n < length ∧
          dev.readable ((offset + n) / sectorSize) = false) := by
  rw [readBytes, if_pos hpage]
  exact readFrom_spec dev le_rfl hend []

theorem readBytes_of_readable (hpage : frames.page = true) (hend : offset + length ≤ 2 ^ 64)
    (hread : dev.Readable offset length) : dev.readBytes frames offset length = (true, span dev.bytes offset length) := by
  obtain ⟨n, -, hout, -, ⟨hok, rfl⟩ | ⟨-, hlt, hsector⟩⟩ := readBytes_spec dev hpage hend
  · exact Prod.ext hok hout
  · rw [hread n hlt] at hsector
    cases hsector

theorem readBytes_eq_true (hend : offset + length ≤ 2 ^ 64) (h : (dev.readBytes frames offset length).1 = true) :
    frames.page = true ∧ dev.Readable offset length ∧
      (dev.readBytes frames offset length).2 = span dev.bytes offset length := by
  have hpage : frames.page = true := by
    by_contra hpage
    rw [readBytes, if_neg hpage] at h
    cases h
  obtain ⟨n, -, hout, hread, ⟨-, rfl⟩ | ⟨hfail, -⟩⟩ := readBytes_spec dev hpage hend
  · exact ⟨hpage, hread, hout⟩
  · rw [h] at hfail
    cases hfail

theorem readBytes_cases (dev : Device) (frames : Frames) (hend : offset + length ≤ 2 ^ 64) :
    (frames.page = true ∧ dev.Readable offset length) ∧
      dev.readBytes frames offset length = (true, span dev.bytes offset length) ∨
    ¬ (frames.page = true ∧ dev.Readable offset length) ∧ ∃ out, dev.readBytes frames offset length = (false, out) := by
  by_cases h : frames.page = true ∧ dev.Readable offset length
  · exact .inl ⟨h, readBytes_of_readable h.1 hend h.2⟩
  · refine .inr ⟨h, _, Prod.ext (Bool.eq_false_iff.mpr fun hok ↦ ?_) rfl⟩
    obtain ⟨hpage, hread, -⟩ := readBytes_eq_true hend hok
    exact h ⟨hpage, hread⟩

theorem length_readBytes_le (hend : offset + length ≤ 2 ^ 64) : (dev.readBytes frames offset length).2.length ≤ length := by
  rw [readBytes]
  split
  · obtain ⟨n, hn, hout, -⟩ := readFrom_spec dev le_rfl hend []
    rw [hout, List.nil_append, length_span]
    exact hn
  · exact Nat.zero_le _

theorem lt_length_readBytes (hend : offset + length ≤ 2 ^ 64) {k : ℕ} :
    k < (dev.readBytes frames offset length).2.length ↔
      frames.page = true ∧ k < length ∧ dev.Readable offset (k + 1) := by
  by_cases hpage : frames.page = true
  · obtain ⟨n, hn, hout, hread, hcase⟩ := readBytes_spec dev hpage hend
    rw [hout, length_span]
    constructor
    · exact fun hk ↦ ⟨hpage, by omega, hread.mono hk⟩
    · rintro ⟨-, hk, hmore⟩
      obtain ⟨-, rfl⟩ | ⟨-, -, hsector⟩ := hcase
      · exact hk
      · by_contra hle
        rw [hmore n (by omega)] at hsector
        cases hsector
  · rw [readBytes, if_neg hpage]
    constructor
    · intro hk
      cases hk
    · exact fun hk ↦ absurd hk.1 hpage

theorem freePage_markUsed {s : Mm.Frames} {i : ℕ} (hi : i < Mm.managedPages) (hfree : s.bitmap i = false) :
    (s.markUsed i).freePage (i * Mm.pageSize) = s := by
  have hdiv : i * Mm.pageSize / Mm.pageSize = i := Nat.mul_div_cancel i (by decide)
  have hmark : s.markUsed i = ⟨update s.bitmap i true, s.usedPages + 1⟩ := if_pos ⟨hi, hfree⟩
  rw [Mm.Frames.freePage, Mm.Frames.freePages, hdiv, hmark, Mm.Frames.clearAll, Mm.Frames.clearAll, Mm.Frames.clear,
    if_pos ⟨hi, update_self ..⟩]
  rw [update_idem, ← hfree, update_eq_self, Nat.add_sub_cancel]

theorem readBytesIn_eq (dev : Device) {s : Mm.Frames} (hlow : s.bitmap 0 = true) (offset length : ℕ) :
    ∃ frames : Frames, (frames.page = true ↔ ∃ i < Mm.managedPages, s.bitmap i = false) ∧
      dev.readBytesIn s offset length = (s, dev.readBytes frames offset length) := by
  obtain ⟨hnone, hall⟩ | ⟨i, hi, hfree, hsome⟩ := s.allocPage_cases
  · refine ⟨fun _ ↦ false, ⟨nofun, ?_⟩, ?_⟩
    · rintro ⟨i, hi, hfree⟩
      rw [hall i hi] at hfree
      cases hfree
    · rw [readBytesIn, hnone]
      rfl
  · have hne : i * Mm.pageSize ≠ 0 := by
      rintro hzero
      obtain rfl := (Nat.mul_eq_zero.mp hzero).resolve_right (by decide)
      rw [hlow] at hfree
      cases hfree
    refine ⟨fun _ ↦ true, ⟨fun _ ↦ ⟨i, hi, hfree⟩, fun _ ↦ rfl⟩, ?_⟩
    rw [readBytesIn, hsome]
    dsimp only
    rw [if_neg hne, freePage_markUsed hi hfree]
    rfl

/-- A range is read exactly if there is a frame and its sectors can be read. Nothing else is put into the buffer, and
the frame is given back in any case. Frame zero is never free. -/
theorem readBytesIn_spec (dev : Device) {s : Mm.Frames} (hlow : s.bitmap 0 = true) (hend : offset + length ≤ 2 ^ 64) :
    ((dev.readBytesIn s offset length).2.1 = true ↔
      (∃ i < Mm.managedPages, s.bitmap i = false) ∧ dev.Readable offset length) ∧
    ((dev.readBytesIn s offset length).2.1 = true →
      (dev.readBytesIn s offset length).2.2 = span dev.bytes offset length) ∧
    (dev.readBytesIn s offset length).2.2.length ≤ length ∧ (dev.readBytesIn s offset length).1 = s := by
  obtain ⟨frames, hpage, heq⟩ := dev.readBytesIn_eq hlow offset length
  rw [heq]
  refine ⟨?_, fun hok ↦ (readBytes_eq_true hend hok).2.2, length_readBytes_le hend, rfl⟩
  rw [← hpage]
  constructor
  · intro hok
    obtain ⟨hframe, hread, -⟩ := readBytes_eq_true hend hok
    exact ⟨hframe, hread⟩
  · intro h
    exact congrArg Prod.fst (readBytes_of_readable h.1 hend h.2)

/-- The end of one sector and the start of the next. -/
theorem readBytesIn_across : (Device.readBytesIn ⟨fun p ↦ p.toUInt8, fun _ ↦ true⟩ ⟨fun i ↦ i = 0, 1⟩ 510 4).2 =
    (true, [254, 255, 0, 1]) := by
  have hlow : Mm.Frames.bitmap ⟨fun i ↦ i = 0, 1⟩ 0 = true := rfl
  have hend : 510 + 4 ≤ 2 ^ 64 := by decide
  obtain ⟨hok, hout, -⟩ := readBytesIn_spec ⟨fun p ↦ p.toUInt8, fun _ ↦ true⟩ hlow hend
  have htrue := hok.mpr ⟨⟨1, by decide, rfl⟩, fun _ _ ↦ rfl⟩
  exact Prod.ext htrue (hout htrue)

end Device

end Eris.Block
