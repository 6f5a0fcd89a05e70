import Eris.Machine.Guards

namespace Eris.Machine

open Loader Mm Mm.Memory Vmalloc Layout.Sound

variable {m m' : Memory} {v : Vmalloc} {a k w address length : ℕ}

theorem map_leaf (hm : m.Wf) {flags : PageFlags} {frame : ℕ} (ha : a + length ≤ 2 ^ 47) (hpage : pageSize ∣ a)
    (hlength : pageSize ∣ length) (hframe : pageSize ∣ frame) (hok : (m.map a frame length flags).2 = true)
    (hk : k < length) :
    (m.map a frame length flags).1.leaf (a + k) = encode flags ((frame + k) / pageSize % 2 ^ 40) := by
  have hlt : (a + k) / pageSize < 2 ^ 36 := by
    unfold pageSize
    omega
  have hin : a / pageSize ≤ (a + k) / pageSize ∧ (a + k) / pageSize < a / pageSize + length / pageSize := by
    obtain ⟨q, rfl⟩ := hpage
    obtain ⟨n, rfl⟩ := hlength
    unfold pageSize at *
    omega
  obtain ⟨e, he⟩ := Call.leaf_inside (c := .map a frame length flags) hm (by simp only [Call.address]; omega) hpage
    hlength hok ⟨(a + k) / pageSize, hlt⟩ hin
  have hsame : pageOf (a + k) = pageOf ((a + k) / pageSize * pageSize) := by
    unfold pageOf pageSize
    omega
  have hnumber : (frame + ((a + k) / pageSize - a / pageSize) * pageSize) / pageSize = (frame + k) / pageSize := by
    obtain ⟨q, rfl⟩ := hpage
    obtain ⟨n, rfl⟩ := hframe
    unfold pageSize at *
    omega
  rw [leaf_congr hsame]
  simp only [Call.new, Call.address, hnumber] at he
  exact (Option.some.inj he).symm

theorem mapDevice_cases (h : (mapDevice address length m).2 ≠ 0) :
    ∃ v w, m.vmalloc.reserve (deviceSpan address length) = (v, w) ∧ w ≠ 0 ∧
      ({ m with vmalloc := v }.map w (address / pageSize * pageSize) (deviceSpan address length) deviceFlags).2 = true ∧
      mapDevice address length m =
        (({ m with vmalloc := v }.map w (address / pageSize * pageSize) (deviceSpan address length) deviceFlags).1,
          w + address % pageSize) := by
  obtain ⟨v, w, hres⟩ : ∃ v w, m.vmalloc.reserve (deviceSpan address length) = (v, w) := ⟨_, _, rfl⟩
  have heq := mapDevice_eq hres rfl
  have hoffset : address - address / pageSize * pageSize = address % pageSize := by
    unfold pageSize
    omega
  rw [heq] at h ⊢
  split at h
  · exact absurd rfl h
  · rename_i hw
    split at h
    · rename_i hok
      rw [if_neg hw, if_pos hok, hoffset]
      exact ⟨v, w, hres, hw, hok, rfl⟩
    · exact absurd rfl h

theorem deviceSpan_dvd (address length : ℕ) : pageSize ∣ deviceSpan address length :=
  Nat.dvd_of_mod_eq_zero (roundUp_aligned _)

/-- Where a device is after it was mapped: in a window with a guard page, every page of which has a table,
and with the bits of an address that an entry has room for. -/
structure Placed (m m' : Memory) (address length : ℕ) (w : ℕ) : Prop where
  nonzero : w ≠ 0
  aligned : w % pageSize = 0
  room : w + deviceSpan address length + pageSize ≤ vmallocEnd
  reserved : m.vmalloc.reserve (deviceSpan address length) = (m'.vmalloc, w)
  wf : m'.Wf
  tables : ∀ k < pagesOf (deviceSpan address length), ∃ t, m'.tableAt 3 (pathTo (w + k * pageSize) 3) = some t
  leaf : ∀ k < deviceSpan address length,
    m'.leaf (w + k) = encode deviceFlags ((address / pageSize * pageSize + k) / pageSize % 2 ^ 40)

theorem mapDevice_placed (hm : m.Wf) (hv : m.vmalloc.Wf) (h : (mapDevice address length m).2 ≠ 0) :
    ∃ m' w, mapDevice address length m = (m', w + address % pageSize) ∧ Placed m m' address length w := by
  obtain ⟨v, w, hres, hw, hok, heq⟩ := mapDevice_cases h
  have hm₁ : { m with vmalloc := v }.Wf := ⟨hm.separated, hm.taken, hm.low, hm.flat⟩
  have hdvd := deviceSpan_dvd address length
  have hsmall := Call.length_le (c := .map w (address / pageSize * pageSize) (deviceSpan address length) deviceFlags)
    hm₁ hdvd hok
  simp only [Call.length] at hsmall
  obtain ⟨hlo, -, hhi, hwa, -⟩ := reserve_taken hv hres hw
  rw [extent_of_aligned (Nat.mod_eq_zero_of_dvd hdvd) (by unfold pageSize; omega)] at hhi
  have hend : vmallocEnd ≤ 2 ^ 47 := by decide
  obtain ⟨m', ok, hrun, hgrow, -, htables⟩ := mapPages_spec hm₁ deviceFlags rfl
    (pagesOf (deviceSpan address length)) w (address / pageSize * pageSize)
  have hleaf := fun k hk ↦ map_leaf (k := k) hm₁ (by omega) (Nat.dvd_of_mod_eq_zero hwa) hdvd
    (Nat.dvd_mul_left pageSize (address / pageSize)) hok hk
  rw [Memory.map, hrun] at hok heq hleaf
  exact ⟨m', w, heq, hw, hwa, by omega, hgrow.vmalloc ▸ hres, hgrow.wf, htables hok, hleaf⟩

theorem Placed.unmapDevice (h : Placed m m' address length w) (hle : roundUp length ≤ deviceSpan address length) :
    ∃ m'', unmapDevice (w + address % pageSize) length m' = releaseWindow w (roundUp length) m'' ∧
      m''.vmalloc = m'.vmalloc ∧ (∀ k < roundUp length, m''.frameAt (w + k) = none) ∧
      ∀ k < deviceSpan address length, roundUp length ≤ k → m''.frameAt (w + k) = m'.frameAt (w + k) := by
  have haligned := roundUp_aligned length
  have hspan := roundUp_aligned (length + (address - address / pageSize * pageSize))
  rw [← deviceSpan] at hspan
  have hpages := pagesOf_aligned haligned
  have hall := pagesOf_aligned hspan
  have hroom := h.room
  have hend : vmallocEnd ≤ 2 ^ 47 := by decide
  have hwindow : (w + address % pageSize) / pageSize * pageSize = w :=
    page_of_window h.aligned (Nat.mod_lt _ (by decide))
  have hne : w + address % pageSize ≠ 0 := by
    have := h.nonzero
    omega
  obtain ⟨m'', hrun, hgrow, hremaps, hnone⟩ := unmapPages_spec h.wf (pagesOf (roundUp length)) w (by omega)
    fun k hk ↦ h.tables k (by unfold pageSize at *; omega)
  refine ⟨m'', ?_, hgrow.vmalloc, ?_, ?_⟩
  · rw [Machine.unmapDevice, if_neg hne]
    simp only [hwindow, Memory.unmap, hrun]
  · intro k hk
    refine hnone _ fun hbeyond ↦ hbeyond (k / pageSize) ?_ ?_
    · unfold pageSize at *
      omega
    · unfold pageOf pageSize at *
      omega
  · intro k hk hge
    apply hremaps.others
    intro j hj heq
    unfold pageOf pageSize at *
    omega

/-- What mapping a device has led to, and that unmapping it with the same length undoes it. -/
structure RoundTrip (m m' : Memory) (address length window : ℕ) : Prop where
  reaches : ∀ k < length, m'.translate (window + k) = address + k ∧ (m'.leaf (window + k)).noCache = true
  unmapped : ∀ k < length, (unmapDevice window length m').frameAt (window + k) = none
  free : ∀ a, (unmapDevice window length m').vmalloc.Free a ↔ m.vmalloc.Free a

theorem deviceSpan_eq (h : length + address % pageSize + pageSize ≤ 2 ^ 64) :
    deviceSpan address length = wholePages (length + address % pageSize) := by
  have hoffset : address - address / pageSize * pageSize = address % pageSize := by
    unfold pageSize
    omega
  rw [deviceSpan, hoffset, roundUp, wholePages, Nat.mod_eq_of_lt]
  omega

theorem roundUp_eq (h : length + pageSize ≤ 2 ^ 64) : roundUp length = wholePages length := by
  rw [roundUp, wholePages, Nat.mod_eq_of_lt]
  omega

theorem le_wholePages (length : ℕ) : length ≤ wholePages length ∧ wholePages length < length + pageSize := by
  unfold wholePages pageSize
  omega

theorem wholePages_le_of_ne {offset : ℕ} (hpos : 1 ≤ length) (hoffset : offset < pageSize)
    (h : wholePages (length + offset) ≠ wholePages length) : wholePages length ≤ offset + (length - 1) := by
  unfold wholePages pageSize at *
  omega

theorem frame_mul_add (n : ℕ) : n / pageSize % 2 ^ 40 * pageSize + n % pageSize = n % 2 ^ 52 := by
  unfold pageSize
  omega

theorem Placed.byte (h : Placed m m' address length w) (hlen : length + address % pageSize + pageSize ≤ 2 ^ 64)
    (hk : k < length) :
    m'.leaf (w + address % pageSize + k) = encode deviceFlags ((address + k) / pageSize % 2 ^ 40) ∧
      m'.translate (w + address % pageSize + k) = (address + k) % 2 ^ 52 := by
  have hspan := deviceSpan_eq hlen
  have hle := le_wholePages (length + address % pageSize)
  have haddress : address / pageSize * pageSize + (address % pageSize + k) = address + k := by
    unfold pageSize
    omega
  have hleaf : m'.leaf (w + address % pageSize + k) = encode deviceFlags ((address + k) / pageSize % 2 ^ 40) := by
    rw [Nat.add_assoc, h.leaf _ (by omega), haddress]
  refine ⟨hleaf, ?_⟩
  have hbyte : (w + address % pageSize + k) % pageSize = (address + k) % pageSize := by
    have hwa := h.aligned
    unfold pageSize at *
    omega
  rw [translate_eq h.wf, hleaf, hbyte, ← frame_mul_add]
  rfl

theorem translate_add (hm : m.Wf) (a : ℕ) : m.translate (a + 2 ^ 48) = m.translate a := by
  have hpage : pageOf (a + 2 ^ 48) = pageOf a := by
    unfold pageOf pageSize
    omega
  have hmod : (a + 2 ^ 48) % pageSize = a % pageSize := by
    unfold pageSize
    omega
  rw [translate_eq hm, translate_eq hm, leaf_congr hpage, hmod]

/-- A device comes and goes without a trace exactly where it ends below 2^52 and has as many
pages as it would have from the start of a page. -/
theorem roundTrip_iff (hm : m.Wf) (hv : m.vmalloc.Wf) (hpos : 1 ≤ length) (hsum : address + length < 2 ^ 64)
    (h : (mapDevice address length m).2 ≠ 0) :
    RoundTrip m (mapDevice address length m).1 address length (mapDevice address length m).2 ↔
      address + length ≤ 2 ^ 52 ∧ wholePages (length + address % pageSize) = wholePages length := by
  obtain ⟨m', w, heq, hplaced⟩ := mapDevice_placed hm hv h
  rw [heq]
  dsimp only
  have hmod : address % pageSize < pageSize := Nat.mod_lt _ (by decide)
  have hsize : pageSize = 4096 := rfl
  constructor
  · intro htrip
    have hlen : length + address % pageSize + pageSize ≤ 2 ^ 64 := by
      -- a span that wraps would have the same bytes twice
      by_contra hwrap
      have hfirst := (htrip.reaches 0 hpos).1
      have hagain := (htrip.reaches (2 ^ 48) (by omega)).1
      rw [translate_add hplaced.wf] at hagain
      rw [Nat.add_zero] at hfirst
      omega
    have hend := htrip.reaches (length - 1) (by omega)
    rw [(hplaced.byte hlen (by omega)).2] at hend
    refine ⟨by omega, ?_⟩
    have hspan := deviceSpan_eq hlen
    have hround : roundUp length = wholePages length := roundUp_eq (by omega)
    have hle : roundUp length ≤ deviceSpan address length := by
      rw [hspan, hround]
      exact Nat.mul_le_mul_right _ (Nat.div_le_div_right (by omega))
    obtain ⟨m'', hrun, -, -, hkept⟩ := hplaced.unmapDevice hle
    have hlast := htrip.unmapped (length - 1) (by omega)
    rw [hrun] at hlast
    change m''.frameAt _ = none at hlast
    by_contra hne
    have hpast : roundUp length ≤ address % pageSize + (length - 1) := by
      rw [hround]
      exact wholePages_le_of_ne hpos hmod hne
    rw [Nat.add_assoc, hkept _ (by have := le_wholePages (length + address % pageSize); omega) hpast, ← Nat.add_assoc,
      frameAt, (hplaced.byte hlen (by omega)).1] at hlast
    cases hlast
  · rintro ⟨hlow, hpages⟩
    have hlen : length + address % pageSize + pageSize ≤ 2 ^ 64 := by omega
    have hround : roundUp length = wholePages length := roundUp_eq (by omega)
    have hsame : roundUp length = deviceSpan address length := by rw [deviceSpan_eq hlen, hround, hpages]
    have hle := le_wholePages (length + address % pageSize)
    obtain ⟨m'', hrun, hvmalloc, hnone, -⟩ := hplaced.unmapDevice hsame.le
    refine ⟨?_, ?_, ?_⟩
    · intro k hk
      obtain ⟨hleaf, htranslate⟩ := hplaced.byte hlen hk
      rw [htranslate, hleaf]
      exact ⟨Nat.mod_eq_of_lt (by omega), rfl⟩
    · intro k hk
      rw [hrun, Nat.add_assoc]
      exact hnone _ (by omega)
    · intro a
      rw [hrun, hsame, releaseWindow, hvmalloc]
      exact (release_reserve hv hplaced.reserved hplaced.nonzero).2 a

/-- A controller of half a page in the middle of its page. -/
theorem roundTrip_half_page :
    (mapDevice 0xfec00400 0x800 booted).2 = vmallocBase + 0x400 ∧
      RoundTrip booted (mapDevice 0xfec00400 0x800 booted).1 0xfec00400 0x800
        (mapDevice 0xfec00400 0x800 booted).2 := by
  have hwindow : (mapDevice 0xfec00400 0x800 booted).2 = vmallocBase + 0x400 := by decide +kernel
  have htidy : booted.vmalloc.Wf := (accounted_start (by decide +kernel)).wf
  have hwf := (built_booted fun _ _ ↦ True).wf
  refine ⟨hwindow, (roundTrip_iff hwf htidy (by decide) (by decide) ?_).mpr (by decide)⟩
  rw [hwindow]
  decide

/-- Two bytes over a page boundary: the second page stays mapped, and neither it nor its guard
page is free again. -/
theorem unmapDevice_keeps_page :
    (mapDevice 0xfec00fff 2 booted).2 = vmallocBase + 0xfff ∧
      (unmapDevice (vmallocBase + 0xfff) 2 (mapDevice 0xfec00fff 2 booted).1).translate (vmallocBase + 0x1000) =
        0xfec01000 ∧ booted.vmalloc.Free (vmallocBase + 0x2000) ∧
      ¬ (unmapDevice (vmallocBase + 0xfff) 2 (mapDevice 0xfec00fff 2 booted).1).vmalloc.Free
        (vmallocBase + 0x2000) := by
  refine ⟨by decide +kernel, by decide +kernel, ?_, ?_⟩
  · unfold Vmalloc.Free
    decide +kernel
  · unfold Vmalloc.Free
    decide +kernel

end Eris.Machine
