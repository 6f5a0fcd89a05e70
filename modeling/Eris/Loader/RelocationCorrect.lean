import Eris.Loader.Objects

namespace Eris.Loader

open Library.Words Mm Modules List Reloc Memory

variable {s : Sections} {loaded : LoadedImage} {exports : Symbols} {m : Memory} {r q : Reloc}
  {rs : List Reloc} {a p : ℕ}

theorem applyAll_eq_none : (applyAll rs m).2 = none ↔ ∀ r ∈ rs, r.SoundAsSigned := by
  induction rs generalizing m with
  | nil => exact ⟨fun _ _ h ↦ absurd h not_mem_nil, fun _ ↦ rfl⟩
  | cons r rs ih =>
    rw [applyAll, forall_mem_cons, soundAsSigned_iff]
    cases hd : r.data with
    | error e => simp
    | ok d => simp [ih]

theorem applyAll_outside
    (h : ∀ r ∈ rs, ∀ d, r.data = .ok d → ∀ j < d.length, m.translate (r.place + j) ≠ p) :
    (applyAll rs m).1.bytes p = m.bytes p := by
  induction rs generalizing m with
  | nil => rfl
  | cons r rs ih =>
    rw [applyAll]
    cases hd : r.data with
    | error e => rfl
    | ok d =>
      have hrest := ih (m := m.write d r.place) fun q hq e he j hj ↦ by
        rw [translate_write]
        exact h q (mem_cons_of_mem r hq) e he j hj
      refine hrest.trans (bytes_write_of_ne d fun c hc hlt ↦ ?_)
      have hne := h r mem_cons_self d hd (c - r.place) (by omega)
      rwa [Nat.add_sub_cancel' hc] at hne

theorem applyAll_covered (hb : loaded.Backed m) (hr : ∀ r ∈ rs, r.InRange loaded)
    (ha : loaded.Holds a) (hok : ∀ r ∈ rs, r.SoundAsSigned) :
    (∃ r ∈ rs, ∃ d j, r.data = .ok d ∧ a = r.place + j ∧ d[j]? = some ((applyAll rs m).1.bytes (m.translate a))) ∨
    (∀ r ∈ rs, ∀ d, r.data = .ok d → ¬ (r.place ≤ a ∧ a < r.place + d.length)) ∧
      (applyAll rs m).1.bytes (m.translate a) = m.bytes (m.translate a) := by
  induction rs generalizing m with
  | nil => exact .inr ⟨fun _ h ↦ absurd h not_mem_nil, rfl⟩
  | cons r rs ih =>
    obtain ⟨d, hd⟩ := soundAsSigned_iff.mp (hok r mem_cons_self)
    obtain ⟨hlo, hhi⟩ := (hr r mem_cons_self).data hd
    have hb' : loaded.Backed (m.write d r.place) := by
      refine ⟨fun c hc ↦ ?_, fun c e hc hc' he he' heq ↦ ?_⟩
      · rw [translate_write]
        exact hb.mapped c hc
      · simp only [translate_write] at heq
        exact hb.apart c e hc hc' he he' heq
    rw [applyAll, hd]
    simp only
    rcases ih hb' (fun q hq ↦ hr q (mem_cons_of_mem r hq))
      fun q hq ↦ hok q (mem_cons_of_mem r hq) with ⟨q, hq, e, j, he, haj, hej⟩ | ⟨hnone, heq⟩
    · rw [translate_write] at hej
      exact .inl ⟨q, mem_cons_of_mem r hq, e, j, he, haj, hej⟩
    · rw [translate_write] at heq
      by_cases hin : r.place ≤ a ∧ a < r.place + d.length
      · obtain ⟨j, rfl⟩ := Nat.exists_eq_add_of_le hin.1
        have hj : d[j]? = some d[j] := getElem?_eq_getElem (by omega)
        have hread := bytes_write d (hb.apart.mono hlo hhi) hj
        refine .inl ⟨r, mem_cons_self, d, j, hd, rfl, ?_⟩
        rw [heq, hread, hj]
      · refine .inr ⟨forall_mem_cons.mpr ⟨fun e he ↦ ?_, hnone⟩, heq.trans ?_⟩
        · rw [hd] at he
          cases he
          exact hin
        · refine bytes_write_of_ne d fun c hc hlt htr ↦ hin ?_
          have := hb.apart c a (by omega) (by omega) ha.1 ha.2 htr
          omega

theorem translate_applyAll (rs : List Reloc) (m : Memory) (a : ℕ) :
    (applyAll rs m).1.translate a = m.translate a := by
  rw [applyAll_eq, translate_bytes]

theorem readBytes_field (rs : List Reloc) (hb : loaded.Backed m) (hr : r.InRange loaded) {d : List UInt8}
    (hd : r.data = .ok d) :
    (applyAll rs m).1.readBytes d.length r.place =
      .ok ((List.range d.length).map fun j ↦ (applyAll rs m).1.bytes (m.translate (r.place + j))) := by
  obtain ⟨hlo, hhi⟩ := hr.data hd
  rw [readBytes_of_mapped]
  · simp only [translate_applyAll]
  · intro c hc hlt
    rw [translate_applyAll]
    exact hb.mapped c ⟨by omega, by omega⟩

def Reloc.HoldsIn (m : Memory) (r : Reloc) : Prop :=
  ∃ s t bs, r.symbol = .ok s ∧ RelocationType.ofCode r.type = some t ∧ m.readBytes t.width r.place = .ok bs ∧
    t.decode (fromBytes bs) = t.exact (t.value s r.addend r.place)

theorem Reloc.HoldsIn.bytes (hb : loaded.Backed m) (hr : r.InRange loaded) {d : List UInt8}
    (hs : r.Sound) (hd : r.data = .ok d) (h : r.HoldsIn (applyAll rs m).1) {j : ℕ} {b : UInt8}
    (hj : d[j]? = some b) : (applyAll rs m).1.bytes (m.translate (r.place + j)) = b := by
  obtain ⟨s, t, hsym, ht, hf, rfl⟩ := data_eq_ok hd
  obtain ⟨s', t', hsym', ht', hfit⟩ := hs
  obtain ⟨s'', t'', bs, hsym'', ht'', hread, hdec⟩ := h
  obtain rfl := Except.ok.inj (hsym'.symm.trans hsym)
  obtain rfl := Option.some.inj (ht'.symm.trans ht)
  obtain rfl := Except.ok.inj (hsym''.symm.trans hsym)
  obtain rfl := Option.some.inj (ht''.symm.trans ht)
  have hfield := readBytes_field rs hb hr hd
  rw [length_toBytes, hread, Except.ok.injEq] at hfield
  have hlen : bs.length = t''.width := by rw [hfield, length_map, length_range]
  have heq : bs = toBytes t''.width (t''.value s'' r.addend r.place) := by
    refine fromBytes_inj (hlen.trans (length_toBytes ..).symm) (decode_injective (t := t'') ?_ ?_ ?_)
    · exact hlen ▸ fromBytes_lt bs
    · have hlt := fromBytes_lt (toBytes t''.width (t''.value s'' r.addend r.place))
      rwa [length_toBytes] at hlt
    · rw [hdec, decode_toBytes (value_lt ..) hfit hf]
  rw [← heq, hfield] at hj
  obtain ⟨hlt, hj⟩ := List.getElem?_eq_some_iff.mp hj
  rwa [getElem_map, getElem_range] at hj

theorem holdsIn_of_agree (hb : loaded.Backed m) (hr : ∀ r ∈ rs, r.InRange loaded)
    (hok : ∀ r ∈ rs, r.SoundAsSigned) (hagree : ∀ r ∈ rs, ∀ q ∈ rs, r.Agrees q) (hmem : r ∈ rs)
    (hs : r.Sound) : r.HoldsIn (applyAll rs m).1 := by
  obtain ⟨d, hd⟩ := soundAsSigned_iff.mp (hok r hmem)
  have hfield := readBytes_field rs hb (hr r hmem) hd
  have hbytes : (List.range d.length).map
      (fun j ↦ (applyAll rs m).1.bytes (m.translate (r.place + j))) = d := by
    refine ext_getElem (by simp) fun j hj hj' ↦ ?_
    rw [getElem_map, getElem_range]
    obtain ⟨hlo, hhi⟩ := (hr r hmem).data hd
    rcases applyAll_covered hb hr (a := r.place + j) ⟨by omega, by omega⟩ hok with
      ⟨q, hq, e, l, he, hjl, hel⟩ | ⟨hnone, -⟩
    · exact (hagree r hmem q hq d e hd he j l _ _ hjl (getElem?_eq_getElem hj') hel).symm
    · exact absurd ⟨by omega, by omega⟩ (hnone r hmem d hd)
  rw [hbytes] at hfield
  obtain ⟨s, t, hsym, ht, hf, rfl⟩ := data_eq_ok hd
  obtain ⟨s', t', hsym', ht', hfit⟩ := hs
  obtain rfl := Except.ok.inj (hsym'.symm.trans hsym)
  obtain rfl := Option.some.inj (ht'.symm.trans ht)
  rw [length_toBytes] at hfield
  exact ⟨s', t', _, hsym, ht, hfield, decode_toBytes (value_lt ..) hfit hf⟩

/-- What the relocations are for: every field stands for its value and nothing else changes,
and they are refused exactly when one of them cannot be made. -/
def RelocationsCorrect (s : Sections) (loaded : LoadedImage) (exports : Symbols) (m : Memory)
    (rs : List Reloc) : Prop :=
  ∃ m' e, applyRelocations s loaded exports m = .ok (m', e) ∧ (e ≠ none ↔ ∃ r ∈ rs, ¬ r.Sound) ∧
    (e = none → (∀ r ∈ rs, r.HoldsIn m') ∧ ∀ p, (∀ r ∈ rs, ∀ t, RelocationType.ofCode r.type = some t →
        ∀ j < t.width, m.translate (r.place + j) ≠ p) → m'.bytes p = m.bytes p)

/-- The relocations are right exactly when no `R_X86_64_32` decides about the image by having
its value taken for a signed one, and fields that overlap agree. -/
theorem relocationsCorrect_iff (hb : loaded.Backed m) (hc : exports.Clear loaded m)
    (hrs : relocs s loaded exports m = .ok rs) (hr : ∀ r ∈ rs, r.InRange loaded) :
    RelocationsCorrect s loaded exports m rs ↔ ((∃ r ∈ rs, ¬ r.SoundAsSigned) ↔ ∃ r ∈ rs, ¬ r.Sound) ∧
      ((∀ r ∈ rs, r.Sound) → ∀ r ∈ rs, ∀ q ∈ rs, r.Agrees q) := by
  have hrun := applyRelocations_eq hc hrs hr
  have hfail : (applyAll rs m).2 ≠ none ↔ ∃ r ∈ rs, ¬ r.SoundAsSigned := by
    rw [ne_eq, applyAll_eq_none]
    push Not
    rfl
  constructor
  · rintro ⟨m', e, happ, hiff, hgood⟩
    obtain ⟨rfl, rfl⟩ := Prod.mk.inj (Except.ok.inj (hrun.symm.trans happ))
    refine ⟨hfail.symm.trans hiff, fun hall r hmem q hq d d' hd hd' i j b c hij hi hj ↦ ?_⟩
    have hnone : (applyAll rs m).2 = none := by
      by_contra hne
      obtain ⟨x, hx, hns⟩ := hiff.mp hne
      exact hns (hall x hx)
    have hfields := (hgood hnone).1
    have hb₁ := (hfields r hmem).bytes hb (hr r hmem) (hall r hmem) hd hi
    have hb₂ := (hfields q hq).bytes hb (hr q hq) (hall q hq) hd' hj
    rw [hij] at hb₁
    exact hb₁.symm.trans hb₂
  · rintro ⟨hiff, hagree⟩
    refine ⟨_, _, hrun, hfail.trans hiff, fun hnone ↦ ?_⟩
    have hok := applyAll_eq_none.mp hnone
    have hall : ∀ r ∈ rs, r.Sound := by
      by_contra hne
      push Not at hne
      exact (hfail.mpr (hiff.mpr hne)) hnone
    refine ⟨fun r hmem ↦ holdsIn_of_agree hb hr hok (hagree hall) hmem (hall r hmem),
      fun p hp ↦ applyAll_outside fun r hmem d hd j hj ↦ ?_⟩
    obtain ⟨s, t, -, ht, -, rfl⟩ := data_eq_ok hd
    exact hp r hmem t ht j (by rwa [length_toBytes] at hj)

def oneRelocation (type value : ℕ) : List ObjectSection :=
  [{}, { name := cstring ".data", flags := 3, data := toBytes 8 0 },
    { type := 2, data := symbolEntry 0 0 0 ++ symbolEntry 0 1 value },
    { type := 4, link := 2, info := 1, data := relaEntry 0 1 type 0 }]

def oneRelocationSections (type value : ℕ) : Sections :=
  ⟨object (oneRelocation type value), objectHeader (oneRelocation type value)⟩

def onePage : LoadedImage where
  base := vmallocBase
  pages := 1
  placement i := if i = 1 then ⟨vmallocBase, false, true⟩ else {}

def onePageMemory : Memory := (allocateImage pageSize (blankMemory (· < 2))).1

theorem onePage_backed : onePage.Backed onePageMemory := by
  have hgot : (allocateImage pageSize (blankMemory (· < 2))).2.map
      (fun loaded ↦ (loaded.base, loaded.pages)) = some (onePage.base, onePage.pages) := by
    decide +kernel
  obtain ⟨loaded, hsome, hloaded⟩ := Option.map_eq_some_iff.mp hgot
  obtain ⟨hbase, hpages⟩ := Prod.mk.inj hloaded
  have heq : allocateImage pageSize (blankMemory (· < 2)) = (onePageMemory, some loaded) := by
    rw [← hsome, onePageMemory]
  obtain ⟨⟨v, gs, hh⟩, -⟩ := allocateImage_some (blank_orderly rfl rfl) heq
  exact hh.occupied.backed hbase.symm (hpages.symm.trans hh.count)

theorem relocationsCorrect_iff_absolute :
    RelocationsCorrect (oneRelocationSections 1 0) onePage ⟨[], [], by decide⟩ onePageMemory
      [⟨vmallocBase, 1, .ok vmallocBase, 0⟩] := by
  have hsound : Reloc.Sound ⟨vmallocBase, 1, .ok vmallocBase, 0⟩ :=
    ⟨vmallocBase, .r64, rfl, rfl, fits_of_width rfl (value_lt ..)⟩
  have hsigned : Reloc.SoundAsSigned ⟨vmallocBase, 1, .ok vmallocBase, 0⟩ :=
    ⟨vmallocBase, .r64, rfl, rfl, fits_of_width rfl (value_lt ..)⟩
  refine (relocationsCorrect_iff onePage_backed (fun _ _ _ _ ↦ rfl) (by decide +kernel) ?_).mpr ⟨?_, ?_⟩
  · refine forall_mem_singleton.mpr fun t ht ↦ ?_
    cases ht
    decide
  · simp [hsound, hsigned]
  · intro _ r hr q hq d e hd he i j b c hij hi hj
    rw [mem_singleton] at hr hq
    subst hr hq
    obtain rfl := Except.ok.inj (hd.symm.trans he)
    obtain rfl := Nat.add_left_cancel hij
    exact Option.some.inj (hi.symm.trans hj)

/-- The sum is `0x80000000`: it fits a field of 32 bits that is extended with zeros, and the
loader refuses it. -/
theorem relocations_not_correct :
    onePage.Backed onePageMemory ∧
      relocs (oneRelocationSections 10 0x40000000) onePage ⟨[], [], by decide⟩ onePageMemory =
        .ok [⟨vmallocBase, 10, .ok 0x80000000, 0⟩] ∧ Reloc.InRange onePage ⟨vmallocBase, 10, .ok 0x80000000, 0⟩ ∧
      ¬ RelocationsCorrect (oneRelocationSections 10 0x40000000) onePage ⟨[], [], by decide⟩
        onePageMemory [⟨vmallocBase, 10, .ok 0x80000000, 0⟩] := by
  have hrefused : (applyRelocations (oneRelocationSections 10 0x40000000) onePage ⟨[], [], by decide⟩
      onePageMemory).map Prod.snd = .ok (some .doesNotFit) := by
    decide +kernel
  refine ⟨onePage_backed, by decide +kernel, fun t ht ↦ ?_, ?_⟩
  · cases ht
    decide
  · rintro ⟨m', e, happ, hiff, -⟩
    rw [happ] at hrefused
    obtain rfl := Except.ok.inj hrefused
    obtain ⟨r, hr, hns⟩ := hiff.mp nofun
    rw [mem_singleton.mp hr] at hns
    exact hns ⟨0x80000000, .r32, rfl, rfl, fits_r32.mpr (by decide)⟩

end Eris.Loader
