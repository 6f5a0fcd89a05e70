import Eris.Mm.Vmalloc

namespace Eris.Mm

open Library.Slots List

def Range.Holds (r : Range) (a : ℕ) : Prop := r.start ≤ a ∧ a < r.start + r.length

/-- Ranges that lie in the area, on page boundaries, with no address in two of them. -/
structure Tidy (rs : List Range) : Prop where
  area : ∀ r ∈ rs, vmallocBase ≤ r.start ∧ 0 < r.length ∧ r.start + r.length ≤ vmallocEnd
  aligned : ∀ r ∈ rs, r.start % pageSize = 0 ∧ r.length % pageSize = 0
  apart : rs.Pairwise fun r s ↦ ∀ a, r.Holds a → ¬ s.Holds a

variable {r s : Range} {rs rs' : List Range}

theorem Tidy.perm (h : Tidy rs) (hp : rs.Perm rs') : Tidy rs' where
  area r hr := h.area r (hp.mem_iff.mpr hr)
  aligned r hr := h.aligned r (hp.mem_iff.mpr hr)
  apart := (hp.pairwise_iff fun {_ _} hrs a hs hr ↦ hrs a hr hs).mp h.apart

theorem Tidy.tail (h : Tidy (r :: rs)) : Tidy rs where
  area s hs := h.area s (mem_cons_of_mem r hs)
  aligned s hs := h.aligned s (mem_cons_of_mem r hs)
  apart := (pairwise_cons.mp h.apart).2

theorem Tidy.cons (h : Tidy rs)
    (harea : vmallocBase ≤ r.start ∧ 0 < r.length ∧ r.start + r.length ≤ vmallocEnd)
    (haligned : r.start % pageSize = 0 ∧ r.length % pageSize = 0)
    (hapart : ∀ a, r.Holds a → ∀ s ∈ rs, ¬ s.Holds a) : Tidy (r :: rs) where
  area := forall_mem_cons.mpr ⟨harea, h.area⟩
  aligned := forall_mem_cons.mpr ⟨haligned, h.aligned⟩
  apart := pairwise_cons.mpr ⟨fun s hs a ha ↦ hapart a ha s hs, h.apart⟩

namespace Vmalloc

def Wf (v : Vmalloc) : Prop := Tidy v.ensureInitialised.ranges

variable {v v' : Vmalloc} {w length : ℕ}

theorem ensureInitialised_initialised (v : Vmalloc) : v.ensureInitialised.initialised = true := by
  unfold ensureInitialised
  split
  · assumption
  · rfl

theorem ensureInitialised_of_initialised (h : v.initialised = true) : v.ensureInitialised = v :=
  if_pos h

theorem free_cons (hp : (r :: rs).Perm v.ensureInitialised.ranges) (a : ℕ) :
    v.Free a ↔ r.Holds a ∨ ∃ s ∈ rs, s.Holds a := by
  rw [← exists_mem_cons_iff (fun s : Range ↦ s.Holds a)]
  exact exists_congr fun s ↦ and_congr_left fun _ ↦ hp.mem_iff.symm

theorem free_of_perm (hi : v.initialised = true) (hp : rs.Perm v.ranges) (a : ℕ) :
    v.Free a ↔ ∃ s ∈ rs, s.Holds a := by
  unfold Free
  rw [ensureInitialised_of_initialised hi]
  exact exists_congr fun _ ↦ and_congr_left fun _ ↦ hp.mem_iff.symm

theorem wf_of_perm (hi : v.initialised = true) (hp : rs.Perm v.ranges) (h : Tidy rs) : v.Wf := by
  rw [Wf, ensureInitialised_of_initialised hi]
  exact h.perm hp

theorem cut_perm {i : ℕ} (hi : i < v.ranges.length) (hr : v.ranges[i] = r) (wanted : ℕ) :
    ∃ rs, (r :: rs).Perm v.ranges ∧ (r.length - wanted = 0 ∧ rs.Perm (v.cut i r wanted).ranges ∨ r.length - wanted ≠ 0 ∧
        (⟨r.start + wanted, r.length - wanted⟩ :: rs).Perm (v.cut i r wanted).ranges) := by
  subst hr
  unfold cut
  split
  · rename_i h
    exact ⟨_, perm_cons_swapRemove v.ranges hi, .inl ⟨h, .refl _⟩⟩
  · rename_i h
    refine ⟨v.ranges.eraseIdx i, getElem_cons_eraseIdx_perm hi, .inr ⟨h, ?_⟩⟩
    have hset := getElem_cons_eraseIdx_perm (l := v.ranges.set i
      ⟨v.ranges[i].start + wanted, v.ranges[i].length - wanted⟩) (by simpa using hi)
    rwa [eraseIdx_set_eq, getElem_set_self] at hset

theorem extent_aligned (length : ℕ) : extent length % pageSize = 0 := by
  unfold extent roundUp pageSize
  omega

theorem reserve_cases (v : Vmalloc) (length : ℕ) :
    v.reserve length = (v.ensureInitialised, 0) ∧ (∀ r ∈ v.ensureInitialised.ranges, r.length < extent length) ∨
    ∃ i r, ∃ hi : i < v.ensureInitialised.ranges.length, v.ensureInitialised.ranges[i] = r ∧ extent length ≤ r.length ∧
      v.reserve length = (v.ensureInitialised.cut i r (extent length), r.start) := by
  unfold reserve
  cases hf : v.ensureInitialised.ranges.findIdx? (fun r ↦ extent length ≤ r.length) with
  | none =>
    refine .inl ⟨by simp only [hf], fun r hr ↦ ?_⟩
    have h := findIdx?_eq_none_iff.mp hf r hr
    simpa using h
  | some i =>
    obtain ⟨hi, hle, -⟩ := findIdx?_eq_some_iff_getElem.mp hf
    exact .inr ⟨i, _, hi, rfl, by simpa using hle, by simp only [hf, getElem?_eq_getElem hi]⟩

theorem reserve_spec (hv : v.Wf) (hres : v.reserve length = (v', w)) :
    v'.Wf ∧ v'.initialised = true ∧ (w = 0 ∧ (∀ a, v'.Free a ↔ v.Free a) ∨
      vmallocBase ≤ w ∧ v.Free w ∧ w + extent length ≤ vmallocEnd ∧ w % pageSize = 0 ∧
        (∀ a, v.Free a ↔ v'.Free a ∨ w ≤ a ∧ a < w + extent length) ∧
        (∀ a, w ≤ a → a < w + extent length → ¬ v'.Free a) ∧ ((∃ s ∈ v'.ranges, s.start = w + extent length) ∨
          0 < extent length ∧ v'.ranges.length < maxRanges)) := by
  have hinit := v.ensureInitialised_initialised
  have ha := extent_aligned length
  rcases v.reserve_cases length with ⟨hnone, -⟩ | ⟨i, r, hi, hr, hle, hsome⟩
  · obtain ⟨rfl, rfl⟩ := Prod.mk.inj (hres.symm.trans hnone)
    refine ⟨?_, hinit, .inl ⟨rfl, fun a ↦ ?_⟩⟩
    · rwa [Wf, ensureInitialised_of_initialised hinit]
    · rw [Free, ensureInitialised_of_initialised hinit, Free]
  · have hci : (v.ensureInitialised.cut i r (extent length)).initialised = true := by
      unfold cut
      split <;> exact hinit
    obtain ⟨rs, hperm, hrest⟩ := cut_perm hi hr (extent length)
    generalize v.ensureInitialised.cut i r (extent length) = u at hsome hci hrest
    obtain ⟨rfl, rfl⟩ := Prod.mk.inj (hres.symm.trans hsome)
    have htidy := hv.perm hperm.symm
    obtain ⟨hlo, hpos, hhi⟩ := htidy.area r mem_cons_self
    obtain ⟨hsa, hla⟩ := htidy.aligned r mem_cons_self
    have hapart := (pairwise_cons.mp htidy.apart).1
    have hold := fun a ↦ free_cons hperm a
    have hnew : ∀ a, v'.Free a ↔ r.start + extent length ≤ a ∧ a < r.start + r.length ∨ ∃ s ∈ rs, s.Holds a := by
      intro a
      rcases hrest with ⟨h0, hp⟩ | ⟨h0, hp⟩
      · rw [free_of_perm hci hp a]
        exact ⟨.inr, fun h ↦ h.resolve_left (by omega)⟩
      · rw [free_of_perm hci hp a, exists_mem_cons_iff, Range.Holds]
        refine or_congr_left (and_congr_right fun _ ↦ ?_)
        simp only
        omega
    have hstart := (hold r.start).mpr (.inl ⟨Nat.le_refl _, by omega⟩)
    refine ⟨?_, hci, .inr ⟨hlo, hstart, by omega, hsa, fun a ↦ ?_, fun a hlo' hup ↦ ?_, ?_⟩⟩
    · rcases hrest with ⟨-, hp⟩ | ⟨h0, hp⟩
      · exact wf_of_perm hci hp htidy.tail
      · refine wf_of_perm hci hp
          (htidy.tail.cons ⟨?_, ?_, ?_⟩ ⟨?_, ?_⟩ fun a ha s hs ↦ hapart s hs a ?_)
        · simp only
          omega
        · simp only
          omega
        · simp only
          omega
        · simp only [Nat.add_mod, hsa, ha, Nat.zero_mod, Nat.add_zero]
        · obtain ⟨k, hk⟩ := Nat.dvd_of_mod_eq_zero hla
          obtain ⟨l, hl⟩ := Nat.dvd_of_mod_eq_zero ha
          rw [hk, hl, ← Nat.mul_sub, Nat.mul_mod_right]
        · unfold Range.Holds at ha ⊢
          simp only at ha
          omega
    · rw [hold, hnew, Range.Holds]
      constructor
      · rintro (hr | hs)
        · by_cases hc : a < r.start + extent length
          · exact .inr ⟨hr.1, hc⟩
          · exact .inl (.inl ⟨by omega, hr.2⟩)
        · exact .inl (.inr hs)
      · rintro ((hr | hs) | hw)
        · exact .inl ⟨by omega, hr.2⟩
        · exact .inr hs
        · exact .inl ⟨hw.1, by omega⟩
    · rw [hnew]
      rintro (hr | ⟨s, hs, hsa⟩)
      · omega
      · exact hapart s hs a ⟨hlo', by omega⟩ hsa
    · rcases hrest with ⟨h0, hp⟩ | ⟨-, hp⟩
      · have hfits := v.ensureInitialised.fits
        have hlen := hperm.length_eq
        rw [length_cons, hp.length_eq] at hlen
        exact .inr ⟨by omega, by omega⟩
      · exact .inl ⟨_, hp.mem_iff.mp mem_cons_self, rfl⟩

theorem reserve_null (hv : v.Wf) (hres : v.reserve length = (v', 0)) : v'.Wf ∧ ∀ a, v'.Free a ↔ v.Free a := by
  obtain ⟨hwf, -, hcases⟩ := reserve_spec hv hres
  exact ⟨hwf, (hcases.resolve_right fun hlo ↦ absurd hlo.1 (by decide)).2⟩

theorem reserve_taken (hv : v.Wf) (hres : v.reserve length = (v', w)) (hw : w ≠ 0) :
    vmallocBase ≤ w ∧ v.Free w ∧ w + extent length ≤ vmallocEnd ∧ w % pageSize = 0 ∧
      (∀ a, v.Free a ↔ v'.Free a ∨ w ≤ a ∧ a < w + extent length) ∧
      ∀ a, w ≤ a → a < w + extent length → ¬ v'.Free a := by
  obtain ⟨hlo, hstart, hhi, hwa, hfree, hnot, -⟩ := (reserve_spec hv hres).2.2.resolve_left fun h0 ↦ hw h0.1
  exact ⟨hlo, hstart, hhi, hwa, hfree, hnot⟩

theorem mergeInto_some {released : ℕ} (hrs : ∀ r ∈ rs, r.start + r.length + released < 2 ^ 64)
    (hw : w + released < 2 ^ 64) (h : mergeInto w released rs = some rs') :
    ∃ r r' rest, (r :: rest).Perm rs ∧ (r' :: rest).Perm rs' ∧ (r.start = w + released ∧ r' = ⟨w, r.length + released⟩ ∨
      r.start + r.length = w ∧ r' = ⟨r.start, r.length + released⟩) := by
  induction rs generalizing rs' with
  | nil => cases h
  | cons r rs ih =>
    have hr := hrs r mem_cons_self
    rw [mergeInto, Nat.mod_eq_of_lt hw, Nat.mod_eq_of_lt (by omega),
      Nat.mod_eq_of_lt (by omega)] at h
    split at h
    · cases h
      exact ⟨r, _, rs, .refl _, .refl _, .inl ⟨by assumption, rfl⟩⟩
    · split at h
      · cases h
        exact ⟨r, _, rs, .refl _, .refl _, .inr ⟨by assumption, rfl⟩⟩
      · obtain ⟨rs'', hrs'', rfl⟩ := Option.map_eq_some_iff.mp h
        obtain ⟨s, s', rest, hp, hp', hs⟩ :=
          ih (fun s hs ↦ hrs s (mem_cons_of_mem _ hs)) hrs''
        exact ⟨s, s', r :: rest, (List.Perm.swap ..).trans (hp.cons r), (List.Perm.swap ..).trans (hp'.cons r), hs⟩

theorem mergeInto_none {released : ℕ} (hw : w + released < 2 ^ 64)
    (h : mergeInto w released rs = none) : ∀ r ∈ rs, r.start ≠ w + released := by
  induction rs with
  | nil => exact fun r hr ↦ absurd hr not_mem_nil
  | cons r rs ih =>
    rw [mergeInto, Nat.mod_eq_of_lt hw] at h
    split at h
    · cases h
    · split at h
      · cases h
      · exact forall_mem_cons.mpr ⟨by assumption, ih (Option.map_eq_none_iff.mp h)⟩

theorem release_cases (v : Vmalloc) (w length : ℕ) :
    (v.release w length).initialised = true ∧
      (mergeInto w (extent length) v.ensureInitialised.ranges = some (v.release w length).ranges ∨
      mergeInto w (extent length) v.ensureInitialised.ranges = none ∧ (v.ensureInitialised.ranges.length < maxRanges →
          (v.release w length).ranges = v.ensureInitialised.ranges ++ [⟨w, extent length⟩])) := by
  have hinit := v.ensureInitialised_initialised
  unfold release
  simp only
  split
  · rename_i hmerge
    exact ⟨hinit, .inl hmerge⟩
  · rename_i hmerge
    split
    · exact ⟨hinit, .inr ⟨hmerge, fun _ ↦ rfl⟩⟩
    · rename_i hroom
      exact ⟨hinit, .inr ⟨hmerge, fun h ↦ absurd h hroom⟩⟩

theorem release_spec (hv : v.Wf) (hw : vmallocBase ≤ w ∧ w + extent length ≤ vmallocEnd)
    (hwa : w % pageSize = 0 ∧ extent length % pageSize = 0)
    (hfree : ∀ a, w ≤ a → a < w + extent length → ¬ v.Free a)
    (hroom : mergeInto w (extent length) v.ensureInitialised.ranges ≠ none ∨
      0 < extent length ∧ v.ensureInitialised.ranges.length < maxRanges) :
    (v.release w length).Wf ∧ ∀ a, (v.release w length).Free a ↔ v.Free a ∨ w ≤ a ∧ a < w + extent length := by
  have hend : vmallocEnd < 2 ^ 63 := by decide
  have hbound : ∀ r ∈ v.ensureInitialised.ranges, r.start + r.length + extent length < 2 ^ 64 := by
    intro r hr
    have := hv.area r hr
    omega
  obtain ⟨hinit, hcases⟩ := v.release_cases w length
  generalize v.release w length = v' at hinit hcases ⊢
  rcases hcases with hmerge | ⟨hmerge, happend⟩
  · obtain ⟨r, r', rest, hp, hp', hr⟩ := mergeInto_some hbound (by omega) hmerge
    have htidy := hv.perm hp.symm
    obtain ⟨hlo, hrpos, hhi⟩ := htidy.area r mem_cons_self
    obtain ⟨hsa, hla⟩ := htidy.aligned r mem_cons_self
    have hapart := (pairwise_cons.mp htidy.apart).1
    have hholds : ∀ a, r'.Holds a ↔ r.Holds a ∨ w ≤ a ∧ a < w + extent length := by
      intro a
      unfold Range.Holds
      rcases hr with ⟨hs, rfl⟩ | ⟨hs, rfl⟩ <;> simp only <;> omega
    have hgood : (vmallocBase ≤ r'.start ∧ 0 < r'.length ∧ r'.start + r'.length ≤ vmallocEnd) ∧
        r'.start % pageSize = 0 ∧ r'.length % pageSize = 0 := by
      have hsum : (r.length + extent length) % pageSize = 0 := by
        rw [Nat.add_mod, hla, hwa.2]
        rfl
      rcases hr with ⟨hs, rfl⟩ | ⟨hs, rfl⟩
      · exact ⟨⟨hw.1, by simp only; omega, by simp only; omega⟩, hwa.1, hsum⟩
      · exact ⟨⟨hlo, by simp only; omega, by simp only; omega⟩, hsa, hsum⟩
    refine ⟨wf_of_perm hinit hp' (htidy.tail.cons hgood.1 hgood.2 fun a ha s hs hsa ↦ ?_), fun a ↦ ?_⟩
    · rcases (hholds a).mp ha with ha | ⟨hal, hau⟩
      · exact hapart s hs a ha hsa
      · exact hfree a hal hau ((free_cons hp a).mpr (.inr ⟨s, hs, hsa⟩))
    · rw [free_of_perm hinit hp' a, exists_mem_cons_iff, free_cons hp a, hholds]
      exact or_right_comm
  · obtain ⟨hpos, hlen⟩ := hroom.resolve_left fun h ↦ h hmerge
    have hranges := happend hlen
    have hp : (⟨w, extent length⟩ :: v.ensureInitialised.ranges).Perm v'.ranges := by
      rw [hranges]
      exact (perm_append_singleton _ _).symm
    refine ⟨wf_of_perm hinit hp (hv.cons ⟨hw.1, hpos, hw.2⟩ hwa fun a ha s hs hsa ↦ ?_), fun a ↦ ?_⟩
    · exact hfree a ha.1 ha.2 ⟨s, hs, hsa⟩
    · rw [free_of_perm hinit hp a, exists_mem_cons_iff, or_comm]
      simp only [Range.Holds, Free]

theorem release_full (hmerge : mergeInto w (extent length) v.ensureInitialised.ranges = none)
    (hfull : ¬ v.ensureInitialised.ranges.length < maxRanges) : v.release w length = v.ensureInitialised := by
  unfold release
  simp only
  split
  · rename_i hsome
    rw [hmerge] at hsome
    cases hsome
  · rw [dif_neg hfull]

theorem release_le (hv : v.Wf) (hw : vmallocBase ≤ w ∧ w + extent length ≤ vmallocEnd)
    (hwa : w % pageSize = 0 ∧ extent length % pageSize = 0) (hpos : 0 < extent length)
    (hfree : ∀ a, w ≤ a → a < w + extent length → ¬ v.Free a) :
    (v.release w length).Wf ∧ ∀ a, (v.release w length).Free a → v.Free a ∨ w ≤ a ∧ a < w + extent length := by
  by_cases hroom : mergeInto w (extent length) v.ensureInitialised.ranges ≠ none ∨
      0 < extent length ∧ v.ensureInitialised.ranges.length < maxRanges
  · obtain ⟨hwf, hiff⟩ := release_spec hv hw hwa hfree hroom
    exact ⟨hwf, fun a ↦ (hiff a).mp⟩
  · obtain ⟨hmerge, hfull⟩ := not_or.mp hroom
    have hsame := v.ensureInitialised_initialised
    rw [release_full (not_not.mp hmerge) fun h ↦ hfull ⟨hpos, h⟩]
    refine ⟨?_, fun a ha ↦ .inl ?_⟩
    · rwa [Wf, ensureInitialised_of_initialised hsame]
    · rwa [Free, ensureInitialised_of_initialised hsame] at ha

theorem release_reserve (hv : v.Wf) (h : v.reserve length = (v', w)) (hw : w ≠ 0) :
    (v'.release w length).Wf ∧ ∀ a, (v'.release w length).Free a ↔ v.Free a := by
  obtain ⟨hv', hinit, hcases⟩ := reserve_spec hv h
  obtain ⟨hlo, -, hhi, hwa, hfree, hnot, hroom⟩ := hcases.resolve_left fun h0 ↦ hw h0.1
  rw [← ensureInitialised_of_initialised hinit] at hroom
  have hend : vmallocEnd < 2 ^ 64 := by decide
  have hkept := hroom.imp_left fun ⟨s, hs, hstart⟩ hmerge ↦ mergeInto_none (by omega) hmerge s hs hstart
  obtain ⟨hwf, hiff⟩ := release_spec hv' ⟨hlo, hhi⟩ ⟨hwa, extent_aligned length⟩ hnot hkept
  exact ⟨hwf, fun a ↦ (hiff a).trans (hfree a).symm⟩

def Bounded (v : Vmalloc) : Prop :=
  ∀ r ∈ v.ensureInitialised.ranges, r.start % pageSize = 0 ∧ r.start + r.length ≤ vmallocEnd

def Window (w length : ℕ) : Prop := w % pageSize = 0 ∧ w + extent length ≤ vmallocEnd

theorem bounded_of_not_initialised (h : v.initialised = false) : v.Bounded := by
  intro r hr
  rw [ensureInitialised, if_neg (by simp [h])] at hr
  rw [mem_singleton.mp hr]
  decide

theorem bounded_iff (h : v.initialised = true) :
    v.Bounded ↔ ∀ r ∈ v.ranges, r.start % pageSize = 0 ∧ r.start + r.length ≤ vmallocEnd := by
  rw [Bounded, ensureInitialised_of_initialised h]

theorem Bounded.reserve (h : v.Bounded) (length : ℕ) :
    (v.reserve length).1.Bounded ∧ ((v.reserve length).2 = 0 ∨ Window (v.reserve length).2 length) := by
  have hinit := v.ensureInitialised_initialised
  rcases v.reserve_cases length with ⟨hnone, -⟩ | ⟨i, r, hi, hr, hle, hsome⟩
  · rw [hnone, bounded_iff hinit]
    exact ⟨h, .inl rfl⟩
  · have hci : (v.ensureInitialised.cut i r (extent length)).initialised = true := by
      unfold cut
      split <;> exact hinit
    obtain ⟨rs, hperm, hrest⟩ := cut_perm hi hr (extent length)
    have hall : ∀ s ∈ r :: rs, s.start % pageSize = 0 ∧ s.start + s.length ≤ vmallocEnd :=
      fun s hs ↦ h s (hperm.mem_iff.mp hs)
    obtain ⟨⟨hsa, hse⟩, hrs⟩ := forall_mem_cons.mp hall
    have ha := extent_aligned length
    rw [hsome, bounded_iff hci]
    refine ⟨fun s hs ↦ ?_, .inr ⟨hsa, by simp only; omega⟩⟩
    rcases hrest with ⟨-, hp⟩ | ⟨-, hp⟩
    · exact hrs s (hp.mem_iff.mpr hs)
    · rcases mem_cons.mp (hp.mem_iff.mpr hs) with rfl | hs
      · simp only
        refine ⟨by rw [Nat.add_mod, hsa, ha]; rfl, by omega⟩
      · exact hrs s hs

theorem mergeInto_bounded {address released : ℕ} (ha : address % pageSize = 0)
    (hend : address + released ≤ vmallocEnd)
    (hrs : ∀ r ∈ rs, r.start % pageSize = 0 ∧ r.start + r.length ≤ vmallocEnd)
    (h : mergeInto address released rs = some rs') :
    ∀ r ∈ rs', r.start % pageSize = 0 ∧ r.start + r.length ≤ vmallocEnd := by
  have hlarge : vmallocEnd < 2 ^ 63 := by decide
  induction rs generalizing rs' with
  | nil => cases h
  | cons r rs ih =>
    obtain ⟨⟨hra, hre⟩, hrest⟩ := forall_mem_cons.mp hrs
    rw [mergeInto] at h
    split at h
    · rename_i hstart
      cases h
      refine forall_mem_cons.mpr ⟨⟨ha, ?_⟩, hrest⟩
      simp only
      rw [Nat.mod_eq_of_lt (by omega)]
      omega
    · split at h
      · rename_i hstart
        cases h
        refine forall_mem_cons.mpr ⟨⟨hra, ?_⟩, hrest⟩
        simp only
        rw [Nat.mod_eq_of_lt (by omega)]
        omega
      · obtain ⟨rs'', hrs'', rfl⟩ := Option.map_eq_some_iff.mp h
        exact forall_mem_cons.mpr ⟨⟨hra, hre⟩, ih hrest hrs''⟩

theorem Bounded.release (h : v.Bounded) (hw : Window w length) : (v.release w length).Bounded := by
  have hinit := v.ensureInitialised_initialised
  unfold Vmalloc.release
  simp only
  split
  · rename_i rs hrs
    refine (bounded_iff ?_).mpr (mergeInto_bounded hw.1 hw.2 h hrs)
    exact hinit
  · split
    · refine (bounded_iff ?_).mpr fun r hr ↦ ?_
      · exact hinit
      rcases mem_append.mp hr with hr | hr
      · exact h r hr
      · rw [mem_singleton.mp hr]
        exact hw
    · exact (bounded_iff hinit).mpr h

end Vmalloc

end Eris.Mm
