import Eris.Mm.VmallocSpec

namespace Eris.Mm.Vmalloc

open List

variable {v : Vmalloc} {length a : ℕ}

def wholePages (length : ℕ) : ℕ := (length + pageSize - 1) / pageSize * pageSize

/-- An address that was handed out and not given back, with the length it was asked for. -/
structure Reservation where
  address : ℕ
  length : ℕ
  deriving DecidableEq

namespace Reservation

def range (x : Reservation) : Range := ⟨x.address, wholePages x.length + pageSize⟩

def Guards (x : Reservation) (a : ℕ) : Prop :=
  x.address + wholePages x.length ≤ a ∧ a < x.address + wholePages x.length + pageSize

theorem Guards.holds {x : Reservation} (h : x.Guards a) : x.range.Holds a := by
  obtain ⟨hlo, hhi⟩ := h
  refine ⟨?_, ?_⟩
  · exact Nat.le_of_add_right_le hlo
  · rwa [range, ← Nat.add_assoc]

end Reservation

def FindsFull (v : Vmalloc) (address length : ℕ) : Prop :=
  mergeInto address (extent length) v.ensureInitialised.ranges = none ∧ maxRanges ≤ v.ensureInitialised.ranges.length

instance (v : Vmalloc) (address length : ℕ) : Decidable (v.FindsFull address length) :=
  inferInstanceAs (Decidable (_ ∧ _))

/-- The states that the calls lead to, with the reservations that are live in them. -/
inductive Runs : Vmalloc → List Reservation → Prop
  | start {v : Vmalloc} : v.initialised = false → Runs v []
  | refused {v : Vmalloc} {live : List Reservation} {length : ℕ} : Runs v live →
      wholePages length + pageSize < 2 ^ 64 → (v.reserve length).2 = 0 → Runs (v.reserve length).1 live
  | reserve {v : Vmalloc} {live : List Reservation} {length : ℕ} : Runs v live →
      wholePages length + pageSize < 2 ^ 64 → (v.reserve length).2 ≠ 0 →
      Runs (v.reserve length).1 (⟨(v.reserve length).2, length⟩ :: live)
  | release {v : Vmalloc} {live : List Reservation} {x : Reservation} : Runs v live → x ∈ live →
      ¬ v.FindsFull x.address x.length → Runs (v.release x.address x.length) (live.erase x)

/-- Free ranges and reservations that share out the area. -/
structure Shared (ranges : List Range) (live : List Reservation) : Prop where
  nonempty : ∀ r ∈ ranges, 0 < r.length
  aligned : ∀ r ∈ ranges, r.start % pageSize = 0 ∧ r.length % pageSize = 0
  apart : (ranges ++ live.map Reservation.range).Pairwise fun r s ↦ ∀ a, r.Holds a → ¬ s.Holds a
  covers : ∀ a, (∃ r ∈ ranges ++ live.map Reservation.range, r.Holds a) ↔ vmallocBase ≤ a ∧ a < vmallocEnd

/-- What the calls keep: an address is free when it is in the area and in no reservation. -/
structure Accounted (v : Vmalloc) (live : List Reservation) : Prop where
  wf : v.Wf
  tidy : Tidy (live.map Reservation.range)
  free : ∀ a, v.Free a ↔ (vmallocBase ≤ a ∧ a < vmallocEnd) ∧ ∀ x ∈ live, ¬ x.range.Holds a

theorem extent_eq (h : wholePages length + pageSize < 2 ^ 64) : extent length = wholePages length + pageSize := by
  unfold wholePages pageSize at *
  unfold extent roundUp pageSize
  omega

theorem accounted_start (h : v.initialised = false) : Accounted v [] := by
  have hranges : v.ensureInitialised.ranges = [⟨vmallocBase, vmallocEnd - vmallocBase⟩] := by
    simp [ensureInitialised, h]
  refine ⟨?_, ⟨by simp, by simp, .nil⟩, fun a ↦ ?_⟩
  · rw [Wf, hranges]
    refine ⟨?_, ?_, pairwise_singleton _ _⟩
    · exact forall_mem_singleton.mpr (by decide)
    · exact forall_mem_singleton.mpr (by decide)
  · simp [Free, hranges, vmallocBase, vmallocEnd]

section Steps

variable {live : List Reservation} {x : Reservation}

theorem Accounted.refused (h : Accounted v live) (hnone : (v.reserve length).2 = 0) :
    Accounted (v.reserve length).1 live := by
  obtain ⟨hwf, hfree⟩ := reserve_null h.wf (Prod.ext rfl hnone)
  exact ⟨hwf, h.tidy, fun a ↦ (hfree a).trans (h.free a)⟩

theorem Accounted.reserve (h : Accounted v live) (hlen : wholePages length + pageSize < 2 ^ 64)
    (hsome : (v.reserve length).2 ≠ 0) :
    Accounted (v.reserve length).1 (⟨(v.reserve length).2, length⟩ :: live) := by
  obtain ⟨v', w, hres⟩ : ∃ v' w, v.reserve length = (v', w) := ⟨_, _, rfl⟩
  rw [hres] at hsome ⊢
  obtain ⟨hwf, -⟩ := reserve_spec h.wf hres
  obtain ⟨hlo, -, hhi, hwa, hfree, hnot⟩ := reserve_taken h.wf hres hsome
  have haligned := extent_aligned length
  rw [extent_eq hlen] at hhi hfree hnot haligned
  have hholds : ∀ a, (Reservation.range ⟨w, length⟩).Holds a ↔
      w ≤ a ∧ a < w + (wholePages length + pageSize) := fun a ↦ Iff.rfl
  refine ⟨hwf, h.tidy.cons ⟨hlo, Nat.add_pos_right _ (by decide), hhi⟩ ⟨hwa, haligned⟩ ?_, fun a ↦ ?_⟩
  · intro a ha s hs hsa
    obtain ⟨x, hx, rfl⟩ := mem_map.mp hs
    have hwas := (hfree a).mpr (.inr ((hholds a).mp ha))
    exact ((h.free a).mp hwas).2 x hx hsa
  · rw [forall_mem_cons, hholds]
    constructor
    · intro ha
      obtain ⟨harea, hlive⟩ := (h.free a).mp ((hfree a).mpr (.inl ha))
      exact ⟨harea, fun hin ↦ hnot a hin.1 hin.2 ha, hlive⟩
    · intro ⟨harea, hout, hlive⟩
      exact ((hfree a).mp ((h.free a).mpr ⟨harea, hlive⟩)).resolve_right hout

theorem Accounted.release (h : Accounted v live) (hx : x ∈ live) (hroom : ¬ v.FindsFull x.address x.length) :
    Accounted (v.release x.address x.length) (live.erase x) := by
  have hperm := perm_cons_erase hx
  have htidy := h.tidy.perm (hperm.map _)
  obtain ⟨hlo, -, hhi⟩ := htidy.area _ mem_cons_self
  obtain ⟨hwa, hla⟩ := htidy.aligned _ mem_cons_self
  have hapart := (pairwise_cons.mp htidy.apart).1
  have hend : vmallocEnd < 2 ^ 64 := by decide
  have hlen : wholePages x.length + pageSize < 2 ^ 64 := by
    simp only [Reservation.range] at hhi
    omega
  have hext := extent_eq hlen
  have hholds : ∀ a, x.range.Holds a ↔ x.address ≤ a ∧ a < x.address + extent x.length := fun a ↦ by
    rw [hext]
    rfl
  have hpos : 0 < extent x.length := by
    rw [hext]
    exact Nat.add_pos_right _ (by decide)
  have hkept : mergeInto x.address (extent x.length) v.ensureInitialised.ranges ≠ none ∨
      0 < extent x.length ∧ v.ensureInitialised.ranges.length < maxRanges := by
    by_cases hmerge : mergeInto x.address (extent x.length) v.ensureInitialised.ranges = none
    · exact .inr ⟨hpos, Nat.lt_of_not_le fun hfull ↦ hroom ⟨hmerge, hfull⟩⟩
    · exact .inl hmerge
  obtain ⟨hwf, hfree⟩ := release_spec (w := x.address) h.wf ⟨hlo, by rw [hext]; exact hhi⟩ ⟨hwa, by rw [hext]; exact hla⟩
    (fun a hal hau hf ↦ ((h.free a).mp hf).2 x hx ((hholds a).mpr ⟨hal, hau⟩)) hkept
  refine ⟨hwf, htidy.tail, fun a ↦ ?_⟩
  rw [hfree, h.free, ← hholds]
  constructor
  · intro ha
    rcases ha with ⟨harea, hlive⟩ | ha
    · exact ⟨harea, fun y hy ↦ hlive y (mem_of_mem_erase hy)⟩
    · refine ⟨⟨Nat.le_trans hlo ha.1, Nat.lt_of_lt_of_le ha.2 hhi⟩, fun y hy hya ↦ ?_⟩
      exact hapart _ (mem_map_of_mem hy) a ha hya
  · intro ⟨harea, hlive⟩
    by_cases ha : x.range.Holds a
    · exact .inr ha
    · refine .inl ⟨harea, fun y hy ↦ ?_⟩
      rcases mem_cons.mp (hperm.mem_iff.mp hy) with rfl | hy
      · exact ha
      · exact hlive y hy

theorem Runs.accounted (h : Runs v live) : Accounted v live := by
  induction h with
  | start hv => exact accounted_start hv
  | refused _ _ hnone ih => exact ih.refused hnone
  | reserve _ hlen hsome ih => exact ih.reserve hlen hsome
  | release _ hx hroom ih => exact ih.release hx hroom

theorem Accounted.shared (h : Accounted v live) : Shared v.ensureInitialised.ranges live := by
  refine ⟨fun r hr ↦ (h.wf.area r hr).2.1, h.wf.aligned, ?_, fun a ↦ ?_⟩
  · refine pairwise_append.mpr ⟨h.wf.apart, h.tidy.apart, fun r hr s hs a hra hsa ↦ ?_⟩
    obtain ⟨x, hx, rfl⟩ := mem_map.mp hs
    exact ((h.free a).mp ⟨r, hr, hra⟩).2 x hx hsa
  · constructor
    · intro ⟨r, hr, hra⟩
      have harea : vmallocBase ≤ r.start ∧ 0 < r.length ∧ r.start + r.length ≤ vmallocEnd := by
        rcases mem_append.mp hr with hr | hr
        · exact h.wf.area r hr
        · exact h.tidy.area r hr
      exact ⟨Nat.le_trans harea.1 hra.1, Nat.lt_of_lt_of_le hra.2 harea.2.2⟩
    · intro harea
      by_cases hlive : ∃ x ∈ live, x.range.Holds a
      · obtain ⟨x, hx, hxa⟩ := hlive
        exact ⟨x.range, mem_append_right _ (mem_map_of_mem hx), hxa⟩
      · obtain ⟨r, hr, hra⟩ := (h.free a).mpr ⟨harea, fun x hx hxa ↦ hlive ⟨x, hx, hxa⟩⟩
        exact ⟨r, mem_append_left _ hr, hra⟩

theorem Shared.live_apart {ranges : List Range} (h : Shared ranges live) :
    live.Pairwise fun x y ↦ ∀ a, x.range.Holds a → ¬ y.range.Holds a :=
  pairwise_map.mp (pairwise_append.mp h.apart).2.1

theorem Shared.guard_apart {ranges : List Range} (h : Shared ranges live) (hx : x ∈ live) (hguard : x.Guards a) :
    (∀ r ∈ ranges, ¬ r.Holds a) ∧ ∀ y ∈ live.erase x, ¬ y.range.Holds a := by
  obtain ⟨-, -, hcross⟩ := pairwise_append.mp h.apart
  refine ⟨fun r hr hra ↦ hcross r hr _ (mem_map_of_mem hx) a hra hguard.holds, ?_⟩
  have hapart := (perm_cons_erase hx).pairwise_iff (fun {y z} hyz a hz hy ↦ hyz a hy hz) |>.mp h.live_apart
  exact fun y hy ↦ (pairwise_cons.mp hapart).1 y hy a hguard.holds

end Steps

/-- In every run the free ranges and the live reservations with their guard pages share out the area, so that
no two reservations overlap and the page after each belongs to nothing else. -/
theorem runs_shared {live : List Reservation} (h : Runs v live) :
    Shared v.ensureInitialised.ranges live ∧ (live.Pairwise fun x y ↦ ∀ a, x.range.Holds a → ¬ y.range.Holds a) ∧
      ∀ x ∈ live, ∀ a, x.Guards a →
        (∀ r ∈ v.ensureInitialised.ranges, ¬ r.Holds a) ∧ ∀ y ∈ live.erase x, ¬ y.range.Holds a := by
  have hshared := h.accounted.shared
  exact ⟨hshared, hshared.live_apart, fun x hx a hguard ↦ hshared.guard_apart hx hguard⟩

/-- Two reservations, of which the first is given back. -/
theorem runs_shared_release :
    let v₀ : Vmalloc := ⟨[], false, by decide⟩
    let v₁ := (v₀.reserve 5000).1
    let v₂ := (v₁.reserve 1).1
    (v₂.release 0x40000000 5000).ranges = [⟨0x40005000, 0x3fffb000⟩, ⟨0x40000000, 0x3000⟩] ∧
      Shared (v₂.release 0x40000000 5000).ranges [⟨0x40003000, 1⟩] := by
  intro v₀ v₁ v₂
  have h₁ : Runs v₁ [⟨0x40000000, 5000⟩] := .reserve (.start rfl) (by decide) (by decide)
  have h₂ : Runs v₂ [⟨0x40003000, 1⟩, ⟨0x40000000, 5000⟩] := .reserve h₁ (by decide) (by decide)
  have h₃ : Runs (v₂.release 0x40000000 5000) [⟨0x40003000, 1⟩] :=
    .release (x := ⟨0x40000000, 5000⟩) h₂ (by decide) (by decide)
  exact ⟨by decide, (runs_shared h₃).1⟩

end Eris.Mm.Vmalloc
