import Eris.Library.Transition
import Eris.Mm.Reservations

namespace Eris.Mm.Vmalloc

open Library List

variable {v : Vmalloc} {live live' : List Reservation} {x : Reservation} {length w : ℕ}

def Joined (v : Vmalloc) : Prop :=
  ∀ r ∈ v.ensureInitialised.ranges, ∀ s ∈ v.ensureInitialised.ranges, r.start + r.length ≠ s.start

section Lengths

theorem reserve_ne_zero_iff (v : Vmalloc) (length : ℕ) (hv : v.Wf) : (v.reserve length).2 ≠ 0 ↔
    ∃ r ∈ v.ensureInitialised.ranges, extent length ≤ r.length := by
  rcases v.reserve_cases length with ⟨hnone, hall⟩ | ⟨i, r, hi, hr, hle, hsome⟩
  · rw [hnone]
    refine ⟨fun h ↦ absurd rfl h, ?_⟩
    rintro ⟨r, hr, hle⟩
    have hlt := hall r hr
    omega
  · have hmem := hr ▸ getElem_mem hi
    have hlo := (hv.area r hmem).1
    have hbase : 0 < vmallocBase := by decide
    rw [hsome]
    exact ⟨fun _ ↦ ⟨r, hmem, hle⟩, fun _ ↦ by simp only; omega⟩

theorem reserve_congr {length' : ℕ} (h : extent length' = extent length) : v.reserve length' = v.reserve length := by
  rw [reserve, reserve, h]

theorem release_congr {length' : ℕ} (h : extent length' = extent length) : v.release w length' = v.release w length := by
  unfold release
  simp only
  split
  · rename_i rs hsome
    rw [h] at hsome
    split
    · rename_i rs' hsome'
      obtain rfl := Option.some.inj (hsome.symm.trans hsome')
      rfl
    · rename_i hnone
      cases hsome.symm.trans hnone
  · rename_i hnone
    rw [h] at hnone
    split
    · split
      · rename_i hsome
        cases hnone.symm.trans hsome
      · simp only [h]
    · split
      · rename_i hsome
        cases hnone.symm.trans hsome
      · rfl

def Reservation.whole (x : Reservation) : Reservation := ⟨x.address, roundUp x.length⟩

theorem roundUp_add_eq (h : 0 < extent length) : roundUp length + pageSize = extent length := by
  unfold extent at *
  unfold roundUp pageSize at *
  omega

theorem wholePages_whole (h : 0 < extent length) : wholePages (roundUp length) + pageSize = extent length := by
  rw [← roundUp_add_eq h]
  unfold wholePages roundUp pageSize
  omega

theorem extent_lt (length : ℕ) : extent length < 2 ^ 64 := Nat.mod_lt _ (by decide)

theorem extent_whole (h : 0 < extent length) : extent (roundUp length) = extent length := by
  have hwhole := wholePages_whole h
  have hlt := extent_lt length
  rw [extent_eq (by omega), hwhole]

end Lengths

section Steps

theorem Accounted.perm (h : Accounted v live) (hp : live.Perm live') : Accounted v live' where
  wf := h.wf
  tidy := h.tidy.perm (hp.map _)
  free a := (h.free a).trans (and_congr_right fun _ ↦ forall_congr' fun _ ↦ by rw [hp.mem_iff])

theorem joined_start (h : v.initialised = false) : v.Joined := by
  have hranges : v.ensureInitialised.ranges = [⟨vmallocBase, vmallocEnd - vmallocBase⟩] := by
    simp [ensureInitialised, h]
  rw [Joined, hranges]
  decide

theorem Joined.of_perm {rs : List Range} (hinit : v.initialised = true) (hp : rs.Perm v.ranges)
    (h : ∀ r ∈ rs, ∀ s ∈ rs, r.start + r.length ≠ s.start) : v.Joined := by
  intro r hr s hs
  rw [ensureInitialised_of_initialised hinit] at hr hs
  exact h r (hp.mem_iff.mpr hr) s (hp.mem_iff.mpr hs)

theorem joined_cons {r : Range} {rs : List Range} (hpos : 0 < r.length)
    (hend : ∀ s ∈ rs, r.start + r.length ≠ s.start) (hstart : ∀ s ∈ rs, s.start + s.length ≠ r.start)
    (h : ∀ s ∈ rs, ∀ s' ∈ rs, s.start + s.length ≠ s'.start) :
    ∀ s ∈ r :: rs, ∀ s' ∈ r :: rs, s.start + s.length ≠ s'.start := by
  intro s hs s' hs'
  rcases mem_cons.mp hs with rfl | hrest
  · rcases mem_cons.mp hs' with rfl | hrest'
    · omega
    · exact hend s' hrest'
  · rcases mem_cons.mp hs' with rfl | hrest'
    · exact hstart s hrest
    · exact h s hrest s' hrest'

theorem Joined.reserve (hv : v.Wf) (h : v.Joined) (hpos : 0 < extent length) : (v.reserve length).1.Joined := by
  have hinit := v.ensureInitialised_initialised
  rcases v.reserve_cases length with ⟨hnone, -⟩ | ⟨i, r, hi, hr, hle, hsome⟩
  · rw [hnone, Joined, ensureInitialised_of_initialised hinit]
    exact h
  · have hci : (v.ensureInitialised.cut i r (extent length)).initialised = true := by
      unfold cut
      split <;> exact hinit
    obtain ⟨rs, hperm, hrest⟩ := cut_perm hi hr (extent length)
    have htidy := hv.perm hperm.symm
    have hold : ∀ s ∈ r :: rs, ∀ s' ∈ r :: rs, s.start + s.length ≠ s'.start := fun s hs s' hs' ↦
      h s (hperm.mem_iff.mp hs) s' (hperm.mem_iff.mp hs')
    have hothers : ∀ s ∈ rs, ∀ s' ∈ rs, s.start + s.length ≠ s'.start := fun s hs s' hs' ↦
      hold s (mem_cons_of_mem _ hs) s' (mem_cons_of_mem _ hs')
    rw [hsome]
    rcases hrest with ⟨-, hp⟩ | ⟨h0, hp⟩
    · exact Joined.of_perm hci hp hothers
    · refine Joined.of_perm hci hp (joined_cons (by simp only; omega) ?_ ?_ hothers)
      · intro s hs
        have hne := hold r mem_cons_self s (mem_cons_of_mem _ hs)
        simp only
        omega
      · -- a range that ended at the cut would share its last byte with the one that is cut
        intro s hs heq
        simp only at heq
        have hspos := (htidy.area s (mem_cons_of_mem _ hs)).2.1
        refine (pairwise_cons.mp htidy.apart).1 s hs (s.start + s.length - 1) ?_ ?_
        · unfold Range.Holds
          omega
        · unfold Range.Holds
          omega

theorem mergeInto_none_end {released : ℕ} {rs : List Range} (hrs : ∀ r ∈ rs, r.start + r.length < 2 ^ 64)
    (h : mergeInto w released rs = none) : ∀ r ∈ rs, r.start + r.length ≠ w := by
  induction rs with
  | nil => exact fun r hr ↦ absurd hr not_mem_nil
  | cons r rs ih =>
    obtain ⟨hr, hrs⟩ := forall_mem_cons.mp hrs
    rw [mergeInto, Nat.mod_eq_of_lt hr] at h
    split at h
    · cases h
    · split at h
      · cases h
      · exact forall_mem_cons.mpr ⟨by assumption, ih hrs (Option.map_eq_none_iff.mp h)⟩

def TouchesTwo (v : Vmalloc) (address length : ℕ) : Prop :=
  (∃ r ∈ v.ensureInitialised.ranges, r.start + r.length = address) ∧
    ∃ s ∈ v.ensureInitialised.ranges, s.start = address + extent length

instance (v : Vmalloc) (address length : ℕ) : Decidable (v.TouchesTwo address length) :=
  inferInstanceAs (Decidable (_ ∧ _))

theorem Joined.release (hv : v.Wf) (h : v.Joined) (hw : w + extent length ≤ vmallocEnd) (hpos : 0 < extent length)
    (htwo : ¬ v.TouchesTwo w length) (hroom : ¬ v.FindsFull w length) : (v.release w length).Joined := by
  have hend : vmallocEnd < 2 ^ 63 := by decide
  have hbound : ∀ r ∈ v.ensureInitialised.ranges, r.start + r.length + extent length < 2 ^ 64 := by
    intro r hr
    have := hv.area r hr
    omega
  obtain ⟨hinit, hcases⟩ := v.release_cases w length
  rcases hcases with hmerge | ⟨hmerge, happend⟩
  · obtain ⟨r, r', rest, hp, hp', hr⟩ := mergeInto_some hbound (by omega) hmerge
    have hrmem := hp.mem_iff.mp mem_cons_self
    have hmem : ∀ s ∈ rest, s ∈ v.ensureInitialised.ranges := fun s hs ↦
      hp.mem_iff.mp (mem_cons_of_mem _ hs)
    refine Joined.of_perm hinit hp' (joined_cons ?_ ?_ ?_ fun s hs s' hs' ↦ h s (hmem s hs) s' (hmem s' hs'))
    · rcases hr with ⟨-, rfl⟩ | ⟨-, rfl⟩ <;> simp only <;> omega
    · intro s hs heq
      rcases hr with ⟨hright, rfl⟩ | ⟨hleft, rfl⟩
      · refine h r hrmem s (hmem s hs) ?_
        simp only at heq
        omega
      · refine htwo ⟨⟨r, hrmem, hleft⟩, s, hmem s hs, ?_⟩
        simp only at heq
        omega
    · intro s hs heq
      rcases hr with ⟨hright, rfl⟩ | ⟨hleft, rfl⟩
      · exact htwo ⟨⟨s, hmem s hs, heq⟩, r, hrmem, hright⟩
      · exact h s (hmem s hs) r hrmem heq
  · have hlen := Nat.lt_of_not_le fun hfull ↦ hroom ⟨hmerge, hfull⟩
    have hp : (⟨w, extent length⟩ :: v.ensureInitialised.ranges).Perm (v.release w length).ranges := by
      rw [happend hlen]
      exact (perm_append_singleton _ _).symm
    have hstart := mergeInto_none (by omega) hmerge
    have hends := mergeInto_none_end (fun r hr ↦ by have := hbound r hr; omega) hmerge
    exact Joined.of_perm hinit hp (joined_cons hpos (fun s hs heq ↦ hstart s hs heq.symm) hends h)

end Steps

section Whole

theorem range_eq_of_holds {r s : Range} {a : ℕ} {rs : List Range} (h : Tidy rs) (hr : r ∈ rs) (hs : s ∈ rs)
    (hra : r.Holds a) (hsa : s.Holds a) : r = s := by
  have hsymm : Std.Symm fun r s : Range ↦ ∀ a, r.Holds a → ¬ s.Holds a := ⟨fun _ _ hrs a hs hr ↦ hrs a hr hs⟩
  by_contra hne
  exact h.apart.forall hr hs hne a hra hsa

theorem end_mem (h : Accounted v live) (hjoined : v.Joined) {r : Range} (hr : r ∈ v.ensureInitialised.ranges) :
    r.start + r.length ∈ vmallocEnd :: live.map Reservation.address := by
  obtain ⟨hlo, hpos, hhi⟩ := h.wf.area r hr
  by_cases hlast : r.start + r.length = vmallocEnd
  · rw [hlast]
    exact mem_cons_self
  refine mem_cons_of_mem _ (mem_map.mpr ?_)
  by_cases hlive : ∃ x ∈ live, x.range.Holds (r.start + r.length)
  · obtain ⟨x, hx, hle, hlt⟩ := hlive
    refine ⟨x, hx, ?_⟩
    change x.address ≤ _ at hle
    by_contra hne
    have hra : r.Holds (max x.address r.start) := by
      unfold Range.Holds
      omega
    have hxa : x.range.Holds (max x.address r.start) := by
      refine ⟨Nat.le_max_left _ _, Nat.lt_of_le_of_lt ?_ hlt⟩
      omega
    exact ((h.free _).mp ⟨r, hr, hra⟩).2 x hx hxa
  · have hfree := (h.free _).mpr ⟨⟨by omega, by omega⟩, fun x hx hxa ↦ hlive ⟨x, hx, hxa⟩⟩
    obtain ⟨s, hs, hle, hlt⟩ := hfree
    have hne := hjoined r hr s hs
    have hsame : r = s := by
      refine range_eq_of_holds (a := max s.start r.start) h.wf hr hs ?_ ?_
      · unfold Range.Holds
        omega
      · unfold Range.Holds
        omega
    subst hsame
    omega

theorem length_ranges_le (h : Accounted v live) (hjoined : v.Joined) :
    v.ensureInitialised.ranges.length ≤ live.length + 1 := by
  have hnodup : (v.ensureInitialised.ranges.map fun r ↦ r.start + r.length).Nodup := by
    refine pairwise_map.mpr (h.wf.apart.imp_of_mem ?_)
    intro r s hr hs hapart heq
    have hrpos := (h.wf.area r hr).2.1
    have hspos := (h.wf.area s hs).2.1
    refine hapart (r.start + r.length - 1) ?_ ?_
    · unfold Range.Holds
      omega
    · unfold Range.Holds
      omega
  have hsub : (v.ensureInitialised.ranges.map fun r ↦ r.start + r.length) ⊆
      vmallocEnd :: live.map Reservation.address := by
    intro e he
    obtain ⟨r, hr, rfl⟩ := mem_map.mp he
    exact end_mem h hjoined hr
  have hle := (hnodup.subperm hsub).length_le
  simpa using hle

theorem ranges_of_nothing_live (h : Accounted v []) (hjoined : v.Joined) :
    v.ensureInitialised.ranges = [⟨vmallocBase, vmallocEnd - vmallocBase⟩] := by
  obtain ⟨r, hr, hle, -⟩ := (h.free vmallocBase).mpr ⟨⟨Nat.le_refl _, by decide⟩, nofun⟩
  have hlo := (h.wf.area r hr).1
  have hend := mem_singleton.mp (end_mem h hjoined hr)
  have hlen := length_ranges_le h hjoined
  have hall : v.ensureInitialised.ranges = [r] := by
    cases hranges : v.ensureInitialised.ranges with
    | nil =>
      rw [hranges] at hr
      cases hr
    | cons s rest =>
      rw [hranges] at hr hlen
      cases rest with
      | nil => rw [mem_singleton.mp hr]
      | cons t rest => simp at hlen
  have hr : r = ⟨vmallocBase, vmallocEnd - vmallocBase⟩ := by
    cases r
    simp only [Range.mk.injEq] at *
    omega
  rw [hall, hr]

end Whole

section Arena

/-- The allocator with the reservations that are live. -/
structure Arena where
  vmalloc : Vmalloc
  live : List Reservation

inductive Request
  | reserve (length : ℕ)
  | release (x : Reservation)

namespace Arena

def reserve (a : Arena) (length : ℕ) : Arena where
  vmalloc := (a.vmalloc.reserve length).1
  live :=
    if (a.vmalloc.reserve length).2 = 0 then a.live
    else ⟨(a.vmalloc.reserve length).2, length⟩ :: a.live

def release (a : Arena) (x : Reservation) : Arena where
  vmalloc := a.vmalloc.release x.address x.length
  live := a.live.erase x

end Arena

def arena : System Arena Request where
  init a := a.vmalloc.initialised = false ∧ a.live = []
  enabled a
    | .reserve _ => True
    | .release x => x ∈ a.live
  step a
    | .reserve length => some (a.reserve length)
    | .release x => some (a.release x)

/-- The pages of a reservation and its guard page do not wrap to nothing, and a release finds a
free range on one side at most and is not turned away by a full table. -/
def Mends (a : Arena) : Request → Prop
  | .reserve length => 0 < extent length
  | .release x => ¬ a.vmalloc.TouchesTwo x.address x.length ∧ ¬ a.vmalloc.FindsFull x.address x.length

instance (a : Arena) : (c : Request) → Decidable (arena.enabled a c)
  | .reserve _ => inferInstanceAs (Decidable True)
  | .release x => inferInstanceAs (Decidable (x ∈ a.live))

instance (a : Arena) : (c : Request) → Decidable (Mends a c)
  | .reserve length => inferInstanceAs (Decidable (0 < extent length))
  | .release _ => inferInstanceAs (Decidable (_ ∧ _))

variable {a : Arena}

/-- What such calls keep. -/
structure Mended (a : Arena) : Prop where
  accounted : Accounted a.vmalloc (a.live.map Reservation.whole)
  joined : a.vmalloc.Joined
  nonempty : ∀ x ∈ a.live, 0 < extent x.length

theorem Mended.reserve (h : Mended a) (hpos : 0 < extent length) : Mended (a.reserve length) := by
  have hjoined := h.joined.reserve h.accounted.wf hpos
  rw [Arena.reserve]
  split
  · rename_i hnone
    exact ⟨h.accounted.refused hnone, hjoined, h.nonempty⟩
  · rename_i hsome
    have hwhole := reserve_congr (v := a.vmalloc) (extent_whole hpos)
    have hlen : wholePages (roundUp length) + pageSize < 2 ^ 64 := by
      rw [wholePages_whole hpos]
      exact extent_lt length
    have hacc := h.accounted.reserve hlen (by rwa [hwhole])
    rw [hwhole] at hacc
    exact ⟨hacc, hjoined, forall_mem_cons.mpr ⟨hpos, h.nonempty⟩⟩

theorem Mended.release (h : Mended a) (hx : x ∈ a.live) (hok : Mends a (.release x)) :
    Mended (a.release x) := by
  obtain ⟨htwo, hfull⟩ := hok
  have hpos := h.nonempty x hx
  have hsame : extent x.whole.length = extent x.length := extent_whole hpos
  have hmem : x.whole ∈ a.live.map Reservation.whole := mem_map_of_mem hx
  have hfull' : ¬ a.vmalloc.FindsFull x.whole.address x.whole.length := by
    unfold FindsFull
    rw [hsame]
    exact hfull
  have hacc := h.accounted.release hmem hfull'
  have hrelease : a.vmalloc.release x.whole.address x.whole.length = a.vmalloc.release x.address x.length :=
    release_congr hsame
  rw [hrelease] at hacc
  have hperm : ((a.live.map Reservation.whole).erase x.whole).Perm ((a.live.erase x).map Reservation.whole) := by
    have hone := (perm_cons_erase hmem).symm
    have hother := (perm_cons_erase hx).map Reservation.whole
    exact List.Perm.cons_inv (hone.trans hother)
  have hend := (h.accounted.tidy.area _ (mem_map_of_mem hmem)).2.2
  rw [Reservation.range, Reservation.whole, wholePages_whole hpos] at hend
  exact ⟨hacc.perm hperm, h.joined.release h.accounted.wf hend hpos htwo hfull,
    fun y hy ↦ h.nonempty y (mem_of_mem_erase hy)⟩

theorem reached_mended (h : arena.Reached Mends a) : Mended a := by
  refine h.invariant ?_ ?_
  · intro a ⟨hinit, hlive⟩
    refine ⟨?_, joined_start hinit, ?_⟩
    · rw [hlive]
      exact accounted_start hinit
    · rw [hlive]
      exact nofun
  · intro a a' c ha hon hok hstep
    cases c with
    | reserve length => exact Option.some.inj hstep ▸ ha.reserve hok
    | release x => exact Option.some.inj hstep ▸ ha.release hon hok

/-- In every run of such calls no two free ranges are adjacent, so that there is one hole more
than there are reservations at most, and once all are released what fitted at boot fits. -/
theorem reached_joined (h : arena.Reached Mends a) :
    a.vmalloc.Joined ∧ a.vmalloc.ensureInitialised.ranges.length ≤ a.live.length + 1 ∧
      (a.live = [] → ∀ boot : Vmalloc, boot.initialised = false → ∀ length,
        (boot.reserve length).2 ≠ 0 → (a.vmalloc.reserve length).2 ≠ 0) := by
  have hmended := reached_mended h
  refine ⟨hmended.joined, ?_, ?_⟩
  · simpa using length_ranges_le hmended.accounted hmended.joined
  · intro hlive boot hboot length hfits
    have hacc := hmended.accounted
    rw [hlive] at hacc
    have hranges := ranges_of_nothing_live hacc hmended.joined
    have hbootRanges := ranges_of_nothing_live (accounted_start hboot) (joined_start hboot)
    rw [reserve_ne_zero_iff _ _ (accounted_start hboot).wf, hbootRanges, ← hranges] at hfits
    exact (reserve_ne_zero_iff _ _ hacc.wf).mpr hfits

def blankArena : Arena := ⟨⟨[], false, by decide⟩, []⟩

/-- Two reservations, released in the opposite order. -/
theorem reached_joined_stacked :
    let a := (((blankArena.reserve 5000).reserve 1).release ⟨0x40003000, 1⟩).release ⟨0x40000000, 5000⟩
    a.live = [] ∧ a.vmalloc.Joined := by
  intro a
  have h₀ : arena.Reached Mends blankArena := .init ⟨rfl, rfl⟩
  have h₁ : arena.Reached Mends _ := .step (.reserve 5000) h₀ trivial (by decide) rfl
  have h₂ : arena.Reached Mends _ := .step (.reserve 1) h₁ trivial (by decide) rfl
  have h₃ : arena.Reached Mends _ := .step (.release ⟨0x40003000, 1⟩) h₂ (by decide) (by decide) rfl
  have h₄ : arena.Reached Mends a := .step (.release ⟨0x40000000, 5000⟩) h₃ (by decide) (by decide) rfl
  exact ⟨by decide, (reached_joined h₄).1⟩

/-- Released in the order they were made in, the second one joins what comes after it and leaves
the first one apart: everything is free, and the length that fits at boot no longer does. -/
theorem release_leaves_apart :
    let a := (((blankArena.reserve 5000).reserve 1).release ⟨0x40000000, 5000⟩).release ⟨0x40003000, 1⟩
    arena.Reached (fun _ _ ↦ True) a ∧ a.live = [] ∧
      a.vmalloc.ranges = [⟨0x40003000, 0x3fffd000⟩, ⟨0x40000000, 0x3000⟩] ∧
      (blankArena.vmalloc.reserve 0x3ffff000).2 = 0x40000000 ∧ (a.vmalloc.reserve 0x3ffff000).2 = 0 := by
  intro a
  have h₀ : arena.Reached (fun _ _ ↦ True) blankArena := .init ⟨rfl, rfl⟩
  have h₁ : arena.Reached (fun _ _ ↦ True) _ := .step (.reserve 5000) h₀ trivial trivial rfl
  have h₂ : arena.Reached (fun _ _ ↦ True) _ := .step (.reserve 1) h₁ trivial trivial rfl
  have h₃ : arena.Reached (fun _ _ ↦ True) _ := .step (.release ⟨0x40000000, 5000⟩) h₂ (by decide) trivial rfl
  have h₄ : arena.Reached (fun _ _ ↦ True) a := .step (.release ⟨0x40003000, 1⟩) h₃ (by decide) trivial rfl
  exact ⟨h₄, by decide, by decide, by decide, by decide⟩

end Arena

end Eris.Mm.Vmalloc
