import Eris.Machine.Regions
import Eris.Mm.Demand

namespace Eris.Machine

open Loader Mm Mm.Memory Finset

variable {m m' : Memory} {a n : ℕ}

/-- The first pages from `a` on. -/
def pagesFrom (a n : ℕ) : Finset ℕ := (Finset.range n).image fun k ↦ a + k * pageSize

theorem pagesFrom_succ (a n : ℕ) : pagesFrom a (n + 1) = pagesFrom (a + pageSize) n ∪ {a} := by
  ext b
  simp only [pagesFrom, mem_image, mem_range, mem_union, mem_singleton]
  constructor
  · rintro ⟨k, hk, rfl⟩
    cases k with
    | zero => exact .inr (by rw [Nat.zero_mul, Nat.add_zero])
    | succ k => exact .inl ⟨k, by omega, page_succ a k⟩
  · rintro (⟨k, hk, rfl⟩ | rfl)
    · exact ⟨k + 1, by omega, (page_succ a k).symm⟩
    · exact ⟨0, by omega, by rw [Nat.zero_mul, Nat.add_zero]⟩

theorem pagesFrom_first (h : 0 < n) : {a} ⊆ pagesFrom a n := by
  obtain ⟨n, rfl⟩ := Nat.exists_eq_succ_of_ne_zero (Nat.ne_of_gt h)
  rw [pagesFrom_succ]
  exact subset_union_right

theorem mapImage_demand (hm : m.Wf) (n a : ℕ) :
    ((mapImage n a m).2 = true ↔ n + m.lacking (pagesFrom a n) ≤ m.freeFrames) ∧
      ((mapImage n a m).2 = true → Spent m (mapImage n a m).1 n (pagesFrom a n)) := by
  induction n generalizing a m with
  | zero =>
    have hnone : m.lacking (pagesFrom a 0) = 0 := rfl
    refine ⟨⟨fun _ ↦ by omega, fun _ ↦ rfl⟩, fun _ ↦ ⟨hm, ?_, fun d p _ _ ↦ ?_⟩⟩
    · rw [hnone, mapImage, Nat.zero_add, Nat.add_zero]
    · exact ⟨fun hp ↦ ⟨hp, notMem_empty _⟩, And.left⟩
  | succ n ih =>
    rcases provided_cases hm a with ⟨hnone, hall⟩ | ⟨g, m₁, ok, hg⟩
    · rw [mapImage, hnone, freeFrames_of_full hall]
      exact ⟨⟨by simp, fun h ↦ by omega⟩, by simp⟩
    · have htake := Spent.take hm hg.room hg.free
      have hflags : ({ write := true, noExecute := true } : PageFlags).user = false := rfl
      obtain ⟨hiff, hspent⟩ := map_page_demand htake.wf a (g * pageSize) hflags
      have hle := m.lacking_mono (show {a} ⊆ pagesFrom a (n + 1) from pagesFrom_first (Nat.succ_pos n))
      have htaken := htake.frames
      rw [hg.map] at hiff hspent
      rw [hg.mapImage]
      cases ok with
      | false =>
        have hlack : ¬ m.lacking {a} ≤ { m with frames := m.frames.markUsed g }.freeFrames := fun h ↦ by cases hiff.mpr h
        have hzero : m.lacking ∅ = 0 := rfl
        exact ⟨⟨by simp, fun h ↦ by omega⟩, by simp⟩
      | true =>
        have hfirst := htake.trans (hspent rfl)
        rw [union_empty] at hfirst
        obtain ⟨hiff', hspent'⟩ := ih hfirst.wf (a + pageSize)
        have hsum := hfirst.lacking (pagesFrom (a + pageSize) n)
        have hcount := hfirst.frames
        rw [pagesFrom_succ]
        refine ⟨hiff'.trans (by omega), fun hok ↦ ?_⟩
        have hall := hfirst.trans (hspent' hok)
        rwa [show 1 + 0 + n = n + 1 by omega] at hall

def dataFlags : PageFlags := { write := true, noExecute := true }

theorem rights_of_leaf (hm : m.Wf) (hp : m.Plain) {g : ℕ} (h : m.leaf a = encode dataFlags g) :
    m.rights a = some ⟨true, false, true⟩ := by
  have huser : (m.leaf a).user = false := by rw [h]; rfl
  have hopen : (m.leaf a).present = true → (m.leaf a).user = true → ∀ d < 3, 0 ≤ d → (m.onPath d a).user = true := by
    intro _ hu
    rw [huser] at hu
    cases hu
  rw [rights, rightsFrom_eq hm hp a (Nat.zero_add 3) (m.tableAt_zero a) _ hopen, h]
  rfl

section Stack

theorem mapStackPages_of_mapImage (n a : ℕ) (h : mapImage n a m = (m', true)) : mapStackPages n a m = (m', true) := by
  induction n generalizing a m with
  | zero => exact h
  | succ n ih =>
    rw [mapImage] at h
    rw [mapStackPages]
    split at h
    · cases h
    · rename_i hne
      rw [if_neg hne]
      generalize m.allocPage.1.map a m.allocPage.2 pageSize { write := true, noExecute := true } = out at h ⊢
      obtain ⟨m₁, ok⟩ := out
      cases ok with
      | false => cases h
      | true => exact ih _ h

theorem map_of_tableAt {t : ℕ} (frame : ℕ) (flags : PageFlags) (hu : flags.user = false)
    (ht : m.tableAt 3 (pathTo a 3) = some t) : (m.map a frame pageSize flags).2 = true := by
  have hpages : pagesOf pageSize = 1 := rfl
  rw [Memory.map, hpages, mapPages, hu, tableFor_of_tableAt a (Nat.zero_add 3) (m.tableAt_zero a) ht]
  rfl

theorem mapStackPages_stops (hm : m.Wf) (n a : ℕ) (hsmall : ∀ k < n, ¬ m.InHuge (a + k * pageSize))
    (h : (mapImage n a m).2 = false) :
    (mapStackPages n a m).2 = false ∨ (mapStackPages n a m).1.frameAt (a + n * pageSize - pageSize) = none := by
  induction n generalizing a m with
  | zero => cases h
  | succ n ih =>
    rcases provided_cases hm a with ⟨hnone, -⟩ | ⟨g, m₁, ok, hg⟩
    · rw [mapStackPages_of_none hnone]
      exact .inl rfl
    · rw [hg.mapImage] at h
      rw [mapStackPages_of_provided hg]
      cases ok with
      | true =>
        have hrest := ih hg.grow.wf (a + pageSize) (fun k hk hb ↦ by
          rw [page_succ] at hb
          exact hsmall (k + 1) (by omega) (hg.huge _ hb)) h
        rwa [page_succ] at hrest
      | false =>
        cases n with
        | zero =>
          refine .inr ?_
          have htable : m.tableAt 3 (pathTo a 3) = none := by
            by_contra hsome
            obtain ⟨t, ht⟩ := Option.ne_none_iff_exists'.mp hsome
            have hok := map_of_tableAt (m := { m with frames := m.frames.markUsed g }) (g * pageSize) dataFlags rfl ht
            rw [dataFlags, hg.map] at hok
            cases hok
          have hsmall₀ := hsmall 0 Nat.one_pos
          rw [Nat.zero_mul, Nat.add_zero] at hsmall₀
          have hblank : m.leaf a = {} := by rw [leaf_eq, if_neg hsmall₀, onPath_of_none htable]
          have hleaf := (hg.leaf a).trans (if_neg nofun)
          rw [Nat.one_mul, Nat.add_sub_cancel, mapStackPages, frameAt, hleaf, hblank]
          rfl
        | succ n =>
          rw [mapStackPages_of_none (allocPage_of_full hg.grow.wf (hg.full rfl))]
          exact .inl rfl

theorem mapStackPages_of_full (hm : m.Wf) (n a : ℕ) (hfull : m.freeFrames = 0) :
    mapStackPages (n + 1) a m = (m, false) := by
  rcases allocPage_cases hm.low with ⟨hnone, -⟩ | ⟨g, hg, -, hfree, -⟩
  · exact mapStackPages_of_none hnone n a
  · have hcount := (Spent.take hm hg hfree).frames
    omega

theorem mapStackPages_takes (hm : m.Wf) (n a : ℕ) (hfree : m.freeFrames ≠ 0) :
    ∃ g < managedPages, m.frames.bitmap g = false ∧ (mapStackPages (n + 1) a m).1.frames.bitmap g = true ∧
      ¬ (mapStackPages (n + 1) a m).1.IsTable g := by
  rcases provided_cases hm a with ⟨-, hall⟩ | ⟨g, m₁, ok, hg⟩
  · exact absurd (freeFrames_of_full hall) hfree
  · have htake := owned_of_holding (((Holding.refl hm).take hg.room hg.free).grow hg.grow)
    obtain ⟨m₂, ok₂, hrun, howned, -⟩ := htake.mapStackPages n (a + pageSize)
    obtain ⟨-, -, hused, hnt⟩ := howned.held g List.mem_cons_self
    rw [mapStackPages_of_provided hg, hrun]
    exact ⟨g, hg.room, hg.free, hused, hnt⟩

end Stack

end Eris.Machine
