import Eris.Machine.HeapRuns
import Eris.Machine.Provision

namespace Eris.Machine

open Loader Mm Mm.Memory List Finset

variable {m₀ m m' m₂ : Memory} {k : KernelHeap} {fs gs : List ℕ} {a f g size wanted : ℕ}

theorem mapImage_one_iff (hm : m.Wf) :
    (mapImage 1 a m).2 = true ↔ m.missingTables a 3 m.root < m.freeFrames := by
  have hpages : pagesFrom a 1 = {a} := by rw [pagesFrom_succ, pagesFrom, Finset.range_zero, image_empty, empty_union]
  rw [(mapImage_demand hm 1 a).1, hpages, lacking_singleton hm, Nat.add_comm]
  exact Nat.succ_le_iff

theorem mapImage_fresh (hm : m.Wf) (left a : ℕ) (hf : (mapImage left a m).1.IsTable f) :
    m.IsTable f ∨ m.frames.bitmap f = false := by
  obtain ⟨m', ok, gs, hrun, -, hmapped, -⟩ := mapImage_spec (.refl hm) left a
  rw [hrun] at hf
  exact hmapped.fresh f hf

/-- A heap whose pages are backed by frames in use. -/
structure KernelHeap.Backed (k : KernelHeap) (m : Memory) : Prop where
  wf : m.Wf
  room : k.base + heapReserved ≤ vmallocEnd
  aligned : (k.base + k.committed) % pageSize = 0
  frames : ∀ a, k.base ≤ a → a < k.base + k.committed → ∀ f, m.frameAt a = some f → m.frames.bitmap f = true

/-- No block fits a request, and the growth for it stops at some page for want of frames. -/
structure KernelHeap.Stops (k : KernelHeap) (m : Memory) (size : ℕ) : Prop where
  request : ¬ (size = 0 ∨ heapReserved < size)
  full : k.attempt (alignUp size) = none
  room : k.committed + growth (alignUp size) ≤ heapReserved
  stops : (mapImage (growth (alignUp size) / pageSize) (k.base + k.committed) m).2 = false

/-- What others may do after a growth that has failed: the tables stay, frames in use do not become tables, and
neither the pages of the heap nor the frames that the growth has left in use are theirs. -/
structure KernelHeap.Later (k : KernelHeap) (m m' m₂ : Memory) : Prop where
  wf : m₂.Wf
  tables : ∀ d ≤ 3, ∀ p t, m'.tableAt d p = some t → m₂.tableAt d p = some t
  fresh : ∀ f, m₂.IsTable f → m'.IsTable f ∨ m'.frames.bitmap f = false
  pages : ∀ a, k.base ≤ a → a < k.base + k.committed → m₂.frameAt a = m'.frameAt a
  held : ∀ f, m.frames.bitmap f = false → m'.frames.bitmap f = true → m₂.frames.bitmap f = true

def KernelHeap.Serves (k : KernelHeap) (m : Memory) (f : ℕ) : Prop :=
  m.IsTable f ∨ ∃ a, k.base ≤ a ∧ a < k.base + k.committed ∧ m.frameAt a = some f

namespace KernelHeap

theorem Stops.kmalloc (h : Stops k m size) : k.kmalloc size m =
    (k, (mapImage (growth (alignUp size) / pageSize) (k.base + k.committed) m).1, 0) := by
  have hroom := h.room
  have hstops := h.stops
  have hgrow : Machine.grow (alignUp size) k.toHeap m =
      (k.toHeap, (mapImage (growth (alignUp size) / pageSize) (k.base + k.committed) m).1, false) := by
    unfold Machine.grow
    generalize growth (alignUp size) = step at hroom hstops ⊢
    rw [if_neg (Nat.not_lt.mpr hroom)]
    generalize mapImage (step / pageSize) (k.base + k.committed) m = out at hstops ⊢
    obtain ⟨m', ok⟩ := out
    cases ok with
    | false => rfl
    | true => cases hstops
  have hout : k.grow (alignUp size) m =
      (k, (mapImage (growth (alignUp size) / pageSize) (k.base + k.committed) m).1, false) := by
    rw [KernelHeap.grow, hgrow, grown]
  unfold KernelHeap.kmalloc
  rw [if_neg h.request, h.full]
  generalize k.grow (alignUp size) m = out at hout ⊢
  subst hout
  rfl

theorem growth_pages (wanted : ℕ) : growth wanted / pageSize * pageSize = growth wanted ∧ growth wanted / pageSize ≠ 0 := by
  unfold growth heapGrowthStep pageSize
  omega

theorem grow_spec (h : (k.grow wanted m).2.2 = true) :
    mapImage (growth wanted / pageSize) (k.base + k.committed) m = ((k.grow wanted m).2.1, true) ∧
      (k.grow wanted m).1.toHeap = ⟨k.base, k.committed + growth wanted⟩ ∧
      k.committed + growth wanted ≤ heapReserved := by
  rw [KernelHeap.grow] at h ⊢
  unfold Machine.grow at h ⊢
  by_cases hroom : heapReserved < k.committed + growth wanted
  · rw [if_pos hroom, grown] at h
    cases h
  · rw [if_neg hroom] at h ⊢
    generalize mapImage (growth wanted / pageSize) (k.base + k.committed) m = out at h ⊢
    obtain ⟨m', ok⟩ := out
    cases ok with
    | false => cases h
    | true => exact ⟨rfl, merge_kept.1, Nat.not_lt.mp hroom⟩

theorem beyond_of_lt {b n : ℕ} (ha : a % pageSize = 0) (hroom : a + n * pageSize ≤ 2 ^ 48) (hb : b < a) :
    Beyond a n b :=
  beyond_of_outside ha (by rw [Nat.add_mul_mod_self_right]; exact ha) le_rfl le_rfl hroom (by omega) (by omega)

theorem exists_page {b n : ℕ} (ha : a % pageSize = 0) (hroom : a + n * pageSize ≤ 2 ^ 48) (hlo : a ≤ b)
    (hhi : b < a + n * pageSize) : ∃ j < n, pageOf b = pageOf (a + j * pageSize) := by
  refine ⟨(b - a) / pageSize, Nat.div_lt_of_lt_mul (by rw [Nat.mul_comm]; omega), ?_⟩
  have hle := Nat.div_mul_le_self (b - a) pageSize
  rw [pageOf_page (by omega)]
  unfold pageOf pageSize at *
  omega

theorem Stops.taken (h : k.Backed m) (hfail : k.Stops m size) :
    ∃ gs, Holding m (k.kmalloc size m).2.1 gs ∧
      (gs = [] ↔ m.freeFrames ≤ m.missingTables (k.base + k.committed) 3 m.root) ∧
      ∀ b < k.base + k.committed, (k.kmalloc size m).2.1.frameAt b = m.frameAt b := by
  obtain ⟨m', ok, gs, hmap, hheld, hmapped, -, hlen, hnil⟩ := mapImage_spec (Holding.refl h.wf)
    (growth (alignUp size) / pageSize) (k.base + k.committed)
  have hok : ok = false := by
    have hstops := hfail.stops
    rwa [hmap] at hstops
  have hroom := hfail.room
  have hwindow := h.room
  obtain ⟨hstep, hne⟩ := growth_pages (alignUp size)
  rw [hfail.kmalloc, hmap]
  generalize growth (alignUp size) = step at hlen hnil hroom hstep hne
  refine ⟨gs, by simpa using hheld, ?_, fun b hb ↦ ?_⟩
  · rw [hnil, ← Bool.not_eq_true, mapImage_one_iff h.wf, Nat.not_lt]
    exact ⟨fun hor ↦ hor.resolve_left hne, .inr⟩
  · have hmul := Nat.mul_le_mul_right pageSize (Nat.le_of_lt (hlen hok))
    have hfits : k.base + k.committed + gs.length * pageSize ≤ 2 ^ 48 := by
      unfold heapReserved vmallocEnd at *
      omega
    exact (hmapped.pages hfits).2 b (beyond_of_lt h.aligned hfits hb)

theorem grow_holding (h : Holding m₀ m fs) (hroom : k.base + heapReserved ≤ vmallocEnd)
    (haligned : (k.base + k.committed) % pageSize = 0) (hnext : (k.grow wanted m).2.2 = true) :
    ∃ gs, Holding m₀ (k.grow wanted m).2.1 (gs ++ fs) ∧
      (∀ d ≤ 3, ∀ p t, m.tableAt d p = some t → (k.grow wanted m).2.1.tableAt d p = some t) ∧
      ∀ a, (k.grow wanted m).1.base ≤ a → a < (k.grow wanted m).1.base + (k.grow wanted m).1.committed →
        k.base ≤ a ∧ a < k.base + k.committed ∧ (k.grow wanted m).2.1.frameAt a = m.frameAt a ∨
        ∃ g ∈ gs, (k.grow wanted m).2.1.frameAt a = some g := by
  obtain ⟨hmap, hheap, hfits⟩ := grow_spec hnext
  obtain ⟨hstep, -⟩ := growth_pages wanted
  obtain ⟨m', ok, gs, hrun, hheld, hrest, hlen, -⟩ := mapImage_spec h (growth wanted / pageSize)
    (k.base + k.committed)
  obtain ⟨rfl, rfl⟩ := Prod.mk.inj (hrun.symm.trans hmap)
  rw [hheap]
  generalize growth wanted = step at hheap hfits hstep hlen
  have hlast : k.base + k.committed + gs.length * pageSize ≤ 2 ^ 48 := by
    rw [hlen rfl, hstep]
    unfold heapReserved vmallocEnd at *
    omega
  obtain ⟨hmapped, hothers⟩ := hrest.pages hlast
  refine ⟨gs, hheld, hrest.tables, fun a hlo hhi ↦ ?_⟩
  dsimp only at hlo hhi
  by_cases ha : a < k.base + k.committed
  · exact .inl ⟨hlo, ha, hothers a (beyond_of_lt haligned hlast ha)⟩
  · obtain ⟨j, hj, hpage⟩ := exists_page haligned hlast (Nat.not_lt.mp ha) (by rw [hlen rfl, hstep]; omega)
    refine .inr ⟨gs[j], getElem_mem hj, ?_⟩
    rw [frameAt_congr hpage]
    exact (hmapped j _ (getElem?_eq_getElem hj)).2

theorem not_serves_grow (h : Owned m [f]) (hroom : k.base + heapReserved ≤ vmallocEnd)
    (haligned : (k.base + k.committed) % pageSize = 0) (hnext : (k.grow wanted m).2.2 = true)
    (hbelow : ∀ a, k.base ≤ a → a < k.base + k.committed → m.frameAt a ≠ some f) :
    ¬ (k.grow wanted m).1.Serves (k.grow wanted m).2.1 f := by
  obtain ⟨gs, hheld, -, hpages⟩ := grow_holding h.holding hroom haligned hnext
  rintro (htable | ⟨a, hlo, hhi, hat⟩)
  · exact (hheld.held f (mem_append_right gs List.mem_cons_self)).2.2.2 htable
  · rcases hpages a hlo hhi with ⟨hlo', hhi', hsame⟩ | ⟨g, hg, hnew⟩
    · rw [hsame] at hat
      exact hbelow a hlo' hhi' hat
    · obtain rfl := Option.some.inj (hnew.symm.trans hat)
      exact (nodup_append.mp hheld.nodup).2.2 g hg g List.mem_cons_self rfl

theorem Backed.grow (h : k.Backed m) (hnext : (k.grow wanted m).2.2 = true) :
    (k.grow wanted m).1.Backed (k.grow wanted m).2.1 := by
  obtain ⟨gs, hheld, -, hpages⟩ := grow_holding (Holding.refl h.wf) h.room h.aligned hnext
  obtain ⟨-, hheap, -⟩ := grow_spec hnext
  obtain ⟨hstep, -⟩ := growth_pages wanted
  refine ⟨hheld.wf, ?_, ?_, fun a hlo hhi f hat ↦ ?_⟩
  · rw [hheap]
    exact h.room
  · rw [hheap, ← hstep]
    rw [← Nat.add_assoc, Nat.add_mul_mod_self_right]
    exact h.aligned
  · rcases hpages a hlo hhi with ⟨hlo', hhi', hsame⟩ | ⟨g, hg, hnew⟩
    · rw [hsame] at hat
      exact hheld.used f (h.frames a hlo' hhi' f hat)
    · obtain rfl := Option.some.inj (hnew.symm.trans hat)
      exact (hheld.held g (mem_append_left [] hg)).2.2.1

theorem Stops.lost (h : k.Backed m) (hfail : k.Stops m size) (hlater : k.Later m (k.kmalloc size m).2.1 m₂)
    (hnext : (k.grow wanted m₂).2.2 = true) (hpage : m.missingTables (k.base + k.committed) 3 m.root < m.freeFrames) :
    ∃ g, m.frames.bitmap g = false ∧ (k.kmalloc size m).2.1.frames.bitmap g = true ∧
      ¬ (k.grow wanted m₂).1.Serves (k.grow wanted m₂).2.1 g := by
  obtain ⟨gs, hheld, hnil, hsame⟩ := hfail.taken h
  obtain ⟨g, hg⟩ := exists_mem_of_ne_nil gs fun hgs ↦ Nat.not_lt.mpr (hnil.mp hgs) hpage
  obtain ⟨hlt, hfree, hused, hnt⟩ := hheld.held g hg
  refine ⟨g, hfree, hused, not_serves_grow ?_ h.room h.aligned hnext ?_⟩
  · refine ⟨hlater.wf, forall_mem_singleton.mpr ⟨hheld.ne_zero hg, hlt, hlater.held g hfree hused, ?_⟩,
      nodup_singleton g⟩
    intro htable
    rcases hlater.fresh g htable with hbefore | hunused
    · exact hnt hbefore
    · rw [hused] at hunused
      cases hunused
  · intro a hlo hhi hat
    rw [hlater.pages a hlo hhi, hsame a hhi] at hat
    rw [h.frames a hlo hhi g hat] at hfree
    cases hfree

theorem heapInit_cases (h : heapInit m = some (k, m')) :
    ∃ v w, m.vmalloc.reserve heapReserved = (v, w) ∧ w ≠ 0 ∧
      (empty w).grow pageSize { m with vmalloc := v } = (k, m', true) := by
  unfold heapInit at h
  generalize m.vmalloc.reserve heapReserved = res at h ⊢
  obtain ⟨v, w⟩ := res
  simp only at h
  refine ⟨v, w, rfl, ?_⟩
  generalize (empty w).grow pageSize { m with vmalloc := v } = out at h ⊢
  obtain ⟨k', m'', ok⟩ := out
  split at h
  · cases h
  · rename_i hok
    obtain ⟨hne, hgrown⟩ := not_or.mp hok
    obtain rfl := (Bool.not_eq_false _).mp hgrown
    obtain ⟨rfl, rfl⟩ := Prod.mk.inj (Option.some.inj h)
    exact ⟨hne, rfl⟩

theorem backed_heapInit {reservations : List Vmalloc.Reservation} (hm : m.Wf) (hv : Vmalloc.Runs m.vmalloc reservations)
    (h : heapInit m = some (k, m')) :
    k.Backed m' ∧ k.committed = growth pageSize ∧ (∃ v gs, Holding { m with vmalloc := v } m' gs) ∧
      ∀ f, m'.IsTable f → m.IsTable f ∨ m.frames.bitmap f = false := by
  obtain ⟨v, w, hres, hne, hout⟩ := heapInit_cases h
  obtain ⟨-, -, hend, hpage, -⟩ := Vmalloc.reserve_taken hv.accounted.wf hres hne
  have hstart : (empty w).Backed { m with vmalloc := v } := by
    refine ⟨⟨hm.separated, hm.taken, hm.low, hm.flat⟩, ?_, hpage, fun a hlo hhi ↦ absurd hlo (Nat.not_le.mpr hhi)⟩
    have hextent : heapReserved ≤ Vmalloc.extent heapReserved := by decide
    exact Nat.le_trans (Nat.add_le_add_left hextent w) hend
  have hgrown : ((empty w).grow pageSize { m with vmalloc := v }).2.2 = true := by rw [hout]
  have hbacked := hstart.grow hgrown
  obtain ⟨hmap, hheap, -⟩ := grow_spec hgrown
  obtain ⟨gs, hheld, -⟩ := grow_holding (Holding.refl hstart.wf) hstart.room hstart.aligned hgrown
  rw [hout] at hbacked hmap hheap hheld
  refine ⟨hbacked, ?_, ⟨v, _, hheld⟩, fun f hf ↦ ?_⟩
  · rw [show k.committed = k.toHeap.committed from rfl, hheap]
    exact Nat.zero_add _
  · have hf : (mapImage (growth pageSize / pageSize) ((empty w).base + (empty w).committed)
        { m with vmalloc := v }).1.IsTable f := by rwa [hmap]
    have hfresh := mapImage_fresh hstart.wf _ _ hf
    exact hfresh

section Scarce

def scarce : Memory := blankMemory fun f ↦ decide (f < 2 ∨ 4002 ≤ f)

def idle (m : Memory) : Memory :=
  { m with frames := { m.frames with bitmap := fun f ↦ m.frames.bitmap f && decide (f < 4002) } }

def crowded (m : Memory) : Memory := { m with frames := { m.frames with bitmap := fun _ ↦ true } }

/-- A heap that has come up in a memory with few frames. -/
structure Scarce (k : KernelHeap) (m : Memory) : Prop where
  backed : k.Backed m
  committed : k.committed = growth pageSize
  full : k.attempt (alignUp 41943040) = none
  supplied : m.Supplied 7
  tables : ∀ f, m.IsTable f → f < 4002
  used : ∀ f, 4002 ≤ f → m.frames.bitmap f = true

theorem attempt_of_committed_lt {bs : List Library.Blocks.Block} {live : List Allocation} (h : Sound k bs live)
    (hsize : k.committed < size) : k.attempt (alignUp size) = none := by
  obtain ⟨hle, hdvd⟩ := le_alignUp size
  rcases h.attempt hdvd hle with ⟨hnone, -⟩ | ⟨k', bs', pointer, -, -, hheap, hsound⟩
  · exact hnone
  · obtain ⟨-, hlo, hhi⟩ := hsound.placed List.mem_cons_self
    rw [hheap] at hlo hhi
    dsimp only at hlo hhi
    omega

theorem scarce_heap : ∃ k m, Scarce k m := by
  have hfree : 7 + 3584 ≤ Library.Bitmap.population (fun f ↦ !decide (f < 2 ∨ 4002 ≤ f)) managedPages := by
    have hsub : Finset.Ico 2 3593 ⊆
        (Finset.range managedPages).filter fun f ↦ (!decide (f < 2 ∨ 4002 ≤ f)) = true := by
      intro f hf
      obtain ⟨hlo, hhi⟩ := mem_Ico.mp hf
      have hlt : f < managedPages := Nat.lt_trans hhi (by decide)
      refine Finset.mem_filter.mpr ⟨Finset.mem_range.mpr hlt, ?_⟩
      rw [decide_eq_false (by omega)]
      rfl
    have hcard := card_le_card hsub
    rwa [Nat.card_Ico] at hcard
  have hsupply : scarce.Supplied (7 + 3584) := ⟨rfl, hfree⟩
  obtain ⟨k, m, hinit, hleft⟩ := heapInit_of_supplied hsupply (by decide)
  obtain ⟨bs, hsound, -⟩ := sound_heapInit (.start rfl) hinit
  obtain ⟨hbacked, hcommitted, ⟨v, gs, hheld⟩, hfresh⟩ := backed_heapInit (blank_wf rfl rfl) (.start rfl) hinit
  refine ⟨k, m, hbacked, hcommitted, attempt_of_committed_lt hsound ?_, hleft, fun f hf ↦ ?_, fun f hf ↦ ?_⟩
  · rw [hcommitted]
    decide
  · rcases hfresh f hf with ⟨d, -, p, ht⟩ | hunused
    · obtain ⟨-, rfl⟩ := blank_tableAt ht
      decide
    · have hmem := of_decide_eq_false hunused
      omega
  · exact hheld.used f (decide_eq_true (.inr hf))

theorem idle_wf (hm : m.Wf) (htables : ∀ f, m.IsTable f → f < 4002) : (idle m).Wf where
  separated := hm.separated
  taken f hf := by
    obtain ⟨hlt, hused⟩ := hm.taken f hf
    exact ⟨hlt, by simp [idle, hused, htables f hf]⟩
  low := by simp [idle, hm.low]
  flat := hm.flat

theorem idle_grow (h : k.committed = growth pageSize) (hm : m.Wf) : (k.grow pageSize (idle m)).2.2 = true := by
  have hfree : 3584 ≤ Library.Bitmap.population (fun f ↦ !(idle m).frames.bitmap f) managedPages := by
    have hsub : Finset.Ico 4002 7586 ⊆
        (Finset.range managedPages).filter fun f ↦ (!(idle m).frames.bitmap f) = true := by
      intro f hf
      obtain ⟨hlo, hhi⟩ := mem_Ico.mp hf
      have hlt : f < managedPages := Nat.lt_trans hhi (by decide)
      refine Finset.mem_filter.mpr ⟨Finset.mem_range.mpr hlt, ?_⟩
      simp [idle, hlo]
    have hcard := card_le_card hsub
    rwa [Nat.card_Ico] at hcard
  have hpages : 0 + 7 * (growth pageSize / pageSize) = 3584 := by decide
  have hsupply : (idle m).Supplied (0 + 7 * (growth pageSize / pageSize)) :=
    ⟨by simp [idle, hm.low], by rwa [hpages]⟩
  have hroom : k.toHeap.committed + growth pageSize ≤ heapReserved := by
    rw [h]
    decide
  obtain ⟨m', hgrow, -⟩ := grow_of_supplied k.toHeap hsupply hroom
  rw [KernelHeap.grow, hgrow, grown]

theorem Scarce.request (h : k.Scarce m)
    (hstops : (mapImage (growth (alignUp 41943040) / pageSize) (k.base + k.committed) m').2 = false) :
    k.Stops m' 41943040 := by
  refine ⟨by decide, h.full, ?_, hstops⟩
  rw [h.committed]
  decide

theorem Scarce.stops (h : k.Scarce m) : k.Stops m 41943040 := by
  apply h.request
  obtain ⟨m', ok, gs, hmap, hheld, -, hlen, -⟩ := mapImage_spec (Holding.refl h.backed.wf)
    (growth (alignUp 41943040) / pageSize) (k.base + k.committed)
  rw [hmap]
  apply Bool.eq_false_iff.mpr
  intro hok
  have hcount : growth (alignUp 41943040) / pageSize = 10752 := by decide
  have hsub : gs.toFinset ⊆ Finset.range 4002 := by
    intro f hf
    have hfree := (hheld.held f (mem_append_left [] (mem_toFinset.mp hf))).2.1
    rw [Finset.mem_range]
    by_contra hge
    rw [h.used f (Nat.not_lt.mp hge)] at hfree
    cases hfree
  have hcard := card_le_card hsub
  rw [toFinset_card_of_nodup (nodup_append.mp hheld.nodup).1, card_range, hlen hok, hcount] at hcard
  omega

theorem Scarce.later (h : k.Scarce m) : k.Later m (k.kmalloc 41943040 m).2.1 (idle (k.kmalloc 41943040 m).2.1) := by
  obtain ⟨gs, hheld, -⟩ := h.stops.taken h.backed
  have hbelow : ∀ f, m.frames.bitmap f = false → f < 4002 := by
    intro f hfree
    by_contra hge
    rw [h.used f (Nat.not_lt.mp hge)] at hfree
    cases hfree
  refine ⟨idle_wf hheld.wf fun f hf ↦ ?_, fun _ _ _ _ ht ↦ ht, fun _ ↦ .inl, fun _ _ _ ↦ rfl, fun f hfree hused ↦ ?_⟩
  · rw [h.stops.kmalloc] at hf
    exact (mapImage_fresh h.backed.wf _ _ hf).elim (h.tables f) (hbelow f)
  · simp [idle, hused, hbelow f hfree]

end Scarce

/-- After a request that fails in a growth the heap is as before. The frames that the growth took serve the next
growth just when it could not map its first page. -/
theorem kmalloc_failure_iff (h : k.Backed m) (hfail : k.Stops m size) (hlater : k.Later m (k.kmalloc size m).2.1 m₂)
    (hnext : (k.grow wanted m₂).2.2 = true) :
    ((k.kmalloc size m).1 = k ∧ (k.kmalloc size m).2.2 = 0 ∧
      ∀ f, m.frames.bitmap f = false → (k.kmalloc size m).2.1.frames.bitmap f = true →
        (k.grow wanted m₂).1.Serves (k.grow wanted m₂).2.1 f) ↔
      m.freeFrames ≤ m.missingTables (k.base + k.committed) 3 m.root := by
  constructor
  · intro ⟨_, _, hserve⟩
    by_contra hpage
    obtain ⟨g, hfree, hused, hlost⟩ := hfail.lost h hlater hnext (Nat.not_le.mp hpage)
    exact hlost (hserve g hfree hused)
  · intro hpage
    obtain ⟨gs, hheld, hnil, -⟩ := hfail.taken h
    obtain rfl := hnil.mpr hpage
    have hk := hfail.kmalloc
    refine ⟨by rw [hk], by rw [hk], fun f hfree hused ↦ .inl ?_⟩
    rcases hheld.spent f hused with hbefore | ⟨d, hd, p, ht⟩ | hmem
    · rw [hfree] at hbefore
      cases hbefore
    · obtain ⟨-, -, htables, -⟩ := grow_holding (Holding.refl hlater.wf) h.room h.aligned hnext
      exact ⟨d, hd, p, htables d hd p f (hlater.tables d hd p f ht)⟩
    · cases hmem

/-- Where no frame is free the heap loses none. -/
theorem kmalloc_failure_crowded :
    ∃ k m size m₂ wanted, Backed k m ∧ Stops k m size ∧ Later k m (k.kmalloc size m).2.1 m₂ ∧
      (k.grow wanted m₂).2.2 = true ∧ (k.kmalloc size m).2.2 = 0 ∧
      ∀ f, m.frames.bitmap f = false → (k.kmalloc size m).2.1.frames.bitmap f = true →
        (k.grow wanted m₂).1.Serves (k.grow wanted m₂).2.1 f := by
  obtain ⟨k, m, h⟩ := scarce_heap
  have hbacked : k.Backed (crowded m) := by
    have hm := h.backed.wf
    exact ⟨⟨hm.separated, fun f hf ↦ ⟨(hm.taken f hf).1, rfl⟩, rfl, hm.flat⟩, h.backed.room, h.backed.aligned,
      fun _ _ _ _ _ ↦ rfl⟩
  have hmap : ∀ left, left ≠ 0 → mapImage left (k.base + k.committed) (crowded m) = (crowded m, false) := by
    intro left hne
    obtain ⟨left, rfl⟩ := Nat.exists_eq_succ_of_ne_zero hne
    rw [mapImage, allocPage_of_full hbacked.wf fun _ _ ↦ rfl]
    rfl
  have hmap := hmap _ (growth_pages (alignUp 41943040)).2
  have hstops := h.request (by rw [hmap])
  have hlater : k.Later (crowded m) (k.kmalloc 41943040 (crowded m)).2.1 (idle m) := by
    rw [hstops.kmalloc, hmap]
    exact ⟨idle_wf h.backed.wf h.tables, fun _ _ _ _ ht ↦ ht, fun _ ↦ .inl, fun _ _ _ ↦ rfl, by simp [crowded]⟩
  have hnext := idle_grow h.committed h.backed.wf
  have hfree : (crowded m).freeFrames = 0 := freeFrames_of_full fun _ _ ↦ rfl
  have hall := (kmalloc_failure_iff hbacked hstops hlater hnext).mpr (by rw [hfree]; exact Nat.zero_le _)
  exact ⟨k, crowded m, 41943040, idle m, pageSize, hbacked, hstops, hlater, hnext, hall.2⟩

/-- A growth by 42 MiB fails in a memory of 16 MiB. The frame of its first page is lost when the heap grows again. -/
theorem kmalloc_failure_loses :
    ∃ k m size m₂ wanted, Backed k m ∧ Stops k m size ∧ Later k m (k.kmalloc size m).2.1 m₂ ∧
      (k.grow wanted m₂).2.2 = true ∧ ∃ f, m.frames.bitmap f = false ∧ (k.kmalloc size m).2.1.frames.bitmap f = true ∧
        ¬ (k.grow wanted m₂).1.Serves (k.grow wanted m₂).2.1 f := by
  obtain ⟨k, m, h⟩ := scarce_heap
  obtain ⟨gs, hheld, -⟩ := h.stops.taken h.backed
  have hnext := idle_grow h.committed hheld.wf
  have hpage : m.missingTables (k.base + k.committed) 3 m.root < m.freeFrames := by
    have hone : m.Supplied (0 + 7 * 1) := h.supplied
    obtain ⟨m', hmap, -⟩ := supplied_mapImage hone (k.base + k.committed)
    exact (mapImage_one_iff h.backed.wf).mp (by rw [hmap])
  exact ⟨k, m, 41943040, _, pageSize, h.backed, h.stops, h.later, hnext, h.stops.lost h.backed h.later hnext hpage⟩

end KernelHeap

end Eris.Machine
