import Eris.Machine.Regions
import Eris.Mm.Reservations

namespace Eris.Machine

open Loader Mm Mm.Memory Vmalloc List

/-- What a reservation is for. A device comes with the pointer and the length of its driver, an image with
the frames behind its pages. -/
inductive Owner
  | device (window length : ℕ)
  | image (frames : List ℕ)
  | stack
  | heap
  deriving DecidableEq

structure Region where
  base : ℕ
  length : ℕ
  owner : Owner
  deriving DecidableEq

namespace Region

def range (r : Region) : Range := ⟨r.base, r.length + pageSize⟩

def start (r : Region) : ℕ :=
  match r.owner with
  | .stack => r.base + pageSize
  | _ => r.base

def Body (r : Region) (a : ℕ) : Prop := r.start ≤ a ∧ a < r.base + r.length

def Guards (r : Region) (a : ℕ) : Prop :=
  r.base + r.length ≤ a ∧ a < r.base + r.length + pageSize ∨ r.base ≤ a ∧ a < r.start

def frames (r : Region) : List ℕ :=
  match r.owner with
  | .image frames => frames
  | _ => []

end Region

/-- The address space of the kernel, with the regions that are in use. -/
structure Layout where
  memory : Memory
  heap : Option Heap
  live : List Region

inductive Request
  | mapDevice (address length : ℕ)
  | unmapDevice (r : Region)
  | allocateImage (bytes : ℕ)
  | releaseImage (r : Region)
  | spawn
  | heapInit
  | grow (wanted : ℕ)
  | others (frames : Frames)

def framesOf (m : Memory) : ℕ → ℕ → List ℕ
  | _, 0 => []
  | a, n + 1 => (m.frameAt a).toList ++ framesOf m (a + pageSize) n

def deviceSpan (address length : ℕ) : ℕ := roundUp (length + (address - address / pageSize * pageSize))

namespace Layout

def withRegion (s : Layout) (m : Memory) (r : Region) : Layout := { s with memory := m, live := r :: s.live }

def withHeap (s : Layout) (out : Heap × Memory × Bool) : Layout := { s with memory := out.2.1, heap := some out.1 }

/-- What a request leaves, `none` where the kernel stops or there is nothing to do it with. -/
def step (s : Layout) : Request → Option Layout
  | .mapDevice address length =>
    let out := mapDevice address length s.memory
    if out.2 = 0 then some { s with memory := out.1 }
    else some (s.withRegion out.1 ⟨out.2 / pageSize * pageSize, deviceSpan address length, .device out.2 length⟩)
  | .unmapDevice r =>
    match r.owner with
    | .device window length =>
      some { s with memory := unmapDevice window length s.memory, live := s.live.erase r }
    | _ => none
  | .allocateImage bytes =>
    match allocateImage bytes s.memory with
    | (m, none) => some { s with memory := m }
    | (m, some loaded) => some (s.withRegion m
      ⟨loaded.base, loaded.pages * pageSize, .image (framesOf m loaded.base loaded.pages)⟩)
  | .releaseImage r =>
    match r.owner with
    | .image _ =>
      some { s with memory := releaseImage r.base (r.length / pageSize) s.memory, live := s.live.erase r }
    | _ => none
  | .spawn =>
    let out := spawnStack s.memory
    if out.2 = 0 then some { s with memory := out.1 }
    else some (s.withRegion out.1 ⟨out.2 - pageSize, (stackPages + 1) * pageSize, .stack⟩)
  | .heapInit => (heapInit s.memory).map fun out ↦
    { s.withRegion out.2 ⟨out.1.base, heapReserved, .heap⟩ with heap := some out.1 }
  | .grow wanted => s.heap.map fun heap ↦ s.withHeap (grow wanted heap s.memory)
  | .others frames => some { s with memory := { s.memory with frames := frames } }

/-- Callers give back what they have, once. The rest of the kernel takes frames that are free and gives
back its own. -/
def Enabled (s : Layout) : Request → Prop
  | .unmapDevice r => r ∈ s.live
  | .releaseImage r => r ∈ s.live
  | .heapInit => s.heap = none
  | .others frames => frames.bitmap 0 = true ∧
    ∀ f, s.memory.IsTable f ∨ f ∈ s.live.flatMap Region.frames → frames.bitmap f = true
  | _ => True

end Layout

/-- The parts of the kernel start on page boundaries of the first gigabyte and end in it. -/
def LinkedLow (image : KernelImage) : Prop := ∀ x ∈ image.segments, x.1 % pageSize = 0 ∧ x.1 + x.2 ≤ vmallocBase

/-- The states after `paging_init` that requests of some kind lead to. -/
inductive Layout.Reached (allowed : Layout → Request → Prop) : Layout → Prop
  | boot {image : KernelImage} {m₀ m : Memory} : m₀.frames.bitmap 0 = true → LinkedLow image →
      m₀.pagingInit image = some m → m.vmalloc.initialised = false → Reached allowed ⟨m, none, []⟩
  | step {s s' : Layout} {q : Request} : Reached allowed s → s.Enabled q → allowed s q → s.step q = some s' →
      Reached allowed s'

def deviceFlags : PageFlags := { write := true, noExecute := true, noCache := true }

/-- A call that gets its window and can map the first page of it can map all. A device is given back with
a length that takes as many pages from the start of a page as from where the device is in it. -/
def Layout.Clean (s : Layout) : Request → Prop
  | .mapDevice address length =>
    let reserved := s.memory.vmalloc.reserve (deviceSpan address length)
    let m := { s.memory with vmalloc := reserved.1 }
    let aligned := address / pageSize * pageSize
    reserved.2 = 0 ∨ (m.map reserved.2 aligned pageSize deviceFlags).2 = false ∨
      deviceSpan address length + pageSize < 2 ^ 64 ∧
        (m.map reserved.2 aligned (deviceSpan address length) deviceFlags).2 = true
  | .unmapDevice r =>
    match r.owner with
    | .device _ length => roundUp length = r.length
    | _ => True
  | .allocateImage bytes =>
    let reserved := s.memory.vmalloc.reserve (roundUpPages bytes * pageSize)
    NoPage bytes s.memory ∨ (mapImage (roundUpPages bytes) reserved.2 { s.memory with vmalloc := reserved.1 }).2 = true
  | .spawn =>
    let reserved := s.memory.vmalloc.reserve ((stackPages + 1) * pageSize)
    let m := { s.memory with vmalloc := reserved.1 }
    reserved.2 = 0 ∨ (mapImage 1 (reserved.2 + pageSize) m).2 = false ∨
      (mapStackPages stackPages (reserved.2 + pageSize) m).2 = true
  | _ => True

def Region.Backed (m : Memory) (r : Region) : Prop :=
  match r.owner with
  | .device window _ => window ≠ 0 ∧ window / pageSize * pageSize = r.base ∧
    ∀ k, k * pageSize < r.length → ∃ t, m.tableAt 3 (pathTo (r.base + k * pageSize) 3) = some t
  | .image frames => r.length = frames.length * pageSize ∧ Pages m r.base frames
  | _ => True

/-- What every request keeps. -/
structure Layout.Sound (s : Layout) : Prop where
  owned : Owned s.memory (s.live.flatMap Region.frames)
  tidy : s.memory.vmalloc.Wf
  regions : Tidy (s.live.map Region.range)
  free : ∀ a, s.memory.vmalloc.Free a → ∀ r ∈ s.live, ¬ r.range.Holds a
  mapped : ∀ a, vmallocBase ≤ a → a < vmallocEnd → s.memory.frameAt a ≠ none → ∃ r ∈ s.live, r.Body a
  backed : ∀ r ∈ s.live, r.Backed s.memory
  heap : ∀ h ∈ s.heap, ∃ r ∈ s.live, r.owner = .heap ∧ r.base = h.base ∧ r.length = heapReserved

variable {m m' : Memory} {s s' : Layout} {r : Region} {v : Vmalloc} {a b n w length : ℕ}

theorem Region.start_cases (r : Region) : r.start = r.base ∨ r.owner = .stack ∧ r.start = r.base + pageSize := by
  unfold start
  split
  · exact .inr ⟨‹_›, rfl⟩
  · exact .inl rfl

theorem Region.base_le_start (r : Region) : r.base ≤ r.start := by
  rcases r.start_cases with h | ⟨-, h⟩
  · exact Nat.le_of_eq h.symm
  · omega

theorem Region.Body.holds (h : r.Body a) : r.range.Holds a := by
  have hle := r.base_le_start
  obtain ⟨hlo, hhi⟩ := h
  exact ⟨Nat.le_trans hle hlo, by simp only [Region.range]; omega⟩

theorem Region.Guards.holds (h : r.Guards a) (hstart : r.start ≤ r.base + r.length + pageSize) : r.range.Holds a := by
  simp only [Range.Holds, Region.range]
  rcases h with h | h
  · omega
  · omega

theorem Region.Guards.not_body (h : r.Guards a) : ¬ r.Body a := by
  intro ⟨hlo, hhi⟩
  rcases h with h | h
  · omega
  · omega

theorem Region.Backed.kept (h : r.Backed m) (ht : ∀ d ≤ 3, ∀ p t, m.tableAt d p = some t → m'.tableAt d p = some t)
    (hsame : ∀ b, r.base ≤ b → b < r.base + r.length → m'.frameAt b = m.frameAt b) : r.Backed m' := by
  unfold Backed at h ⊢
  split at h
  · obtain ⟨hw, hbase, htables⟩ := h
    refine ⟨hw, hbase, fun k hk ↦ ?_⟩
    obtain ⟨t, hkt⟩ := htables k hk
    exact ⟨t, ht 3 le_rfl _ _ hkt⟩
  · obtain ⟨hlen, hpages⟩ := h
    refine ⟨hlen, fun j g hj ↦ ?_⟩
    obtain ⟨⟨t, hjt⟩, hframe⟩ := hpages j g hj
    have hlt := (List.getElem?_eq_some_iff.mp hj).1
    have hmul := Nat.mul_lt_mul_of_pos_right hlt (show 0 < pageSize by decide)
    rw [hsame _ (Nat.le_add_right _ _) (by rw [hlen]; omega)]
    exact ⟨⟨t, ht 3 le_rfl _ _ hjt⟩, hframe⟩
  · trivial

/-- Outside the body of a region in which pages are mapped nothing changes. -/
theorem Remaps.others_body (h : Remaps m m' a n) (hbase : r.base % pageSize = 0) (hlen : r.length % pageSize = 0)
    (hend : r.base + r.length ≤ vmallocEnd) (hin : r.start ≤ a ∧ a + n * pageSize ≤ r.base + r.length) :
    ∀ b < vmallocEnd, ¬ r.Body b → m'.frameAt b = m.frameAt b := by
  intro b hb hout
  have harea : vmallocEnd ≤ 2 ^ 48 := by decide
  have hstart : r.start % pageSize = 0 := by
    rcases r.start_cases with hs | ⟨-, hs⟩
    · rw [hs, hbase]
    · rw [hs, Nat.add_mod_right, hbase]
  have hsum : (r.base + r.length) % pageSize = 0 := by rw [Nat.add_mod, hbase, hlen]; rfl
  exact h.others b (beyond_of_outside hstart hsum hin.1 hin.2 (by omega) (by omega) hout)

namespace Layout.Sound

section

variable (h : s.Sound)

include h

theorem area (hr : r ∈ s.live) :
    vmallocBase ≤ r.base ∧ r.base + r.length + pageSize ≤ vmallocEnd ∧ r.base % pageSize = 0 ∧
      r.length % pageSize = 0 := by
  obtain ⟨hlo, -, hhi⟩ := h.regions.area _ (mem_map_of_mem hr)
  obtain ⟨hbase, hlen⟩ := h.regions.aligned _ (mem_map_of_mem hr)
  simp only [Region.range] at hlo hhi hbase hlen
  rw [Nat.add_mod_right] at hlen
  exact ⟨hlo, by omega, hbase, hlen⟩

theorem apart {x : Region} (hr : r ∈ s.live) (hx : x ∈ s.live) (ha : r.range.Holds a) (hxa : x.range.Holds a) :
    r = x := by
  by_contra hne
  have hpair := (pairwise_cons.mp (h.regions.perm ((perm_cons_erase hr).map _)).apart).1
  have hx' := (mem_erase_of_ne fun h ↦ hne h.symm).mpr hx
  exact hpair _ (mem_map_of_mem hx') a ha hxa

theorem backed_apart {x : Region} (hx : x ∈ s.live)
    (ht : ∀ d ≤ 3, ∀ p t, s.memory.tableAt d p = some t → m'.tableAt d p = some t)
    (hothers : ∀ b < vmallocEnd, ¬ r.Body b → m'.frameAt b = s.memory.frameAt b)
    (hapart : ∀ b, r.range.Holds b → ¬ x.range.Holds b) : x.Backed m' := by
  obtain ⟨-, hhi, -, -⟩ := h.area hx
  refine (h.backed x hx).kept ht fun b hbl hbh ↦ hothers b (by omega) fun hbody ↦ ?_
  exact hapart b hbody.holds ⟨hbl, by simp only [Region.range]; omega⟩

theorem refused (howned : Owned m' (s.live.flatMap Region.frames)) (htidy : m'.vmalloc.Wf)
    (hfree : ∀ a, m'.vmalloc.Free a → s.memory.vmalloc.Free a)
    (htables : ∀ d ≤ 3, ∀ p t, s.memory.tableAt d p = some t → m'.tableAt d p = some t)
    (hsame : ∀ b, m'.frameAt b = s.memory.frameAt b) : { s with memory := m' }.Sound where
  owned := howned
  tidy := htidy
  regions := h.regions
  free a ha := h.free a (hfree a ha)
  mapped a hlo hhi ha := h.mapped a hlo hhi (by rwa [hsame] at ha)
  backed r hr := (h.backed r hr).kept htables fun b _ _ ↦ hsame b
  heap := h.heap

theorem push (hres : s.memory.vmalloc.reserve length = (v, r.base)) (hw : r.base ≠ 0)
    (hlen : extent length = r.length + pageSize) (hremaps : Remaps { s.memory with vmalloc := v } m' a n)
    (hin : r.start ≤ a ∧ a + n * pageSize ≤ r.base + r.length)
    (howned : Owned m' (r.frames ++ s.live.flatMap Region.frames)) (hbacked : r.Backed m') :
    (s.withRegion m' r).Sound := by
  obtain ⟨hv, -⟩ := reserve_spec h.tidy hres
  obtain ⟨hlo, -, hhi, hwa, hfree, hnot⟩ := reserve_taken h.tidy hres hw
  have haligned := extent_aligned length
  rw [hlen] at hhi hfree hnot haligned
  have hholds : ∀ b, r.range.Holds b ↔ r.base ≤ b ∧ b < r.base + (r.length + pageSize) := fun _ ↦ Iff.rfl
  have hfresh : ∀ b, r.range.Holds b → ∀ x ∈ s.live, ¬ x.range.Holds b := by
    intro b hb
    exact h.free b ((hfree b).mpr (.inr ((hholds b).mp hb)))
  have hpos : 0 < pageSize := by decide
  have hlenmod : r.length % pageSize = 0 := by rwa [Nat.add_mod_right] at haligned
  have hothers := hremaps.others_body hwa hlenmod (by omega) hin
  refine ⟨howned, ?_, ?_, ?_, ?_, ?_, ?_⟩
  · rw [withRegion, hremaps.vmalloc]
    exact hv
  · refine h.regions.cons ⟨hlo, Nat.add_pos_right _ hpos, hhi⟩ ⟨hwa, haligned⟩ fun b hb y hy hyb ↦ ?_
    obtain ⟨x, hx, rfl⟩ := mem_map.mp hy
    exact hfresh b hb x hx hyb
  · intro b hb
    rw [withRegion, hremaps.vmalloc] at hb
    refine forall_mem_cons.mpr ⟨fun hin ↦ ?_, h.free b ((hfree b).mpr (.inl hb))⟩
    obtain ⟨hbl, hbh⟩ := (hholds b).mp hin
    exact hnot b hbl hbh hb
  · intro b hbl hbh hb
    by_cases hbody : r.Body b
    · exact ⟨r, mem_cons_self, hbody⟩
    · simp only [withRegion] at hb
      rw [hothers b hbh hbody] at hb
      obtain ⟨x, hx, hxb⟩ := h.mapped b hbl hbh hb
      exact ⟨x, mem_cons_of_mem r hx, hxb⟩
  · refine forall_mem_cons.mpr ⟨hbacked, fun x hx ↦ ?_⟩
    exact h.backed_apart hx hremaps.tables hothers fun b hb ↦ hfresh b hb x hx
  · intro heap hheap
    obtain ⟨x, hx, hrest⟩ := h.heap heap hheap
    exact ⟨x, mem_cons_of_mem r hx, hrest⟩

theorem pop (hr : r ∈ s.live) (hlen : extent length = r.length + pageSize) (hremaps : Remaps s.memory m' r.base n)
    (hn : n * pageSize = r.length) (howned : Owned m' ((s.live.erase r).flatMap Region.frames))
    (hnone : ∀ b, ¬ Beyond r.base n b → m'.frameAt b = none) (hstart : r.start = r.base) (hheap : r.owner ≠ .heap) :
    Sound { s with memory := releaseWindow r.base length m', live := s.live.erase r } := by
  obtain ⟨hlo, hhi, hba, hla⟩ := h.area hr
  have hperm := perm_cons_erase hr
  have htidy := h.regions.perm (hperm.map _)
  have hapart := (pairwise_cons.mp htidy.apart).1
  have hend : vmallocEnd ≤ 2 ^ 48 := by decide
  have hpos : 0 < pageSize := by decide
  have hholds : ∀ b, r.range.Holds b ↔ r.base ≤ b ∧ b < r.base + (r.length + pageSize) := fun _ ↦ Iff.rfl
  have hothers := hremaps.others_body hba hla (by omega) ⟨hstart.le, by omega⟩
  have hrel := release_le h.tidy ⟨hlo, by omega⟩ ⟨hba, extent_aligned length⟩ (by omega)
    fun b hbl hbh hb ↦ h.free b hb r hr ⟨hbl, by rwa [hlen] at hbh⟩
  rw [hlen] at hrel
  refine ⟨howned.withVmalloc _, ?_, htidy.tail, ?_, ?_, ?_, ?_⟩
  · simp only [releaseWindow, hremaps.vmalloc]
    exact hrel.1
  · intro b hb x hx hxb
    simp only [releaseWindow, hremaps.vmalloc] at hb
    rcases hrel.2 b hb with hb | hb
    · exact h.free b hb x (mem_of_mem_erase hx) hxb
    · exact hapart _ (mem_map_of_mem hx) b ((hholds b).mpr hb) hxb
  · intro b hbl hbh hb
    have hout : ¬ r.Body b := by
      rintro ⟨hbase, hin⟩
      apply hb
      apply hnone
      intro hbeyond
      refine hbeyond ((b - r.base) / pageSize) ?_ ?_
      · rw [Nat.div_lt_iff_lt_mul hpos]
        omega
      · unfold pageOf pageSize at *
        omega
    have hold : s.memory.frameAt b ≠ none := fun hb' ↦ hb ((hothers b hbh hout).trans hb')
    obtain ⟨x, hx, hxb⟩ := h.mapped b hbl hbh hold
    rcases mem_cons.mp (hperm.mem_iff.mp hx) with rfl | hx
    · exact absurd hxb hout
    · exact ⟨x, hx, hxb⟩
  · intro x hx
    exact h.backed_apart (mem_of_mem_erase hx) hremaps.tables hothers (hapart _ (mem_map_of_mem hx))
  · intro heap hmem
    obtain ⟨x, hx, howner, hrest⟩ := h.heap heap hmem
    refine ⟨x, ?_, howner, hrest⟩
    refine (mem_cons.mp (hperm.mem_iff.mp hx)).resolve_left fun hxr ↦ hheap ?_
    rw [← hxr, howner]

theorem grown {heap : Heap} (hheap : s.heap = some heap) (howned : Owned m' (s.live.flatMap Region.frames))
    (hremaps : Remaps s.memory m' a n) (hin : heap.base ≤ a ∧ a + n * pageSize ≤ heap.base + heapReserved)
    {committed : ℕ} : Sound { s with memory := m', heap := some ⟨heap.base, committed⟩ } := by
  obtain ⟨r, hr, howner, hbase, hlen⟩ := h.heap heap hheap
  obtain ⟨hlo, hhi, hba, hla⟩ := h.area hr
  rw [← hbase, ← hlen] at hin
  have hstart : r.start = r.base := by rw [Region.start, howner]
  have hothers := hremaps.others_body hba hla (by omega) (hstart ▸ hin)
  refine ⟨howned, by rw [hremaps.vmalloc]; exact h.tidy, h.regions, ?_, ?_, ?_, ?_⟩
  · intro b hb
    rw [hremaps.vmalloc] at hb
    exact h.free b hb
  · intro b hbl hbh hb
    by_cases hbody : r.Body b
    · exact ⟨r, hr, hbody⟩
    · exact h.mapped b hbl hbh fun hb' ↦ hb ((hothers b hbh hbody).trans hb')
  · intro x hx
    by_cases hxr : x = r
    · rw [hxr, Region.Backed, howner]
      trivial
    · exact h.backed_apart hx hremaps.tables hothers fun b hb hxb ↦ hxr (h.apart hx hr hxb hb)
  · intro heap' hheap'
    obtain rfl : (⟨heap.base, committed⟩ : Heap) = heap' := by simpa using hheap'
    exact ⟨r, hr, howner, hbase, hlen⟩

theorem withFrames {frames : Frames} (hlow : frames.bitmap 0 = true)
    (hkept : ∀ f, s.memory.IsTable f ∨ f ∈ s.live.flatMap Region.frames → frames.bitmap f = true) :
    Sound { s with memory := { s.memory with frames := frames } } where
  owned := by
    refine ⟨⟨h.owned.wf.separated, fun f hf ↦ ?_, hlow, h.owned.wf.flat⟩, fun f hf ↦ ?_, h.owned.nodup⟩
    · exact ⟨(h.owned.wf.taken f hf).1, hkept f (.inl hf)⟩
    · obtain ⟨hf0, hlt, -, hnt⟩ := h.owned.held f hf
      exact ⟨hf0, hlt, hkept f (.inr hf), hnt⟩
  tidy := h.tidy
  regions := h.regions
  free := h.free
  mapped := h.mapped
  backed := h.backed
  heap := h.heap

theorem unreserved (hres : s.memory.vmalloc.reserve length = (v, 0)) :
    { s with memory := { s.memory with vmalloc := v } }.Sound := by
  obtain ⟨hv, hfree⟩ := reserve_null h.tidy hres
  exact h.refused (h.owned.withVmalloc v) hv (fun a ↦ (hfree a).mp) (fun _ _ _ _ ht ↦ ht) fun _ ↦ rfl

theorem released (hres : s.memory.vmalloc.reserve length = (v, w)) (hw : w ≠ 0)
    (howned : Owned m' (s.live.flatMap Region.frames)) (hremaps : Remaps { s.memory with vmalloc := v } m' a 0) :
    { s with memory := releaseWindow w length m' }.Sound := by
  obtain ⟨hwf, hfree⟩ := release_reserve h.tidy hres hw
  refine h.refused (howned.withVmalloc _) ?_ ?_ hremaps.tables fun b ↦ hremaps.others b nofun
  · rw [releaseWindow, hremaps.vmalloc]
    exact hwf
  · intro b hb
    rw [releaseWindow, hremaps.vmalloc] at hb
    exact (hfree b).mp hb

end

section Requests

variable {address bytes : ℕ}

theorem pagesOf_aligned (h : length % pageSize = 0) : pagesOf length * pageSize = length := by
  unfold pagesOf pageSize at *
  omega

theorem extent_of_aligned (h : length % pageSize = 0) (hlt : length + pageSize < 2 ^ 64) :
    extent length = length + pageSize := by
  unfold extent roundUp pageSize at *
  omega

theorem roundUp_aligned (length : ℕ) : roundUp length % pageSize = 0 := Nat.mul_mod_left _ _

theorem page_of_window {offset : ℕ} (hw : w % pageSize = 0) (hoffset : offset < pageSize) :
    (w + offset) / pageSize * pageSize = w := by
  unfold pageSize at *
  omega

theorem window_room (hv : v.Wf) {v' : Vmalloc} (hres : v.reserve length = (v', w)) :
    w + heapReserved + managedPages * pageSize ≤ 2 ^ 48 ∧ w % pageSize = 0 := by
  obtain ⟨-, -, hcases⟩ := reserve_spec hv hres
  have hend : vmallocEnd + heapReserved + managedPages * pageSize ≤ 2 ^ 48 := by decide
  rcases hcases with ⟨rfl, -⟩ | ⟨-, -, hhi, hwa, -⟩
  · exact ⟨by omega, rfl⟩
  · exact ⟨by omega, hwa⟩

theorem mapDevice_eq (hres : m.vmalloc.reserve (deviceSpan address length) = (v, w)) {out : Memory × Bool}
    (hmap : { m with vmalloc := v }.map w (address / pageSize * pageSize) (deviceSpan address length) deviceFlags =
      out) :
    Machine.mapDevice address length m = if w = 0 then ({ m with vmalloc := v }, 0)
      else if out.2 then (out.1, w + (address - address / pageSize * pageSize))
      else (releaseWindow w (deviceSpan address length) out.1, 0) := by
  rw [deviceSpan] at hres hmap ⊢
  rw [deviceFlags] at hmap
  unfold Machine.mapDevice
  simp only [hres, hmap]
  obtain ⟨m', ok⟩ := out
  cases ok <;> rfl

theorem map_first (hm : m.Wf) {frame : ℕ} (hne : pagesOf length ≠ 0)
    (hfirst : (m.map w frame pageSize deviceFlags).2 = false) :
    ∃ m', m.map w frame length deviceFlags = (m', false) ∧ Grow m m' ∧ Remaps m m' w 0 := by
  obtain ⟨pages, hpages⟩ := Nat.exists_eq_succ_of_ne_zero hne
  rw [Memory.map, hpages]
  exact mapPages_first hm deviceFlags rfl pages w frame hfirst

theorem device (h : s.Sound) (hres : s.memory.vmalloc.reserve length = (v, w)) (hw : w ≠ 0)
    (haligned : length % pageSize = 0) (hlen : length + pageSize < 2 ^ 64) {frame offset asked : ℕ}
    (hoffset : offset < pageSize) (hmap : { s.memory with vmalloc := v }.map w frame length deviceFlags = (m', true)) :
    (s.withRegion m' ⟨(w + offset) / pageSize * pageSize, length, .device (w + offset) asked⟩).Sound := by
  obtain ⟨hroom, hwa⟩ := window_room h.tidy hres
  have howned := h.owned.withVmalloc v
  have hpages := pagesOf_aligned haligned
  obtain ⟨m₁, ok, hrun, hgrow, hremaps, htables⟩ := mapPages_spec howned.wf deviceFlags rfl (pagesOf length) w frame
  rw [Memory.map, hrun] at hmap
  obtain ⟨rfl, rfl⟩ := Prod.mk.inj hmap
  have hbase := page_of_window hwa hoffset
  rw [hbase]
  refine h.push (r := ⟨w, length, .device (w + offset) asked⟩) hres hw (extent_of_aligned haligned hlen) hremaps
    ⟨le_rfl, by simp only; omega⟩ (howned.grow hgrow) ⟨by omega, hbase, fun k hk ↦ htables rfl k ?_⟩
  refine Nat.lt_of_mul_lt_mul_right (a := pageSize) ?_
  rwa [hpages]

theorem mapDevice (h : s.Sound) (hclean : s.Clean (.mapDevice address length))
    (hstep : s.step (.mapDevice address length) = some s') : s'.Sound := by
  generalize hres : s.memory.vmalloc.reserve (deviceSpan address length) = out at hclean
  obtain ⟨v, w⟩ := out
  simp only [Clean, hres] at hclean
  generalize hmap : { s.memory with vmalloc := v }.map w (address / pageSize * pageSize) (deviceSpan address length)
    deviceFlags = out at hclean
  obtain ⟨m', ok⟩ := out
  simp only [step, mapDevice_eq hres hmap] at hstep
  have haligned := roundUp_aligned (length + (address - address / pageSize * pageSize))
  rw [← deviceSpan] at haligned
  have hoffset : address - address / pageSize * pageSize < pageSize := by
    unfold pageSize
    omega
  have hpages : deviceSpan address length ≠ 0 → pagesOf (deviceSpan address length) ≠ 0 := by
    intro hne h0
    have hmul := pagesOf_aligned haligned
    rw [h0, Nat.zero_mul] at hmul
    exact hne hmul.symm
  by_cases hw : w = 0
  · subst hw
    obtain rfl := Option.some.inj hstep
    exact h.unreserved hres
  cases ok with
  | true =>
    have hlen : deviceSpan address length + pageSize < 2 ^ 64 := by
      rcases hclean with h0 | hfirst | hall
      · exact absurd h0 hw
      · by_cases hzero : deviceSpan address length = 0
        · rw [hzero]
          decide
        · obtain ⟨m₁, hno, -, -⟩ := map_first (h.owned.withVmalloc v).wf (hpages hzero) hfirst
          rw [hno] at hmap
          cases hmap
      · exact hall.1
    have hne : w + (address - address / pageSize * pageSize) ≠ 0 := by omega
    simp only [if_neg hw, if_true, if_neg hne] at hstep
    obtain rfl := Option.some.inj hstep
    exact h.device hres hw haligned hlen hoffset hmap
  | false =>
    simp only [if_neg hw, Bool.false_eq_true, if_false, if_true] at hstep
    obtain rfl := Option.some.inj hstep
    have hne : deviceSpan address length ≠ 0 := by
      intro h0
      rw [h0] at hmap
      cases hmap
    rcases hclean with h0 | hfirst | hall
    · exact absurd h0 hw
    · obtain ⟨m₁, hno, hgrow, hremaps⟩ := map_first (h.owned.withVmalloc v).wf (hpages hne) hfirst
      obtain ⟨rfl, -⟩ := Prod.mk.inj (hno.symm.trans hmap)
      exact h.released hres hw ((h.owned.withVmalloc v).grow hgrow) hremaps
    · cases hall.2

theorem unmapDevice (h : s.Sound) (hr : r ∈ s.live) (hclean : s.Clean (.unmapDevice r))
    (hstep : s.step (.unmapDevice r) = some s') : s'.Sound := by
  have hbacked := h.backed r hr
  simp only [step] at hstep
  split at hstep
  · rename_i window asked howner
    obtain rfl := Option.some.inj hstep
    simp only [Clean, howner] at hclean
    rw [Region.Backed, howner] at hbacked
    obtain ⟨hwindow, hbase, htables⟩ := hbacked
    obtain ⟨hlo, hhi, hba, hla⟩ := h.area hr
    have hpages := pagesOf_aligned hla
    have hend : vmallocEnd ≤ 2 ^ 48 := by decide
    obtain ⟨m₁, hrun, hgrow, hremaps, hnone⟩ := unmapPages_spec h.owned.wf (pagesOf r.length) r.base (by omega)
      fun k hk ↦ htables k (by
        have hmul := Nat.mul_lt_mul_of_pos_right hk (show 0 < pageSize by decide)
        omega)
    simp only [Machine.unmapDevice, if_neg hwindow, hbase, hclean, Memory.unmap, hrun]
    refine h.pop hr (extent_of_aligned hla (by omega)) hremaps hpages ?_ hnone (by rw [Region.start, howner])
      (by simp [howner])
    have hframes : r.frames = [] := by rw [Region.frames, howner]
    refine (h.owned.grow hgrow).perm ?_
    have hperm := (perm_cons_erase hr).flatMap_right Region.frames
    rwa [flatMap_cons, hframes, nil_append] at hperm
  · cases hstep

theorem framesOf_pages {fs : List ℕ} (h : Pages m a fs) : framesOf m a fs.length = fs := by
  induction fs generalizing a with
  | nil => rfl
  | cons f fs ih =>
    have hrest : Pages m (a + pageSize) fs := fun j g hj ↦ by
      rw [page_succ]
      exact h (j + 1) g hj
    have hfirst := (h 0 f rfl).2
    rw [Nat.zero_mul, Nat.add_zero] at hfirst
    rw [length_cons, framesOf, hfirst, ih hrest]
    rfl

theorem allocateImage (h : s.Sound) (hclean : s.Clean (.allocateImage bytes))
    (hstep : s.step (.allocateImage bytes) = some s') : s'.Sound := by
  generalize hres : s.memory.vmalloc.reserve (roundUpPages bytes * pageSize) = out at hclean
  obtain ⟨v, w⟩ := out
  obtain ⟨hroom, hwa⟩ := window_room h.tidy hres
  have howned := h.owned.withVmalloc v
  obtain ⟨m₁, ok, fs, hmap, howned₁, hpages, hremaps, -, hall, hfirst⟩ :=
    howned.mapImage (roundUpPages bytes) w (by omega)
  simp only [Clean, NoPage, hres, hmap] at hclean
  simp only [step, Loader.allocateImage, hres, hmap] at hstep
  by_cases hw : w = 0
  · subst hw
    obtain rfl := Option.some.inj hstep
    exact h.unreserved hres
  rw [if_neg hw] at hstep
  cases ok with
  | true =>
    obtain rfl := Option.some.inj hstep
    have hcount := hall rfl
    simp only [← hcount, framesOf_pages hpages] at hres ⊢
    have hle : fs.length ≤ managedPages := howned₁.holding.length_le.trans' (by simp)
    refine h.push hres hw (Loader.extent_eq hle) hremaps ⟨le_rfl, le_rfl⟩
      howned₁ ⟨rfl, hpages⟩
  | false =>
    obtain rfl := Option.some.inj hstep
    have hnil := hfirst ((hclean.resolve_right nofun).resolve_left hw)
    subst hnil
    exact h.released hres hw howned₁ hremaps

theorem releaseImage (h : s.Sound) (hr : r ∈ s.live) (hstep : s.step (.releaseImage r) = some s') : s'.Sound := by
  have hbacked := h.backed r hr
  simp only [step] at hstep
  split at hstep
  · rename_i fs howner
    obtain rfl := Option.some.inj hstep
    rw [Region.Backed, howner] at hbacked
    obtain ⟨hlen, hpages⟩ := hbacked
    obtain ⟨hlo, hhi, hba, hla⟩ := h.area hr
    have hend : vmallocEnd ≤ 2 ^ 48 := by decide
    have hbase : r.base ≠ 0 := by
      have : 0 < vmallocBase := by decide
      omega
    have hperm := (perm_cons_erase hr).flatMap_right Region.frames
    have hframes : r.frames = fs := by rw [Region.frames, howner]
    rw [flatMap_cons, hframes] at hperm
    have hheld := (h.owned.perm hperm).holding
    obtain ⟨hheld', -, hout, hin⟩ := releasePages_spec hheld hpages (by omega)
    have hcount : r.length / pageSize = fs.length := by rw [hlen, Nat.mul_div_cancel _ (by decide)]
    rw [hcount, Loader.releaseImage, if_neg hbase, ← hlen]
    exact h.pop hr (extent_of_aligned hla (by omega)) ⟨hheld'.vmalloc, hheld'.tables, hout⟩ hlen.symm
      (owned_of_holding hheld') hin (by rw [Region.start, howner]) (by simp [howner])
  · cases hstep

theorem spawn (h : s.Sound) (hclean : s.Clean .spawn) (hstep : s.step .spawn = some s') : s'.Sound := by
  generalize hres : s.memory.vmalloc.reserve ((stackPages + 1) * pageSize) = out at hclean
  obtain ⟨v, w⟩ := out
  have howned := h.owned.withVmalloc v
  simp only [Clean, hres] at hclean
  simp only [step, spawnStack, hres] at hstep
  by_cases hw : w = 0
  · subst hw
    obtain rfl := Option.some.inj hstep
    exact h.unreserved hres
  obtain ⟨hroom, hwa⟩ := window_room h.tidy hres
  rw [if_neg hw] at hstep
  obtain ⟨m₁, ok, hrun, howned₁, hremaps⟩ := howned.mapStackPages stackPages (w + pageSize)
  rw [hrun] at hstep hclean
  cases ok with
  | true =>
    have hne : w + pageSize ≠ 0 := by omega
    simp only [if_neg hne, Nat.add_sub_cancel] at hstep
    obtain rfl := Option.some.inj hstep
    exact h.push (r := ⟨w, (stackPages + 1) * pageSize, .stack⟩) hres hw rfl hremaps
      ⟨le_rfl, by simp only [Nat.add_mul]; omega⟩ howned₁ trivial
  | false =>
    obtain rfl := Option.some.inj hstep
    rcases hclean with h0 | hfirst | hall
    · exact absurd h0 hw
    · obtain ⟨m₂, hrun₂, howned₂, hremaps₂⟩ := howned.mapStackPages_first 6 (w + pageSize) hfirst
      obtain ⟨rfl, -⟩ := Prod.mk.inj (hrun₂.symm.trans hrun)
      exact h.released hres hw howned₂ hremaps₂
    · cases hall

theorem grow_remaps {fs : List ℕ} (h : Owned m fs) (wanted : ℕ) (heap : Heap)
    (hroom : heap.base + heapReserved + managedPages * pageSize ≤ 2 ^ 48) :
    ∃ m' ok committed a n, Machine.grow wanted heap m = (⟨heap.base, committed⟩, m', ok) ∧ Owned m' fs ∧
      Remaps m m' a n ∧ heap.base ≤ a ∧ a + n * pageSize ≤ heap.base + heapReserved := by
  unfold Machine.grow
  split
  · exact ⟨m, false, heap.committed, heap.base, 0, rfl, h, .refl m _ 0, le_rfl, by omega⟩
  · rename_i hfits
    generalize growth wanted = step at hfits ⊢
    have hdiv : step / pageSize * pageSize ≤ step := Nat.div_mul_le_self _ _
    obtain ⟨m', ok, gs, hmap, howned, -, hremaps, hle, -, -⟩ :=
      h.mapImage (step / pageSize) (heap.base + heap.committed) (by omega)
    have hmul := Nat.mul_le_mul_right pageSize hle
    rw [hmap]
    cases ok with
    | true => exact ⟨m', true, _, _, _, rfl, howned.of_append, hremaps, by omega, by omega⟩
    | false => exact ⟨m', false, _, _, _, rfl, howned.of_append, hremaps, by omega, by omega⟩

theorem grow (h : s.Sound) {wanted : ℕ} (hstep : s.step (.grow wanted) = some s') : s'.Sound := by
  obtain ⟨heap, hheap, rfl⟩ := Option.map_eq_some_iff.mp hstep
  obtain ⟨r, hr, -, hbase, hlen⟩ := h.heap heap hheap
  obtain ⟨-, hhi, -, -⟩ := h.area hr
  have hend : vmallocEnd + managedPages * pageSize ≤ 2 ^ 48 := by decide
  obtain ⟨m', ok, committed, a, n, hgrow, howned, hremaps, hlo, hin⟩ :=
    grow_remaps h.owned wanted heap (by omega)
  rw [withHeap, hgrow]
  exact h.grown hheap howned hremaps ⟨hlo, hin⟩

theorem heapInit (h : s.Sound) (hstep : s.step .heapInit = some s') : s'.Sound := by
  obtain ⟨out, hinit, rfl⟩ := Option.map_eq_some_iff.mp hstep
  unfold Machine.heapInit at hinit
  simp only at hinit
  generalize hres : s.memory.vmalloc.reserve heapReserved = reserved at hinit
  obtain ⟨v, w⟩ := reserved
  obtain ⟨hroom, -⟩ := window_room h.tidy hres
  split at hinit
  · cases hinit
  · rename_i hw
    obtain ⟨m', ok, committed, a, n, hgrow, howned, hremaps, hlo, hin⟩ :=
      grow_remaps (h.owned.withVmalloc v) pageSize ⟨w, 0⟩ hroom
    simp only [hgrow] at hinit
    cases ok with
    | false => cases hinit
    | true =>
      obtain rfl := Option.some.inj hinit
      have hpush := h.push (r := ⟨w, heapReserved, .heap⟩) hres hw rfl hremaps ⟨hlo, hin⟩ howned trivial
      refine ⟨hpush.owned, hpush.tidy, hpush.regions, hpush.free, hpush.mapped, hpush.backed, ?_⟩
      intro heap hheap
      obtain rfl : (⟨w, committed⟩ : Heap) = heap := by simpa using hheap
      exact ⟨_, mem_cons_self, rfl, rfl, rfl⟩

end Requests

theorem step (h : s.Sound) {q : Request} (hon : s.Enabled q) (hclean : s.Clean q) (hstep : s.step q = some s') :
    s'.Sound := by
  cases q with
  | mapDevice address length => exact h.mapDevice hclean hstep
  | unmapDevice r => exact h.unmapDevice hon hclean hstep
  | allocateImage bytes => exact h.allocateImage hclean hstep
  | releaseImage r => exact h.releaseImage hon hstep
  | spawn => exact h.spawn hclean hstep
  | heapInit => exact h.heapInit hstep
  | grow wanted => exact h.grow hstep
  | others frames =>
    obtain rfl := Option.some.inj hstep
    exact h.withFrames hon.1 hon.2

end Layout.Sound

theorem frameAt_eq_none (h : (m.leaf a).present = false) : m.frameAt a = none := by
  rw [frameAt, h]
  rfl

theorem pageOf_ne_of_lt {k : ℕ} (haligned : b % pageSize = 0) (hend : b + length ≤ vmallocBase)
    (hk : k < pagesOf length) (hlo : vmallocBase ≤ a) (hhi : a < vmallocEnd) :
    pageOf a ≠ pageOf (b + k * pageSize) := by
  unfold pagesOf at hk
  unfold pageOf pageSize vmallocBase vmallocEnd at *
  omega

theorem boot_unmapped {image : KernelImage} (hlow : m.frames.bitmap 0 = true) (hlinked : LinkedLow image)
    (h : m.pagingInit image = some m') :
    m'.Wf ∧ ∀ a, vmallocBase ≤ a → a < vmallocEnd → m'.frameAt a = none := by
  refine pagingInit_induction (P := fun m ↦ m.Wf ∧ ∀ a, vmallocBase ≤ a → a < vmallocEnd → m.frameAt a = none)
    hlow h (fun m pdpt directory hd ↦ ⟨hd.wf, fun a hlo hhi ↦ ?_⟩) fun m c hm hc hin ↦ ?_
  · apply frameAt_eq_none
    have hpath : pathTo a 2 ≠ 0 := by
      unfold pathTo
      unfold vmallocBase at hlo
      unfold vmallocEnd at hhi
      omega
    rw [hd.leaf, if_neg hpath]
  · obtain ⟨done, hdone⟩ := c.run_spec hm.1
    refine ⟨hdone.edit.grow.wf, fun a hlo hhi ↦ ?_⟩
    by_cases hwritten : pageOf a ∈ Set.image pageOf (span c.address done)
    · obtain ⟨k, hk, hpage, e, he⟩ := hdone.written a hwritten
      cases c with
      | map address frame length flags =>
        obtain ⟨haligned, hend⟩ := hlinked _ hin
        refine absurd hpage (pageOf_ne_of_lt haligned hend ?_ hlo hhi)
        exact Nat.lt_of_lt_of_le hk hdone.le
      | unmap address length =>
        apply frameAt_eq_none
        rw [← Option.some.inj he]
      | protect address length flags => cases hin
    · rw [← hm.2 a hlo hhi]
      apply frameAt_of_leaf
      refine (hdone.edit.leaf a hwritten).resolve_right fun hu ↦ ?_
      rw [hc.user_eq] at hu
      cases hu.1

theorem Layout.Reached.sound (h : Layout.Reached Layout.Clean s) : s.Sound := by
  induction h with
  | boot hlow hlinked hinit hv =>
    obtain ⟨hwf, hunmapped⟩ := boot_unmapped hlow hlinked hinit
    refine ⟨⟨hwf, nofun, nodup_nil⟩, (accounted_start hv).wf, ⟨nofun, nofun, .nil⟩, nofun, ?_, nofun, nofun⟩
    intro a hlo hhi ha
    exact absurd (hunmapped a hlo hhi) ha
  | step _ hon hclean hstep ih => exact ih.step hon hclean hstep

/-- In every run of clean requests no address of a free range and none of a guard page is mapped. -/
theorem reached_unmapped (h : Layout.Reached Layout.Clean s)
    (ha : s.memory.vmalloc.Free a ∨ ∃ r ∈ s.live, r.Guards a) : s.memory.rights a = none := by
  have hs := h.sound
  by_contra hne
  obtain ⟨x, hx⟩ := Option.ne_none_iff_exists'.mp hne
  have hpresent := (rights_through hs.owned.wf hx).1
  have hframe : s.memory.frameAt a ≠ none := by
    rw [frameAt, hpresent]
    exact Option.some_ne_none _
  rcases ha with hfree | ⟨r, hr, hguard⟩
  · obtain ⟨range, hrange, hlo, hhi⟩ := hfree
    obtain ⟨hblo, -, hbhi⟩ := hs.tidy.area range hrange
    obtain ⟨y, hy, hbody⟩ := hs.mapped a (by omega) (by omega) hframe
    exact hs.free a ⟨range, hrange, hlo, hhi⟩ y hy hbody.holds
  · have hstart : r.start ≤ r.base + r.length + pageSize := by
      rcases r.start_cases with h | ⟨-, h⟩
      · omega
      · omega
    have hholds := hguard.holds hstart
    obtain ⟨hlo, hhi, -, -⟩ := hs.area hr
    simp only [Range.Holds, Region.range] at hholds
    obtain ⟨y, hy, hbody⟩ := hs.mapped a (by omega) (by omega) hframe
    obtain rfl := hs.apart hr hy (hguard.holds hstart) hbody.holds
    exact hguard.not_body hbody

/-- The kernel after `paging_init`. -/
def bootedLayout : Layout := ⟨booted, none, []⟩

theorem reached_bootedLayout (allowed : Layout → Request → Prop) : Layout.Reached allowed bootedLayout :=
  .boot rfl (by unfold LinkedLow; decide) pagingInit_bareMemory (by decide +kernel)

def deviceLayout (address length : ℕ) : Layout := (bootedLayout.step (.mapDevice address length)).getD bootedLayout

theorem reached_deviceLayout {allowed : Layout → Request → Prop} (address length : ℕ)
    (hok : allowed bootedLayout (.mapDevice address length)) : Layout.Reached allowed (deviceLayout address length) := by
  refine .step (q := .mapDevice address length) (reached_bootedLayout allowed) trivial hok ?_
  rw [deviceLayout]
  simp only [Layout.step]
  split
  · rfl
  · rfl

theorem reached_unmapped_ioapic :
    (deviceLayout 0xfec00000 0x1000).memory.rights (vmallocBase + 0xabc) = some ⟨true, false, true⟩ ∧
      (deviceLayout 0xfec00000 0x1000).memory.rights (vmallocBase + 0x1000) = none := by
  have hclean : bootedLayout.Clean (.mapDevice 0xfec00000 0x1000) := by
    refine .inr (.inr ⟨?_, ?_⟩)
    · decide +kernel
    · decide +kernel
  have hlive : (deviceLayout 0xfec00000 0x1000).live =
      [⟨vmallocBase, 0x1000, .device vmallocBase 0x1000⟩] := by decide +kernel
  refine ⟨by decide +kernel, reached_unmapped (reached_deviceLayout _ _ hclean) (.inr ?_)⟩
  rw [hlive]
  exact ⟨_, mem_singleton_self _, .inl (by decide)⟩

def undeviceLayout (address length : ℕ) : Layout :=
  { deviceLayout address length with
    memory := unmapDevice (vmallocBase + address % pageSize) length (deviceLayout address length).memory
    live := [] }

/-- Two bytes over a page boundary are two pages, of which the second stays mapped. -/
theorem unmapDevice_leaves_page :
    Layout.Reached (fun _ _ ↦ True) (undeviceLayout 0xfec00fff 2) ∧
      (undeviceLayout 0xfec00fff 2).memory.vmalloc.Free (vmallocBase + 0x1000) ∧
      (undeviceLayout 0xfec00fff 2).memory.rights (vmallocBase + 0x1000) = some ⟨true, false, true⟩ := by
  have hlive : (deviceLayout 0xfec00fff 2).live =
      [⟨vmallocBase, 0x2000, .device (vmallocBase + 0xfff) 2⟩] := by decide +kernel
  refine ⟨?_, ?_, ?_⟩
  · refine .step (q := .unmapDevice ⟨vmallocBase, 0x2000, .device (vmallocBase + 0xfff) 2⟩)
      (reached_deviceLayout 0xfec00fff 2 trivial) ?_ trivial ?_
    · rw [Layout.Enabled, hlive]
      exact mem_singleton_self _
    · simp only [Layout.step, hlive, undeviceLayout]
      rfl
  · unfold Vmalloc.Free
    decide +kernel
  · decide +kernel

end Eris.Machine
