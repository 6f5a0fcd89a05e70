import Eris.Machine.HeapFailure
import Eris.Sched.Runs

namespace Eris.Machine

open Loader Mm Mm.Memory Vmalloc Sched Library.Chains List Finset KernelHeap Function

/-- `sizeof(Thread)`. -/
def threadSize : ℕ := 104

/-- The registers that `prepare` leaves on a new stack for the first switch. -/
def savedWords : ℕ := 7

/-- Where `Thread::spawn` takes things from and puts the thread. Of the stacks, the thread objects know the lowest
address. -/
structure Threads where
  memory : Memory
  heap : KernelHeap
  sched : Scheduler
  stackBase : ℕ → ℕ

def writable (m : Memory) (a : ℕ) : Bool := (m.rights a).any Rights.write

/-- Whether the words that `prepare` writes lie in memory. -/
def prepares (m : Memory) (top : ℕ) : Bool := (List.range savedWords).all fun i ↦ writable m (top - 8 * (i + 1))

namespace Threads

/-- The rest of `spawn`, with the object of the thread. `none` where `prepare` faults. -/
def spawnWith (thread : ℕ) (s : Threads) : Option (Threads × ℕ) :=
  let stack := spawnStack s.memory
  if stack.2 = 0 then some ({ s with memory := stack.1, heap := s.heap.kfree thread }, 0)
  else if prepares stack.1 (stack.2 + stackPages * pageSize) then
    some ({ s with
      memory := stack.1
      sched := s.sched.adopt thread
      stackBase := update s.stackBase thread stack.2 }, thread)
  else none

/-- The new thread or zero, `none` where the kernel stops. -/
def spawn (s : Threads) : Option (Threads × ℕ) :=
  if maxThreads ≤ s.sched.threadsAlive then some (s, 0)
  else
    let object := s.heap.kmalloc threadSize s.memory
    let s := { s with heap := object.1, memory := object.2.1 }
    if object.2.2 = 0 then some (s, 0) else s.spawnWith object.2.2

def window (s : Threads) : ℕ := (s.memory.vmalloc.reserve ((stackPages + 1) * pageSize)).2

/-- The region that `spawn` reserves, if it gets there. -/
def region (s : Threads) : Option ℕ :=
  if s.sched.threadsAlive < maxThreads ∧ (s.heap.kmalloc threadSize s.memory).2.2 ≠ 0 ∧ s.window ≠ 0 then some s.window
  else none

/-- Nothing has come of a call but, perhaps, page tables. -/
structure Refused (s s' : Threads) : Prop where
  sched : s'.sched = s.sched
  used : s'.heap.used = s.heap.used
  live : ∀ bs live, s.heap.Sound bs live → ∃ bs', s'.heap.Sound bs' live
  kept : ∀ f, s.memory.frames.bitmap f = true → s'.memory.frames.bitmap f = true
  taken : ∀ f, s'.memory.frames.bitmap f = true → s.memory.frames.bitmap f = true ∨ s'.memory.IsTable f
  ranges : ∀ a, s'.memory.vmalloc.Free a ↔ s.memory.vmalloc.Free a
  unmapped : ∀ w, s.region = some w → ∀ a, w ≤ a → a < w + (stackPages + 1) * pageSize → s'.memory.frameAt a = none

/-- A thread waits for its turn, on a stack with a guard page below. -/
structure Started (s : Threads) (t : ℕ) : Prop where
  queued : Reaches s.sched.next s.sched.runQueueHead t
  stack : ∀ a, s.stackBase t ≤ a → a < s.stackBase t + stackPages * pageSize → writable s.memory a = true
  guard : ∀ a, s.stackBase t - pageSize ≤ a → a < s.stackBase t → s.memory.frameAt a = none

def Ends (s : Threads) : Option (Threads × ℕ) → Prop
  | none => False
  | some (s', t) => t = 0 ∧ s.Refused s' ∨ t ≠ 0 ∧ s'.Started t

def Atomic (s : Threads) : Prop := s.Ends s.spawn

/-- What holds of the kernel between calls. -/
structure Ready (s : Threads) (bs : List Library.Blocks.Block) (live : List KernelHeap.Allocation) (all : List ℕ) :
    Prop where
  wf : s.memory.Wf
  plain : s.memory.Plain
  small : ∀ a, vmallocBase ≤ a → a < vmallocEnd → ¬ s.memory.InHuge a
  tidy : s.memory.vmalloc.Wf
  heap : s.heap.Sound bs live
  aligned : (s.heap.base + s.heap.committed) % pageSize = 0
  committed : s.heap.committed ≤ heapReserved
  room : s.heap.base + heapReserved ≤ vmallocEnd
  apart : ∀ a, s.memory.vmalloc.Free a → a < s.heap.base ∨ s.heap.base + heapReserved ≤ a
  threads : s.sched.Settled all
  objects : ∀ t, t ∈ all ∨ (∃ c, s.sched.idle c = some t) →
    t ∈ live.map KernelHeap.Allocation.pointer ∨ t < s.heap.base ∨ s.heap.base + heapReserved ≤ t

def stack (s : Threads) : Finset ℕ := pagesFrom (s.window + pageSize) stackPages

def growthPages : ℕ := growth (alignUp threadSize) / pageSize

def heapPages (s : Threads) : Finset ℕ := pagesFrom (s.heap.base + s.heap.committed) growthPages

def Bare (s : Threads) (length : ℕ) : Prop := ∀ a, s.window ≤ a → a < s.window + length → s.memory.frameAt a = none

/-- There is enough for all of a call, or the first thing it asks for is not to be had. -/
def Affordable (s : Threads) : Prop :=
  maxThreads ≤ s.sched.threadsAlive ∨ if s.heap.attempt (alignUp threadSize) ≠ none then
    s.window = 0 ∨ s.memory.freeFrames = 0 ∧ s.Bare ((stackPages + 1) * pageSize) ∨
      stackPages + s.memory.lacking s.stack ≤ s.memory.freeFrames ∧ s.Bare pageSize
  else
    heapReserved < s.heap.committed + growth (alignUp threadSize) ∨
      s.memory.freeFrames ≤ s.memory.lacking {s.heap.base + s.heap.committed} ∨
      s.window ≠ 0 ∧ growthPages + stackPages + s.memory.lacking (s.stack ∪ s.heapPages) ≤ s.memory.freeFrames ∧
        s.Bare pageSize

variable {s s' : Threads} {bs : List Library.Blocks.Block} {live : List KernelHeap.Allocation} {all : List ℕ}
  {a t w : ℕ} {v : Vmalloc}

theorem window_spec (h : s.memory.vmalloc.Wf) (hres : s.memory.vmalloc.reserve ((stackPages + 1) * pageSize) = (v, w))
    (hw : w ≠ 0) : vmallocBase ≤ w ∧ w + (stackPages + 2) * pageSize ≤ vmallocEnd ∧ w % pageSize = 0 ∧
      ∀ a, w ≤ a → a < w + (stackPages + 1) * pageSize → s.memory.vmalloc.Free a := by
  obtain ⟨hlo, -, hhi, hpage, hfree, -⟩ := reserve_taken h hres hw
  have hextent : extent ((stackPages + 1) * pageSize) = (stackPages + 2) * pageSize := by decide
  refine ⟨hlo, hhi, hpage, fun a hle hlt ↦ (hfree a).mpr (.inr ⟨hle, ?_⟩)⟩
  have hmul : (stackPages + 1) * pageSize ≤ (stackPages + 2) * pageSize := by decide
  omega

theorem pageOf_below {top : ℕ} (ha : top % pageSize = 0) (hlo : top - pageSize ≤ a) (hhi : a < top) :
    pageOf a = pageOf (top - pageSize) := by
  unfold pageOf pageSize at *
  omega

theorem frameAt_eq_none_iff {m : Memory} : m.frameAt a = none ↔ (m.leaf a).present = false := by
  rw [frameAt]
  split
  · rename_i hp
    simp [hp]
  · rename_i hp
    simp [hp]

theorem writable_of_leaf {m : Memory} {g : ℕ} (hm : m.Wf) (hp : m.Plain) (h : m.leaf a = encode dataFlags g) :
    writable m a = true := by
  rw [writable, rights_of_leaf hm hp h]
  rfl

theorem not_writable {m : Memory} (hm : m.Wf) (h : m.frameAt a = none) : writable m a = false := by
  rw [writable]
  cases hr : m.rights a with
  | none => rfl
  | some x =>
    have hpresent := (rights_through hm hr).1
    rw [frameAt_eq_none_iff.mp h] at hpresent
    cases hpresent

theorem prepares_of_writable {m : Memory} {top : ℕ} (h : ∀ a, top - pageSize ≤ a → a < top → writable m a = true)
    (hpos : pageSize ≤ top) : prepares m top = true := by
  have hwords : 8 * savedWords ≤ pageSize ∧ 0 < pageSize := by decide
  refine all_eq_true.mpr fun i hi ↦ h _ ?_ ?_
  · have hlt := List.mem_range.mp hi
    omega
  · omega

theorem not_prepares {m : Memory} {top : ℕ} (h : writable m (top - 8) = false) : prepares m top = false := by
  refine Bool.eq_false_iff.mpr fun hall ↦ ?_
  have hfirst := all_eq_true.mp hall 0 (List.mem_range.mpr (by decide))
  rw [h] at hfirst
  cases hfirst

theorem spawnStack_eq {m : Memory} (hres : m.vmalloc.reserve ((stackPages + 1) * pageSize) = (v, w)) (hw : w ≠ 0) :
    spawnStack m =
      match mapStackPages stackPages (w + pageSize) { m with vmalloc := v } with
      | (m', false) => (releaseWindow w ((stackPages + 1) * pageSize) m', 0)
      | (m', true) => (m', w + pageSize) := by
  rw [spawnStack, hres]
  exact if_neg hw

theorem spawnWith_cases (hm : s.memory.Wf) (hp : s.memory.Plain) (hv : s.memory.vmalloc.Wf)
    (hsmall : ∀ a, vmallocBase ≤ a → a < vmallocEnd → ¬ s.memory.InHuge a) (t : ℕ) :
    ((s.window = 0 ∨ s.memory.freeFrames = 0) ∧ ∃ v, (∀ a, v.Free a ↔ s.memory.vmalloc.Free a) ∧
      s.spawnWith t = some ({ s with memory := { s.memory with vmalloc := v }, heap := s.heap.kfree t }, 0)) ∨
    (s.window ≠ 0 ∧ s.memory.freeFrames ≠ 0 ∧ s.memory.freeFrames < stackPages + s.memory.lacking s.stack ∧
      ∀ s' t', s.spawnWith t = some (s', t') → t' = 0 ∧ ∃ g < managedPages, s.memory.frames.bitmap g = false ∧
        s'.memory.frames.bitmap g = true ∧ ¬ s'.memory.IsTable g) ∨
    s.window ≠ 0 ∧ stackPages + s.memory.lacking s.stack ≤ s.memory.freeFrames ∧ ∃ m', s.spawnWith t = some ({ s with
          memory := m'
          sched := s.sched.adopt t
          stackBase := update s.stackBase t (s.window + pageSize) }, t) ∧
        (∀ a, s.window + pageSize ≤ a → a < s.window + (stackPages + 1) * pageSize → writable m' a = true) ∧
        ∀ a, s.window ≤ a → a < s.window + pageSize → m'.frameAt a = s.memory.frameAt a := by
  obtain ⟨v, w, hres⟩ : ∃ v w, s.memory.vmalloc.reserve ((stackPages + 1) * pageSize) = (v, w) := ⟨_, _, rfl⟩
  have hwindow : s.window = w := by rw [window, hres]
  have hspec := window_spec hv hres
  rw [stack, hwindow]
  by_cases hw : w = 0
  · subst hw
    refine .inl ⟨.inl rfl, v, (reserve_null hv hres).2, ?_⟩
    rw [spawnWith, spawnStack, hres]
    rfl
  have hstack := spawnStack_eq hres hw
  obtain ⟨hlo, hhi, hpage, -⟩ := hspec hw
  obtain ⟨m₁, hm₁⟩ : ∃ m₁, m₁ = { s.memory with vmalloc := v } := ⟨_, rfl⟩
  have hwf : m₁.Wf := by
    rw [hm₁]
    exact ⟨hm.separated, hm.taken, hm.low, hm.flat⟩
  have hcount : m₁.freeFrames = s.memory.freeFrames := by rw [hm₁, freeFrames, freeFrames]
  have hlack : m₁.lacking (pagesFrom (w + pageSize) stackPages) =
      s.memory.lacking (pagesFrom (w + pageSize) stackPages) := by
    rw [hm₁]
    exact lacking_congr rfl _
  rw [← hm₁] at hstack
  by_cases hfull : s.memory.freeFrames = 0
  · have hstop : mapStackPages stackPages (w + pageSize) m₁ = (m₁, false) :=
      mapStackPages_of_full hwf 7 _ (hcount.trans hfull)
    refine .inl ⟨.inr hfull, _, (release_reserve hv hres hw).2, ?_⟩
    rw [spawnWith, hstack, hstop, hm₁]
    rfl
  obtain ⟨hiff, -⟩ := mapImage_demand hwf stackPages (w + pageSize)
  rw [hlack, hcount] at hiff
  have hpages : pageSize + stackPages * pageSize = (stackPages + 1) * pageSize ∧
      (stackPages + 1) * pageSize + pageSize = (stackPages + 2) * pageSize ∧ pageSize ≤ stackPages * pageSize ∧
      8 < pageSize ∧ vmallocEnd ≤ 2 ^ 48 := by decide
  by_cases hall : stackPages + s.memory.lacking (pagesFrom (w + pageSize) stackPages) ≤ s.memory.freeFrames
  · refine .inr (.inr ⟨hw, hall, ?_⟩)
    obtain ⟨m₂, hmap⟩ : ∃ m₂, mapImage stackPages (w + pageSize) m₁ = (m₂, true) := ⟨_, Prod.ext rfl (hiff.mpr hall)⟩
    obtain ⟨gs, hlen, hmapped⟩ := mapImage_mapped hwf hmap
    have hroom : w + pageSize + gs.length * pageSize ≤ 2 ^ 48 := by rw [hlen]; omega
    have hwf₂ : m₂.Wf := by
      have hspent := (mapImage_demand hwf stackPages (w + pageSize)).2
      rw [hmap] at hspent
      exact (hspent rfl).wf
    have hwrite : ∀ a, w + pageSize ≤ a → a < w + (stackPages + 1) * pageSize → writable m₂ a = true := by
      intro a hle hlt
      obtain ⟨k, hk, hka⟩ := exists_page (n := stackPages) (show (w + pageSize) % pageSize = 0 by
        rw [Nat.add_mod_right]
        exact hpage) (by omega) hle (by omega)
      have hleaf := (hmapped.leaf hroom k _ (getElem?_eq_getElem (hlen ▸ hk))).2
      rw [leaf_congr hka.symm] at hleaf
      exact writable_of_leaf hwf₂ (hmapped.plain (by rw [hm₁]; exact hp)) hleaf
    refine ⟨m₂, ?_, hwrite, fun a hle hlt ↦ ?_⟩
    · have hprepares : prepares m₂ (w + pageSize + stackPages * pageSize) = true := by
        exact prepares_of_writable (fun a hle hlt ↦ hwrite a (by omega) (by omega)) (by omega)
      rw [mapStackPages_of_mapImage _ _ hmap] at hstack
      rw [spawnWith, hstack]
      rw [if_neg (show ¬ w + pageSize = 0 by omega), if_pos hprepares]
    · rw [frameAt_of_leaf (hmapped.others a (beyond_of_lt (by rw [Nat.add_mod_right]; exact hpage) hroom hlt)), hm₁]
      rfl
  · refine .inr (.inl ⟨hw, hfull, Nat.not_le.mp hall, fun s' t' hrun ↦ ?_⟩)
    have hno := Bool.eq_false_iff.mpr fun hok ↦ hall (hiff.mp hok)
    have htaken := mapStackPages_takes hwf 7 (w + pageSize) (by rw [hcount]; exact hfull)
    have hnone : ∀ k < stackPages, ¬ m₁.InHuge (w + pageSize + k * pageSize) := by
      intro k hk
      have hmul := Nat.mul_le_mul_right pageSize (Nat.succ_le_of_lt hk)
      rw [Nat.succ_mul] at hmul
      rw [hm₁]
      exact hsmall _ (by omega) (by omega)
    have hstops := mapStackPages_stops hwf stackPages (w + pageSize) hnone hno
    obtain ⟨m₂, ok, hloop, howned, -⟩ := (owned_of_holding (.refl hwf)).mapStackPages stackPages (w + pageSize)
    rw [spawnWith, hstack] at hrun
    rw [show 7 + 1 = stackPages from rfl, hloop] at htaken
    rw [hloop] at hstops hrun
    cases ok with
    | false =>
      obtain ⟨rfl, rfl⟩ := Prod.mk.inj (Option.some.inj hrun)
      obtain ⟨g, hg, hfree, hused, hnt⟩ := htaken
      rw [hm₁] at hfree
      exact ⟨rfl, g, hg, hfree, hused, hnt⟩
    | true =>
      have htop := hstops.resolve_left (by simp)
      have hfault : prepares m₂ (w + pageSize + stackPages * pageSize) = false := by
        have haligned : (w + pageSize + stackPages * pageSize) % pageSize = 0 := by
          rw [Nat.add_mul_mod_self_right, Nat.add_mod_right]
          exact hpage
        have hlarge : 8 < w + pageSize + stackPages * pageSize := by omega
        generalize w + pageSize + stackPages * pageSize = top at htop haligned hlarge ⊢
        apply not_prepares
        apply not_writable howned.wf
        rw [frameAt_congr (pageOf_below haligned (by omega) (by omega))]
        exact htop
      rw [if_neg (show ¬ w + pageSize = 0 by omega), hfault] at hrun
      cases hrun

end Threads

namespace KernelHeap

variable {k k' : KernelHeap} {m : Memory} {bs : List Library.Blocks.Block} {live : List Allocation} {size wanted p : ℕ}

theorem attempt_kfree_used (h : k.attempt wanted = some (k', p)) : (k'.kfree p).used = k.used := by
  obtain ⟨block, -, heq⟩ := Option.map_eq_some_iff.mp h
  obtain ⟨rfl, rfl⟩ := Prod.mk.inj heq
  have hpos : ¬ block + blockHeaderSize = 0 := by
    have : 0 < blockHeaderSize := by decide
    omega
  rw [KernelHeap.kfree, if_neg hpos, Nat.add_sub_cancel]
  simp only [write_headers_self, Bool.false_eq_true, if_false, merge_kept.2, write_used, split_used, Nat.add_sub_cancel]

theorem kmalloc_of_none {k₁ : KernelHeap} {m₁ : Memory} {ok : Bool} (hsize : ¬ (size = 0 ∨ heapReserved < size))
    (hnone : k.attempt (alignUp size) = none) (hgrow : k.grow (alignUp size) m = (k₁, m₁, ok)) :
    (ok = false → k.kmalloc size m = (k₁, m₁, 0)) ∧
      (ok = true → ∀ k₂ p, k₁.attempt (alignUp size) = some (k₂, p) → k.kmalloc size m = (k₂, m₁, p)) := by
  unfold KernelHeap.kmalloc
  rw [if_neg hsize, hnone]
  generalize k.grow (alignUp size) m = out at hgrow ⊢
  subst hgrow
  cases ok with
  | false => exact ⟨fun _ ↦ rfl, nofun⟩
  | true =>
    refine ⟨nofun, fun _ k₂ p hsome ↦ ?_⟩
    simp only [hsome]

/-- What becomes of the memory in a request, and whether it is served. -/
theorem Sound.kmalloc_cases (h : Sound k bs live) (hsize : ¬ (size = 0 ∨ heapReserved < size)) (m : Memory) :
    (k.attempt (alignUp size) ≠ none ∧ (k.kmalloc size m).2.1 = m ∧ (k.kmalloc size m).1.toHeap = k.toHeap ∧
      (k.kmalloc size m).2.2 ≠ 0 ∧ ((k.kmalloc size m).1.kfree (k.kmalloc size m).2.2).used = k.used) ∨
    k.attempt (alignUp size) = none ∧
      (heapReserved < k.committed + growth (alignUp size) ∧ k.kmalloc size m = (k, m, 0) ∨
      k.committed + growth (alignUp size) ≤ heapReserved ∧
        ((mapImage (growth (alignUp size) / pageSize) (k.base + k.committed) m).2 = false ∧
          k.kmalloc size m = (k, (mapImage (growth (alignUp size) / pageSize) (k.base + k.committed) m).1, 0) ∨
        mapImage (growth (alignUp size) / pageSize) (k.base + k.committed) m = ((k.kmalloc size m).2.1, true) ∧
          (k.kmalloc size m).1.toHeap = ⟨k.base, k.committed + growth (alignUp size)⟩ ∧
          (k.kmalloc size m).2.2 ≠ 0)) := by
  obtain ⟨hle, hdvd⟩ := le_alignUp size
  rcases h.attempt hdvd hle with ⟨hnone, hall⟩ | ⟨k', bs', pointer, hsome, hne, hheap, -⟩
  · refine .inr ⟨hnone, ?_⟩
    have hgrow : k.grow (alignUp size) m = k.grown (alignUp size) (Machine.grow (alignUp size) k.toHeap m) := rfl
    by_cases hroom : heapReserved < k.committed + growth (alignUp size)
    · refine .inl ⟨hroom, ?_⟩
      rw [Machine.grow, if_pos hroom, grown] at hgrow
      exact (kmalloc_of_none hsize hnone hgrow).1 rfl
    · refine .inr ⟨Nat.not_lt.mp hroom, ?_⟩
      by_cases hstop : (mapImage (growth (alignUp size) / pageSize) (k.base + k.committed) m).2 = false
      · exact .inl ⟨hstop, Stops.kmalloc ⟨hsize, hnone, Nat.not_lt.mp hroom, hstop⟩⟩
      · have hok : (k.grow (alignUp size) m).2.2 = true := by
          rw [hgrow, Machine.grow, if_neg hroom]
          generalize mapImage (growth (alignUp size) / pageSize) (k.base + k.committed) m = out at hstop
          obtain ⟨m₁, ok⟩ := out
          cases ok with
          | false => exact absurd rfl hstop
          | true => rfl
        obtain ⟨hmap, hheap, -⟩ := grow_spec hok
        rcases h.grow (alignUp size) m with ⟨m', hfail⟩ | ⟨k₁, m₁, bs₁, hgrown, hsound, b, hb, hfree, hfits⟩
        · rw [hfail] at hok
          cases hok
        · rcases hsound.attempt hdvd hle with ⟨-, hall'⟩ | ⟨k₂, bs₂, pointer, hsome, hne, hheap₂, -⟩
          · exact absurd (hall' b hb hfree) (Nat.not_lt.mpr hfits)
          · rw [hgrown] at hmap hheap
            rw [(kmalloc_of_none hsize hnone hgrown).2 rfl k₂ pointer hsome]
            exact .inr ⟨hmap, hheap₂.trans hheap, hne⟩
  · refine .inl ⟨by simp [hsome], ?_⟩
    have hout : k.kmalloc size m = (k', m, pointer) := by
      rw [KernelHeap.kmalloc, if_neg hsize, hsome]
    rw [hout]
    exact ⟨rfl, hheap, hne, attempt_kfree_used hsome⟩

theorem Sound.kmalloc_kfree (h : Sound k bs live) (hne : (k.kmalloc size m).2.2 ≠ 0) :
    ∃ bs', Sound ((k.kmalloc size m).1.kfree (k.kmalloc size m).2.2) bs' live := by
  rcases h.kmalloc size m with ⟨bs₁, hsound, -⟩ | ⟨hnone, -⟩
  · obtain ⟨bs₂, hfreed, -⟩ := hsound.kfree List.mem_cons_self
    rw [erase_cons_head] at hfreed
    exact ⟨bs₂, hfreed⟩
  · exact absurd hnone hne

end KernelHeap

namespace Threads

variable {s s' u : Threads} {bs : List Library.Blocks.Block} {live : List KernelHeap.Allocation} {all : List ℕ} {a t w : ℕ}

theorem atomic_of_limit (h : maxThreads ≤ s.sched.threadsAlive) : s.Atomic := by
  have hrun : s.spawn = some (s, 0) := by rw [spawn, if_pos h]
  rw [Atomic, hrun]
  refine .inl ⟨rfl, rfl, rfl, fun bs _ hs ↦ ⟨bs, hs⟩, fun _ ↦ id, fun _ ↦ .inl, fun _ ↦ .rfl, fun w hw ↦ ?_⟩
  rw [region, if_neg fun hc ↦ absurd hc.1 (Nat.not_lt.mpr h)] at hw
  cases hw

theorem spawn_eq {k : KernelHeap} {m : Memory} (hlimit : ¬ maxThreads ≤ s.sched.threadsAlive)
    (hout : s.heap.kmalloc threadSize s.memory = (k, m, t)) :
    s.spawn = if t = 0 then some ({ s with heap := k, memory := m }, 0)
      else { s with heap := k, memory := m }.spawnWith t := by
  rw [spawn, if_neg hlimit, hout]

theorem request_fits : ¬ (threadSize = 0 ∨ heapReserved < threadSize) := by decide

theorem Ready.bounds (h : s.Ready bs live all) :
    (s.heap.kmalloc threadSize s.memory).1.base = s.heap.base ∧
      (s.heap.kmalloc threadSize s.memory).1.committed ≤ heapReserved := by
  have hcommitted := h.committed
  rcases h.heap.kmalloc_cases request_fits s.memory with
    ⟨-, -, hheap, -⟩ | ⟨-, ⟨-, hout⟩ | ⟨hroom, ⟨-, hout⟩ | ⟨-, hheap, -⟩⟩⟩
  · rw [hheap]
    exact ⟨rfl, hcommitted⟩
  · rw [hout]
    exact ⟨rfl, hcommitted⟩
  · rw [hout]
    exact ⟨rfl, hcommitted⟩
  · rw [hheap]
    exact ⟨rfl, hroom⟩

theorem Ready.fresh (h : s.Ready bs live all) (hne : (s.heap.kmalloc threadSize s.memory).2.2 ≠ 0) :
    s.sched.Fresh (s.heap.kmalloc threadSize s.memory).2.2 := by
  obtain ⟨bs', hsound, -⟩ := (h.heap.kmalloc threadSize s.memory).resolve_right fun h0 ↦ hne h0.1
  obtain ⟨hbase, hcommitted⟩ := h.bounds
  obtain ⟨-, hlo, hhi⟩ := hsound.placed List.mem_cons_self
  obtain ⟨hnew, -⟩ := nodup_cons.mp hsound.pointers_nodup
  have hpos : 0 < threadSize := by decide
  generalize s.heap.kmalloc threadSize s.memory = out at *
  have hknown : ∀ t, t ∈ all ∨ (∃ c, s.sched.idle c = some t) → out.2.2 ≠ t := by
    rintro t ht rfl
    rcases h.objects _ ht with hlive | hout
    · exact hnew hlive
    · dsimp only at hlo hhi
      omega
  refine ⟨fun hreach ↦ ?_, fun c hidle ↦ hknown _ (.inr ⟨c, hidle⟩) rfl⟩
  obtain ⟨ls, hinv⟩ := h.threads
  exact hknown _ (.inl (hinv.objects.reaches_iff.mp hreach)) rfl

theorem started_iff {m' : Memory} (hsettled : u.sched.Settled all) (hfresh : u.sched.Fresh t)
    (hwrite : ∀ a, u.window + pageSize ≤ a → a < u.window + (stackPages + 1) * pageSize → writable m' a = true)
    (hguard : ∀ a, u.window ≤ a → a < u.window + pageSize → m'.frameAt a = u.memory.frameAt a) :
    Started { u with
      memory := m'
      sched := u.sched.adopt t
      stackBase := update u.stackBase t (u.window + pageSize) } t ↔ u.Bare pageSize := by
  have hbase : update u.stackBase t (u.window + pageSize) t = u.window + pageSize := update_self ..
  have hpages : pageSize + stackPages * pageSize = (stackPages + 1) * pageSize := by decide
  constructor
  · intro hstarted a hlo hhi
    have hnone := hstarted.guard a
    simp only [hbase, Nat.add_sub_cancel] at hnone
    rw [← hguard a hlo hhi]
    exact hnone hlo hhi
  · intro hbare
    refine ⟨Scheduler.adopt_queued hsettled hfresh, fun a hlo hhi ↦ ?_, fun a hlo hhi ↦ ?_⟩
    · simp only [hbase] at hlo hhi
      exact hwrite a hlo (by omega)
    · simp only [hbase, Nat.add_sub_cancel] at hlo hhi
      rw [hguard a hlo hhi]
      exact hbare a hlo hhi

theorem region_eq (hlimit : ¬ maxThreads ≤ s.sched.threadsAlive)
    (hne : (s.heap.kmalloc threadSize s.memory).2.2 ≠ 0) (hw : s.window ≠ 0) : s.region = some s.window :=
  if_pos ⟨Nat.not_le.mp hlimit, hne, hw⟩

theorem window_of_region (h : s.region = some w) : w = s.window ∧ w ≠ 0 ∧ (s.heap.kmalloc threadSize s.memory).2.2 ≠ 0 := by
  rw [region] at h
  split at h
  · rename_i hc
    cases h
    exact ⟨rfl, hc.2.2, hc.2.1⟩
  · cases h

theorem Refused.isTable (h : s.Refused s') {g : ℕ} (hfree : s.memory.frames.bitmap g = false)
    (hused : s'.memory.frames.bitmap g = true) : s'.memory.IsTable g :=
  (h.taken g hused).resolve_left (by rw [hfree]; nofun)

theorem not_ends_of_leak {m : Memory} {out : Option (Threads × ℕ)}
    (hold : ∀ f, s.memory.frames.bitmap f = true → m.frames.bitmap f = true)
    (h : ∀ s' t', out = some (s', t') → t' = 0 ∧ ∃ g < managedPages, m.frames.bitmap g = false ∧
      s'.memory.frames.bitmap g = true ∧ ¬ s'.memory.IsTable g) : ¬ s.Ends out := by
  intro hend
  cases hout : out with
  | none =>
    rw [hout] at hend
    exact hend
  | some r =>
    obtain ⟨s', t'⟩ := r
    obtain ⟨rfl, g, -, hunused, hused, hnt⟩ := h s' t' hout
    rw [hout] at hend
    rcases hend with ⟨-, hrefused⟩ | ⟨h0, -⟩
    · refine hnt (hrefused.isTable ?_ hused)
      refine Bool.eq_false_iff.mpr fun hused ↦ ?_
      rw [hold g hused] at hunused
      cases hunused
    · exact absurd rfl h0

theorem atomic_iff_of_fits (h : s.Ready bs live all) (hlimit : ¬ maxThreads ≤ s.sched.threadsAlive)
    (hfits : s.heap.attempt (alignUp threadSize) ≠ none) :
    s.Atomic ↔ s.window = 0 ∨ s.memory.freeFrames = 0 ∧ s.Bare ((stackPages + 1) * pageSize) ∨
      stackPages + s.memory.lacking s.stack ≤ s.memory.freeFrames ∧ s.Bare pageSize := by
  obtain ⟨-, hmem, -, hne, hused⟩ := (h.heap.kmalloc_cases request_fits s.memory).resolve_right fun hno ↦ hfits hno.1
  have hfresh := h.fresh hne
  have hfreed := fun bs live (hs : s.heap.Sound bs live) ↦ hs.kmalloc_kfree hne
  have hregion := region_eq hlimit hne
  obtain ⟨k, m, t, hout⟩ : ∃ k m t, s.heap.kmalloc threadSize s.memory = (k, m, t) := ⟨_, _, _, rfl⟩
  rw [hout] at hmem hne hused hfresh hfreed
  subst hmem
  have hpositive : 0 < stackPages := by decide
  have hrun := spawn_eq hlimit hout
  rw [if_neg hne] at hrun
  rw [Atomic, hrun]
  rcases spawnWith_cases (s := { s with heap := k, memory := s.memory }) h.wf h.plain h.tidy h.small t with
    ⟨hnull, v, hfree, hres⟩ | ⟨hw, hframes, hlt, hleak⟩ | ⟨hw, hle, m', hres, hwrite, hguard⟩
  · rw [hres]
    constructor
    · rintro (⟨-, hrefused⟩ | ⟨h0, -⟩)
      · by_cases hw : s.window = 0
        · exact .inl hw
        · exact .inr (.inl ⟨hnull.resolve_left hw, hrefused.unmapped _ (hregion hw)⟩)
      · exact absurd rfl h0
    · intro hcond
      refine .inl ⟨rfl, rfl, hused, hfreed, fun _ ↦ id, fun _ ↦ .inl, hfree, fun w hw ↦ ?_⟩
      obtain ⟨rfl, hw, -⟩ := window_of_region hw
      rcases hcond with h0 | ⟨-, hbare⟩ | ⟨hle, -⟩
      · exact absurd h0 hw
      · exact hbare
      · have hzero : s.memory.freeFrames = 0 := hnull.resolve_left hw
        omega
  · constructor
    · intro hend
      exact absurd hend (not_ends_of_leak (fun _ ↦ id) hleak)
    · rintro (h0 | ⟨h0, -⟩ | ⟨hle, -⟩)
      · exact absurd h0 hw
      · exact absurd h0 hframes
      · exact absurd hle (Nat.not_le.mpr hlt)
  · rw [hres]
    have hstarted := started_iff (u := { s with heap := k, memory := s.memory }) h.threads hfresh hwrite hguard
    have hle : stackPages + s.memory.lacking s.stack ≤ s.memory.freeFrames := hle
    constructor
    · rintro (⟨h0, -⟩ | ⟨-, hend⟩)
      · exact absurd h0 hne
      · exact .inr (.inr ⟨hle, hstarted.mp hend⟩)
    · rintro (h0 | ⟨h0, -⟩ | ⟨-, hbare⟩)
      · exact absurd h0 hw
      · omega
      · exact .inr ⟨hne, hstarted.mpr hbare⟩

theorem atomic_iff_of_stops (h : s.Ready bs live all) (hlimit : ¬ maxThreads ≤ s.sched.threadsAlive)
    (hout : s.heap.kmalloc threadSize s.memory =
      (s.heap, (mapImage growthPages (s.heap.base + s.heap.committed) s.memory).1, 0)) :
    s.Atomic ↔ s.memory.freeFrames ≤ s.memory.lacking {s.heap.base + s.heap.committed} := by
  obtain ⟨m', ok, gs, hmap, hheld, -, -, -, hnil⟩ := mapImage_spec (Holding.refl h.wf) growthPages
    (s.heap.base + s.heap.committed)
  have hrun := spawn_eq hlimit hout
  rw [List.append_nil] at hheld
  rw [if_pos rfl, hmap] at hrun
  have hfirst : gs = [] ↔ s.memory.freeFrames ≤ s.memory.lacking {s.heap.base + s.heap.committed} := by
    rw [hnil, lacking_singleton h.wf, ← Nat.not_lt, ← mapImage_one_iff h.wf, Bool.not_eq_true]
    exact ⟨fun hor ↦ hor.resolve_left (by decide), .inr⟩
  rw [Atomic, hrun, ← hfirst]
  constructor
  · rintro (⟨-, hrefused⟩ | ⟨h0, -⟩)
    · refine eq_nil_iff_forall_not_mem.mpr fun g hg ↦ ?_
      obtain ⟨hlt, hfree, hused, hnt⟩ := hheld.held g hg
      exact hnt (hrefused.isTable hfree hused)
    · exact absurd rfl h0
  · rintro rfl
    refine .inl ⟨rfl, rfl, rfl, fun bs _ hs ↦ ⟨bs, hs⟩, hheld.used, fun f hused ↦ ?_, fun a ↦ by rw [hheld.vmalloc], fun w hw ↦ ?_⟩
    · exact (hheld.spent f hused).imp_right fun hor ↦ hor.resolve_right not_mem_nil
    · obtain ⟨-, -, hne⟩ := window_of_region hw
      rw [hout] at hne
      exact absurd rfl hne

theorem Ready.beyond (h : s.Ready bs live all) (hroom : s.heap.committed + growth (alignUp threadSize) ≤ heapReserved)
    (hw : s.window ≠ 0) (hlo : s.window ≤ a) (hhi : a < s.window + pageSize) :
    Beyond (s.heap.base + s.heap.committed) growthPages a := by
  obtain ⟨hbase, hend, -, hfree⟩ := window_spec (w := s.window) h.tidy (Prod.ext rfl rfl) hw
  obtain ⟨hstep, -⟩ := growth_pages (alignUp threadSize)
  have hmul : pageSize ≤ (stackPages + 1) * pageSize ∧ pageSize ≤ (stackPages + 2) * pageSize ∧ vmallocEnd ≤ 2 ^ 47 := by decide
  have hapart := h.apart a (hfree a hlo (by omega))
  have hwindow := h.room
  refine beyond_of_outside h.aligned ?_ le_rfl le_rfl ?_ (by omega) ?_
  · rw [Nat.add_mul_mod_self_right]
    exact h.aligned
  · rw [growthPages, hstep]
    omega
  · rw [growthPages, hstep]
    omega

theorem atomic_iff_of_grows (h : s.Ready bs live all) (hlimit : ¬ maxThreads ≤ s.sched.threadsAlive)
    (hroom : s.heap.committed + growth (alignUp threadSize) ≤ heapReserved)
    (hmap : mapImage growthPages (s.heap.base + s.heap.committed) s.memory =
      ((s.heap.kmalloc threadSize s.memory).2.1, true)) (hne : (s.heap.kmalloc threadSize s.memory).2.2 ≠ 0) :
    s.Atomic ↔ s.window ≠ 0 ∧
      growthPages + stackPages + s.memory.lacking (s.stack ∪ s.heapPages) ≤ s.memory.freeFrames ∧ s.Bare pageSize := by
  have hfresh := h.fresh hne
  have hbeyond := fun a hw hlo hhi ↦ h.beyond (a := a) hroom hw hlo hhi
  obtain ⟨k, m, t, hout⟩ : ∃ k m t, s.heap.kmalloc threadSize s.memory = (k, m, t) := ⟨_, _, _, rfl⟩
  have hrun := spawn_eq hlimit hout
  rw [hout] at hmap hne hfresh
  rw [if_neg hne] at hrun
  obtain ⟨m', ok, gs, hmap', hheld, hmapped, hlen, -⟩ := mapImage_spec (Holding.refl h.wf) growthPages
    (s.heap.base + s.heap.committed)
  obtain ⟨rfl, rfl⟩ := Prod.mk.inj (hmap'.symm.trans hmap)
  have hspent : Spent s.memory m' growthPages s.heapPages := by
    have hspent := (mapImage_demand h.wf growthPages (s.heap.base + s.heap.committed)).2
    rw [hmap'] at hspent
    exact hspent rfl
  obtain ⟨u, hu⟩ : ∃ u, u = { s with heap := k, memory := m' } := ⟨_, rfl⟩
  have hwindow : u.window = s.window := by rw [hu, window, hheld.vmalloc, window]
  have hstack : u.stack = s.stack := by rw [stack, hwindow, stack]
  have hsched : u.sched = s.sched := by rw [hu]
  have hmemory : u.memory = m' := by rw [hu]
  have hbare : s.window ≠ 0 → (u.Bare pageSize ↔ s.Bare pageSize) := by
    intro hw
    rw [Bare, Bare, hwindow, hmemory]
    refine forall₃_congr fun a hlo hhi ↦ ?_
    rw [frameAt_of_leaf (hmapped.others a (hlen rfl ▸ hbeyond a hw hlo hhi))]
  have hcount := hspent.frames
  have hlack := hspent.lacking s.stack
  rw [Atomic, hrun, ← hu]
  have hcases := spawnWith_cases (by rw [hmemory]; exact hspent.wf) (by rw [hmemory]; exact hmapped.plain h.plain)
    (by rw [hmemory, hheld.vmalloc]; exact h.tidy)
    (fun a hlo hhi hin ↦ h.small a hlo hhi (hmapped.huge a (by rw [← hmemory]; exact hin))) t
  rw [hwindow, hstack, hmemory, hsched] at hcases
  rcases hcases with ⟨hnull, v, hfree, hres⟩ | ⟨hw, hframes, hlt, hleak⟩ | ⟨hw, hle, m₂, hres, hwrite, hguard⟩
  · have hnot : ¬ s.Ends (u.spawnWith t) := by
      refine not_ends_of_leak (fun _ ↦ id) fun s' t' hsome ↦ ?_
      rw [hres] at hsome
      obtain ⟨rfl, rfl⟩ := Prod.mk.inj (Option.some.inj hsome)
      obtain ⟨g, hg⟩ := exists_mem_of_length_pos (show 0 < gs.length by rw [hlen rfl]; decide)
      obtain ⟨hlt, hunused, hused, hnt⟩ := hheld.held g (mem_append_left [] hg)
      exact ⟨rfl, g, hlt, hunused, hused, hnt⟩
    refine ⟨fun hend ↦ absurd hend hnot, fun ⟨hw, hle, _⟩ ↦ ?_⟩
    have hpositive : 0 < stackPages := by decide
    omega
  · refine ⟨fun hend ↦ absurd hend (not_ends_of_leak hheld.used hleak), fun ⟨_, hle, _⟩ ↦ ?_⟩
    omega
  · rw [hres]
    have hstarted := started_iff (by rw [hsched]; exact h.threads) (by rw [hsched]; exact hfresh)
      (by rw [hwindow]; exact hwrite) (by rw [hwindow, hmemory]; exact hguard)
    rw [hsched, hwindow, hbare hw] at hstarted
    constructor
    · rintro (⟨h0, -⟩ | ⟨-, hend⟩)
      · exact absurd h0 hne
      · exact ⟨hw, by omega, hstarted.mp hend⟩
    · intro ⟨_, _, hbare⟩
      exact .inr ⟨hne, hstarted.mpr hbare⟩

def freshHeap : KernelHeap :=
  ({ (KernelHeap.empty 2080374784).append 2080374784 heapGrowthStep with toHeap := ⟨2080374784, heapGrowthStep⟩ } :
    KernelHeap).merge 2080374784

def early (used : ℕ → Bool) : Threads where
  memory := { blankMemory used with vmalloc := ⟨[⟨vmallocBase, 1048576⟩], true, by decide⟩ }
  heap := freshHeap
  sched := boot
  stackBase _ := 0

theorem sound_freshHeap : ∃ bs, freshHeap.Sound bs [] ∧ freshHeap.attempt (alignUp threadSize) ≠ none := by
  have hempty : (KernelHeap.empty 2080374784).Sound [] [] :=
    ⟨⟨by decide, trivial, rfl, rfl, rfl⟩, by decide, nofun, .nil, rfl, .refl _, nofun⟩
  obtain ⟨bs, hsound, b, hb, hfree, hle⟩ := hempty.append (show blockHeaderSize ≤ heapGrowthStep by decide)
    (show alignment ∣ heapGrowthStep by decide) rfl
  have hsound : freshHeap.Sound bs [] := hsound
  refine ⟨bs, hsound, fun hnone ↦ ?_⟩
  obtain ⟨hup, hdvd⟩ := le_alignUp threadSize
  rcases hsound.attempt hdvd hup with ⟨-, hall⟩ | ⟨_, _, _, hsome, -⟩
  · have hsmall := hall b hb hfree
    have hbig : alignUp threadSize ≤ heapGrowthStep - blockHeaderSize := by decide
    omega
  · rw [hsome] at hnone
    cases hnone

theorem early_ready {used : ℕ → Bool} (h0 : used 0 = true) (h1 : used 1 = true) :
    ∃ bs, (early used).Ready bs [] [] := by
  obtain ⟨bs, hsound, -⟩ := sound_freshHeap
  have hwf := blank_wf h0 h1
  have hheap : freshHeap.toHeap = ⟨2080374784, heapGrowthStep⟩ := merge_kept.1
  have hnone : ∀ d a, (early used).memory.onPath d a = {} := by
    intro d a
    rw [onPath]
    split
    · rfl
    · rfl
  refine ⟨bs, ⟨⟨hwf.separated, hwf.taken, hwf.low, hwf.flat⟩, ?_, ?_, ?_, hsound, ?_, ?_, ?_, ?_, Scheduler.boot_settled, ?_⟩⟩
  · intro d _ a hlink
    rw [hnone] at hlink
    cases hlink.1
  · intro a _ _ hhuge
    rw [InHuge, hnone] at hhuge
    cases hhuge.1
  · exact ⟨forall_mem_singleton.mpr (by decide), forall_mem_singleton.mpr (by decide),
      pairwise_singleton _ _⟩
  · rw [early, hheap]
    decide
  · rw [early, hheap]
    decide
  · rw [early, hheap]
    decide
  · rintro a ⟨r, hr, hlo, hhi⟩
    obtain rfl := List.mem_singleton.mp hr
    refine .inl (Nat.lt_trans hhi ?_)
    rw [early, hheap]
    decide
  · rintro t (ht | ⟨c, hidle⟩)
    · cases ht
    · cases hidle

theorem early_fits {used : ℕ → Bool} : (early used).heap.attempt (alignUp threadSize) ≠ none := by
  obtain ⟨-, -, hfits⟩ := sound_freshHeap
  exact hfits

theorem early_frameAt {used : ℕ → Bool} (a : ℕ) : (early used).memory.frameAt a = none :=
  show (blankMemory used).frameAt a = none from blank_frameAt a

theorem early_freeFrames {used : ℕ → Bool} :
    (early used).memory.freeFrames = ((Finset.range managedPages).filter fun f ↦ used f = false).card := by
  have hused : ∀ f, (early used).memory.frames.bitmap f = used f := fun _ ↦ rfl
  simp only [freeFrames, Library.Bitmap.population, hused, Bool.not_eq_true']

/-- `spawn` is all or nothing where there is enough for all it asks for, or not even for the first thing. -/
theorem spawn_atomic_iff (h : s.Ready bs live all) : s.Atomic ↔ s.Affordable := by
  by_cases hlimit : maxThreads ≤ s.sched.threadsAlive
  · exact ⟨fun _ ↦ .inl hlimit, fun _ ↦ atomic_of_limit hlimit⟩
  rw [Affordable, or_iff_right hlimit]
  have hdemand := (mapImage_demand h.wf growthPages (s.heap.base + s.heap.committed)).1
  rcases h.heap.kmalloc_cases request_fits s.memory with
    ⟨hfits, -⟩ | ⟨hnone, ⟨hroom, hout⟩ | ⟨hroom, ⟨hstop, hout⟩ | ⟨hmap, -, hne⟩⟩⟩
  · rw [if_pos hfits]
    exact atomic_iff_of_fits h hlimit hfits
  · rw [if_neg (not_not.mpr hnone)]
    have hrun := spawn_eq hlimit hout
    refine ⟨fun _ ↦ .inl hroom, fun _ ↦ ?_⟩
    rw [Atomic, hrun]
    refine .inl ⟨rfl, rfl, rfl, fun bs _ hs ↦ ⟨bs, hs⟩, fun _ ↦ id, fun _ ↦ .inl, fun _ ↦ .rfl, fun w hw ↦ ?_⟩
    obtain ⟨-, -, hne⟩ := window_of_region hw
    rw [hout] at hne
    exact absurd rfl hne
  · rw [if_neg (not_not.mpr hnone), atomic_iff_of_stops h hlimit hout]
    refine ⟨fun hfirst ↦ .inr (.inl hfirst), ?_⟩
    rintro (hlarge | hfirst | ⟨-, hle, -⟩)
    · exact absurd hroom (Nat.not_le.mpr hlarge)
    · exact hfirst
    · have hunion := s.memory.lacking_mono (show s.heapPages ⊆ s.stack ∪ s.heapPages from subset_union_right)
      have hyes := hdemand.mpr (by rw [← heapPages]; omega)
      exact absurd (hyes.symm.trans hstop) nofun
  · rw [if_neg (not_not.mpr hnone), atomic_iff_of_grows h hlimit hroom hmap hne]
    refine ⟨fun hall ↦ .inr (.inr hall), ?_⟩
    rintro (hlarge | hfirst | hall)
    · exact absurd hroom (Nat.not_le.mpr hlarge)
    · have hle := hdemand.mp (congrArg Prod.snd hmap)
      have hone := s.memory.lacking_mono (show {s.heap.base + s.heap.committed} ⊆ s.heapPages from pagesFrom_first (by decide))
      have hpositive : 0 < growthPages := by decide
      rw [← heapPages] at hle
      omega
    · exact hall

/-- With frames enough there is a thread. -/
theorem spawn_atomic_early : ∃ bs, (early (· < 2)).Ready bs [] [] ∧ (early (· < 2)).Atomic := by
  obtain ⟨bs, hready⟩ : ∃ bs, (early (· < 2)).Ready bs [] [] := early_ready rfl rfl
  have hiff := spawn_atomic_iff hready
  refine ⟨bs, hready, ?_⟩
  rw [hiff, Affordable, if_pos early_fits]
  refine .inr (.inr (.inr ⟨?_, fun a _ _ ↦ early_frameAt a⟩))
  have hlack := (early (· < 2)).memory.lacking_le (early (· < 2)).stack
  have hpages : (early (· < 2)).stack.card ≤ 8 := card_image_le.trans (card_range 8).le
  have hfree : (Finset.Ico 2 34).card ≤ (early (· < 2)).memory.freeFrames := by
    rw [early_freeFrames]
    apply card_le_card
    intro f hf
    obtain ⟨hlo, hhi⟩ := mem_Ico.mp hf
    refine Finset.mem_filter.mpr ⟨Finset.mem_range.mpr (Nat.lt_trans hhi (by decide)), decide_eq_false ?_⟩
    omega
  rw [Nat.card_Ico] at hfree
  have hstack : stackPages = 8 := rfl
  omega

/-- The last free frame goes to the first page of a stack, and stays there when the next page can not be had. -/
theorem spawn_loses_frame : ∃ bs, (early (· ≠ 2)).Ready bs [] [] ∧ ¬ (early (· ≠ 2)).Atomic := by
  obtain ⟨bs, hready⟩ : ∃ bs, (early (· ≠ 2)).Ready bs [] [] := early_ready rfl rfl
  have hlimit : ¬ maxThreads ≤ (early (· ≠ 2)).sched.threadsAlive := by decide
  have hone : (early (· ≠ 2)).memory.freeFrames = 1 := by
    rw [early_freeFrames]
    refine card_eq_one.mpr ⟨2, Finset.ext fun f ↦ ?_⟩
    rw [Finset.mem_filter, Finset.mem_range, Finset.mem_singleton, decide_eq_false_iff_not, not_not]
    exact ⟨And.right, fun h ↦ ⟨h ▸ by decide, h⟩⟩
  have hstack : stackPages = 8 := rfl
  have hiff := atomic_iff_of_fits hready hlimit early_fits
  refine ⟨bs, hready, ?_⟩
  rw [hiff, hone, hstack]
  rintro (hw | ⟨hfull, -⟩ | ⟨hle, -⟩)
  · exact absurd hw (by decide)
  · cases hfull
  · omega

end Threads

end Eris.Machine
