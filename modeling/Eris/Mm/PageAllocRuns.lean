import Eris.Mm.PageAlloc

namespace Eris.Mm.PageAlloc

open Library.Bitmap List

variable {p p' p₀ : PageAlloc} {i j count : ℕ} {b : BootData}

def Exact (p : PageAlloc) : Prop := p.usedPages = population p.bitmap.test managedPages

section Marks

theorem Exact.markUsed (h : p.Exact) (i : ℕ) : (p.markUsed i).Exact := by
  unfold PageAlloc.markUsed
  split
  · rename_i hi
    rw [Exact, Packed.test_set, population_update_true hi.1 hi.2, h]
  · exact h

theorem Exact.clear (h : p.Exact) (i : ℕ) : (p.clear i).Exact := by
  unfold PageAlloc.clear
  split
  · rename_i hi
    have hcount := population_update_false hi.1 hi.2
    rw [Exact, Packed.test_clear, h, ← hcount]
    exact Nat.add_sub_cancel _ _
  · exact h

theorem Exact.markAll (h : p.Exact) (count i : ℕ) : (p.markAll count i).Exact := by
  induction count generalizing p i with
  | zero => exact h
  | succ count ih => exact ih (h.markUsed i) (i + 1)

theorem Exact.clearAll (h : p.Exact) (count i : ℕ) : (p.clearAll count i).Exact := by
  induction count generalizing p i with
  | zero => exact h
  | succ count ih => exact ih (h.clear i) (i + 1)

theorem test_markUsed (h : p.bitmap.test i = true) (j : ℕ) : (p.markUsed j).bitmap.test i = true := by
  unfold markUsed
  split
  · rw [Packed.test_set, Function.update_apply]
    split
    · rfl
    · exact h
  · exact h

theorem test_markAll (h : p.bitmap.test i = true) (count j : ℕ) : (p.markAll count j).bitmap.test i = true := by
  induction count generalizing p j with
  | zero => exact h
  | succ count ih => exact ih (test_markUsed h j) (j + 1)

theorem test_markAll_eq (p : PageAlloc) {first : ℕ} (h : first + count ≤ managedPages) (i : ℕ) :
    (p.markAll count first).bitmap.test i = (p.bitmap.test i || decide (first ≤ i ∧ i < first + count)) := by
  have hframes := congrArg Frames.bitmap (frames_markAll p first count)
  exact (congrFun hframes i).trans (Frames.bitmap_markAll p.frames h i)

theorem test_clearAll_eq (p : PageAlloc) {first : ℕ} (h : first + count ≤ managedPages) (i : ℕ) :
    (p.clearAll count first).bitmap.test i = (p.bitmap.test i && !decide (first ≤ i ∧ i < first + count)) := by
  have hframes := congrArg Frames.bitmap (frames_clearAll p first count)
  exact (congrFun hframes i).trans (Frames.bitmap_clearAll p.frames h i)

theorem test_markRangeUsed_low (p : PageAlloc) : (p.markRangeUsed 0 (2 ^ 20)).bitmap.test 0 = true := by
  have hcount : (2 ^ 20 + pageSize - 1) % 2 ^ 64 / pageSize - 0 / pageSize = 256 := by decide
  rw [markRangeUsed, hcount, test_markAll_eq p (by decide)]
  exact Bool.or_true _

/-- What `reserve_boot_data` and the marking before it keep. -/
structure Reserved (p : PageAlloc) : Prop where
  exact : p.Exact
  low : p.bitmap.test 0 = true

theorem Reserved.markRangeUsed (h : p.Reserved) (start stop : ℕ) : (p.markRangeUsed start stop).Reserved :=
  ⟨h.exact.markAll _ _, test_markAll h.low _ _⟩

theorem Reserved.reserveString {address : ℕ} (h : p.Reserved) (hp : p.reserveString b address = some p') :
    p'.Reserved := by
  obtain ⟨length, -, rfl⟩ := Option.map_eq_some_iff.mp hp
  exact h.markRangeUsed _ _

theorem Reserved.reserveModule {modsAddr : ℕ} (h : p.Reserved) (hp : p.reserveModule b modsAddr i = some p') :
    p'.Reserved := by
  unfold PageAlloc.reserveModule at hp
  simp only at hp
  split at hp
  · exact (h.markRangeUsed _ _).reserveString hp
  · cases hp
    exact h.markRangeUsed _ _

theorem Reserved.foldlM_reserveModule {modsAddr : ℕ} (h : p.Reserved) {l : List ℕ}
    (hp : l.foldlM (PageAlloc.reserveModule b modsAddr) p = some p') : p'.Reserved := by
  induction l generalizing p with
  | nil =>
    cases hp
    exact h
  | cons i l ih =>
    obtain ⟨p₁, hp₁, hp⟩ := Option.bind_eq_some_iff.mp hp
    exact ih (h.reserveModule hp₁) hp

theorem Reserved.reserveBootData {infoAddress : ℕ} {info : MultibootInfo} (h : p.Reserved)
    (hp : p.reserveBootData b infoAddress info = some p') : p'.Reserved := by
  obtain ⟨p₁, hp₁, hp⟩ := Option.bind_eq_some_iff.mp hp
  have h₁ : p₁.Reserved := by
    unfold reserveCmdline at hp₁
    split at hp₁
    · exact ((h.markRangeUsed _ _).markRangeUsed _ _).reserveString hp₁
    · cases hp₁
      exact (h.markRangeUsed _ _).markRangeUsed _ _
  unfold reserveModules at hp
  split at hp
  · exact (h₁.markRangeUsed _ _).foldlM_reserveModule hp
  · cases hp
    exact h₁

theorem Exact.freeEntries (h : p.Exact) (stop left cursor : ℕ) : (p.freeEntries b stop left cursor).Exact := by
  induction left generalizing p cursor with
  | zero => exact h
  | succ left ih =>
    unfold PageAlloc.freeEntries
    split
    · apply ih
      unfold freeEntry
      simp only
      split
      · exact h.clearAll _ _
      · exact h
    · exact h

theorem reserved_pageAllocInit {magic infoAddress : ℕ} (h : pageAllocInit magic infoAddress b = some p) :
    p.Reserved := by
  unfold pageAllocInit at h
  simp only at h
  split at h
  · cases h
  · split at h
    · cases h
    · have hbits : ∀ k < 8, (0xFF#8).getLsbD k = true := by decide
      have hfull : Exact ⟨fun _ ↦ 0xFF#8, managedPages⟩ := by
        refine (population_true fun i _ ↦ ?_).symm
        rw [Packed.test_eq_getLsbD]
        exact hbits (i % 8) (Nat.mod_lt i (by decide))
      refine Reserved.reserveBootData (Reserved.markRangeUsed ⟨?_, ?_⟩ _ _) h
      · exact (hfull.freeEntries _ _ _).markAll _ _
      · exact test_markRangeUsed_low _

end Marks

/-- Frames that were handed out together. -/
structure Block where
  page : ℕ
  count : ℕ
  deriving DecidableEq

def Block.Has (x : Block) (i : ℕ) : Prop := x.page / pageSize ≤ i ∧ i < x.page / pageSize + x.count

/-- The states that the calls lead to after `page_alloc_init` has left `p₀`, with the blocks that are live. -/
inductive Runs (p₀ : PageAlloc) : PageAlloc → List Block → Prop
  | init {magic infoAddress : ℕ} {b : BootData} : pageAllocInit magic infoAddress b = some p₀ → Runs p₀ p₀ []
  | refused {p : PageAlloc} {live : List Block} {count : ℕ} : Runs p₀ p live → (p.allocPages count).2 = 0 →
      Runs p₀ (p.allocPages count).1 live
  | alloc {p : PageAlloc} {live : List Block} {count : ℕ} : Runs p₀ p live → (p.allocPages count).2 ≠ 0 →
      Runs p₀ (p.allocPages count).1 (⟨(p.allocPages count).2, count⟩ :: live)
  | free {p : PageAlloc} {live : List Block} {x : Block} : Runs p₀ p live → x ∈ live →
      Runs p₀ (p.freePages x.page x.count) (live.erase x)

/-- The set bits are those that were left set at first and those of the live blocks. -/
structure Balanced (p₀ p : PageAlloc) (live : List Block) : Prop where
  exact : p.Exact
  low : p₀.bitmap.test 0 = true
  bits : ∀ i, p.bitmap.test i = true ↔ p₀.bitmap.test i = true ∨ ∃ x ∈ live, x.Has i
  inside : ∀ x ∈ live, x.page / pageSize + x.count ≤ managedPages
  fresh : ∀ x ∈ live, ∀ i, x.Has i → p₀.bitmap.test i = false
  apart : live.Pairwise fun x y ↦ ∀ i, x.Has i → ¬ y.Has i

def FreeRun (p : PageAlloc) (first count : ℕ) : Prop := p.frames.FreeRun managedPages first count

theorem allocPages_spec (p : PageAlloc) (hcount : 0 < count) :
    p.allocPages count = (p, 0) ∧ (∀ first, ¬ p.FreeRun first count) ∨
    ∃ first, p.allocPages count = (p.markAll count first, first * pageSize) ∧ p.FreeRun first count ∧
      ∀ f < first, ¬ p.FreeRun f count := by
  unfold allocPages
  rw [if_neg (Nat.ne_of_gt hcount)]
  have hscan := Frames.findRun_cases managedPages (Frames.scanned_zero (s := p.frames) hcount)
  rcases hscan with ⟨hnone, hall⟩ | ⟨first, hsome, hrun, hlowest⟩
  · exact .inl ⟨by rw [hnone], hall⟩
  · exact .inr ⟨first, by rw [hsome], hrun, hlowest⟩

section Steps

variable {live : List Block} {x : Block}

section

variable (h : Balanced p₀ p live)

include h

theorem Balanced.test_zero : p.bitmap.test 0 = true := (h.bits 0).mpr (.inl h.low)

theorem Balanced.first_ne_zero (hcount : 0 < count) {first : ℕ} (hrun : p.FreeRun first count) : first ≠ 0 := by
  intro h0
  have hfree : p.bitmap.test 0 = false := hrun.2 0 (by omega) (by omega)
  rw [h.test_zero] at hfree
  cases hfree

theorem Balanced.answer (count : ℕ) :
    ((p.allocPages count).2 = 0 ∧ (p.allocPages count).1 = p ∧ (count = 0 ∨ ∀ first, ¬ p.FreeRun first count)) ∨
    ∃ first, (p.allocPages count).2 = first * pageSize ∧ 0 < first ∧ 0 < count ∧ p.FreeRun first count ∧
      (∀ f < first, ¬ p.FreeRun f count) ∧ (p.allocPages count).1 = p.markAll count first := by
  rcases Nat.eq_zero_or_pos count with rfl | hcount
  · exact .inl ⟨rfl, rfl, .inl rfl⟩
  · rcases p.allocPages_spec hcount with ⟨heq, hall⟩ | ⟨first, heq, hrun, hlowest⟩
    · rw [heq]
      exact .inl ⟨rfl, rfl, .inr hall⟩
    · rw [heq]
      exact .inr ⟨first, rfl, Nat.pos_of_ne_zero (h.first_ne_zero hcount hrun), hcount, hrun, hlowest, rfl⟩

theorem Balanced.refused (hnone : (p.allocPages count).2 = 0) : Balanced p₀ (p.allocPages count).1 live := by
  rcases h.answer count with ⟨-, hsame, -⟩ | ⟨first, heq, hpos, -⟩
  · rw [hsame]
    exact h
  · have hpage : 0 < first * pageSize := Nat.mul_pos hpos (by decide)
    omega

theorem Balanced.alloc (hsome : (p.allocPages count).2 ≠ 0) :
    Balanced p₀ (p.allocPages count).1 (⟨(p.allocPages count).2, count⟩ :: live) := by
  obtain ⟨first, hpage, -, -, hrun, -, hmark⟩ := (h.answer count).resolve_left fun hn ↦ hsome hn.1
  have hdiv : first * pageSize / pageSize = first := Nat.mul_div_cancel first (by decide)
  have hhas : ∀ i, Block.Has ⟨first * pageSize, count⟩ i ↔ first ≤ i ∧ i < first + count := by
    intro i
    rw [Block.Has, hdiv]
  have hold : ∀ i, Block.Has ⟨first * pageSize, count⟩ i → p.bitmap.test i = false := by
    intro i hi
    obtain ⟨hlo, hhi⟩ := (hhas i).mp hi
    exact hrun.2 i hlo hhi
  rw [hpage, hmark]
  refine ⟨h.exact.markAll _ _, h.low, fun i ↦ ?_, ?_, ?_, ?_⟩
  · rw [test_markAll_eq p hrun.1, Bool.or_eq_true, decide_eq_true_eq, h.bits, exists_mem_cons_iff, hhas]
    exact or_assoc.trans (or_congr_right or_comm)
  · refine forall_mem_cons.mpr ⟨?_, h.inside⟩
    rw [hdiv]
    exact hrun.1
  · refine forall_mem_cons.mpr ⟨fun i hi ↦ ?_, h.fresh⟩
    cases hbit : p₀.bitmap.test i with
    | false => rfl
    | true =>
      have hset := (h.bits i).mpr (.inl hbit)
      rw [hold i hi] at hset
      cases hset
  · refine pairwise_cons.mpr ⟨fun y hy i hi hyi ↦ ?_, h.apart⟩
    have hset := (h.bits i).mpr (.inr ⟨y, hy, hyi⟩)
    rw [hold i hi] at hset
    cases hset

theorem Balanced.free (hx : x ∈ live) : Balanced p₀ (p.freePages x.page x.count) (live.erase x) := by
  have hperm := perm_cons_erase hx
  have hapart := (hperm.pairwise_iff fun {y z} hyz i hz hy ↦ hyz i hy hz).mp h.apart
  obtain ⟨hothers, hrest⟩ := pairwise_cons.mp hapart
  refine ⟨h.exact.clearAll _ _, h.low, fun i ↦ ?_, fun y hy ↦ h.inside y (mem_of_mem_erase hy),
    fun y hy ↦ h.fresh y (mem_of_mem_erase hy), hrest⟩
  have hbit : (p.freePages x.page x.count).bitmap.test i = true ↔ p.bitmap.test i = true ∧ ¬ x.Has i := by
    rw [freePages, test_clearAll_eq p (h.inside x hx), Bool.and_eq_true, Bool.not_eq_true', decide_eq_false_iff_not]
    rfl
  rw [hbit, h.bits]
  constructor
  · intro ⟨hset, hnot⟩
    refine hset.imp_right fun ⟨y, hy, hyi⟩ ↦ ?_
    rcases mem_cons.mp (hperm.mem_iff.mp hy) with rfl | hy
    · exact absurd hyi hnot
    · exact ⟨y, hy, hyi⟩
  · intro hset
    rcases hset with hset | ⟨y, hy, hyi⟩
    · refine ⟨.inl hset, fun hxi ↦ ?_⟩
      rw [h.fresh x hx i hxi] at hset
      cases hset
    · exact ⟨.inr ⟨y, mem_of_mem_erase hy, hyi⟩, fun hxi ↦ hothers y hy i hxi hyi⟩

end

theorem Runs.balanced (h : Runs p₀ p live) : Balanced p₀ p live := by
  induction h with
  | init hinit =>
    obtain ⟨hexact, hlow⟩ := reserved_pageAllocInit hinit
    exact ⟨hexact, hlow, fun i ↦ by simp, nofun, nofun, .nil⟩
  | refused _ hnone ih => exact ih.refused hnone
  | alloc _ hsome ih => exact ih.alloc hsome
  | free _ hx ih => exact ih.free hx

end Steps

/-- Boot data at `0x9000` with a memory map of one entry, which makes the two frames above `0x200000` available. -/
def twoFrames : BootData where
  bytes := fun a ↦
    if a = 0x9000 then 0x40
    else if a = 0x902c then 24
    else if a = 0x9031 then 0x90
    else if a = 0x9030 then 0x40
    else if a = 0x9040 then 20
    else if a = 0x9046 then 0x20
    else if a = 0x904d then 0x20
    else if a = 0x9054 then 1
    else 0
  kernelEnd := 0x101000

end Eris.Mm.PageAlloc
