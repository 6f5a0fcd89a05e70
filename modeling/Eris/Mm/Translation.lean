import Eris.Mm.Calls
import Eris.Mm.Views

namespace Eris.Mm

open Call

theorem pageOf_lt (a : ℕ) : pageOf a < 2 ^ 36 := Nat.mod_lt _ (by decide)

def PageMap := Fin (2 ^ 36) → Option ℕ

namespace PageMap

def find (s : PageMap) (a : ℕ) : ℕ :=
  match s ⟨pageOf a, pageOf_lt a⟩ with
  | some frame => frame * pageSize + a % pageSize
  | none => 0

/-- Of the pages from `first` on, `n` are mapped to frames in a row. -/
def map (first n frame : ℕ) (s : PageMap) : PageMap := fun p ↦
  if first ≤ p ∧ p < first + n then some (frame + (p - first)) else s p

def unmap (first n : ℕ) (s : PageMap) : PageMap := fun p ↦ if first ≤ p ∧ p < first + n then none else s p

end PageMap

namespace Memory

def pageMap (m : Memory) : PageMap := fun p ↦
  if (m.leaf (p * pageSize)).present then some (m.leaf (p * pageSize)).frame else none

/-- The root that a new process gets: a cleared frame with the first entry of the kernel's root. -/
def sharedRoot (r : ℕ) (m : Memory) : Memory :=
  { m with
    root := r
    tables := Function.update m.tables r fun i ↦ if i = 0 then m.entry m.root 0 else {} }

/-- The address spaces that `paging_init` and calls which are `allowed` build. In between others
allocate and free frames that hold no table, and a process may take its root. -/
inductive Built (allowed : Memory → Call → Prop) : Memory → Prop
  | init {m m' : Memory} {image : KernelImage} :
      m.frames.bitmap 0 = true → m.pagingInit image = some m' → Built allowed m'
  | call {m : Memory} (c : Call) : Built allowed m → allowed m c → Built allowed (c.run m).1
  | elsewhere {m : Memory} (frames : Frames) (vmalloc : Vmalloc) (bytes : ℕ → UInt8) :
      Built allowed m → frames.bitmap 0 = true → (∀ f, m.IsTable f → frames.bitmap f = true) →
      Built allowed { m with frames := frames, vmalloc := vmalloc, bytes := bytes }
  | share {m : Memory} {r : ℕ} : Built allowed m → r < managedPages → m.frames.bitmap r = true →
      ¬ m.IsTable r → Built allowed (m.sharedRoot r)

variable {m : Memory} {allowed : Memory → Call → Prop} {a b r : ℕ}

theorem sharedRoot_spec (hm : m.Wf) (hlt : r < managedPages) (hused : m.frames.bitmap r = true)
    (hr : ¬ m.IsTable r) :
    (m.sharedRoot r).Wf ∧ (∀ d ≤ 3, ∀ a, indexOf a 3 = 0 → (m.sharedRoot r).onPath d a = m.onPath d a) ∧
      ∀ d ≤ 3, ∀ a, indexOf a 3 ≠ 0 → (m.sharedRoot r).onPath d a = {} := by
  have hkept : Kept m ((m.sharedRoot r).under m.root) := by
    refine ⟨rfl, fun f hf i ↦ ?_⟩
    have hne : f ≠ r := fun h ↦ hr (h ▸ hf)
    simp [sharedRoot, under, entry, hne]
  have hroot : m.IsTable m.root := ⟨0, by omega, 0, tableAt_zero_eq_some.mpr ⟨rfl, rfl⟩⟩
  have hentry : ∀ i, (m.sharedRoot r).entry r i = if i = 0 then m.entry m.root 0 else {} := by
    intro i
    simp [sharedRoot, entry]
  have hzero := (hentry 0).trans (hkept.entries m.root hroot 0).symm
  have hwf := hkept.wf hm hm.low fun f hf ↦ (hm.taken f hf).2
  obtain ⟨hview, -⟩ := hwf.shared hlt hused (fun h ↦ hr (hkept.isTable.mp h)) hzero fun i hi ↦ by
    rw [under_entry, hentry, if_neg hi]
  refine ⟨hview, fun d hd a ha ↦ ?_, fun d hd a ha ↦ ?_⟩
  · rw [← hkept.onPath hd a]
    refine onPath_under_congr (m := m.sharedRoot r) ?_ hd
    rw [ha]
    exact hzero
  · cases d with
    | zero =>
      rw [onPath_of_tableAt (tableAt_zero _ a)]
      exact (hentry _).trans (if_neg ha)
    | succ d =>
      have hchild : (m.sharedRoot r).child r (indexOf a 3) = none := by
        simp [child, hentry, ha]
      have hat : (m.sharedRoot r).tableAt (d + 1) (pathTo a (d + 1)) = none := by
        rw [tableAt_front, pathTo_lead a (by omega)]
        split
        · rw [show (m.sharedRoot r).root = r from rfl, hchild]
          rfl
        · rfl
      exact onPath_of_none hat

theorem Built.wf (h : Built allowed m) : m.Wf := by
  induction h with
  | init hlow hinit =>
    exact pagingInit_induction hlow hinit (fun _ _ _ hd ↦ hd.wf) fun m c hm _ _ ↦ by
      obtain ⟨done, hdone⟩ := c.run_spec hm
      exact hdone.edit.grow.wf
  | call c _ _ ih =>
    obtain ⟨done, hdone⟩ := c.run_spec ih
    exact hdone.edit.grow.wf
  | @elsewhere m frames vmalloc bytes _ hlow htaken ih =>
    exact Kept.wf (m := m) ⟨rfl, fun _ _ _ ↦ rfl⟩ ih hlow htaken
  | share _ hlt hused hr ih => exact (sharedRoot_spec ih hlt hused hr).1

theorem le_of_tables {done : ℕ} (hm : m.Wf)
    (h : ∀ k < done, ∃ t, m.tableAt 3 (pathTo (a + k * pageSize) 3) = some t) :
    done ≤ entriesPerTable * managedPages := by
  by_contra hlt
  have hlast : ∀ i : Fin (managedPages + 1), ∃ t : Fin managedPages,
      m.tableAt 3 (pathTo (a + i * entriesPerTable * pageSize) 3) = some t.1 := by
    intro i
    have hi : i * entriesPerTable < done := by
      unfold entriesPerTable at *
      omega
    obtain ⟨t, ht⟩ := h (i * entriesPerTable) hi
    exact ⟨⟨t, (hm.taken t ⟨3, le_rfl, _, ht⟩).1⟩, ht⟩
  choose table htable using hlast
  have hinj : Function.Injective table := by
    intro i j hij
    have hi := htable i
    rw [hij] at hi
    have hpath := (hm.separated le_rfl le_rfl hi (htable j)).2
    apply Fin.ext
    unfold pathTo entriesPerTable pageSize managedPages at *
    omega
  have hcard := Fintype.card_le_of_injective table hinj
  simp at hcard

theorem pageOf_mul {p : ℕ} (hp : p < 2 ^ 36) : pageOf (p * pageSize) = p := by
  unfold pageOf pageSize
  omega

theorem translate_eq_find (hm : m.Wf) (a : ℕ) : m.translate a = m.pageMap.find a := by
  rw [translate_eq hm, PageMap.find, pageMap, leaf_congr (pageOf_mul (pageOf_lt a))]
  by_cases hp : (m.leaf a).present
  · simp [hp]
  · simp [hp]

end Memory

namespace Call

open Memory

variable {m : Memory} {c : Call} {a k length : ℕ}

theorem pageOf_span (ha : a < 2 ^ 47) (hpage : pageSize ∣ a) (hk : k < entriesPerTable * managedPages) :
    pageOf (a + k * pageSize) = a / pageSize + k := by
  obtain ⟨q, rfl⟩ := hpage
  unfold pageOf entriesPerTable managedPages pageSize at *
  omega

theorem pagesOf_of_dvd (h : pageSize ∣ length) : pagesOf length = length / pageSize := by
  obtain ⟨q, rfl⟩ := h
  unfold pagesOf pageSize
  omega

theorem pageMap_outside (hm : m.Wf) (ha : c.address < 2 ^ 47) (hpage : pageSize ∣ c.address)
    (hlength : pageSize ∣ c.length) (p : Fin (2 ^ 36))
    (hp : ¬ (c.address / pageSize ≤ p ∧ p < c.address / pageSize + c.length / pageSize)) :
    (c.run m).1.pageMap p = m.pageMap p := by
  obtain ⟨done, h⟩ := c.run_spec hm
  have hwindow := le_of_tables h.edit.grow.wf h.tables
  have hnot : pageOf (p * pageSize) ∉ Set.image pageOf (Memory.span c.address done) := by
    rintro ⟨_, ⟨k, hk, rfl⟩, hbk⟩
    rw [pageOf_span ha hpage (by omega), pageOf_mul p.2] at hbk
    have hle := h.le
    rw [pagesOf_of_dvd hlength] at hle
    omega
  rcases h.edit.leaf _ hnot with he | ⟨-, -, he⟩
  · simp only [pageMap, he]
  · simp only [pageMap, he]

theorem leaf_inside (hm : m.Wf) (ha : c.address < 2 ^ 47) (hpage : pageSize ∣ c.address)
    (hlength : pageSize ∣ c.length) (hok : (c.run m).2 = true) (p : Fin (2 ^ 36))
    (hp : c.address / pageSize ≤ p ∧ p < c.address / pageSize + c.length / pageSize) :
    ∃ e, c.new (p - c.address / pageSize) e = some ((c.run m).1.leaf (p * pageSize)) := by
  obtain ⟨done, h⟩ := c.run_spec hm
  have hwindow := le_of_tables h.edit.grow.wf h.tables
  have hdone := h.finished hok
  rw [pagesOf_of_dvd hlength] at hdone
  have hk : p - c.address / pageSize < done := by omega
  have hpageOf : pageOf (c.address + (p - c.address / pageSize) * pageSize) = pageOf (p * pageSize) := by
    rw [pageOf_span ha hpage (by omega), pageOf_mul p.2]
    omega
  obtain ⟨j, hj, hkj, hwritten⟩ := h.written (p * pageSize) ⟨_, ⟨_, hk, rfl⟩, hpageOf⟩
  rw [pageOf_mul p.2, pageOf_span ha hpage (by omega)] at hkj
  obtain rfl : j = p - c.address / pageSize := by omega
  exact hwritten

theorem full_of_false (hm : m.Wf) (hnew : ∀ k e, c.new k e ≠ none) (hok : (c.run m).2 = false) :
    ∀ g < managedPages, (c.run m).1.frames.bitmap g = true := by
  obtain ⟨done, h⟩ := c.run_spec hm
  refine (h.stopped hok).2.resolve_right ?_
  rintro ⟨e, he⟩
  exact hnew _ e he

theorem run_wf (hm : m.Wf) (c : Call) : (c.run m).1.Wf := by
  obtain ⟨done, h⟩ := c.run_spec hm
  exact h.edit.grow.wf

theorem length_le (hm : m.Wf) (hlength : pageSize ∣ c.length) (hok : (c.run m).2 = true) : c.length ≤ 2 ^ 39 := by
  obtain ⟨done, h⟩ := c.run_spec hm
  have hwindow := le_of_tables h.edit.grow.wf h.tables
  rw [h.finished hok, pagesOf_of_dvd hlength] at hwindow
  obtain ⟨n, hn⟩ := hlength
  unfold entriesPerTable managedPages pageSize at *
  omega

theorem translate_outside (hm : m.Wf) (ha : c.address < 2 ^ 47) (hpage : pageSize ∣ c.address)
    (hlength : pageSize ∣ c.length) {b : ℕ}
    (hb : b % 2 ^ 48 < c.address ∨ c.address + c.length ≤ b % 2 ^ 48) :
    (c.run m).1.translate b = m.translate b := by
  rw [translate_eq_find (c.run_wf hm), translate_eq_find hm, PageMap.find, PageMap.find,
    pageMap_outside hm ha hpage hlength]
  obtain ⟨q, hq⟩ := hpage
  obtain ⟨n, hn⟩ := hlength
  simp only
  unfold pageOf pageSize at *
  omega

end Call

namespace Memory

variable {m : Memory} {a length frame : ℕ}

theorem map_pageMap (hm : m.Wf) (flags : PageFlags) (ha : a < 2 ^ 47) (hpage : pageSize ∣ a)
    (hlength : pageSize ∣ length) (hframe : pageSize ∣ frame) (hwide : frame + length ≤ 2 ^ 52)
    (hok : (m.map a frame length flags).2 = true) :
    (m.map a frame length flags).1.pageMap = m.pageMap.map (a / pageSize) (length / pageSize) (frame / pageSize) := by
  funext p
  rw [PageMap.map]
  split
  · rename_i hp
    obtain ⟨e, he⟩ := leaf_inside (c := .map a frame length flags) hm ha hpage hlength hok p hp
    have hleaf : (m.map a frame length flags).1.leaf (p * pageSize) = _ := (Option.some.inj he).symm
    have hnumber : (frame + (p - a / pageSize) * pageSize) / pageSize % 2 ^ 40 =
        frame / pageSize + (p - a / pageSize) := by
      obtain ⟨q, rfl⟩ := hframe
      obtain ⟨n, rfl⟩ := hlength
      unfold pageSize at *
      omega
    rw [pageMap, hleaf]
    exact congrArg some hnumber
  · rename_i hp
    exact pageMap_outside (c := .map a frame length flags) hm ha hpage hlength p hp

theorem unmap_pageMap (hm : m.Wf) (ha : a < 2 ^ 47) (hpage : pageSize ∣ a) (hlength : pageSize ∣ length)
    (hok : (m.unmap a length).2 = true) :
    (m.unmap a length).1.pageMap = m.pageMap.unmap (a / pageSize) (length / pageSize) := by
  funext p
  rw [PageMap.unmap]
  split
  · rename_i hp
    obtain ⟨e, he⟩ := leaf_inside (c := .unmap a length) hm ha hpage hlength hok p hp
    have hleaf : (m.unmap a length).1.leaf (p * pageSize) = _ := (Option.some.inj he).symm
    rw [pageMap, hleaf]
    rfl
  · rename_i hp
    exact pageMap_outside (c := .unmap a length) hm ha hpage hlength p hp

/-- `map`, `unmap` and `translate` are the operations of a partial function from pages to frames. -/
theorem map_unmap_translate (h : Built (fun _ _ ↦ True) m) (flags : PageFlags) (ha : a < 2 ^ 47)
    (hpage : pageSize ∣ a) (hlength : pageSize ∣ length) (hframe : pageSize ∣ frame)
    (hwide : frame + length ≤ 2 ^ 52) :
    (∀ b, m.translate b = m.pageMap.find b) ∧ ((m.map a frame length flags).2 = true →
      (m.map a frame length flags).1.pageMap = m.pageMap.map (a / pageSize) (length / pageSize) (frame / pageSize) ∧
      ∀ k < length, (m.map a frame length flags).1.translate (a + k) = frame + k) ∧
    ((m.map a frame length flags).2 = false →
      ∀ g < managedPages, (m.map a frame length flags).1.frames.bitmap g = true) ∧
    (∀ b, b % 2 ^ 48 < a ∨ a + length ≤ b % 2 ^ 48 → (m.map a frame length flags).1.translate b = m.translate b) ∧
    ((m.unmap a length).2 = true → (m.unmap a length).1.pageMap = m.pageMap.unmap (a / pageSize) (length / pageSize) ∧
      ∀ k < length, (m.unmap a length).1.translate (a + k) = 0) ∧
    ((m.unmap a length).2 = false → ∀ g < managedPages, (m.unmap a length).1.frames.bitmap g = true) ∧
    ∀ b, b % 2 ^ 48 < a ∨ a + length ≤ b % 2 ^ 48 → (m.unmap a length).1.translate b = m.translate b := by
  have hm := h.wf
  have hpageOf : length ≤ 2 ^ 39 → ∀ k < length, pageOf (a + k) = a / pageSize + k / pageSize ∧
      k / pageSize < length / pageSize ∧ (a + k) % pageSize = k % pageSize := by
    intro hle k hk
    obtain ⟨q, rfl⟩ := hpage
    obtain ⟨n, rfl⟩ := hlength
    unfold pageOf pageSize at *
    omega
  refine ⟨translate_eq_find hm, fun hok ↦ ?_, full_of_false (c := .map a frame length flags) hm nofun,
    fun b ↦ translate_outside (c := .map a frame length flags) hm ha hpage hlength, fun hok ↦ ?_,
    full_of_false (c := .unmap a length) hm nofun, fun b ↦ translate_outside (c := .unmap a length) hm ha hpage hlength⟩
  · have hmap := map_pageMap hm flags ha hpage hlength hframe hwide hok
    refine ⟨hmap, fun k hk ↦ ?_⟩
    obtain ⟨hp, hlt, hmod⟩ :=
      hpageOf (Call.length_le (c := .map a frame length flags) hm hlength hok) k hk
    have hwf : (m.map a frame length flags).1.Wf := run_wf hm (.map a frame length flags)
    rw [translate_eq_find hwf, hmap, PageMap.find]
    simp only [PageMap.map, hp]
    rw [if_pos ⟨Nat.le_add_right _ _, Nat.add_lt_add_left hlt _⟩, hmod]
    obtain ⟨q, rfl⟩ := hframe
    simp only [pageSize]
    omega
  · have hunmap := unmap_pageMap hm ha hpage hlength hok
    refine ⟨hunmap, fun k hk ↦ ?_⟩
    obtain ⟨hp, hlt, -⟩ := hpageOf (Call.length_le (c := .unmap a length) hm hlength hok) k hk
    have hwf : (m.unmap a length).1.Wf := run_wf hm (.unmap a length)
    rw [translate_eq_find hwf, hunmap, PageMap.find]
    simp only [PageMap.unmap, hp]
    rw [if_pos ⟨Nat.le_add_right _ _, Nat.add_lt_add_left hlt _⟩]

theorem built_booted (allowed : Memory → Call → Prop) : Built allowed booted := .init rfl pagingInit_bareMemory

theorem map_unmap_translate_booted :
    (booted.map 0x1ff000 0x40000000 8192 {}).2 = true ∧
      (booted.map 0x1ff000 0x40000000 8192 {}).1.translate 0x200123 = 0x40001123 ∧
      (booted.map 0x1ff000 0x40000000 8192 {}).1.translate 0x1fe000 = 0x1fe000 := by
  have h := map_unmap_translate (built_booted _) {} (show 0x1ff000 < 2 ^ 47 by decide) (by decide)
    (show pageSize ∣ 8192 by decide) (show pageSize ∣ 0x40000000 by decide) (by decide)
  have hok : (booted.map 0x1ff000 0x40000000 8192 {}).2 = true := by decide +kernel
  have hold : booted.translate 0x1fe000 = 0x1fe000 := by decide +kernel
  exact ⟨hok, (h.2.1 hok).2 0x1123 (by decide), (h.2.2.2.1 0x1fe000 (.inl (by decide))).trans hold⟩

/-- The address bits of an entry end at 2^52. -/
theorem map_not_translate :
    Built (fun _ _ ↦ True) booted ∧ (booted.map 0x40000000 (2 ^ 52) 4096 {}).2 = true ∧
      (booted.map 0x40000000 (2 ^ 52) 4096 {}).1.translate 0x40000000 = 0 :=
  ⟨built_booted _, by decide +kernel, by decide +kernel⟩

end Memory

end Eris.Mm
