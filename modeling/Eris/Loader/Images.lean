import Eris.Loader.Relocation
import Eris.Mm.Holding

namespace Eris.Loader

open Mm Mm.Memory List Vmalloc

variable {m₀ m m' : Memory} {fs gs : List ℕ} {a b g i j n : ℕ}

theorem pageOf_page (h : a + i * pageSize < 2 ^ 48) :
    pageOf (a + i * pageSize) = a / pageSize + i := by
  unfold pageOf pageSize at *
  omega

theorem page_injective (hi : a + i * pageSize < 2 ^ 48) (hj : a + j * pageSize < 2 ^ 48)
    (h : pageOf (a + i * pageSize) = pageOf (a + j * pageSize)) : i = j := by
  rw [pageOf_page hi, pageOf_page hj] at h
  omega

theorem page_succ (a l : ℕ) : a + pageSize + l * pageSize = a + (l + 1) * pageSize := by
  rw [Nat.add_mul, Nat.one_mul]
  omega

/-- Some pages from an address on are mapped to the frames of a list, one after the other. -/
def Pages (m : Memory) (a : ℕ) (gs : List ℕ) : Prop :=
  ∀ j g, gs[j]? = some g → (∃ t, m.tableAt 3 (pathTo (a + j * pageSize) 3) = some t) ∧
      m.frameAt (a + j * pageSize) = some g

/-- An address outside the first `n` pages from `a` on. -/
def Beyond (a n b : ℕ) : Prop := ∀ j < n, pageOf b ≠ pageOf (a + j * pageSize)

theorem beyond_succ (hroom : a + (n + 1) * pageSize ≤ 2 ^ 48) : Beyond (a + pageSize) n a := by
  intro l hl heq
  rw [page_succ] at heq
  have hmul := Nat.mul_le_mul_right pageSize (show l + 2 ≤ n + 1 by omega)
  rw [show l + 2 = l + 1 + 1 from rfl, Nat.add_mul (l + 1), Nat.one_mul] at hmul
  have hpos : 0 < pageSize := by decide
  have := page_injective (a := a) (i := 0) (j := l + 1) (by omega) (by omega)
    (by rwa [Nat.zero_mul, Nat.add_zero])
  omega

theorem beyond_succ_iff :
    Beyond a (n + 1) b ↔ pageOf b ≠ pageOf a ∧ Beyond (a + pageSize) n b := by
  constructor
  · intro hb
    refine ⟨by simpa using hb 0 (by omega), fun l hl ↦ ?_⟩
    rw [page_succ]
    exact hb (l + 1) (by omega)
  · rintro ⟨h0, hb⟩ l hl
    cases l with
    | zero => simpa using h0
    | succ l =>
      rw [← page_succ]
      exact hb l (by omega)

/-- A frame that `alloc_page` hands out for a page, and what is left once it has been mapped there, or no frame
was left for a table. -/
structure Provided (m : Memory) (a g : ℕ) (m' : Memory) (ok : Bool) : Prop where
  room : g < managedPages
  free : m.frames.bitmap g = false
  ne_zero : g * pageSize ≠ 0
  alloc : m.allocPage = ({ m with frames := m.frames.markUsed g }, g * pageSize)
  map : { m with frames := m.frames.markUsed g }.map a (g * pageSize) pageSize { write := true, noExecute := true } =
    (m', ok)
  grow : Grow { m with frames := m.frames.markUsed g } m'
  plain : m.Plain → m'.Plain
  huge : ∀ b, m'.InHuge b → m.InHuge b
  table : ok = true → ∃ t, m'.tableAt 3 (pathTo a 3) = some t
  leaf : ∀ b, m'.leaf b = if ok = true ∧ pageOf b = pageOf a then encode { write := true, noExecute := true } g
    else m.leaf b
  full : ok = false → ∀ f < managedPages, m'.frames.bitmap f = true

theorem provided_cases (hm : m.Wf) (a : ℕ) :
    (m.allocPage = (m, 0) ∧ ∀ f < managedPages, m.frames.bitmap f = true) ∨ ∃ g m' ok, Provided m a g m' ok := by
  refine (allocPage_cases hm.low).imp_right fun ⟨g, hg, hg0, hfree, hsome⟩ ↦ ?_
  obtain ⟨m', ok, hmap, hgrow, hplain, hhuge, htable, hleaf, hfull⟩ := map_page_spec
    ((Holding.refl hm).take hg hfree).wf a (lt_trans hg (by decide)) { write := true, noExecute := true } rfl
  exact ⟨g, m', ok, hg, hfree, Nat.mul_ne_zero hg0 (by decide), hsome, hmap, hgrow, hplain, hhuge, htable, hleaf, hfull⟩

namespace Provided

variable {ok : Bool}

theorem mapImage (h : Provided m a g m' ok) (left : ℕ) : mapImage (left + 1) a m =
    if ok then mapImage left (a + pageSize) m' else (m'.freePage (g * pageSize), false) := by
  rw [Loader.mapImage, h.alloc, if_neg h.ne_zero, h.map]
  cases ok <;> rfl

theorem used (h : Provided m a g m' ok) (hf : m.frames.bitmap b = true) : m'.frames.bitmap b = true := by
  apply h.grow.used
  rw [Frames.bitmap_markUsed h.room, Function.update_apply, hf, ite_self]

theorem fresh (h : Provided m a g m' ok) (hf : m'.IsTable b) : m.IsTable b ∨ m.frames.bitmap b = false := by
  refine (h.grow.fresh b hf).imp_right fun hunused ↦ ?_
  rw [Frames.bitmap_markUsed h.room, Function.update_apply] at hunused
  split at hunused
  · cases hunused
  · exact hunused

end Provided

/-- Frames are mapped to the pages from `a` on, one after the other, and nothing else is. -/
structure Mapped (m m' : Memory) (a : ℕ) (gs : List ℕ) : Prop where
  bytes : m'.bytes = m.bytes
  tables : ∀ d ≤ 3, ∀ p t, m.tableAt d p = some t → m'.tableAt d p = some t
  fresh : ∀ f, m'.IsTable f → m.IsTable f ∨ m.frames.bitmap f = false
  plain : m.Plain → m'.Plain
  huge : ∀ b, m'.InHuge b → m.InHuge b
  leaf : a + gs.length * pageSize ≤ 2 ^ 48 → ∀ j g, gs[j]? = some g →
    (∃ t, m'.tableAt 3 (pathTo (a + j * pageSize) 3) = some t) ∧
      m'.leaf (a + j * pageSize) = encode { write := true, noExecute := true } g
  others : ∀ b, Beyond a gs.length b → m'.leaf b = m.leaf b

theorem Mapped.refl (m : Memory) (a : ℕ) : Mapped m m a [] :=
  ⟨rfl, fun _ _ _ _ h ↦ h, fun _ ↦ .inl, id, fun _ ↦ id, nofun, fun _ _ ↦ rfl⟩

theorem Mapped.cons {m₁ : Memory} (h : Provided m a g m₁ true) (h' : Mapped m₁ m' (a + pageSize) gs) :
    Mapped m m' a (g :: gs) where
  bytes := h'.bytes.trans h.grow.bytes
  tables d hd p t ht := h'.tables d hd p t (h.grow.tables d hd p t ht)
  fresh f hf := (h'.fresh f hf).elim h.fresh fun hunused ↦ .inr <| by
    by_contra hused
    rw [h.used (by simpa using hused)] at hunused
    cases hunused
  plain hp := h'.plain (h.plain hp)
  huge b hb := h.huge b (h'.huge b hb)
  leaf hroom j x hj := by
    rw [length_cons] at hroom
    cases j with
    | zero =>
      obtain rfl : g = x := by simpa using hj
      obtain ⟨t, ht⟩ := h.table rfl
      rw [Nat.zero_mul, Nat.add_zero, h'.others a (beyond_succ hroom), h.leaf, if_pos ⟨rfl, rfl⟩]
      exact ⟨⟨t, h'.tables 3 le_rfl _ _ ht⟩, rfl⟩
    | succ j =>
      rw [← page_succ]
      exact h'.leaf (by rw [Nat.add_mul] at hroom; omega) j x hj
  others b hb := by
    obtain ⟨hab, hb⟩ := beyond_succ_iff.mp hb
    rw [h'.others b hb, h.leaf, if_neg fun h ↦ hab h.2]

theorem Mapped.pages (h : Mapped m m' a gs) (hroom : a + gs.length * pageSize ≤ 2 ^ 48) :
    Pages m' a gs ∧ ∀ b, Beyond a gs.length b → m'.frameAt b = m.frameAt b := by
  refine ⟨fun j g hj ↦ ?_, fun b hb ↦ by rw [frameAt, frameAt, h.others b hb]⟩
  obtain ⟨ht, hleaf⟩ := h.leaf hroom j g hj
  exact ⟨ht, by rw [frameAt, hleaf]; rfl⟩

theorem mapImage_spec (h : Holding m₀ m fs) (left a : ℕ) :
    ∃ m' ok gs, mapImage left a m = (m', ok) ∧ Holding m₀ m' (gs ++ fs) ∧ Mapped m m' a gs ∧
      (ok = true → gs.length = left) ∧ (ok = false → gs.length < left) ∧
      (gs = [] ↔ left = 0 ∨ (mapImage 1 a m).2 = false) := by
  induction left generalizing m fs a with
  | zero => exact ⟨m, true, [], rfl, h, .refl m a, fun _ ↦ rfl, nofun, by simp⟩
  | succ left ih =>
    rcases provided_cases h.wf a with ⟨hnone, -⟩ | ⟨g, m₂, ok, hg⟩
    · have hstep : ∀ left, mapImage (left + 1) a m = (m, false) := by
        intro left
        rw [mapImage, hnone]
        rfl
      exact ⟨m, false, [], hstep left, h, .refl m a, nofun, fun _ ↦ Nat.succ_pos left, by simp [hstep 0]⟩
    · have hheld := (h.take hg.room hg.free).grow hg.grow
      rw [hg.mapImage, hg.mapImage]
      cases ok with
      | false =>
        exact ⟨_, false, [], rfl, hheld.drop, ⟨hg.grow.bytes, hg.grow.tables, fun _ ↦ hg.fresh, hg.plain, hg.huge, nofun,
          fun b _ ↦ (hg.leaf b).trans (if_neg nofun)⟩, nofun, fun _ ↦ Nat.succ_pos left, by simp⟩
      | true =>
        obtain ⟨m₃, ok, gs, hrun, hheld₃, hmapped, hlen, hlen', -⟩ := ih hheld (a + pageSize)
        refine ⟨m₃, ok, g :: gs, hrun, hheld₃.perm perm_middle, .cons hg hmapped,
          fun hok ↦ congrArg (· + 1) (hlen hok), fun hok ↦ Nat.succ_lt_succ (hlen' hok), by simp [mapImage]⟩

theorem mapImage_mapped (hm : m.Wf) (h : mapImage n a m = (m', true)) : ∃ gs, gs.length = n ∧ Mapped m m' a gs := by
  obtain ⟨m₁, ok, gs, hrun, -, hmapped, hlen, -⟩ := mapImage_spec (.refl hm) n a
  obtain ⟨rfl, rfl⟩ := Prod.mk.inj (hrun.symm.trans h)
  exact ⟨gs, hlen rfl, hmapped⟩

/-- One round of `releasePages`. -/
def releasePage (page : ℕ) (m : Memory) : Memory :=
  let frame := m.translate page
  let m := (m.unmap page pageSize).1
  if frame ≠ 0 then m.freePage (frame / pageSize * pageSize) else m

theorem releasePages_succ (left page : ℕ) (m : Memory) :
    releasePages (left + 1) page m = releasePages left (page + pageSize) (releasePage page m) := rfl

theorem releasePage_spec (h : Holding m₀ m (g :: gs ++ fs)) (hp : Pages m a (g :: gs))
    (hroom : a + (gs.length + 1) * pageSize ≤ 2 ^ 48) :
    m.translate a / pageSize = g ∧ Holding m₀ (releasePage a m) (gs ++ fs) ∧
      Pages (releasePage a m) (a + pageSize) gs ∧ (releasePage a m).bytes = m.bytes ∧
      ∀ b, (releasePage a m).frameAt b = if pageOf b = pageOf a then none else m.frameAt b := by
  obtain ⟨⟨t, ht⟩, hframe⟩ := hp 0 g rfl
  rw [Nat.zero_mul, Nat.add_zero] at ht hframe
  have hg0 := h.ne_zero mem_cons_self
  have htrans := translate_of_frameAt h.wf hframe
  have hdiv : m.translate a / pageSize = g := by
    rw [htrans]
    unfold pageSize
    omega
  have hne : m.translate a ≠ 0 := by
    have : 0 < g * pageSize := Nat.mul_pos (Nat.pos_of_ne_zero hg0) (by decide)
    omega
  obtain ⟨m₁, hunmap, hgrow, hleaf⟩ := unmap_page_spec h.wf ht
  have hstep : releasePage a m = m₁.freePage (g * pageSize) := by
    rw [releasePage, hunmap]
    simp only
    rw [if_pos hne, hdiv]
  have hat : ∀ b, (m₁.freePage (g * pageSize)).frameAt b = if pageOf b = pageOf a then none else m.frameAt b := by
    intro b
    rw [frameAt, show (m₁.freePage (g * pageSize)).leaf b = m₁.leaf b from rfl, hleaf]
    split
    · rfl
    · rfl
  rw [hstep]
  refine ⟨hdiv, (h.grow hgrow).drop, fun l x hl ↦ ?_, hgrow.bytes, hat⟩
  obtain ⟨⟨t', ht'⟩, hx⟩ := hp (l + 1) x hl
  have hlt := (List.getElem?_eq_some_iff.mp hl).1
  rw [page_succ, hat, if_neg (page_succ a l ▸ (beyond_succ hroom l hlt).symm)]
  exact ⟨⟨t', hgrow.tables 3 le_rfl _ _ ht'⟩, hx⟩

theorem releasePages_spec (h : Holding m₀ m (gs ++ fs)) (hp : Pages m a gs)
    (hroom : a + gs.length * pageSize ≤ 2 ^ 48) :
    Holding m₀ (releasePages gs.length a m) fs ∧ (releasePages gs.length a m).bytes = m.bytes ∧
      (∀ b, Beyond a gs.length b → (releasePages gs.length a m).frameAt b = m.frameAt b) ∧
      ∀ b, ¬ Beyond a gs.length b → (releasePages gs.length a m).frameAt b = none := by
  induction gs generalizing a m with
  | nil => exact ⟨h, rfl, fun _ _ ↦ rfl, fun b hb ↦ absurd (fun _ hj ↦ absurd hj (by simp)) hb⟩
  | cons g gs ih =>
    rw [length_cons] at hroom ⊢
    obtain ⟨-, hheld, hp', hbytes₁, hat⟩ := releasePage_spec h hp hroom
    obtain ⟨hheld', hbytes, hout, hin⟩ := ih hheld hp' (by rw [Nat.add_mul] at hroom; omega)
    rw [releasePages_succ]
    refine ⟨hheld', hbytes.trans hbytes₁, fun b hb ↦ ?_, fun b hb ↦ ?_⟩
    · obtain ⟨h0, hb⟩ := beyond_succ_iff.mp hb
      rw [hout b hb, hat, if_neg h0]
    · by_cases hb' : Beyond (a + pageSize) gs.length b
      · have h0 : pageOf b = pageOf a := by
          by_contra h0
          exact hb (beyond_succ_iff.mpr ⟨h0, hb'⟩)
        rw [hout b hb', hat, if_pos h0]
      · exact hin b hb'

/-- Since `m₀` nothing has happened but that the pages from `a` on were mapped to the frames
of a list, and written to. -/
structure Occupied (m₀ m : Memory) (a : ℕ) (gs : List ℕ) : Prop where
  holding : Holding m₀ m gs
  pages : Pages m a gs
  room : a + gs.length * pageSize ≤ 2 ^ 48
  aligned : a % pageSize = 0
  others : ∀ b, Beyond a gs.length b → m.frameAt b = m₀.frameAt b
  bytes : ∀ p, p / pageSize ∉ gs → m.bytes p = m₀.bytes p

namespace Occupied

theorem frameAt (h : Occupied m₀ m a gs) (ha : a ≤ b) (hb : b < a + gs.length * pageSize) :
    ∃ g, gs[(b - a) / pageSize]? = some g ∧ m.frameAt b = some g := by
  have hj : (b - a) / pageSize < gs.length := by
    rw [Nat.div_lt_iff_lt_mul (by decide)]
    omega
  have hg := getElem?_eq_getElem hj
  refine ⟨_, hg, ?_⟩
  rw [← (h.pages _ _ hg).2]
  refine frameAt_congr ?_ m
  have haligned := h.aligned
  unfold pageOf pageSize at *
  omega

theorem backed (h : Occupied m₀ m a gs) {loaded : LoadedImage} (hbase : loaded.base = a)
    (hpages : loaded.pages = gs.length) : loaded.Backed m := by
  subst hbase
  have htrans : ∀ b, loaded.Holds b → ∃ g, gs[(b - loaded.base) / pageSize]? = some g ∧
        m.translate b = g * pageSize + b % pageSize := by
    rintro b ⟨hb, hlt⟩
    rw [hpages] at hlt
    obtain ⟨g, hg, hf⟩ := h.frameAt hb hlt
    exact ⟨g, hg, translate_of_frameAt h.holding.wf hf⟩
  refine ⟨fun b hb ↦ ?_, fun c d hc hc' hd hd' heq ↦ ?_⟩
  · obtain ⟨g, hg, ht⟩ := htrans b hb
    have := Nat.mul_pos (Nat.pos_of_ne_zero (h.holding.ne_zero (mem_of_getElem? hg)))
      (show 0 < pageSize by decide)
    omega
  · obtain ⟨g, hg, ht⟩ := htrans c ⟨hc, hc'⟩
    obtain ⟨g', hg', ht'⟩ := htrans d ⟨hd, hd'⟩
    rw [ht, ht'] at heq
    obtain rfl : g = g' := by
      unfold pageSize at heq
      omega
    obtain ⟨hj, hgj⟩ := List.getElem?_eq_some_iff.mp hg
    obtain ⟨hj', hgj'⟩ := List.getElem?_eq_some_iff.mp hg'
    have hsame := (List.Nodup.getElem_inj_iff h.holding.nodup).mp (hgj.trans hgj'.symm)
    unfold pageSize at *
    omega

theorem write (h : Occupied m₀ m a gs) {bytes : ℕ → UInt8}
    (hb : ∀ p, p / pageSize ∉ gs → bytes p = m.bytes p) :
    Occupied m₀ { m with bytes := bytes } a gs where
  holding := ⟨⟨h.holding.wf.separated, h.holding.wf.taken, h.holding.wf.low, h.holding.wf.flat⟩,
    h.holding.low, h.holding.root, h.holding.vmalloc, h.holding.used, h.holding.spent,
    h.holding.tables, h.holding.held, h.holding.nodup⟩
  pages := h.pages
  room := h.room
  aligned := h.aligned
  others := h.others
  bytes p hp := (hb p hp).trans (h.bytes p hp)

theorem grow (h : Occupied m₀ m a gs) (hg : Grow m m') (hf : ∀ b, m'.frameAt b = m.frameAt b) :
    Occupied m₀ m' a gs where
  holding := h.holding.grow hg
  pages j g hj := by
    obtain ⟨⟨t, ht⟩, hat⟩ := h.pages j g hj
    exact ⟨⟨t, hg.tables 3 le_rfl _ _ ht⟩, (hf _).trans hat⟩
  room := h.room
  aligned := h.aligned
  others b hb := (hf b).trans (h.others b hb)
  bytes p hp := by rw [hg.bytes, h.bytes p hp]

end Occupied

section Extent

open Vmalloc

theorem extent_eq {pages : ℕ} (h : pages ≤ managedPages) :
    extent (pages * pageSize) = pages * pageSize + pageSize := by
  unfold extent roundUp pageSize managedPages at *
  omega

end Extent

def NoPage (bytes : ℕ) (m : Memory) : Prop :=
  let reserved := m.vmalloc.reserve (roundUpPages bytes * pageSize)
  reserved.2 = 0 ∨ (mapImage 1 reserved.2 { m with vmalloc := reserved.1 }).2 = false

/-- Since `m` nothing has happened but that an image was given a window, with a frame for
each of its pages, and that these were written to. -/
structure Hosts (m m' : Memory) (loaded : LoadedImage) (v : Vmalloc) (gs : List ℕ) : Prop where
  reserved : m.vmalloc.reserve (loaded.pages * pageSize) = (v, loaded.base)
  low : vmallocBase ≤ loaded.base
  high : loaded.base + loaded.pages * pageSize < vmallocEnd
  count : loaded.pages = gs.length
  free : ∀ b, loaded.Holds b → m.vmalloc.Free b
  occupied : Occupied { m with vmalloc := v } m' loaded.base gs

theorem allocateImage_some (hm : m.Orderly) {bytes : ℕ} {loaded : LoadedImage}
    (h : allocateImage bytes m = (m', some loaded)) :
    (∃ v gs, Hosts m m' loaded v gs) ∧ loaded.placement = fun _ ↦ {} := by
  unfold allocateImage at h
  simp only at h
  obtain ⟨v, w, hres⟩ : ∃ v w, m.vmalloc.reserve (roundUpPages bytes * pageSize) = (v, w) := ⟨_, _, rfl⟩
  have hm₀ : { m with vmalloc := v }.Wf := ⟨hm.wf.separated, hm.wf.taken, hm.wf.low, hm.wf.flat⟩
  obtain ⟨m₁, ok, gs, hmap, hheld, hmapped, hlen, -⟩ :=
    mapImage_spec (Holding.refl hm₀) (roundUpPages bytes) w
  rw [hres, hmap] at h
  split at h
  · cases h
  · rename_i hw
    cases ok with
    | false => cases h
    | true =>
      obtain ⟨rfl, rfl⟩ : m₁ = m' ∧ _ = loaded := by simpa using h
      rw [List.append_nil] at hheld
      have hle := hlen rfl ▸ hheld.length_le
      obtain ⟨hlo, -, hhi, hwa, hfree, -⟩ := reserve_taken hm.tidy hres hw
      rw [extent_eq hle] at hhi hfree
      have hend : vmallocEnd ≤ 2 ^ 48 := by decide
      have hpos : 0 < pageSize := by decide
      have hroom : w + gs.length * pageSize ≤ 2 ^ 48 := by
        rw [hlen rfl]
        omega
      obtain ⟨hp, hothers⟩ := hmapped.pages hroom
      have hheld : Occupied _ m₁ w gs := ⟨hheld, hp, hroom, hwa, hothers, fun p _ ↦ by rw [hmapped.bytes]⟩
      refine ⟨⟨v, gs, hres, hlo, by simp only; omega, (hlen rfl).symm, ?_, hheld⟩, rfl⟩
      rintro b ⟨hb, hb'⟩
      simp only at hb hb'
      exact (hfree b).mpr (.inr ⟨hb, by omega⟩)

theorem allocateImage_none (hm : m.Orderly) {bytes : ℕ}
    (hpos : 0 < roundUpPages bytes) (h : allocateImage bytes m = (m', none)) :
    m'.vmalloc.Wf ∧ (∀ a, m'.vmalloc.Free a ↔ m.vmalloc.Free a) ∧ m'.bytes = m.bytes ∧
      ∃ v w gs, Holding { m with vmalloc := v } { m' with vmalloc := v } gs ∧ (gs = [] ↔ NoPage bytes m) ∧
        (gs ≠ [] → m.vmalloc.Free w) ∧ Pages m' w gs ∧ ∀ b, Beyond w gs.length b → m'.frameAt b = m.frameAt b := by
  obtain ⟨v, w, hres⟩ : ∃ v w, m.vmalloc.reserve (roundUpPages bytes * pageSize) = (v, w) := ⟨_, _, rfl⟩
  have hm₀ : { m with vmalloc := v }.Wf := ⟨hm.wf.separated, hm.wf.taken, hm.wf.low, hm.wf.flat⟩
  unfold allocateImage at h
  unfold NoPage
  simp only [hres] at h ⊢
  split at h
  · rename_i hw
    obtain ⟨rfl, -⟩ := Prod.mk.inj h
    obtain ⟨hvwf, hfree⟩ := reserve_null hm.tidy (hw ▸ hres)
    exact ⟨hvwf, hfree, rfl, v, 0, [], Holding.refl hm₀, by simp [hw], nofun, nofun, fun _ _ ↦ rfl⟩
  · rename_i hw
    obtain ⟨m₁, ok, gs, hmap, hheld, hmapped, -, -, hnil⟩ :=
      mapImage_spec (Holding.refl hm₀) (roundUpPages bytes) w
    rw [hmap] at h
    cases ok with
    | true => cases h
    | false =>
      obtain ⟨rfl, -⟩ := Prod.mk.inj h
      obtain ⟨hwf, hfree⟩ := release_reserve hm.tidy hres hw
      obtain ⟨hlo, hstart, hhi, -⟩ := reserve_taken hm.tidy hres hw
      rw [List.append_nil] at hheld
      have hvm : m₁.vmalloc = v := hheld.vmalloc
      have hend : vmallocEnd + managedPages * pageSize ≤ 2 ^ 48 := by decide
      have hmul := Nat.mul_le_mul_right pageSize hheld.length_le
      obtain ⟨hp, hothers⟩ := hmapped.pages (by omega)
      simp only [releaseWindow, hvm]
      refine ⟨hwf, hfree, hmapped.bytes, v, w, gs, ?_, ?_, fun _ ↦ hstart, hp, hothers⟩
      · have hsame : { m₁ with vmalloc := v } = m₁ := by rw [← hvm]
        rwa [hsame]
      · rw [hnil]
        simp [hw, hpos.ne']

theorem Hosts.bytes {loaded : LoadedImage} {v : Vmalloc} (h : Hosts m m' loaded v gs) (b : ℕ → UInt8) :
    Hosts { m with bytes := b } { m' with bytes := b } loaded v gs := by
  obtain ⟨hres, hlow, hhigh, hcount, hfree, ⟨hheld, hpages, hroom, haligned, hothers, -⟩⟩ := h
  obtain ⟨⟨hsep, htaken, hwlow, hflat⟩, hlow₀, hroot, hvm, hused, hspent, htables, hh, hnodup⟩ := hheld
  exact ⟨hres, hlow, hhigh, hcount, hfree, ⟨⟨⟨hsep, htaken, hwlow, hflat⟩, hlow₀, hroot, hvm, hused,
    hspent, htables, hh, hnodup⟩, hpages, hroom, haligned, hothers, fun _ _ ↦ rfl⟩⟩

/-- As the first memory, but for page tables and what lies in free frames. -/
structure Returned (m m' : Memory) : Prop where
  wf : m'.Wf
  tidy : m'.vmalloc.Wf
  frames : ∀ f, m'.frames.bitmap f = true ↔ m.frames.bitmap f = true ∨ m'.IsTable f
  free : ∀ a, m'.vmalloc.Free a ↔ m.vmalloc.Free a
  mapping : ∀ a, m'.frameAt a = m.frameAt a
  bytes : ∀ p, (p / pageSize < managedPages → m.frames.bitmap (p / pageSize) = true) → m'.bytes p = m.bytes p

theorem frames_of_holding (h : Holding m₀ m []) (f : ℕ) :
    m.frames.bitmap f = true ↔ m₀.frames.bitmap f = true ∨ m.IsTable f := by
  constructor
  · intro hf
    exact (h.spent f hf).imp_right fun ht ↦ ht.resolve_right not_mem_nil
  · rintro (hf | ht)
    · exact h.used f hf
    · exact (h.wf.taken f ht).2

theorem Hosts.release {loaded : LoadedImage} {v : Vmalloc} (h : Hosts m m' loaded v gs)
    (hm : m.Orderly) : Returned m (releaseImage loaded.base loaded.pages m') := by
  have hlow := h.low
  have hbase : loaded.base ≠ 0 := by
    have : 0 < vmallocBase := by decide
    omega
  have hholding : Holding { m with vmalloc := v } m' (gs ++ []) := by
    rw [List.append_nil]
    exact h.occupied.holding
  obtain ⟨hheld, hbytes, hout, hin⟩ := releasePages_spec hholding h.occupied.pages h.occupied.room
  obtain ⟨hwf, hfree⟩ := release_reserve hm.tidy h.reserved hbase
  rw [releaseImage, if_neg hbase]
  rw [← h.count] at hheld hbytes hout hin
  have hvm : (releasePages loaded.pages loaded.base m').vmalloc = v := hheld.vmalloc
  rw [← hvm] at hwf hfree
  refine ⟨⟨hheld.wf.separated, hheld.wf.taken, hheld.wf.low, hheld.wf.flat⟩, hwf,
    fun f ↦ frames_of_holding hheld f, hfree, fun b ↦ ?_, fun p hp ↦ ?_⟩
  · by_cases hb : Beyond loaded.base loaded.pages b
    · exact (hout b hb).trans (h.occupied.others b (h.count ▸ hb))
    · obtain ⟨j, hj, hpage⟩ : ∃ j < loaded.pages, pageOf b = pageOf (loaded.base + j * pageSize) := by
        unfold Beyond at hb
        push Not at hb
        exact hb
      have hmul := Nat.mul_le_mul_right pageSize (show j + 1 ≤ loaded.pages by omega)
      have hpos : 0 < pageSize := by decide
      rw [Nat.add_mul, Nat.one_mul] at hmul
      have hnone := hm.unmapped _ (h.free (loaded.base + j * pageSize) ⟨by omega, by omega⟩)
      rw [← frameAt_congr hpage] at hnone
      exact (hin b hb).trans hnone.symm
  · have hnot : p / pageSize ∉ gs := by
      intro hmem
      obtain ⟨hlt, hfree₀, -⟩ := h.occupied.holding.held _ hmem
      have hused := hp hlt
      rw [show m.frames.bitmap (p / pageSize) = false from hfree₀] at hused
      cases hused
    rw [← h.occupied.bytes p hnot, ← hbytes]
    rfl

end Eris.Loader
