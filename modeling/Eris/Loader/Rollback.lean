import Eris.Loader.Objects
import Eris.Modules.Runs

namespace Eris.Loader

open Library.Outcome Library.Words Mm Mm.Memory Modules List

variable {m m' : Memory} {loaded loaded' : LoadedImage} {s : Sections} {t t' : Table} {k k' : Kernel}

/-- The second kernel is as the first one, as far as a call that failed may be noticed. The
page tables that were made on the way stay. -/
structure Restored (k k' : Kernel) : Prop where
  modules : k'.modules.live = k.modules.live
  lookups : ∀ name, 0 ∉ name → k'.symbolLookup name = k.symbolLookup name
  frames : ∀ f, k'.memory.frames.bitmap f = true ↔ k.memory.frames.bitmap f = true ∨ k'.memory.IsTable f
  unmapped : ∀ a, k.memory.vmalloc.Free a → k'.memory.translate a = 0
  window : ∀ a, k'.memory.vmalloc.Free a ↔ k.memory.vmalloc.Free a

theorem Returned.read (h : Returned m m') (hm : m.Wf) {a : ℕ} :
    m'.read a = { m with bytes := m'.bytes }.read a := by
  have htrans : m'.translate a = m.translate a := by
    rcases hf : m.frameAt a with - | f
    · rw [translate_of_frameAt_none hm hf, translate_of_frameAt_none h.wf ((h.mapping a).trans hf)]
    · rw [translate_of_frameAt hm hf, translate_of_frameAt h.wf ((h.mapping a).trans hf)]
  simp only [Memory.read, mapped, htrans, translate_bytes]

theorem Returned.lookup (h : Returned m m') (hm : m.Wf) {exports : Symbols} (hheld : exports.Held m)
    {name : CString} (h0 : 0 ∉ name) : exports.lookup m' name = exports.lookup m name := by
  rw [lookup_congr (fun _ ↦ h.read hm), hheld m'.bytes h.bytes name h0]

theorem Returned.restored (h : Returned k.memory k'.memory) (hk : k.Settled)
    (hs : k'.symbols = k.symbols) (hl : k'.modules.live = k.modules.live) : Restored k k' where
  modules := hl
  lookups name h0 := by
    rw [Kernel.symbolLookup, hs]
    exact h.lookup hk.memory.wf hk.held h0
  frames := h.frames
  unmapped a ha := translate_of_frameAt_none h.wf ((h.mapping a).trans (hk.memory.unmapped a ha))
  window := h.free

theorem Returned.refl (hm : m.Orderly) : Returned m m :=
  ⟨hm.wf, hm.tidy, frames_of_holding (.refl hm.wf), fun _ ↦ Iff.rfl, fun _ ↦ rfl, fun _ _ ↦ rfl⟩

/-- The second table is the first one with some modules of an image added at the end. -/
def Brought (loaded : LoadedImage) (t t' : Table) (n : ℕ) : Prop :=
  ∃ l : List Module, t'.live = t.live ++ l ∧ l.length = n ∧
    (∀ x ∈ l, x.state = .registered ∧ x.imageBase = loaded.base ∧ x.imagePages = loaded.pages) ∧
    (t.names.Nodup → t'.names.Nodup)

section Descriptors

variable {t₁ : Table} {n n' : ℕ}

theorem Brought.refl (loaded : LoadedImage) (h : t'.live = t.live) : Brought loaded t t' 0 :=
  ⟨[], by rw [h, List.append_nil], rfl, nofun, fun hn ↦ by rwa [Table.names, Table.infos, h]⟩

theorem Brought.trans (h : Brought loaded t t₁ n) (h' : Brought loaded t₁ t' n') :
    Brought loaded t t' (n + n') := by
  obtain ⟨l, hl, hlen, hall, hn⟩ := h
  obtain ⟨l', hl', hlen', hall', hn'⟩ := h'
  refine ⟨l ++ l', ?_, by rw [length_append, hlen, hlen'], ?_, fun h ↦ hn' (hn h)⟩
  · rw [hl', hl, append_assoc]
  · exact forall_mem_append.mpr ⟨hall, hall'⟩

theorem registerDescriptor_spec {st st' : Table × ℕ} {address : ℕ}
    (h : registerDescriptor loaded m st address = .ok st') :
    ∃ n, st'.2 = st.2 + n ∧ Brought loaded st.1 st'.1 n := by
  unfold registerDescriptor at h
  split at h
  · cases h
    exact ⟨0, rfl, .refl loaded rfl⟩
  · obtain ⟨info, -, h⟩ := bind_eq_ok.mp h
    rcases Counting.moduleRegisterLoaded_spec info loaded.base loaded.pages st.1 with
      ⟨hr, ⟨e, he⟩, -⟩ | ⟨hr, -, hnew, slot, -, hl⟩
    · simp only [hr, he] at h
      cases h
      exact ⟨0, rfl, .refl loaded rfl⟩
    · simp only [hr] at h
      cases h
      refine ⟨1, rfl, [_], hl, rfl, forall_mem_singleton.mpr ⟨rfl, rfl, rfl⟩, fun hn ↦ ?_⟩
      rw [Table.names, Table.infos, hl, map_append, map_append]
      refine nodup_append.mpr ⟨hn, nodup_singleton _, fun a ha b hb hab ↦ ?_⟩
      rw [map_singleton, map_singleton, mem_singleton] at hb
      exact hnew (hb ▸ hab ▸ ha)

theorem registerMany_spec {left address : ℕ} {st st' : Table × ℕ}
    (h : registerMany loaded m left address st = .ok st') :
    ∃ n, st'.2 = st.2 + n ∧ Brought loaded st.1 st'.1 n := by
  induction left generalizing address st with
  | zero =>
    cases h
    exact ⟨0, rfl, .refl loaded rfl⟩
  | succ left ih =>
    obtain ⟨st₁, hone, h⟩ := bind_eq_ok.mp h
    obtain ⟨n, hn, hb⟩ := registerDescriptor_spec hone
    obtain ⟨n', hn', hb'⟩ := ih h
    exact ⟨n + n', by omega, hb.trans hb'⟩

theorem registerDescriptors_spec (h : registerDescriptors s loaded m t = .ok (t', n)) :
    Brought loaded t t' n := by
  refine foldlM_induction (fun _ st ↦ Brought loaded t st.1 st.2) (fun _ st i _ st' ih hstep ↦ ?_)
    (.refl loaded rfl) h
  obtain ⟨named, -, hstep⟩ := bind_eq_ok.mp hstep
  split at hstep
  · obtain ⟨size, -, hstep⟩ := bind_eq_ok.mp hstep
    obtain ⟨n, hn, hb⟩ := registerMany_spec hstep
    rw [hn]
    exact ih.trans hb
  · cases hstep
    exact ih

theorem Brought.live_eq (h : Brought loaded t t' 0) : t'.live = t.live := by
  obtain ⟨l, hl, hlen, -⟩ := h
  rw [hl, length_eq_zero_iff.mp hlen, List.append_nil]

end Descriptors

section Total

theorem totalSize_spec {total : ℕ} (h : totalSize s = .ok total) :
    total % pageSize = 0 ∧ total < 2 ^ 64 := by
  refine foldlM_induction (fun _ total ↦ total % pageSize = 0 ∧ total < 2 ^ 64)
    (fun _ n i _ n' ih hstep ↦ ?_) (by decide) h
  obtain ⟨size, -, hstep⟩ := bind_eq_ok.mp hstep
  cases size with
  | none =>
    cases hstep
    exact ih
  | some size =>
    obtain rfl := Except.ok.inj hstep
    refine ⟨?_, Nat.mod_lt _ (by decide)⟩
    obtain ⟨hmod, -⟩ := ih
    unfold pageSize at *
    omega

theorem roundUpPages_pos {total : ℕ} (h : total % pageSize = 0) (hlt : total < 2 ^ 64)
    (h0 : total ≠ 0) : 0 < roundUpPages total := by
  unfold roundUpPages pageSize at *
  omega

end Total

def Image.total (image : Image) : Except Fault ℕ := do
  totalSize ⟨image, ← image.header⟩

def Image.Exporting (image : Image) : Prop :=
  ∃ header, image.header = .ok header ∧ ∃ i < header.sectionHeaderCount, (⟨image, header⟩ : Sections).ExportsAt i

section Call

variable {code : Code} {image : Image} {r : Except Refusal Loaded} {e : Refusal}

theorem moduleLoadImage_cases (h : moduleLoadImage code image k = .ok (k', r)) :
    (k' = k ∧ ∃ e, r = .error e ∧ e ≠ .noMemory ∧ e ≠ .noDescriptor) ∨
    ∃ header total, image.header = .ok header ∧ header.sectionHeaderCount ≤ maxSections ∧
      totalSize ⟨image, header⟩ = .ok total ∧ total ≠ 0 ∧
      ((∃ m, allocateImage total k.memory = (m, none) ∧ k' = { k with memory := m } ∧
        r = .error .noMemory) ∨ ∃ m loaded, allocateImage total k.memory = (m, some loaded) ∧
        buildImage code ⟨image, header⟩ loaded { k with memory := m } = .ok (k', r)) := by
  unfold moduleLoadImage at h
  split at h
  · cases h
    exact .inl ⟨rfl, _, rfl, nofun, nofun⟩
  · obtain ⟨header, hheader, h⟩ := bind_eq_ok.mp h
    split at h
    · cases h
      exact .inl ⟨rfl, _, rfl, nofun, nofun⟩
    · split at h
      · cases h
        exact .inl ⟨rfl, _, rfl, nofun, nofun⟩
      · rename_i hcount
        obtain ⟨total, htotal, h⟩ := bind_eq_ok.mp h
        split at h
        · cases h
          exact .inl ⟨rfl, _, rfl, nofun, nofun⟩
        · rename_i h0
          refine .inr ⟨header, total, hheader, by omega, htotal, h0, ?_⟩
          split at h
          · rename_i m halloc
            cases h
            exact .inl ⟨m, halloc, rfl, rfl⟩
          · rename_i m loaded halloc
            exact .inr ⟨m, loaded, halloc, h⟩

theorem restored_noMemory (hk : k.Settled) {total : ℕ} (hpos : 0 < roundUpPages total)
    (h : allocateImage total k.memory = (m, none)) :
    Restored k { k with memory := m } ↔ NoPage total k.memory := by
  obtain ⟨hv, hfree, hbytes, v, w, gs, hheld, hnil, hw, hpages, hothers⟩ :=
    allocateImage_none hk.memory hpos h
  have hwf : m.Wf := ⟨hheld.wf.separated, hheld.wf.taken, hheld.wf.low, hheld.wf.flat⟩
  rw [← hnil]
  constructor
  · intro hr
    by_contra hne
    obtain ⟨g, gs, rfl⟩ := exists_cons_of_ne_nil hne
    have hframe := (hpages 0 g rfl).2
    have htrans := (translate_of_frameAt hwf hframe).symm.trans (hr.unmapped w (hw hne))
    have hmul := Nat.mul_ne_zero (hheld.ne_zero mem_cons_self) (show pageSize ≠ 0 by decide)
    omega
  · rintro rfl
    refine Returned.restored ⟨hwf, hv, fun f ↦ frames_of_holding hheld f, hfree, fun a ↦ ?_, fun p _ ↦ ?_⟩
      hk rfl rfl
    · exact hothers a nofun
    · exact congrFun hbytes p

theorem Placed.address_ne_zero {n : List ℕ} (h : Placed s loaded loaded' n)
    (hlow : vmallocBase ≤ loaded.base) (hempty : loaded.placement = fun _ ↦ {}) {i : ℕ} (hi : i ∈ n) :
    (loaded'.placement i).address ≠ 0 ↔ ∃ size, s.toPlace i = .ok (some size) := by
  constructor
  · intro hne
    obtain ⟨size, hsize⟩ := h.read i hi
    cases size with
    | none =>
      rw [h.outside i fun _ ↦ hsize, hempty] at hne
      exact absurd rfl hne
    | some size => exact ⟨size, hsize⟩
  · rintro ⟨size, hsize⟩
    have hin := h.inside i hi size hsize
    have : 0 < vmallocBase := by decide
    omega

theorem buildImage_cases {m₀ : Memory} {v : Vmalloc} {gs : List ℕ} (hh : Hosts m₀ k.memory loaded v gs)
    (hempty : loaded.placement = fun _ ↦ {}) (h : buildImage code s loaded k = .ok (k', r)) :
    (∃ e m, e.Relocating ∧ r = .error e ∧ Hosts m₀ m loaded v gs ∧
      k' = { k with memory := releaseImage loaded.base loaded.pages m }) ∨
    ∃ loaded' m symbols modules n, Placed s loaded loaded' (List.range s.count) ∧
      Hosts m₀ m loaded v gs ∧ Joined s loaded' k.symbols (List.range s.count) symbols ∧
      registerDescriptors s loaded' m k.modules = .ok (modules, n) ∧ (n = 0 ∧ r = .error .noDescriptor ∧
        k' = ⟨releaseImage loaded.base loaded.pages m, symbols, modules⟩ ∨
      n ≠ 0 ∧ r = .ok ⟨loaded.base, loaded.pages, n⟩ ∧ k' = ⟨m, symbols, modules⟩) := by
  obtain ⟨⟨loaded', cursor, m₁⟩, hplace, h⟩ := bind_eq_ok.mp h
  obtain ⟨hplaced, hw₁⟩ := placeSections_spec hplace
  obtain ⟨⟨m₂, refusal⟩, hreloc, h⟩ := bind_eq_ok.mp h
  obtain ⟨hw₂, hrefusal⟩ := applySections_rewrites hreloc
  have hh₂ := (hh.rewrites hw₁).rewrites (hw₂.congr hplaced.base.symm hplaced.pages.symm)
  cases refusal with
  | some e =>
    rw [hplaced.base, hplaced.pages] at h
    cases h
    exact .inl ⟨e, m₂, hrefusal e rfl, rfl, hh₂, rfl⟩
  | none =>
    obtain ⟨m₃, hrun, h⟩ := bind_eq_ok.mp h
    obtain ⟨symbols, hexports, h⟩ := bind_eq_ok.mp h
    obtain ⟨m₄, hprotect, h⟩ := bind_eq_ok.mp h
    obtain ⟨⟨modules, n⟩, hdesc, h⟩ := bind_eq_ok.mp h
    have hh₃ := hh₂.rewrites ((runConstructors_rewrites hrun).congr hplaced.base.symm hplaced.pages.symm)
    have hh₄ : Hosts m₀ m₄ loaded v gs := ⟨hh₃.reserved, hh₃.low, hh₃.high, hh₃.count, hh₃.free,
      applyProtections_spec hh₃.occupied hprotect⟩
    have hjoined := registerExports_spec (fun i hi ↦
      hplaced.address_ne_zero hh.low hempty (mem_range.mpr hi)) hexports
    refine .inr ⟨loaded', m₄, symbols, modules, n, hplaced, hh₄, hjoined, hdesc, ?_⟩
    simp only at h
    rw [hplaced.base, hplaced.pages] at h
    split at h
    · rename_i h0
      cases h
      exact .inl ⟨h0, rfl, rfl⟩
    · rename_i h0
      cases h
      exact .inr ⟨h0, rfl, rfl⟩

theorem lookupTables_unmapped {name : CString} {u : RegisteredTable} {us : List RegisteredTable}
    (hu : m.translate u.table = 0) (h0 : u.table ≠ 0) (hc : u.count ≠ 0) :
    Symbols.lookupTables m name (u :: us) = .error (.page u.table) := by
  obtain ⟨count, hcount⟩ := Nat.exists_eq_succ_of_ne_zero hc
  have hread : m.readWord 8 u.table = .error (.page u.table) := by
    simp [readWord, readBytes, Memory.read, mapped, hu, h0, bind, Except.bind, Except.map]
  rw [Symbols.lookupTables, hcount, Symbols.lookupIn, hread]
  rfl

theorem lookup_stale {exports exports' : Symbols} {new : List RegisteredTable}
    (hl : ∀ name, 0 ∉ name → ∃ a, exports.lookup m name = .ok a)
    (hsym : exports'.symtab = exports.symtab) (hnew : exports'.tables = exports.tables ++ new)
    (hne : new ≠ []) (hall : ∀ u ∈ new, m.translate u.table = 0 ∧ u.table ≠ 0 ∧ u.count ≠ 0) :
    ∃ name, 0 ∉ name ∧ exports'.lookup m name ≠ exports.lookup m name := by
  obtain ⟨name, h0, hfind, hnone⟩ := exists_unexported hl
  obtain ⟨u, us, rfl⟩ := exists_cons_of_ne_nil hne
  obtain ⟨hu, hu0, huc⟩ := hall u mem_cons_self
  refine ⟨name, h0, fun heq ↦ ?_⟩
  have hold : Symbols.lookupTables m name (exports.tables ++ []) = .ok 0 := lookupTables_append hnone
  rw [List.append_nil] at hold
  rw [Symbols.lookup, Symbols.lookup, hsym, hfind, hnew] at heq
  simp only at heq
  rw [lookupTables_append hnone, lookupTables_unmapped hu hu0 huc, hold] at heq
  cases heq

theorem restored_noDescriptor {v : Vmalloc} {gs : List ℕ} {symbols : Symbols} {modules : Table}
    (hk : k.Settled) (hh : Hosts k.memory m loaded v gs)
    (hp : Placed s loaded loaded' (List.range s.count))
    (hj : Joined s loaded' k.symbols (List.range s.count) symbols)
    (hempty : loaded.placement = fun _ ↦ {}) (hl : modules.live = k.modules.live) :
    Restored k ⟨releaseImage loaded.base loaded.pages m, symbols, modules⟩ ↔
      (∀ i < s.count, ¬ s.ExportsAt i) ∨ k.symbols.tables.length = maxTables := by
  obtain ⟨hsym, new, hnew, hall, hnil⟩ := hj
  have hret := hh.release hk.memory
  simp only [mem_range] at hnil
  rw [or_comm, ← hnil]
  constructor
  · intro hr
    by_contra hne
    have hlookups : ∀ name, 0 ∉ name → ∃ a,
        k.symbols.lookup (releaseImage loaded.base loaded.pages m) name = .ok a := by
      intro name h0
      rw [hret.lookup hk.memory.wf hk.held h0]
      exact hk.lookups name h0
    obtain ⟨name, h0, hdiff⟩ := lookup_stale hlookups hsym hnew hne fun u hu ↦ by
      obtain ⟨-, hc, hu0, i, hi, haddress⟩ := hall u hu
      rw [haddress] at hu0
      obtain ⟨size, hsize⟩ := (hp.address_ne_zero hh.low hempty (mem_range.mpr hi)).mp hu0
      have hin := hp.inside i (mem_range.mpr hi) size hsize
      have hpos := (size_of_toPlace hsize).2
      rw [haddress]
      exact ⟨hr.unmapped _ (hh.free _ ⟨hin.1, by omega⟩), hu0, hc⟩
    exact hdiff ((hr.lookups name h0).trans (hret.lookup hk.memory.wf hk.held h0).symm)
  · rintro rfl
    refine hret.restored hk ?_ hl
    cases symbols
    cases hks : k.symbols
    simp_all

/-- A call that fails leaves the kernel as it was, unless it ran out of memory after it had
mapped a page, or found no descriptor to accept after it had registered exports. -/
theorem refused_restored_iff (hk : k.Settled)
    (h : moduleLoadImage code image k = .ok (k', .error e)) :
    Restored k k' ↔ (e = .noMemory → ∃ total, image.total = .ok total ∧ NoPage total k.memory) ∧
      (e = .noDescriptor → ¬ image.Exporting ∨ k.symbols.tables.length = maxTables) := by
  rcases moduleLoadImage_cases h with ⟨rfl, e', he, hm, hd⟩ | ⟨header, total, hheader, -, htotal, h0, hrest⟩
  · cases he
    have hr := (Returned.refl hk.memory).restored hk rfl rfl
    exact iff_of_true hr ⟨fun h ↦ absurd h hm, fun h ↦ absurd h hd⟩
  · have himage : image.total = .ok total := by
      rw [Image.total, hheader]
      exact htotal
    obtain ⟨hmod, hlt⟩ := totalSize_spec htotal
    rcases hrest with ⟨m, halloc, rfl, he⟩ | ⟨m, loaded, halloc, hbuild⟩
    · cases he
      rw [restored_noMemory hk (roundUpPages_pos hmod hlt h0) halloc, himage]
      simp
    · obtain ⟨⟨v, gs, hh⟩, hempty⟩ := allocateImage_some hk.memory halloc
      rcases buildImage_cases hh hempty hbuild with
        ⟨e', m', hreloc, he, hh', rfl⟩ | ⟨loaded', m', symbols, modules, n, hp, hh', hj, hdesc, hend⟩
      · cases he
        have hr : Restored k { k with memory := releaseImage loaded.base loaded.pages m' } :=
          (hh'.release hk.memory).restored hk rfl rfl
        refine iff_of_true hr ⟨?_, ?_⟩
        · rintro rfl
          exact hreloc.elim
        · rintro rfl
          exact hreloc.elim
      · rcases hend with ⟨rfl, he, rfl⟩ | ⟨-, he, -⟩
        · cases he
          have hexporting : ¬ image.Exporting ↔
              ∀ i < header.sectionHeaderCount, ¬ (⟨image, header⟩ : Sections).ExportsAt i := by
            simp [Image.Exporting, hheader]
          rw [restored_noDescriptor hk hh' hp hj hempty (registerDescriptors_spec hdesc).live_eq, hexporting]
          simp [Sections.count]
        · cases he

end Call

def refusalWith (t : Kernel → Bool) : Except Fault (Kernel × Except Refusal Loaded) → Option Refusal
  | .ok (k, .error e) => if t k then some e else none
  | _ => none

theorem of_refusalWith {t : Kernel → Bool} {x : Except Fault (Kernel × Except Refusal Loaded)}
    {e : Refusal} (h : refusalWith t x = some e) : ∃ k, x = .ok (k, .error e) ∧ t k = true := by
  match x with
  | .ok (k, .error e') =>
    rw [refusalWith] at h
    split at h
    · rename_i htest
      cases h
      exact ⟨k, rfl, htest⟩
    · cases h
  | .ok (k, .ok _) => cases h
  | .error _ => cases h

def danglingImage : Image :=
  object [{}, { name := cstring ".data", flags := 3, data := toBytes 8 0 },
    { type := 4, link := 0, info := 1, data := relaEntry 0 1 1 0 }]

theorem refused_restored_iff_dangling :
    ∃ k, moduleLoadImage .idle danglingImage (blankKernel (· < 2) []) = .ok (k, .error .unresolved) ∧
      Restored (blankKernel (· < 2) []) k := by
  obtain ⟨k, hk, -⟩ := of_refusalWith (e := .unresolved) (t := fun _ ↦ true)
    (x := moduleLoadImage .idle danglingImage (blankKernel (· < 2) [])) (by decide +kernel)
  exact ⟨k, hk, (refused_restored_iff (blank_settled rfl rfl) hk).mpr ⟨nofun, nofun⟩⟩

def exportsOnlyImage : Image :=
  object [{}, { name := cstring ".eris_symtab", flags := 2, data := toBytes 16 0 }]

/-- The export table of a refused image stays registered, and looking a name up then reads
pages that are gone. -/
theorem refused_not_restored :
    ∃ k, moduleLoadImage .idle exportsOnlyImage (blankKernel (· < 2) []) =
      .ok (k, .error .noDescriptor) ∧ ¬ Restored (blankKernel (· < 2) []) k := by
  obtain ⟨k, hk, hfault⟩ := of_refusalWith (e := .noDescriptor)
    (t := fun k ↦ (k.symbolLookup (cstring "printk")).toBool = false)
    (x := moduleLoadImage .idle exportsOnlyImage (blankKernel (· < 2) [])) (by decide +kernel)
  refine ⟨k, hk, fun hr ↦ ?_⟩
  rw [hr.lookups _ (by decide)] at hfault
  exact absurd hfault (by decide)

end Eris.Loader
