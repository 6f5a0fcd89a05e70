import Eris.Machine.Hardening

namespace Eris.Machine

open Library.Outcome Library.Slots Library.Words Loader Mm Mm.Memory Modules Vmalloc List Option

variable {m m' : Memory} {s : Sections} {loaded loaded' : LoadedImage} {image : Image} {code : Code} {k k' : Kernel}

section Image

def Exclusive (s : Sections) : Prop :=
  ∀ i < s.count, ∀ size flags, s.toPlace i = .ok (some size) → s.flags i = .ok flags →
    ¬ (flags.testBit 0 = true ∧ flags.testBit 2 = true)

theorem Rewrites.fenced (hw : loaded.Rewrites m m') (h : m.Fenced) : m'.Fenced := by
  rw [hw.1]
  exact h.bytes _

theorem placeSections_flags {cursor : ℕ} (h : placeSections s loaded m = .ok (loaded', cursor, m')) {i size : ℕ}
    (hi : i < s.count) (hsize : s.toPlace i = .ok (some size)) :
    ∃ flags, s.flags i = .ok flags ∧ (loaded'.placement i).executable = flags.testBit 2 ∧
      (loaded'.placement i).writable = flags.testBit 0 := by
  refine foldlM_induction (fun done st ↦ ∀ i ∈ done, ∀ size, s.toPlace i = .ok (some size) →
    ∃ flags, s.flags i = .ok flags ∧ (st.1.placement i).executable = flags.testBit 2 ∧
      (st.1.placement i).writable = flags.testBit 0) (fun done st j _ st' hst hstep ↦ ?_) nofun h i
    (mem_range.mpr hi) size hsize
  intro i hi size hsize
  obtain ⟨found, hfound, hstep⟩ := bind_eq_ok.mp hstep
  cases found with
  | none =>
    cases hstep
    rcases mem_append.mp hi with hi | hi
    · exact hst i hi size hsize
    · rw [mem_singleton.mp hi, hfound] at hsize
      cases hsize
  | some size' =>
    obtain ⟨flags, hflags, hstep⟩ := bind_eq_ok.mp hstep
    obtain ⟨data, -, hstep⟩ := bind_eq_ok.mp hstep
    obtain ⟨m₁, -, hstep⟩ := bind_eq_ok.mp hstep
    cases hstep
    simp only [LoadedImage.place, Function.update_apply]
    split
    · rename_i hij
      exact ⟨flags, hij ▸ hflags, rfl, rfl⟩
    · rename_i hij
      rcases mem_append.mp hi with hi | hi
      · exact hst i hi size hsize
      · exact absurd (mem_singleton.mp hi) hij

theorem applyProtections_fenced (h : m.Fenced)
    (hx : ∀ i < s.count, ∀ size, s.toPlace i = .ok (some size) → (loaded.placement i).writable = true →
      (loaded.placement i).executable = false)
    (hp : applyProtections s loaded m = .ok m') : m'.Fenced := by
  refine foldlM_induction (fun _ m₁ ↦ m₁.Fenced) (fun _ m₁ i hi m₂ hm₁ hstep ↦ ?_) h hp
  obtain ⟨size, hsize, hstep⟩ := bind_eq_ok.mp hstep
  cases size with
  | none =>
    cases hstep
    exact hm₁
  | some size =>
    cases hstep
    refine hm₁.of_hardened (hm₁.hardened.protect _ _ _ rfl fun hw ↦ ?_) (protect_vmalloc hm₁.hardened.wf _ _ _)
    rw [hx i (mem_range.mp hi) size hsize hw]
    rfl

def WindowsOf (t : Table) : Prop := ∀ x ∈ t.live, x.imageBase ≠ 0 → Window x.imageBase (x.imagePages * pageSize)

theorem WindowsOf.brought {t t' : Table} {n : ℕ} (h : WindowsOf t) (hb : Brought loaded t t' n)
    (hw : Window loaded.base (loaded.pages * pageSize)) : WindowsOf t' := by
  obtain ⟨l, hl, -, hall, -⟩ := hb
  intro x hx hx0
  rw [hl] at hx
  rcases mem_append.mp hx with hx | hx
  · exact h x hx hx0
  · obtain ⟨-, hbase, hpages⟩ := hall x hx
    rwa [hbase, hpages]

theorem moduleLoadImage_fenced {r : Except Refusal Loaded} (h : k.memory.Fenced) (hw : WindowsOf k.modules)
    (hx : ∀ s loaded m, relocatedImage image k = .ok (some (s, loaded, m)) → Exclusive s)
    (hload : moduleLoadImage code image k = .ok (k', r)) : k'.memory.Fenced ∧ WindowsOf k'.modules := by
  have halloc' := h.allocateImage
  -- the pages of an image that has been built can be given back
  have hbuilt : ∀ {total loaded₀ m₀ s loaded cursor m₁ m refusal}, allocateImage total k.memory = (m₀, some loaded₀) →
      placeSections s loaded₀ m₀ = .ok (loaded, cursor, m₁) →
      applyRelocations s loaded k.symbols m₁ = .ok (m, refusal) →
      m.Fenced ∧ Window loaded.base (loaded.pages * pageSize) ∧
        ∃ m' gs, loaded.pages = gs.length ∧ Occupied m' m loaded.base gs := by
    intro total loaded₀ m₀ s loaded cursor m₁ m refusal halloc hplace hreloc
    obtain ⟨hfenced, hall⟩ := halloc' total
    rw [halloc] at hfenced hall
    obtain ⟨hwin, m', gs, hcount, hocc⟩ := hall loaded₀ rfl
    obtain ⟨hplaced, hw₁⟩ := placeSections_spec hplace
    have hw₁' := hw₁.congr hplaced.base hplaced.pages
    obtain ⟨hw₂, -⟩ := applySections_rewrites hreloc
    rw [← hplaced.base, ← hplaced.pages] at hwin
    rw [← hplaced.pages] at hcount
    rw [← hplaced.base] at hocc
    exact ⟨Rewrites.fenced hw₂ (Rewrites.fenced hw₁ hfenced), hwin, m', gs, hcount,
      (hocc.rewrites hcount hw₁').rewrites hcount hw₂⟩
  have hrelease : ∀ {m' m : Memory} {loaded : LoadedImage} {gs}, m.Fenced →
      Window loaded.base (loaded.pages * pageSize) → loaded.pages = gs.length → Occupied m' m loaded.base gs →
      (releaseImage loaded.base loaded.pages m).Fenced := by
    intro m' m loaded gs hm hwin hcount hocc
    refine hm.releaseImage hwin ?_
    have hheld : Holding m' m (gs ++ []) := by
      rw [List.append_nil]
      exact hocc.holding
    rw [hcount]
    exact releasesData_of_pages hheld hocc.pages hocc.room
  rcases moduleLoadImage_stages hload with rfl | ⟨total, m, halloc, rfl⟩ |
    ⟨total, loaded₀, m₀, s, loaded, cursor, m₁, m, e, halloc, hplace, hreloc, rfl⟩ | ⟨s, loaded, m, hfound, hfinish⟩
  · exact ⟨h, hw⟩
  · have hm := (halloc' total).1
    rw [halloc] at hm
    exact ⟨hm, hw⟩
  · obtain ⟨hm, hwin, m', gs, hcount, hocc⟩ := hbuilt halloc hplace hreloc
    exact ⟨hrelease hm hwin hcount hocc, hw⟩
  · obtain ⟨total, loaded₀, m₀, m₁, cursor, halloc, hplace, hreloc, -⟩ := relocatedImage_cases hfound
    obtain ⟨hm, hwin, m', gs, hcount, hocc⟩ := hbuilt halloc hplace hreloc
    obtain ⟨m₂, hrun, hfinish⟩ := bind_eq_ok.mp hfinish
    obtain ⟨symbols, -, hfinish⟩ := bind_eq_ok.mp hfinish
    obtain ⟨m₃, hprotect, hfinish⟩ := bind_eq_ok.mp hfinish
    obtain ⟨⟨modules, n⟩, hdesc, hfinish⟩ := bind_eq_ok.mp hfinish
    have hrun' := runConstructors_rewrites hrun
    have hm₃ : m₃.Fenced := by
      refine applyProtections_fenced (Rewrites.fenced hrun' hm) (fun i hi size hsize hwrite ↦ ?_) hprotect
      obtain ⟨flags, hflags, hexec, hwritable⟩ := placeSections_flags hplace hi hsize
      have hnot := hx s loaded m hfound i hi size flags hsize hflags
      rw [← hexec, ← hwritable] at hnot
      simpa [hwrite] using hnot
    have hocc₃ := applyProtections_spec (hocc.rewrites hcount hrun') hprotect
    have hwindows := hw.brought (registerDescriptors_spec hdesc) hwin
    dsimp only at hfinish
    split at hfinish
    · cases hfinish
      exact ⟨hrelease hm₃ hwin hcount hocc₃, hwindows⟩
    · cases hfinish
      exact ⟨hm₃, hwindows⟩

end Image

section Modules

theorem WindowsOf.of_images {t t' : Table} (h : WindowsOf t)
    (hsub : ∀ x ∈ t'.live, x.imageBase = 0 ∨ ∃ y ∈ t.live, y.imageBase = x.imageBase ∧ y.imagePages = x.imagePages) :
    WindowsOf t' := by
  intro x hx hx0
  obtain ⟨y, hy, hbase, hpages⟩ := (hsub x hx).resolve_left hx0
  rw [← hbase, ← hpages]
  exact h y hy (hbase ▸ hx0)

theorem images_of_map {l l' : List Module}
    (h : l'.map (fun x ↦ (x.imageBase, x.imagePages)) = l.map fun x ↦ (x.imageBase, x.imagePages)) :
    ∀ x ∈ l', ∃ y ∈ l, y.imageBase = x.imageBase ∧ y.imagePages = x.imagePages := by
  intro x hx
  have hmem : (x.imageBase, x.imagePages) ∈ l'.map fun x ↦ (x.imageBase, x.imagePages) := List.mem_map_of_mem hx
  rw [h] at hmem
  obtain ⟨y, hy, heq⟩ := List.mem_map.mp hmem
  obtain ⟨hbase, hpages⟩ := Prod.mk.inj heq
  exact ⟨y, hy, hbase, hpages⟩

theorem WindowsOf.load {t : Table} (h : WindowsOf t) (init : InitResult) (name : CString) :
    WindowsOf (Modules.moduleLoad init name t).1 := by
  unfold Modules.moduleLoad
  split
  · exact h
  · rename_i i hfind
    have hframe := (Counting.loadLocked_frame (g := fun x ↦ (x.imageBase, x.imagePages)) (fun _ _ _ _ ↦ rfl) init
      (maxModules + 1) t i).1
    exact h.of_images fun x hx ↦ .inr (images_of_map hframe x hx)

theorem mem_modify {t : Table} {i : ℕ} {f : Module → Module} {x : Module} (h : x ∈ (t.modify i f).live) :
    x ∈ t.live ∨ ∃ y ∈ t.live, x = f y := by
  obtain ⟨j, hj⟩ := mem_iff_getElem?.mp h
  change (t.live.modify i f)[j]? = some x at hj
  rw [getElem?_modify] at hj
  obtain ⟨y, hy, hxy⟩ := map_eq_some_iff.mp hj
  have hmem := mem_of_getElem? hy
  split at hxy
  · exact .inr ⟨y, hmem, hxy.symm⟩
  · exact .inl (hxy ▸ hmem)

theorem mem_stopped {t : Table} {i : ℕ} {x : Module}
    (h : x ∈ (((t.modify i (Module.setState .registered)).modify i Module.detach).vacate i).live) :
    x.imageBase = 0 ∨ ∃ y ∈ t.live, y.imageBase = x.imageBase ∧ y.imagePages = x.imagePages := by
  have hmem : x ∈ ((t.modify i (Module.setState .registered)).modify i Module.detach).live := by
    unfold Table.vacate at h
    split at h
    · exact h
    · exact mem_of_mem_swapRemove h
  rcases mem_modify hmem with hx | ⟨y, -, rfl⟩
  · rcases mem_modify hx with hx | ⟨y, hy, rfl⟩
    · exact .inr ⟨x, hx, rfl, rfl⟩
    · exact .inr ⟨y, hy, rfl, rfl⟩
  · exact .inl rfl

theorem WindowsOf.unload {t t' : Table} {name : CString} {r : ℤ} {released : Option (ℕ × ℕ)} (h : WindowsOf t)
    (hunload : Modules.moduleUnload name t = .ok (t', r, released)) :
    WindowsOf t' ∧ ∀ base pages, released = some (base, pages) → Window base (pages * pageSize) := by
  unfold Modules.moduleUnload at hunload
  split at hunload
  · cases hunload
    exact ⟨h, nofun⟩
  · rename_i i hfind
    dsimp only at hunload
    split at hunload
    · cases hunload
      exact ⟨h, nofun⟩
    · split at hunload
      · cases hunload
        exact ⟨h, nofun⟩
      · obtain ⟨x, hx, -⟩ := Table.find_some hfind
        rw [hx] at hunload
        obtain ⟨t₁, hrel, hunload⟩ := bind_eq_ok.mp hunload
        have himages := Counting.releaseDependencies_map (g := fun x ↦ (x.imageBase, x.imagePages)) (fun _ ↦ rfl) hrel
        rw [getD_some, Counting.callExit_live] at himages
        have h₁ := h.of_images fun x hx ↦ .inr (images_of_map himages x hx)
        have hx₁ := mem_of_getElem? hx
        have hstop := Except.ok.inj hunload
        unfold stopModule at hstop
        split at hstop
        · rename_i hbase
          cases hstop
          refine ⟨h₁.of_images fun y hy ↦ ?_, fun base pages heq ↦ ?_⟩
          · exact mem_stopped hy
          · cases heq
            exact h x hx₁ hbase
        · cases hstop
          refine ⟨h₁.of_images fun y hy ↦ ?_, nofun⟩
          rcases mem_modify hy with hy | ⟨z, hz, rfl⟩
          · exact .inr ⟨y, hy, rfl, rfl⟩
          · exact .inr ⟨z, hz, rfl, rfl⟩

end Modules

section Runs

variable {st st' : State} {op : Op}

/-- An image that comes to its constructors has no section that can both be written and executed, and no
frame that an unload frees is in use as a page table at that moment. -/
def Permitted (st : State) : Op → Prop
  | .loadImage _ image => ∀ s loaded m, relocatedImage image st.kernel = .ok (some (s, loaded, m)) → Exclusive s
  | .unload drivers name => ∀ t r base pages,
    Modules.moduleUnload name st.kernel.modules = .ok (t, r, some (base, pages)) →
      ReleasesData pages base { st.kernel.memory with bytes := drivers.afterExit name st.kernel.memory }
  | _ => True

/-- What every operation keeps. -/
structure Safe (st : State) : Prop where
  fenced : st.kernel.memory.Fenced
  windows : WindowsOf st.kernel.modules

theorem boot_fenced {image : KernelImage} (hlow : m.frames.bitmap 0 = true) (h : m.pagingInit image = some m')
    (hv : m'.vmalloc.initialised = false) : m'.Fenced := by
  refine ⟨pagingInit_induction hlow h (fun m pdpt directory hd ↦ ⟨hd.wf, fun a hp _ ↦ ?_⟩)
    fun m c hm hc _ ↦ hm.call hc, bounded_of_not_initialised hv⟩
  rw [hd.leaf] at hp ⊢
  split at hp
  · rw [if_pos ‹_›]
    rfl
  · cases hp

theorem Safe.unload {drivers : Drivers} {name : CString} {r : ℤ} (h : Safe st)
    (hok : Permitted st (.unload drivers name)) (hunload : st.kernel.moduleUnload drivers name = .ok (k', r)) :
    Safe { st with kernel := k' } := by
  obtain ⟨⟨t, result, released⟩, hmod, hunload⟩ := bind_eq_ok.mp hunload
  obtain ⟨hwindows, hwindow⟩ := h.windows.unload hmod
  have hbytes := h.fenced.bytes (drivers.afterExit name st.kernel.memory)
  cases released with
  | none =>
    cases hunload
    exact ⟨hbytes, hwindows⟩
  | some image =>
    obtain ⟨base, pages⟩ := image
    cases hunload
    exact ⟨hbytes.releaseImage (hwindow base pages rfl) (hok t _ base pages hmod), hwindows⟩

theorem Safe.withHeap (h : Safe st) {out : Heap × Memory × Bool} (hout : out.2.1.Fenced) :
    Safe (st.withHeap out) :=
  ⟨hout, h.windows⟩

theorem Safe.step (h : Safe st) (hok : Permitted st op) (hstep : step st op = some st') : Safe st' := by
  cases op with
  | heapInit =>
    obtain ⟨⟨heap, m⟩, hinit, rfl⟩ := map_eq_some_iff.mp hstep
    exact ⟨heapInit_fenced h.fenced hinit, h.windows⟩
  | smpInit others =>
    cases hstep
    exact ⟨smpInit_fenced h.fenced others, h.windows⟩
  | loadImage code image =>
    obtain ⟨⟨k, r⟩, hload, rfl⟩ := map_eq_some_iff.mp hstep
    obtain ⟨hm, hw⟩ := moduleLoadImage_fenced h.fenced h.windows hok (toOption_eq_some.mp hload)
    exact ⟨hm, hw⟩
  | load drivers name =>
    cases hstep
    exact ⟨h.fenced.bytes _, h.windows.load drivers.result name⟩
  | unload drivers name =>
    obtain ⟨⟨k, r⟩, hunload, rfl⟩ := map_eq_some_iff.mp hstep
    exact h.unload hok (toOption_eq_some.mp hunload)
  | spawn =>
    cases hstep
    exact ⟨spawnStack_fenced h.fenced, h.windows⟩
  | mapDevice address length =>
    cases hstep
    exact ⟨mapDevice_fenced h.fenced address length, h.windows⟩
  | grow wanted =>
    obtain rfl := Option.some.inj hstep
    exact h.withHeap (grow_fenced h.fenced wanted st.heap)

theorem Reachable.safe (h : Reachable Permitted st) : Safe st := by
  induction h with
  | boot hlow hinit hv hmodules => exact ⟨boot_fenced hlow hinit hv, fun x hx hx0 ↦ absurd (hmodules x hx) hx0⟩
  | step _ hok hstep ih => exact ih.step hok hstep

/-- In every run of permitted operations no page is both writable and executable. -/
theorem reachable_write_xor_execute (h : Reachable Permitted st) {a : ℕ} {r : Rights}
    (hr : st.kernel.memory.rights a = some r) : ¬ (r.write = true ∧ r.noExecute = false) := by
  obtain ⟨hwf, hexclusive⟩ := h.safe.fenced.hardened
  obtain ⟨hpres, y, rfl⟩ := rights_through hwf hr
  rintro ⟨hwrite, hexec⟩
  have hw := hexclusive a hpres (Bool.and_eq_true_iff.mp hwrite).2
  rw [Rights.through, hw, Bool.or_true] at hexec
  cases hexec

/-- A kernel after `paging_init`, without modules. -/
def bootedState : State := ⟨⟨booted, ⟨[], [], Nat.zero_le _⟩, Table.empty⟩, ⟨0, 0⟩⟩

theorem reachable_bootedState (allowed : State → Op → Prop) : Reachable allowed bootedState :=
  .boot rfl pagingInit_bareMemory (by decide +kernel) nofun

theorem Reachable.smpInit {allowed : State → Op → Prop} (h : Reachable allowed st) {others : ℕ}
    (hok : allowed st (.smpInit others)) :
    Reachable allowed (st.withMemory (smpInit others st.kernel.memory)) :=
  .step h hok rfl

def startedState : State := bootedState.withMemory (smpInit 1 bootedState.kernel.memory)

/-- An image that is a descriptor with the given flags. Its name is in the next page. -/
def flaggedImage (flags : ℕ) : Image :=
  object [{}, { name := cstring ".eris_modules", flags := flags
                data := toBytes 8 1 ++ toBytes 8 (vmallocBase + pageSize) ++ toBytes 56 0 },
    { name := cstring ".data", flags := 3, data := cstring "alpha" ++ [0] }]

/-- Whether an image is accepted and the rights to its first page are then the given ones. -/
def loadsWith (r : Rights) (image : Image) (k : Kernel) : Bool :=
  okWith (fun out ↦ okWith (fun _ ↦ out.1.memory.rights vmallocBase = some r) out.2) (moduleLoadImage .idle image k)

theorem step_of_loadsWith {r : Rights} (h : loadsWith r image st.kernel = true) :
    ∃ st', step st (.loadImage .idle image) = some st' ∧ st'.kernel.memory.rights vmallocBase = some r := by
  obtain ⟨⟨k', result⟩, hload, h⟩ := of_okWith h
  obtain ⟨-, -, h⟩ := of_okWith h
  refine ⟨{ st with kernel := k' }, ?_, of_decide_eq_true h⟩
  rw [step, hload]
  rfl

/-- Whether no section of an image that comes to its constructors can be written and executed. -/
def flagsExclusive (s : Sections) : Bool :=
  (List.range s.count).all fun i ↦ okWith (fun flags ↦ !(flags.testBit 0 && flags.testBit 2)) (s.flags i)

theorem exclusive_of_flagsExclusive (h : flagsExclusive s = true) : Exclusive s := by
  intro i hi size flags _ hflags ⟨hw, hx⟩
  have := List.all_eq_true.mp h i (mem_range.mpr hi)
  rw [hflags, okWith, hw, hx] at this
  cases this

/-- The other processors are started and then an image with an executable section is loaded. -/
theorem write_xor_execute_flaggedImage :
    ∃ st r, Reachable Permitted st ∧ st.kernel.memory.rights vmallocBase = some r ∧ r.noExecute = false ∧
      ¬ (r.write = true ∧ r.noExecute = false) := by
  have hst : Reachable Permitted startedState := (reachable_bootedState _).smpInit trivial
  have hok : Permitted startedState (.loadImage .idle (flaggedImage 6)) := by
    obtain ⟨s, loaded, m, hfound, hs⟩ := of_relocatedWith (fun s _ _ ↦ flagsExclusive s) (flaggedImage 6)
      startedState.kernel (by decide +kernel)
    intro s' loaded' m' hfound'
    cases hfound.symm.trans hfound'
    exact exclusive_of_flagsExclusive hs
  have hload : loadsWith ⟨false, false, false⟩ (flaggedImage 6) startedState.kernel = true := by decide +kernel
  obtain ⟨st', hstep, hr⟩ := step_of_loadsWith hload
  have hst' : Reachable Permitted st' := .step hst hok hstep
  exact ⟨st', _, hst', hr, rfl, reachable_write_xor_execute hst' hr⟩

/-- The flags of a section are taken as they are. -/
theorem flaggedImage_write_execute :
    ∃ st, Reachable (fun _ _ ↦ True) st ∧ st.kernel.memory.rights vmallocBase = some ⟨true, false, false⟩ := by
  have hst : Reachable (fun _ _ ↦ True) startedState := (reachable_bootedState _).smpInit trivial
  have hload : loadsWith ⟨true, false, false⟩ (flaggedImage 7) startedState.kernel = true := by decide +kernel
  obtain ⟨st', hstep, hr⟩ := step_of_loadsWith hload
  exact ⟨st', .step hst trivial hstep, hr⟩

end Runs

end Eris.Machine
