import Eris.Loader.Objects
import Eris.Mm.Rights

namespace Eris.Loader

open Library.Outcome Library.Words Mm Mm.Memory Modules List

variable {code : Code} {image : Image} {s : Sections} {loaded : LoadedImage} {k : Kernel} {m m' : Memory}

/-- The sections in their places and the memory with their relocations applied, for an image that
comes to its constructors. -/
def relocatedImage (image : Image) (k : Kernel) : Except Fault (Option (Sections × LoadedImage × Memory)) := do
  if image.length < headerSize then return none
  let header ← Image.header image
  if !headerLooksSane header image.length then return none
  if header.sectionHeaderCount > maxSections then return none
  let s : Sections := ⟨image, header⟩
  let total ← totalSize s
  if total = 0 then return none
  match allocateImage total k.memory with
  | (_, none) => return none
  | (m, some loaded) =>
    let (loaded, _, m) ← placeSections s loaded m
    match ← applyRelocations s loaded k.symbols m with
    | (_, some _) => return none
    | (m, none) => return some (s, loaded, m)

theorem relocatedImage_cases (h : relocatedImage image k = .ok (some (s, loaded, m))) :
    ∃ total loaded₀ m₀ m₁ cursor, allocateImage total k.memory = (m₀, some loaded₀) ∧
      placeSections s loaded₀ m₀ = .ok (loaded, cursor, m₁) ∧ applyRelocations s loaded k.symbols m₁ = .ok (m, none) ∧
      ∀ code, moduleLoadImage code image k = finishImage code s loaded { k with memory := m } := by
  unfold relocatedImage at h
  split at h
  · cases h
  · rename_i hlen
    obtain ⟨header, hheader, h⟩ := bind_eq_ok.mp h
    split at h
    · cases h
    · rename_i hsane
      split at h
      · cases h
      · rename_i hcount
        obtain ⟨total, htotal, h⟩ := bind_eq_ok.mp h
        split at h
        · cases h
        · rename_i h0
          split at h
          · cases h
          · rename_i m₀ loaded₀ halloc
            obtain ⟨⟨loaded₁, cursor, m₁⟩, hplace, h⟩ := bind_eq_ok.mp h
            obtain ⟨⟨m₂, refusal⟩, hreloc, h⟩ := bind_eq_ok.mp h
            cases refusal with
            | some e => cases h
            | none =>
              cases h
              refine ⟨total, loaded₀, m₀, m₁, cursor, halloc, hplace, hreloc, fun code ↦ ?_⟩
              unfold moduleLoadImage buildImage
              simp only [hlen, hheader, hsane, hcount, htotal, h0, halloc, hplace, hreloc, bind, Except.bind]
              rfl

theorem moduleLoadImage_stages {k' : Kernel} {r : Except Refusal Loaded}
    (h : moduleLoadImage code image k = .ok (k', r)) :
    k' = k ∨ (∃ total m, allocateImage total k.memory = (m, none) ∧ k' = { k with memory := m }) ∨
    (∃ total loaded₀ m₀ s loaded cursor m₁ m e, allocateImage total k.memory = (m₀, some loaded₀) ∧
      placeSections s loaded₀ m₀ = .ok (loaded, cursor, m₁) ∧ applyRelocations s loaded k.symbols m₁ = .ok (m, some e) ∧
      k' = { k with memory := releaseImage loaded.base loaded.pages m }) ∨
    ∃ s loaded m, relocatedImage image k = .ok (some (s, loaded, m)) ∧
      finishImage code s loaded { k with memory := m } = .ok (k', r) := by
  unfold moduleLoadImage at h
  unfold relocatedImage
  split at h
  · cases h
    exact .inl rfl
  · rename_i hlen
    obtain ⟨header, hheader, h⟩ := bind_eq_ok.mp h
    split at h
    · cases h
      exact .inl rfl
    · rename_i hsane
      split at h
      · cases h
        exact .inl rfl
      · rename_i hcount
        obtain ⟨total, htotal, h⟩ := bind_eq_ok.mp h
        split at h
        · cases h
          exact .inl rfl
        · rename_i h0
          split at h
          · rename_i m halloc
            cases h
            exact .inr (.inl ⟨total, m, halloc, rfl⟩)
          · rename_i m₀ loaded₀ halloc
            obtain ⟨⟨loaded, cursor, m₁⟩, hplace, h⟩ := bind_eq_ok.mp h
            obtain ⟨⟨m, refusal⟩, hreloc, h⟩ := bind_eq_ok.mp h
            cases refusal with
            | some e =>
              cases h
              exact .inr (.inr (.inl ⟨total, loaded₀, m₀, _, loaded, cursor, m₁, m, e, halloc, hplace, hreloc, rfl⟩))
            | none =>
              refine .inr (.inr (.inr ⟨_, loaded, m, ?_, h⟩))
              simp only [hlen, hheader, hsane, hcount, htotal, h0, halloc, hplace, hreloc, bind, Except.bind]
              rfl

def called (m : Memory) (pointer : ℕ) : List (Memory × ℕ) :=
  match m.readWord 8 pointer with
  | .error _ => []
  | .ok entry => if entry = 0 then [] else [(m, entry)]

/-- The calls of `callConstructors`. -/
def constructorCalls (code : Code) (loaded : LoadedImage) : ℕ → ℕ → Memory → List (Memory × ℕ)
  | 0, _, _ => []
  | left + 1, pointer, m =>
    called m pointer ++
      match callConstructor code loaded m pointer with
      | .error _ => []
      | .ok m => constructorCalls code loaded left (pointer + 8) m

def sectionCalls (code : Code) (s : Sections) (loaded : LoadedImage) (m : Memory) (i : ℕ) : List (Memory × ℕ) :=
  match s.hasConstructors i, s.size i with
  | .ok true, .ok size => constructorCalls code loaded (size / 8) (loaded.placement i).address m
  | _, _ => []

/-- The calls of `runConstructors`. -/
def runCalls (code : Code) (s : Sections) (loaded : LoadedImage) : List ℕ → Memory → List (Memory × ℕ)
  | [], _ => []
  | i :: is, m =>
    sectionCalls code s loaded m i ++
      match constructSection code s loaded m i with
      | .error _ => []
      | .ok m => runCalls code s loaded is m

/-- A call that is in order: the image has a descriptor with the version of the kernel, and the page
has the permissions of the executable section that the address lies in. -/
def Vetted (s : Sections) (loaded : LoadedImage) (call : Memory × ℕ) : Prop :=
  (∃ i < s.count, s.named i (cstring ".eris_modules") = .ok true ∧ ∃ size, s.size i = .ok size ∧
    ∃ j < size / moduleInfoSize,
      call.1.readWord 4 ((loaded.placement i).address + j * moduleInfoSize) = .ok moduleAbiVersion) ∧
  ∃ i < s.count, ∃ size, s.toPlace i = .ok (some size) ∧ (loaded.placement i).executable = true ∧
    (loaded.placement i).address ≤ call.2 ∧ call.2 < (loaded.placement i).address + size ∧
    call.1.rights call.2 = some ⟨(loaded.placement i).writable, false, false⟩

def TransfersVetted (code : Code) (image : Image) (k : Kernel) : Prop :=
  ∀ s loaded m, relocatedImage image k = .ok (some (s, loaded, m)) →
    ∀ call ∈ runCalls code s loaded (List.range s.count) m, Vetted s loaded call

/-- Words from an address on, up to the first that cannot be read, and whether there is none. -/
def pointersFrom (m : Memory) : ℕ → ℕ → List ℕ × Bool
  | 0, _ => ([], true)
  | left + 1, pointer =>
    match m.readWord 8 pointer with
    | .error _ => ([], false)
    | .ok word =>
      let rest := pointersFrom m left (pointer + 8)
      (word :: rest.1, rest.2)

def constructorPointers (s : Sections) (loaded : LoadedImage) (m : Memory) : List ℕ → List ℕ
  | [] => []
  | i :: is =>
    match s.hasConstructors i with
    | .error _ => []
    | .ok false => constructorPointers s loaded m is
    | .ok true =>
      match s.size i with
      | .error _ => []
      | .ok size =>
        let words := pointersFrom m (size / 8) (loaded.placement i).address
        words.1 ++ if words.2 then constructorPointers s loaded m is else []

theorem constructorCalls_eq_nil_iff {left pointer : ℕ} :
    constructorCalls code loaded left pointer m = [] ↔ ∀ w ∈ (pointersFrom m left pointer).1, w = 0 := by
  induction left generalizing pointer with
  | zero => exact iff_of_true rfl nofun
  | succ left ih =>
    rw [constructorCalls, pointersFrom, called, callConstructor]
    cases hword : m.readWord 8 pointer with
    | error e => simp [bind, Except.bind]
    | ok word =>
      by_cases h0 : word = 0
      · simpa [h0, bind, Except.bind, pure, Except.pure] using ih
      · simp [h0]

theorem callConstructors_of_null (code : Code) (loaded : LoadedImage) {left pointer : ℕ} (h : ∀ w ∈ (pointersFrom m left pointer).1, w = 0) :
    if (pointersFrom m left pointer).2 then callConstructors code loaded left pointer m = .ok m
    else ∃ e, callConstructors code loaded left pointer m = .error e := by
  induction left generalizing pointer with
  | zero => rfl
  | succ left ih =>
    rw [pointersFrom] at h ⊢
    rw [callConstructors, callConstructor]
    cases hword : m.readWord 8 pointer with
    | error e => exact ⟨e, rfl⟩
    | ok word =>
      rw [hword] at h
      obtain ⟨h0, hrest⟩ := forall_mem_cons.mp h
      simpa [h0, bind, Except.bind, pure, Except.pure] using ih hrest

theorem runCalls_eq_nil_iff (code : Code) (is : List ℕ) :
    runCalls code s loaded is m = [] ↔ ∀ w ∈ constructorPointers s loaded m is, w = 0 := by
  induction is with
  | nil => exact iff_of_true rfl nofun
  | cons i is ih =>
    rw [runCalls, constructorPointers, sectionCalls, constructSection]
    cases hhas : s.hasConstructors i with
    | error e => simp [bind, Except.bind]
    | ok has =>
      cases has with
      | false => simpa [bind, Except.bind, pure, Except.pure] using ih
      | true =>
        cases hsize : s.size i with
        | error e => simp [bind, Except.bind]
        | ok size =>
          simp only [bind, Except.bind, if_true, append_eq_nil_iff, constructorCalls_eq_nil_iff, forall_mem_append]
          refine and_congr_right fun hnull ↦ ?_
          have hrun := callConstructors_of_null code loaded hnull
          split at hrun
          · rename_i hread
            rw [hrun, if_pos hread]
            exact ih
          · rename_i hread
            obtain ⟨e, he⟩ := hrun
            rw [he, if_neg hread]
            exact iff_of_true rfl nofun

theorem constructorCalls_rewrites {left pointer : ℕ} {call : Memory × ℕ}
    (h : call ∈ constructorCalls code loaded left pointer m) : loaded.Rewrites m call.1 := by
  induction left generalizing pointer m with
  | zero => cases h
  | succ left ih =>
    rcases mem_append.mp h with h | h
    · rw [called] at h
      split at h
      · cases h
      · split at h
        · cases h
        · rw [mem_singleton.mp h]
          exact .refl loaded m
    · split at h
      · cases h
      · rename_i m₁ hcall
        exact (callConstructor_rewrites hcall).trans (ih h)

theorem runCalls_rewrites {is : List ℕ} {call : Memory × ℕ} (h : call ∈ runCalls code s loaded is m) :
    loaded.Rewrites m call.1 := by
  induction is generalizing m with
  | nil => cases h
  | cons i is ih =>
    rcases mem_append.mp h with h | h
    · rw [sectionCalls] at h
      split at h
      · exact constructorCalls_rewrites h
      · cases h
    · split at h
      · cases h
      · rename_i m₁ hstep
        refine LoadedImage.Rewrites.trans ?_ (ih h)
        obtain ⟨has, -, hstep⟩ := bind_eq_ok.mp hstep
        split at hstep
        · obtain ⟨size, -, hstep⟩ := bind_eq_ok.mp hstep
          exact callConstructors_rewrites hstep
        · cases hstep
          exact .refl loaded _

theorem allocateImage_noExecute (hm : m.Orderly) {bytes : ℕ} (h : allocateImage bytes m = (m', some loaded)) {b : ℕ}
    (hb : loaded.Holds b) : (m'.leaf b).noExecute = true := by
  obtain ⟨⟨v, gs, hh⟩, -⟩ := allocateImage_some hm h
  have haligned := hh.occupied.aligned
  obtain ⟨hlo, hhi⟩ := hb
  obtain ⟨j, hj, hpage⟩ : ∃ j < loaded.pages, pageOf b = pageOf (loaded.base + j * pageSize) := by
    refine ⟨(b - loaded.base) / pageSize, ?_, ?_⟩
    · rw [Nat.div_lt_iff_lt_mul (by decide)]
      omega
    · unfold pageOf pageSize at *
      omega
  unfold allocateImage at h
  simp only at h
  split at h
  · cases h
  · split at h
    · cases h
    · rename_i m₁ hmap
      cases h
      have hm₀ : ({ m with vmalloc := (m.vmalloc.reserve (roundUpPages bytes * pageSize)).1 } : Memory).Wf :=
        ⟨hm.wf.separated, hm.wf.taken, hm.wf.low, hm.wf.flat⟩
      obtain ⟨gs', hlen, hmapped⟩ := mapImage_mapped hm₀ hmap
      have hcount : gs'.length = gs.length := hlen.trans hh.count
      have hleaf := (hmapped.leaf (hcount ▸ hh.occupied.room) j _ (List.getElem?_eq_getElem (hlen ▸ hj))).2
      rw [leaf_congr hpage, hleaf]
      rfl

theorem not_vetted (hm : k.memory.Orderly) (h : relocatedImage image k = .ok (some (s, loaded, m)))
    {call : Memory × ℕ} (hcall : call ∈ runCalls code s loaded (List.range s.count) m) : ¬ Vetted s loaded call := by
  obtain ⟨total, loaded₀, m₀, m₁, cursor, halloc, hplace, hreloc, -⟩ := relocatedImage_cases h
  obtain ⟨hplaced, hw₁⟩ := placeSections_spec hplace
  obtain ⟨hw₂, -⟩ := applySections_rewrites hreloc
  have hsame := fun {m m' : Memory} (h : loaded.Rewrites m m') ↦ h.congr hplaced.base.symm hplaced.pages.symm
  have hw := (hw₁.trans (hsame hw₂)).trans (hsame (runCalls_rewrites hcall))
  obtain ⟨⟨v, gs, hh⟩, -⟩ := allocateImage_some hm halloc
  rintro ⟨-, i, hi, size, hsize, -, hlo, hhi, hrights⟩
  obtain ⟨hbase, hend⟩ := hplaced.inside i (mem_range.mpr hi) size hsize
  have hnx := allocateImage_noExecute hm halloc (b := call.2) ⟨by omega, by omega⟩
  have hwf := (hh.rewrites hw).occupied.holding.wf
  obtain ⟨-, y, hy⟩ := rights_through hwf hrights
  have hleaf : call.1.leaf call.2 = m₀.leaf call.2 := by
    rw [hw.1]
    rfl
  have := congrArg Rights.noExecute hy
  rw [Rights.through, hleaf, hnx, Bool.or_true] at this
  cases this

/-- Control goes into an image in order exactly when it has no constructor to call. -/
theorem transfersVetted_iff (hm : k.memory.Orderly) (code : Code) (image : Image) :
    TransfersVetted code image k ↔ ∀ s loaded m, relocatedImage image k = .ok (some (s, loaded, m)) →
      ∀ w ∈ constructorPointers s loaded m (List.range s.count), w = 0 := by
  have hnil : ∀ s loaded m, relocatedImage image k = .ok (some (s, loaded, m)) →
      ((∀ call ∈ runCalls code s loaded (List.range s.count) m, Vetted s loaded call) ↔
        ∀ w ∈ constructorPointers s loaded m (List.range s.count), w = 0) := by
    intro s loaded m h
    rw [← runCalls_eq_nil_iff code, eq_nil_iff_forall_not_mem]
    exact forall_congr' fun call ↦ imp_congr_right fun hcall ↦ iff_false_intro (not_vetted hm h hcall)
  exact ⟨fun hv s loaded m h ↦ (hnil s loaded m h).mp (hv s loaded m h),
    fun hv s loaded m h ↦ (hnil s loaded m h).mpr (hv s loaded m h)⟩

def relocatedWith (t : Sections → LoadedImage → Memory → Bool) (image : Image) (k : Kernel) : Bool :=
  okWith (fun found ↦ found.any fun x ↦ t x.1 x.2.1 x.2.2) (relocatedImage image k)

theorem of_relocatedWith (t : Sections → LoadedImage → Memory → Bool) (image : Image) (k : Kernel)
    (h : relocatedWith t image k = true) :
    ∃ s loaded m, relocatedImage image k = .ok (some (s, loaded, m)) ∧ t s loaded m = true := by
  obtain ⟨found, hfound, h⟩ := of_okWith h
  obtain ⟨⟨s, loaded, m⟩, rfl, ht⟩ := (Option.any_eq_true _ _).mp h
  exact ⟨s, loaded, m, hfound, ht⟩

theorem transfersVetted_plainImage : TransfersVetted .idle plainImage (blankKernel (· < 2) []) := by
  obtain ⟨s, loaded, m, hfound, hnull⟩ :=
    of_relocatedWith (fun s loaded m ↦ (constructorPointers s loaded m (List.range s.count)).all (· = 0))
      plainImage (blankKernel (· < 2) []) (by decide +kernel)
  refine (transfersVetted_iff (blank_orderly rfl rfl) .idle plainImage).mpr fun s' loaded' m' h' w hw ↦ ?_
  cases hfound.symm.trans h'
  simpa using all_eq_true.mp hnull w hw

/-- An image with a constructor in the page that the first image gets, and with no descriptor. -/
def constructorImage : Image :=
  object [{}, { name := cstring ".text", flags := 6, data := [0xc3] },
    { name := cstring ".init_array", flags := 3, data := toBytes 8 vmallocBase }]

def callsText (s : Sections) (loaded : LoadedImage) (m : Memory) : Bool :=
  (runCalls .idle s loaded (List.range s.count) m).any fun call ↦
    call.2 = (loaded.placement 1).address && !call.1.executable call.2

/-- The constructor is called while its page cannot be executed. -/
theorem constructorImage_not_vetted :
    (∃ s loaded m, relocatedImage constructorImage (blankKernel (· < 2) []) = .ok (some (s, loaded, m)) ∧
      callsText s loaded m = true) ∧ ¬ TransfersVetted .idle constructorImage (blankKernel (· < 2) []) := by
  have h : relocatedWith callsText constructorImage (blankKernel (· < 2) []) = true := by decide +kernel
  obtain ⟨s, loaded, m, hfound, hcall⟩ := of_relocatedWith _ _ _ h
  refine ⟨⟨s, loaded, m, hfound, hcall⟩, fun hv ↦ ?_⟩
  obtain ⟨call, hmem, -⟩ := any_eq_true.mp hcall
  have hm : (blankKernel (· < 2) []).memory.Orderly := blank_orderly rfl rfl
  exact not_vetted hm hfound hmem (hv s loaded m hfound call hmem)

end Eris.Loader
