import Eris.Mm.PageAllocRuns

namespace Eris.Mm

open Library.Bitmap List

def Touches (start stop page : ℕ) : Prop := ∃ a, start ≤ a ∧ a < stop ∧ a / pageSize = page

def Within (start stop page : ℕ) : Prop := start ≤ page * pageSize ∧ (page + 1) * pageSize ≤ stop

theorem touches_iff {start stop page : ℕ} (h : start < stop) :
    Touches start stop page ↔ start / pageSize ≤ page ∧ page < (stop + pageSize - 1) / pageSize := by
  constructor
  · rintro ⟨a, hlo, hhi, rfl⟩
    unfold pageSize
    omega
  · rintro ⟨hlo, hhi⟩
    refine ⟨max start (page * pageSize), ?_⟩
    unfold pageSize at *
    omega

namespace BootData

variable {b : BootData} {a i n room stop cursor address infoAddress page : ℕ}

section Texts

/-- A text of a given length and the zero after it. -/
structure IsText (b : BootData) (address length : ℕ) : Prop where
  nonzero : ∀ i < length, b.bytes (address + i) ≠ 0
  ends : b.bytes (address + length) = 0

theorem strlen_of_isText (h : b.IsText address n) (hroom : n < room) : b.strlen room address = some n := by
  induction n generalizing address room with
  | zero =>
    cases room with
    | zero => omega
    | succ room =>
      have hend : b.bytes address = 0 := h.ends
      rw [strlen, if_pos hend]
  | succ n ih =>
    cases room with
    | zero => omega
    | succ room =>
      have hrest : b.IsText (address + 1) n := by
        refine ⟨fun i hi ↦ ?_, ?_⟩
        · have hne := h.nonzero (i + 1) (by omega)
          rwa [← Nat.add_assoc, Nat.add_right_comm] at hne
        · have hend := h.ends
          rwa [← Nat.add_assoc, Nat.add_right_comm] at hend
      have hne : b.bytes address ≠ 0 := h.nonzero 0 (Nat.succ_pos n)
      rw [strlen, if_neg hne, ih hrest (by omega)]
      rfl

theorem isText_unique {l n : ℕ} (h : b.IsText address l) (h' : b.IsText address n) : l = n := by
  rcases Nat.lt_trichotomy l n with hlt | heq | hgt
  · exact absurd h.ends (h'.nonzero l hlt)
  · exact heq
  · exact absurd h'.ends (h.nonzero n hgt)

end Texts

theorem word_lt (b : BootData) (address : ℕ) : b.word 4 address < 2 ^ 32 := by
  have hlt := Library.Words.fromBytes_lt ((List.range 4).map fun i ↦ b.bytes (address + i))
  rwa [length_map, length_range] at hlt

/-- The entries of the memory map that a walk comes by from a cursor on. -/
inductive IsEntry (b : BootData) (stop : ℕ) : ℕ → ℕ → Prop
  | here {cursor : ℕ} : cursor < stop → IsEntry b stop cursor cursor
  | next {cursor entry : ℕ} : cursor < stop → IsEntry b stop (cursor + b.word 4 cursor + 4) entry →
      IsEntry b stop cursor entry

def entryStart (b : BootData) (entry : ℕ) : ℕ := b.word 8 (entry + 4)

def entryLength (b : BootData) (entry : ℕ) : ℕ := b.word 8 (entry + 12)

def Available (b : BootData) (entry : ℕ) : Prop := b.word 4 (entry + 20) = multibootMmapTypeAvailable

def modStart (b : BootData) (info : MultibootInfo) (i : ℕ) : ℕ := b.word 4 (info.modsAddr + i * multibootModuleSize)

def modEnd (b : BootData) (info : MultibootInfo) (i : ℕ) : ℕ := b.word 4 (info.modsAddr + i * multibootModuleSize + 4)

def modString (b : BootData) (info : MultibootInfo) (i : ℕ) : ℕ := b.word 4 (info.modsAddr + i * multibootModuleSize + 8)

def TextTouches (b : BootData) (address page : ℕ) : Prop :=
  ∃ length, b.IsText address length ∧ Touches address (address + length + 1) page

def ModuleTouches (b : BootData) (info : MultibootInfo) (page i : ℕ) : Prop :=
  Touches (b.modStart info i) (b.modEnd info i) page ∨ b.modString info i ≠ 0 ∧ b.TextTouches (b.modString info i) page

def HandedOver (b : BootData) (infoAddress page : ℕ) : Prop :=
  let info := b.info infoAddress
  Touches infoAddress (infoAddress + multibootInfoSize) page ∨
    Touches info.mmapAddr (info.mmapAddr + info.mmapLength) page ∨
    info.flags.testBit 2 = true ∧ b.TextTouches info.cmdline page ∨ info.flags.testBit 3 = true ∧
      (Touches info.modsAddr (info.modsAddr + info.modsCount * multibootModuleSize) page ∨
        ∃ i < info.modsCount, b.ModuleTouches info page i)

def Needed (b : BootData) (infoAddress page : ℕ) : Prop :=
  Touches 0 (2 ^ 20) page ∨ Touches (2 ^ 20) b.kernelEnd page ∨ b.HandedOver infoAddress page

def Offered (b : BootData) (infoAddress page : ℕ) : Prop :=
  let info := b.info infoAddress
  ∃ entry, b.IsEntry (info.mmapAddr + info.mmapLength) info.mmapAddr entry ∧ b.Available entry ∧
    Within (b.entryStart entry) (b.entryStart entry + b.entryLength entry) page

def Ends (b : BootData) (address : ℕ) : Prop := ∃ length, b.IsText address length ∧ address + length + pageSize < 2 ^ 64

/-- Boot data with ranges that are not empty and do not wrap. -/
structure Proper (b : BootData) (infoAddress : ℕ) : Prop where
  kernel : 2 ^ 20 < b.kernelEnd ∧ b.kernelEnd + pageSize ≤ 2 ^ 64
  map : 0 < (b.info infoAddress).mmapLength
  entries : ∀ entry,
    b.IsEntry ((b.info infoAddress).mmapAddr + (b.info infoAddress).mmapLength) (b.info infoAddress).mmapAddr entry →
      b.Available entry → b.entryStart entry + b.entryLength entry < 2 ^ 64
  cmdline : (b.info infoAddress).flags.testBit 2 = true → b.Ends (b.info infoAddress).cmdline
  modules : (b.info infoAddress).flags.testBit 3 = true → 0 < (b.info infoAddress).modsCount ∧
    ∀ i < (b.info infoAddress).modsCount, b.modStart (b.info infoAddress) i < b.modEnd (b.info infoAddress) i ∧
      (b.modString (b.info infoAddress) i ≠ 0 → b.Ends (b.modString (b.info infoAddress) i))

end BootData

namespace PageAlloc

variable {p p' p'' : PageAlloc} {b : BootData} {S T : ℕ → Prop} {i count first start stop address infoAddress : ℕ}

section Ranges

def Takes (p p' : PageAlloc) (T : ℕ → Prop) : Prop :=
  ∀ i < managedPages, p'.bitmap.test i = true ↔ p.bitmap.test i = true ∨ T i

theorem Takes.trans (h : Takes p p' S) (h' : Takes p' p'' T) : Takes p p'' fun i ↦ S i ∨ T i := by
  intro i hi
  rw [h' i hi, h i hi, or_assoc]

theorem Takes.congr (h : Takes p p' S) (hT : ∀ i < managedPages, S i ↔ T i) : Takes p p' T := by
  intro i hi
  rw [h i hi, hT i hi]

theorem takes_markAll (p : PageAlloc) (count first : ℕ) :
    Takes p (p.markAll count first) fun i ↦ first ≤ i ∧ i < first + count := by
  induction count generalizing p first with
  | zero =>
    intro i hi
    rw [markAll]
    simp
  | succ count ih =>
    intro i hi
    have hone : (p.markUsed first).bitmap.test i = true ↔ p.bitmap.test i = true ∨ i = first := by
      unfold markUsed
      split
      · rw [Packed.test_set, Function.update_apply]
        split
        · simp_all
        · simp_all
      · rename_i hmark
        refine ⟨.inl, fun hor ↦ hor.elim id fun heq ↦ ?_⟩
        subst heq
        simpa [hi] using hmark
    have hrange : (first + 1 ≤ i ∧ i < first + 1 + count) ∨ i = first ↔ first ≤ i ∧ i < first + (count + 1) := by omega
    rw [markAll, ih _ _ i hi, hone, or_assoc, or_comm (a := i = first), hrange]

theorem takes_markRangeUsed (p : PageAlloc) (hne : start < stop) (hfit : stop + pageSize ≤ 2 ^ 64 ∨ managedLimit ≤ start) :
    Takes p (p.markRangeUsed start stop) (Touches start stop) := by
  refine (takes_markAll p _ _).congr fun i hi ↦ ?_
  rw [touches_iff hne]
  unfold managedPages managedLimit pageSize at *
  omega

def Frees (p p' : PageAlloc) (S : ℕ → Prop) : Prop :=
  ∀ i < managedPages, p'.bitmap.test i = false ↔ p.bitmap.test i = false ∨ S i

theorem Frees.trans (h : Frees p p' S) (h' : Frees p' p'' T) : Frees p p'' fun i ↦ S i ∨ T i := by
  intro i hi
  rw [h' i hi, h i hi, or_assoc]

theorem frees_markRangeFree (p : PageAlloc) (hstart : start < managedLimit) :
    Frees p (p.markRangeFree start (min stop managedLimit)) (Within start stop) := by
  intro i hi
  have hfits : (start + pageSize - 1) / pageSize +
      (min (min stop managedLimit / pageSize) managedPages - (start + pageSize - 1) / pageSize) ≤ managedPages := by
    unfold managedPages managedLimit pageSize at *
    omega
  have hrange : ((start + pageSize - 1) / pageSize ≤ i ∧ i < (start + pageSize - 1) / pageSize +
      (min (min stop managedLimit / pageSize) managedPages - (start + pageSize - 1) / pageSize)) ↔ Within start stop i := by
    unfold Within managedPages managedLimit pageSize at *
    omega
  rw [markRangeFree, test_clearAll_eq p hfits, Bool.and_eq_false_iff, Bool.not_eq_false', decide_eq_true_iff, hrange]

end Ranges

section Entries

theorem frees_freeEntry (p : PageAlloc) {cursor : ℕ}
    (h : b.Available cursor → b.entryStart cursor + b.entryLength cursor < 2 ^ 64) :
    Frees p (p.freeEntry b cursor) fun i ↦ b.Available cursor ∧
      Within (b.entryStart cursor) (b.entryStart cursor + b.entryLength cursor) i := by
  intro i hi
  unfold freeEntry
  simp only
  split
  · rename_i hentry
    have hwrap : (b.word 8 (cursor + 4) + b.word 8 (cursor + 12)) % 2 ^ 64 = b.entryStart cursor + b.entryLength cursor :=
      Nat.mod_eq_of_lt (h hentry.1)
    rw [hwrap, frees_markRangeFree p hentry.2 i hi]
    exact or_congr_right (and_iff_right hentry.1).symm
  · rename_i hentry
    refine ⟨.inl, fun hor ↦ hor.elim id fun hin ↦ absurd ⟨hin.1, ?_⟩ hentry⟩
    have hlo := hin.2.1
    unfold BootData.entryStart at hlo
    unfold managedPages managedLimit pageSize at *
    omega

theorem frees_freeEntries (p : PageAlloc) {left cursor : ℕ} (hrounds : stop ≤ cursor + left)
    (h : ∀ entry, b.IsEntry stop cursor entry → b.Available entry → b.entryStart entry + b.entryLength entry < 2 ^ 64) :
    Frees p (p.freeEntries b stop left cursor) fun i ↦ ∃ entry, b.IsEntry stop cursor entry ∧ b.Available entry ∧
      Within (b.entryStart entry) (b.entryStart entry + b.entryLength entry) i := by
  have hdone : stop ≤ cursor → ∀ entry, ¬ b.IsEntry stop cursor entry := by
    rintro hle entry (hlt | ⟨hlt, -⟩)
    · omega
    · omega
  induction left generalizing cursor p with
  | zero =>
    intro i hi
    simp [freeEntries, hdone hrounds]
  | succ left ih =>
    unfold freeEntries
    split
    · rename_i hlt
      have hfirst := frees_freeEntry p (h cursor (.here hlt))
      have hrest := ih (p.freeEntry b cursor) (by omega) (fun entry he ↦ h entry (.next hlt he)) ?_
      · intro i hi
        rw [hfirst.trans hrest i hi]
        apply or_congr_right
        constructor
        · rintro (hhere | ⟨entry, he, hin⟩)
          · exact ⟨cursor, .here hlt, hhere⟩
          · exact ⟨entry, .next hlt he, hin⟩
        · rintro ⟨entry, he, hin⟩
          cases he with
          | here _ => exact .inl hin
          | next _ he => exact .inr ⟨entry, he, hin⟩
      · rintro hle entry (hlt | ⟨hlt, -⟩)
        · omega
        · omega
    · rename_i hge
      intro i hi
      simp [hdone (Nat.not_lt.mp hge)]

end Entries

section Reservations

theorem takes_reserveString (p : PageAlloc) (h : b.Ends address) :
    ∃ p', p.reserveString b address = some p' ∧ Takes p p' (b.TextTouches address) := by
  obtain ⟨length, htext, hfit⟩ := h
  have hlength : b.strlen (2 ^ 64) address = some length := b.strlen_of_isText htext (by omega)
  refine ⟨_, by rw [reserveString, hlength]; rfl, ?_⟩
  refine (takes_markRangeUsed p (by omega) (.inl (by omega))).congr fun i _ ↦ ?_
  constructor
  · intro ht
    exact ⟨length, htext, ht⟩
  · rintro ⟨l, hl, ht⟩
    rwa [BootData.isText_unique htext hl]

theorem takes_reserveModule (p : PageAlloc) {info : MultibootInfo} (hne : b.modStart info i < b.modEnd info i)
    (hstring : b.modString info i ≠ 0 → b.Ends (b.modString info i)) :
    ∃ p', p.reserveModule b info.modsAddr i = some p' ∧ Takes p p' fun page ↦ b.ModuleTouches info page i := by
  have hend : b.modEnd info i < 2 ^ 32 := b.word_lt _
  have hrange := takes_markRangeUsed p hne (.inl (by unfold pageSize; omega))
  by_cases hs : b.modString info i = 0
  · refine ⟨_, if_neg (not_not_intro hs), hrange.congr fun page _ ↦ ?_⟩
    rw [BootData.ModuleTouches, or_iff_left fun h ↦ h.1 hs]
  · obtain ⟨p', hp', htext⟩ := takes_reserveString (p.markRangeUsed (b.modStart info i) (b.modEnd info i)) (hstring hs)
    refine ⟨p', (if_pos hs).trans hp', (hrange.trans htext).congr fun page _ ↦ ?_⟩
    exact or_congr_right (and_iff_right hs).symm

theorem takes_foldlM {info : MultibootInfo} (l : List ℕ) (p : PageAlloc)
    (h : ∀ i ∈ l, b.modStart info i < b.modEnd info i ∧ (b.modString info i ≠ 0 → b.Ends (b.modString info i))) :
    ∃ p', l.foldlM (reserveModule b info.modsAddr) p = some p' ∧
      Takes p p' fun page ↦ ∃ i ∈ l, b.ModuleTouches info page i := by
  induction l generalizing p with
  | nil => exact ⟨p, rfl, fun page _ ↦ by simp⟩
  | cons i l ih =>
    obtain ⟨hi, hl⟩ := forall_mem_cons.mp h
    obtain ⟨p₁, hp₁, htakes₁⟩ := takes_reserveModule p hi.1 hi.2
    obtain ⟨p₂, hp₂, htakes₂⟩ := ih p₁ hl
    refine ⟨p₂, ?_, (htakes₁.trans htakes₂).congr fun page _ ↦ ?_⟩
    · rw [foldlM_cons, hp₁]
      exact hp₂
    · rw [exists_mem_cons_iff]

theorem takes_reserveCmdline (p : PageAlloc) {info : MultibootInfo} (h : info.flags.testBit 2 = true → b.Ends info.cmdline) :
    ∃ p', p.reserveCmdline b info = some p' ∧
      Takes p p' fun page ↦ info.flags.testBit 2 = true ∧ b.TextTouches info.cmdline page := by
  unfold reserveCmdline
  split
  · rename_i hflag
    obtain ⟨p', hp', htakes⟩ := takes_reserveString p (h hflag)
    exact ⟨p', hp', htakes.congr fun page _ ↦ (and_iff_right hflag).symm⟩
  · rename_i hflag
    exact ⟨p, rfl, fun page _ ↦ by simp [hflag]⟩

theorem takes_reserveModules (p : PageAlloc) (h : b.Proper infoAddress) :
    ∃ p', p.reserveModules b (b.info infoAddress) = some p' ∧
      Takes p p' fun page ↦ (b.info infoAddress).flags.testBit 3 = true ∧ (Touches (b.info infoAddress).modsAddr
            ((b.info infoAddress).modsAddr + (b.info infoAddress).modsCount * multibootModuleSize) page ∨
          ∃ i < (b.info infoAddress).modsCount, b.ModuleTouches (b.info infoAddress) page i) := by
  have hmodules := h.modules
  have haddr : (b.info infoAddress).modsAddr < 2 ^ 32 := b.word_lt _
  have hcount : (b.info infoAddress).modsCount < 2 ^ 32 := b.word_lt _
  generalize b.info infoAddress = info at hmodules haddr hcount ⊢
  unfold reserveModules
  split
  · rename_i hflag
    obtain ⟨hpos, hall⟩ := hmodules hflag
    have harray : Takes p (p.markRangeUsed info.modsAddr (info.modsAddr + info.modsCount * multibootModuleSize)) _ :=
      takes_markRangeUsed p (by unfold multibootModuleSize; omega)
        (.inl (by unfold multibootModuleSize pageSize; omega))
    obtain ⟨p', hp', htakes⟩ := takes_foldlM (List.range info.modsCount)
      (p.markRangeUsed info.modsAddr (info.modsAddr + info.modsCount * multibootModuleSize))
      fun i hi ↦ hall i (mem_range.mp hi)
    refine ⟨p', hp', (harray.trans htakes).congr fun page _ ↦ ?_⟩
    simp only [hflag, true_and, mem_range]
  · rename_i hflag
    exact ⟨p, rfl, fun page _ ↦ by simp [hflag]⟩

theorem takes_reserveBootData (p : PageAlloc) (h : b.Proper infoAddress) :
    ∃ p', p.reserveBootData b infoAddress (b.info infoAddress) = some p' ∧ Takes p p' (b.HandedOver infoAddress) := by
  have haddr : (b.info infoAddress).mmapAddr < 2 ^ 32 := b.word_lt _
  have hlength : (b.info infoAddress).mmapLength < 2 ^ 32 := b.word_lt _
  have hmap := h.map
  have hinfo : Takes p (p.markRangeUsed infoAddress (infoAddress + multibootInfoSize)) _ :=
    takes_markRangeUsed p (by unfold multibootInfoSize; omega)
      (by unfold multibootInfoSize pageSize managedLimit; omega)
  have hmmap : Takes (p.markRangeUsed infoAddress (infoAddress + multibootInfoSize)) (PageAlloc.markRangeUsed
      (b.info infoAddress).mmapAddr ((b.info infoAddress).mmapAddr + (b.info infoAddress).mmapLength) _) _ :=
    takes_markRangeUsed _ (by omega) (.inl (by unfold pageSize; omega))
  obtain ⟨p₁, hp₁, hcmdline⟩ := takes_reserveCmdline (PageAlloc.markRangeUsed (b.info infoAddress).mmapAddr
    ((b.info infoAddress).mmapAddr + (b.info infoAddress).mmapLength)
    (p.markRangeUsed infoAddress (infoAddress + multibootInfoSize))) h.cmdline
  obtain ⟨p₂, hp₂, hmods⟩ := takes_reserveModules p₁ h
  refine ⟨p₂, ?_, (((hinfo.trans hmmap).trans hcmdline).trans hmods).congr fun page _ ↦ ?_⟩
  · unfold reserveBootData
    simp only [hp₁]
    exact hp₂
  · simp only [BootData.HandedOver, or_assoc]

end Reservations

/-- A page is free after `page_alloc_init` if it lies in an available entry of the memory map and nothing that is
needed touches it, and the counter is the number of the other pages. -/
theorem pageAllocInit_free_iff (h : b.Proper infoAddress) (hflag : (b.info infoAddress).flags.testBit 6 = true) :
    ∃ p, pageAllocInit multibootBootloaderMagic infoAddress b = some p ∧ (∀ page < managedPages,
        p.bitmap.test page = false ↔ b.Offered infoAddress page ∧ ¬ b.Needed infoAddress page) ∧
      p.usedPages = population p.bitmap.test managedPages := by
  obtain ⟨p₀, hp₀⟩ : ∃ p₀ : PageAlloc, p₀ = ⟨fun _ ↦ 0xFF#8, managedPages⟩ := ⟨_, rfl⟩
  have hfull : ∀ i, p₀.bitmap.test i = true := by
    have hbits : ∀ k < 8, (0xFF#8).getLsbD k = true := by decide
    intro i
    rw [hp₀, Packed.test_eq_getLsbD]
    exact hbits (i % 8) (Nat.mod_lt i (by decide))
  obtain ⟨p₁, hp₁⟩ : ∃ p₁, p₁ = p₀.freeEntries b ((b.info infoAddress).mmapAddr + (b.info infoAddress).mmapLength)
    (b.info infoAddress).mmapLength (b.info infoAddress).mmapAddr := ⟨_, rfl⟩
  have hentries := frees_freeEntries p₀ (Nat.le_refl _) h.entries
  rw [← hp₁] at hentries
  have hlow : Takes p₁ (p₁.markRangeUsed 0 (2 ^ 20)) _ := takes_markRangeUsed p₁ (by decide) (.inl (by decide))
  have hkernel := takes_markRangeUsed (p₁.markRangeUsed 0 (2 ^ 20)) h.kernel.1 (.inl h.kernel.2)
  obtain ⟨p, hp, hboot⟩ := takes_reserveBootData ((p₁.markRangeUsed 0 (2 ^ 20)).markRangeUsed (2 ^ 20) b.kernelEnd) h
  have hinit : pageAllocInit multibootBootloaderMagic infoAddress b = some p := by
    unfold pageAllocInit
    simp only [hflag, ne_eq, not_true_eq_false, if_false, Bool.true_eq_false]
    rw [← hp₀, ← hp₁]
    exact hp
  refine ⟨p, hinit, fun page hpage ↦ ?_, (reserved_pageAllocInit hinit).exact⟩
  have hfree : p₁.bitmap.test page = false ↔ b.Offered infoAddress page := by
    rw [hentries page hpage, hfull page]
    simp [BootData.Offered]
  have hused : Takes p₁ p (b.Needed infoAddress) := hlow.trans (hkernel.trans hboot)
  rw [← hfree, ← Bool.not_eq_true, hused page hpage, not_or, Bool.not_eq_true]

def loaderImage : List UInt8 :=
  [76, 0, 0, 0] ++ List.replicate 12 0 ++ [0x5C, 0x90, 0, 0] ++ [1, 0, 0, 0] ++ [0x4C, 0x90, 0, 0] ++
    List.replicate 16 0 ++ [24, 0, 0, 0] ++ [0x34, 0x90, 0, 0] ++
    [20, 0, 0, 0] ++ List.replicate 8 0 ++ [0, 0, 0, 0x10, 0, 0, 0, 0] ++ [1, 0, 0, 0] ++
    [0, 0, 0x30, 0] ++ [0x23, 1, 0x30, 0] ++ [0x5C, 0x90, 0, 0] ++ [0, 0, 0, 0] ++ [0x61, 0]

def loaderData : BootData where
  bytes a := if 0x9000 ≤ a then (loaderImage[a - 0x9000]?).getD 0 else 0
  kernelEnd := 0x200000

theorem loaderData_ends : loaderData.Ends 0x905C := by
  refine ⟨1, ⟨fun i hi ↦ ?_, by decide⟩, by decide⟩
  obtain rfl : i = 0 := by omega
  decide

theorem loaderData_proper : loaderData.Proper 0x9000 where
  kernel := by decide
  map := by decide
  entries := by
    have hstop : (loaderData.info 0x9000).mmapAddr + (loaderData.info 0x9000).mmapLength = 0x904C := by decide
    have hstart : (loaderData.info 0x9000).mmapAddr = 0x9034 := by decide
    rw [hstop, hstart]
    intro entry hentry
    cases hentry with
    | here _ =>
      intro _
      decide
    | next _ hnext =>
      rcases hnext with hlt | ⟨hlt, -⟩
      · exact absurd hlt (by decide)
      · exact absurd hlt (by decide)
  cmdline _ := loaderData_ends
  modules _ := by
    have hcount : (loaderData.info 0x9000).modsCount = 1 := by decide
    rw [hcount]
    refine ⟨by decide, fun i hi ↦ ?_⟩
    obtain rfl : i = 0 := by omega
    exact ⟨by decide, fun _ ↦ loaderData_ends⟩

/-- The bitmap for what that loader leaves. -/
theorem pageAllocInit_loaderData :
    ∃ p, pageAllocInit multibootBootloaderMagic 0x9000 loaderData = some p ∧ (∀ page < managedPages,
        p.bitmap.test page = false ↔ loaderData.Offered 0x9000 page ∧ ¬ loaderData.Needed 0x9000 page) ∧
      p.usedPages = population p.bitmap.test managedPages :=
  pageAllocInit_free_iff loaderData_proper (by decide)

end PageAlloc

end Eris.Mm
