import Eris.Loader.Rollback

namespace Eris.Loader

open Library.Outcome Library.Words Mm Mm.Memory Modules

def Fault.elsewhere : Fault → Bool
  | .page _ | .execute _ => true
  | .imageRead _ _ | .write _ _ | .placement _ => false

/-- All reads of the file are inside it, and all writes inside the pages of the image. -/
def Inside {α : Type} (x : Except Fault α) : Prop := Stops (fun e ↦ e.elsewhere = true) x

namespace Sections

variable (s : Sections)

def extent (i : ℕ) : ℕ :=
  match s.toPlace i with
  | .ok (some size) => (size + (pageSize - 1)) / pageSize * pageSize
  | _ => 0

def start : ℕ → ℕ
  | 0 => 0
  | i + 1 => start i + s.extent i

def SymbolBounded (symbols strings index : ℕ) : Prop :=
  ∃ table size, s.offset symbols = .ok table ∧ s.size symbols = .ok size ∧ (index < size / symbolSize →
    ∃ place, s.image.word 2 (table + index * symbolSize + 6) = .ok place ∧
      (place = sectionUndefined → ∃ names name text, s.offset strings = .ok names ∧
        s.image.word 4 (table + index * symbolSize) = .ok name ∧ s.image.string (names + name) = .ok text) ∧
      (place ≠ sectionUndefined → place < maxSections →
        ∃ value, s.image.word 8 (table + index * symbolSize + 8) = .ok value))

/-- A relocation that can be read, whose symbol can be read, and that leads into the pages of the image. -/
def EntryBounded (target symbols strings entry : ℕ) : Prop :=
  ∃ info offset addend, s.image.word 8 (entry + 8) = .ok info ∧ s.image.word 8 entry = .ok offset ∧
    s.image.word 8 (entry + 16) = .ok addend ∧ s.SymbolBounded symbols strings (relaSymbol info) ∧
    target < maxSections ∧ ∀ type, RelocationType.ofCode (relaType info) = some type →
      target < s.count ∧ 0 < s.extent target ∧ (s.start target + offset) % 2 ^ 64 + type.width ≤ s.start s.count

def RelocationsBounded (i : ℕ) : Prop :=
  s.type i = .ok sectionRela → ∃ target allocated, s.info i = .ok target ∧ s.allocated target = .ok allocated ∧
    (allocated = true → ∃ symbols strings entries size, s.link i = .ok symbols ∧ s.link symbols = .ok strings ∧
      s.offset i = .ok entries ∧ s.size i = .ok size ∧
      ∀ e < size / relaSize, s.EntryBounded target symbols strings (entries + e * relaSize))

/-- The contents, relocations and names that a file refers to lie in it. -/
structure Contained : Prop where
  contents : ∀ i < s.count, ∀ size, s.toPlace i = .ok (some size) → ∃ data, sectionData s i size = .ok data
  relocations : ∀ i < s.count, s.RelocationsBounded i
  names : ∀ i < s.count, ∀ what ∈ [".init_array", ".ctors", ".eris_symtab", ".eris_modules"],
    ∃ b, s.named i (cstring what) = .ok b

/-- No sum wraps around, and what there is to load is contained in the file. -/
structure Bounded : Prop where
  table : s.header.sectionHeaderOffset + s.count * sectionHeaderSize < 2 ^ 64
  layout : s.start s.count < 2 ^ 64
  contained : 0 < s.start s.count → s.Contained

end Sections

def Image.Bounded (image : Image) : Prop :=
  ∀ header, image.header = .ok header → headerLooksSane header image.length = true →
    header.sectionHeaderCount ≤ maxSections → (⟨image, header⟩ : Sections).Bounded

variable {s : Sections} {i j n width offset : ℕ}

theorem word_ok {image : Image} (h : offset % 2 ^ 64 + width ≤ image.length) : ∃ n, image.word width offset = .ok n := by
  rw [Image.word, Image.slice, if_pos h]
  exact ⟨_, rfl⟩

theorem header_ok {image : Image} (h : headerSize ≤ image.length) : ∃ header, image.header = .ok header := by
  have hword : ∀ width offset, offset + width ≤ 64 → offset < 64 → ∃ n, image.word width offset = .ok n := by
    intro width offset hend hlt
    apply word_ok
    unfold headerSize at h
    omega
  have hident : image.slice 0 6 = .ok ((image.drop 0).take 6) := by
    refine if_pos ?_
    unfold headerSize at h
    omega
  obtain ⟨a, ha⟩ := hword 2 16 (by decide) (by decide)
  obtain ⟨b, hb⟩ := hword 2 18 (by decide) (by decide)
  obtain ⟨c, hc⟩ := hword 8 40 (by decide) (by decide)
  obtain ⟨d, hd⟩ := hword 2 58 (by decide) (by decide)
  obtain ⟨e, he⟩ := hword 2 60 (by decide) (by decide)
  obtain ⟨f, hf⟩ := hword 2 62 (by decide) (by decide)
  rw [Image.header, hident, ha, hb, hc, hd, he, hf]
  exact ⟨_, rfl⟩

section Layout

theorem extent_of_toPlace_none (h : s.toPlace i = .ok none) : s.extent i = 0 := by rw [Sections.extent, h]

theorem extent_of_toPlace {size : ℕ} (h : s.toPlace i = .ok (some size)) :
    s.extent i = (size + (pageSize - 1)) / pageSize * pageSize := by rw [Sections.extent, h]

theorem start_mono (h : i ≤ j) : s.start i ≤ s.start j := by
  induction h with
  | refl => exact le_rfl
  | step _ ih => exact ih.trans (Nat.le_add_right _ _)

theorem start_mod (s : Sections) (i : ℕ) : s.start i % pageSize = 0 := by
  induction i with
  | zero => rfl
  | succ i ih =>
    have hextent : s.extent i % pageSize = 0 := by
      rw [Sections.extent]
      split
      · exact Nat.mul_mod_left _ _
      · rfl
    rw [Sections.start, Nat.add_mod, ih, hextent]
    rfl

theorem roundUpPages_eq {size : ℕ} (hsize : s.toPlace i = .ok (some size)) (hi : i < s.count)
    (hlayout : s.start s.count < 2 ^ 64) : roundUpPages size * pageSize = s.extent i ∧ size ≤ s.extent i := by
  have hle : s.start i + s.extent i ≤ s.start s.count := start_mono hi
  rw [extent_of_toPlace hsize] at hle ⊢
  unfold roundUpPages pageSize at *
  omega

end Layout

section Table

variable (hsane : headerLooksSane s.header s.image.length = true)
  (htable : s.header.sectionHeaderOffset + s.count * sectionHeaderSize < 2 ^ 64)

include hsane htable

theorem field_ok (hi : i < s.count) (hwidth : offset + width ≤ sectionHeaderSize) :
    ∃ n, s.field i width offset = .ok n := by
  have hend : (s.header.sectionHeaderOffset + s.count * s.header.sectionHeaderSize) % 2 ^ 64 ≤ s.image.length ∧
      s.header.sectionHeaderSize = sectionHeaderSize := by
    rw [headerLooksSane, decide_eq_true_eq] at hsane
    exact ⟨hsane.2.2.2.2, hsane.2.2.2.1⟩
  rw [hend.2, Nat.mod_eq_of_lt htable] at hend
  apply word_ok
  unfold sectionHeaderSize at *
  omega

theorem toPlace_ok (hi : i < s.count) : ∃ size, s.toPlace i = .ok size := by
  obtain ⟨flags, hflags⟩ : ∃ n, s.flags i = .ok n := field_ok hsane htable hi (by decide)
  obtain ⟨size, hsize⟩ : ∃ n, s.size i = .ok n := field_ok hsane htable hi (by decide)
  rw [Sections.toPlace, Sections.allocated, hflags, hsize]
  dsimp only [Bind.bind, Except.bind, pure, Except.pure]
  split
  · split <;> exact ⟨_, rfl⟩
  · exact ⟨_, rfl⟩

theorem totalSize_eq (hlayout : s.start s.count < 2 ^ 64) : totalSize s = .ok (s.start s.count) := by
  obtain ⟨total, htotal, heq⟩ : ∃ total, totalSize s = .ok total ∧ total = s.start s.count := by
    refine foldlM_range_ok (fun n total ↦ total = s.start n) rfl fun n hn total heq ↦ ?_
    obtain ⟨size, hsize⟩ := toPlace_ok hsane htable hn
    refine ⟨s.start (n + 1), ?_, rfl⟩
    rw [hsize, heq, Sections.start]
    cases size with
    | none =>
      rw [extent_of_toPlace_none hsize]
      rfl
    | some size =>
      have hlt : s.start n + s.extent n < 2 ^ 64 := (start_mono hn : s.start (n + 1) ≤ _).trans_lt hlayout
      rw [← Nat.mod_eq_of_lt hlt, ← (roundUpPages_eq hsize hn hlayout).1]
      rfl
  rw [htotal, heq]

end Table

section Memory

variable {m : Memory} {a : ℕ}

theorem inside_read (m : Memory) (a : ℕ) : Inside (m.read a) := by
  intro e he
  rw [Memory.read] at he
  split at he
  · cases he
  · cases he
    trivial

theorem inside_readWord (width a : ℕ) (m : Memory) : Inside (m.readWord width a) := by
  have hbytes : ∀ width a, Inside (m.readBytes width a) := by
    intro width
    induction width with
    | zero => exact fun _ ↦ stops_ok _
    | succ width ih =>
      exact fun a ↦ (inside_read m a).bind fun b _ ↦ (ih (a + 1)).bind fun bs _ ↦ stops_ok _
  intro e he
  rw [readWord] at he
  cases hb : m.readBytes width a with
  | error e' =>
    rw [hb] at he
    cases he
    exact hbytes width a _ hb
  | ok bs =>
    rw [hb] at he
    cases he

theorem inside_readString (bound a : ℕ) (m : Memory) : Inside (m.readString bound a) := by
  induction bound generalizing a with
  | zero =>
    intro e he
    cases he
    rfl
  | succ bound ih =>
    refine (inside_read m a).bind fun b _ ↦ ?_
    split
    · exact stops_ok _
    · exact (ih (a + 1)).bind fun bs _ ↦ stops_ok _

theorem inside_matchesAt (m : Memory) (name : CString) (a : ℕ) : Inside (m.matchesAt name a) := by
  induction name generalizing a with
  | nil => exact (inside_read m a).bind fun b _ ↦ stops_ok _
  | cons c cs ih =>
    refine (inside_read m a).bind fun b _ ↦ ?_
    split
    · exact ih (a + 1)
    · exact stops_ok _

theorem inside_lookup (exports : Symbols) (m : Memory) (name : CString) : Inside (exports.lookup m name) := by
  have hone : ∀ count entry, Inside (Symbols.lookupIn m name count entry) := by
    intro count
    induction count with
    | zero => exact fun _ ↦ stops_ok _
    | succ count ih =>
      intro entry
      refine (inside_readWord 8 entry m).bind fun text _ ↦ ?_
      split
      · refine (inside_matchesAt m name text).bind fun found _ ↦ ?_
        split
        · exact (inside_readWord 8 (entry + 8) m).bind fun _ _ ↦ stops_ok _
        · exact ih _
      · exact ih _
  have hall : ∀ ts, Inside (Symbols.lookupTables m name ts) := by
    intro ts
    induction ts with
    | nil => exact stops_ok _
    | cons t ts ih =>
      refine (hone t.count t.table).bind fun found _ ↦ ?_
      cases found with
      | none => exact ih
      | some address => exact stops_ok _
  rw [Symbols.lookup]
  split
  · exact stops_ok _
  · exact hall _

theorem inside_readInfo (m : Memory) (a : ℕ) : Inside (readInfo m a) := by
  refine (inside_readWord 4 a m).bind fun abi _ ↦ ?_
  refine (inside_readWord 8 (a + 8) m).bind fun name _ ↦ ?_
  refine (inside_readWord 8 (a + 16) m).bind fun version _ ↦ ?_
  refine (inside_readWord 8 (a + 32) m).bind fun license _ ↦ ?_
  refine (inside_readWord 8 (a + 40) m).bind fun init _ ↦ ?_
  refine (inside_readWord 8 (a + 48) m).bind fun exit _ ↦ ?_
  refine (inside_readWord 8 (a + 56) m).bind fun deps _ ↦ ?_
  refine (inside_readWord 8 (a + 64) m).bind fun depCount _ ↦ ?_
  by_cases hname : abi ≠ moduleAbiVersion ∧ name = 0
  · rw [if_pos hname]
    exact stops_ok _
  · rw [if_neg hname]
    exact (inside_readString (2 ^ 64) name m).bind fun _ _ ↦ stops_ok _

theorem inside_registerMany (loaded : LoadedImage) (m : Memory) (left a : ℕ) (st : Table × ℕ) :
    Inside (registerMany loaded m left a st) := by
  induction left generalizing a st with
  | zero => exact stops_ok _
  | succ left ih =>
    refine Stops.bind ?_ fun st' _ ↦ ih _ st'
    rw [registerDescriptor]
    split
    · exact stops_ok _
    · exact (inside_readInfo m a).bind fun _ _ ↦ stops_ok _

theorem inside_callConstructors (code : Code) (loaded : LoadedImage) (left pointer : ℕ) (m : Memory) :
    Inside (callConstructors code loaded left pointer m) := by
  induction left generalizing pointer m with
  | zero => exact stops_ok _
  | succ left ih =>
    refine Stops.bind ?_ fun m' _ ↦ ih _ m'
    refine (inside_readWord 8 pointer m).bind fun entry _ ↦ ?_
    split
    · exact stops_ok _
    · split
      · exact stops_ok _
      · intro e he
        cases he
        rfl

end Memory

section Place

variable {loaded loaded' : LoadedImage}

/-- The sections lie one after the other from the base on. -/
structure LaidOut (s : Sections) (loaded loaded' : LoadedImage) (n : ℕ) : Prop where
  base : loaded'.base = loaded.base
  pages : loaded'.pages = loaded.pages
  address : ∀ i < n, 0 < s.extent i → (loaded'.placement i).address = loaded.base + s.start i

/-- The bytes of the sections are where they were laid out. -/
structure Filled (s : Sections) (loaded : LoadedImage) (m m' : Memory) (n : ℕ) : Prop where
  others : m' = { m with bytes := m'.bytes }
  bytes : ∀ i < n, ∀ size data, s.toPlace i = .ok (some size) → sectionData s i size = .ok data →
    ∀ j b, data[j]? = some b → m'.bytes (m.translate (loaded.base + s.start i + j)) = b

theorem Filled.write {m m' : Memory} {size : ℕ} {data : List UInt8} (h : Filled s loaded m m' n)
    (hb : loaded.Backed m) (hlayout : s.start s.count < 2 ^ 64) (hpages : loaded.pages * pageSize = s.start s.count)
    (hn : n < s.count) (hsize : s.toPlace n = .ok (some size)) (hdata : sectionData s n size = .ok data) :
    Filled s loaded m (m'.write data (loaded.base + s.start n)) (n + 1) := by
  have htranslate : ∀ a, m'.translate a = m.translate a := fun a ↦ by rw [h.others, translate_bytes]
  have hlength := length_sectionData hdata
  have hfits := (roundUpPages_eq hsize hn hlayout).2
  have hnext : s.start n + s.extent n ≤ s.start s.count := start_mono hn
  refine ⟨by rw [write_eq, h.others], fun i hi size' data' hsize' hdata' j b hj ↦ ?_⟩
  obtain hlt | rfl := Nat.lt_succ_iff_lt_or_eq.mp hi
  · have hbefore : s.start i + s.extent i ≤ s.start n := start_mono hlt
    have hfits' := (roundUpPages_eq hsize' (hlt.trans hn) hlayout).2
    have hj' := (List.getElem?_eq_some_iff.mp hj).1
    rw [length_sectionData hdata'] at hj'
    rw [bytes_write_of_ne]
    · exact h.bytes i hlt size' data' hsize' hdata' j b hj
    · intro c hc hc' heq
      rw [htranslate] at heq
      have := hb.apart c (loaded.base + s.start i + j) (by omega) (by omega) (by omega) (by omega) heq
      omega
  · obtain rfl : data = data' := by
      obtain rfl : size = size' := by simpa using hsize.symm.trans hsize'
      exact Except.ok.inj (hdata.symm.trans hdata')
    rw [← htranslate]
    refine bytes_write data (fun c d hc hc' hd hd' heq ↦ ?_) hj
    rw [htranslate, htranslate] at heq
    exact hb.apart c d (by omega) (by omega) (by omega) (by omega) heq

theorem placeSections_ok (hsane : headerLooksSane s.header s.image.length = true)
    (htable : s.header.sectionHeaderOffset + s.count * sectionHeaderSize < 2 ^ 64) (hlayout : s.start s.count < 2 ^ 64)
    (hcontents : ∀ i < s.count, ∀ size, s.toPlace i = .ok (some size) → ∃ data, sectionData s i size = .ok data)
    (hpages : loaded.pages * pageSize = s.start s.count)
    (hend : loaded.base + loaded.pages * pageSize < 2 ^ 64) (m : Memory) :
    ∃ loaded' m', placeSections s loaded m = .ok (loaded', s.start s.count, m') ∧
      LaidOut s loaded loaded' s.count ∧ (loaded.Backed m → Filled s loaded m m' s.count) := by
  obtain ⟨⟨loaded', cursor, m'⟩, heq, rfl, hlaid, hfilled⟩ : ∃ st, placeSections s loaded m = .ok st ∧
      st.2.1 = s.start s.count ∧ LaidOut s loaded st.1 s.count ∧
        (loaded.Backed m → Filled s loaded m st.2.2 s.count) := by
    refine foldlM_range_ok (fun n (st : LoadedImage × ℕ × Memory) ↦ st.2.1 = s.start n ∧ LaidOut s loaded st.1 n ∧
      (loaded.Backed m → Filled s loaded m st.2.2 n)) ⟨rfl, ⟨rfl, rfl, nofun⟩, fun _ ↦ ⟨rfl, nofun⟩⟩ ?_
    rintro n hn ⟨loaded₁, cursor, m₁⟩ ⟨rfl, hlaid, hfilled⟩
    obtain ⟨size, hsize⟩ := toPlace_ok hsane htable hn
    cases size with
    | none =>
      refine ⟨(loaded₁, s.start n, m₁), ?_, ?_, ⟨hlaid.base, hlaid.pages, fun i hi hpos ↦ ?_⟩, fun hb ↦
        ⟨(hfilled hb).others, fun i hi size data hs ↦ ?_⟩⟩
      · rw [placeSection, hsize]
        rfl
      · rw [Sections.start, extent_of_toPlace_none hsize]
        rfl
      · obtain hlt | rfl := Nat.lt_succ_iff_lt_or_eq.mp hi
        · exact hlaid.address i hlt hpos
        · rw [extent_of_toPlace_none hsize] at hpos
          exact absurd hpos (lt_irrefl 0)
      · obtain hlt | rfl := Nat.lt_succ_iff_lt_or_eq.mp hi
        · exact (hfilled hb).bytes i hlt size data hs
        · rw [hsize] at hs
          cases hs
    | some size =>
      obtain ⟨flags, hflags⟩ : ∃ flags, s.flags n = .ok flags := field_ok hsane htable hn (by decide)
      obtain ⟨data, hdata⟩ := hcontents n hn size hsize
      have hlength := length_sectionData hdata
      obtain ⟨hround, hfits⟩ := roundUpPages_eq hsize hn hlayout
      have hnext : s.start n + s.extent n ≤ s.start s.count := start_mono hn
      have hmod : (loaded₁.base + s.start n) % 2 ^ 64 = loaded.base + s.start n := by
        rw [hlaid.base]
        exact Nat.mod_eq_of_lt (by omega)
      have hstore : loaded₁.store (loaded.base + s.start n) data m₁ = .ok (m₁.write data (loaded.base + s.start n)) := by
        refine if_pos ?_
        rw [hlaid.base, hlaid.pages, hlength]
        omega
      refine ⟨(loaded₁.place n ⟨loaded.base + s.start n, flags.testBit 2, flags.testBit 0⟩, s.start (n + 1),
        m₁.write data (loaded.base + s.start n)), ?_, rfl, ⟨hlaid.base, hlaid.pages, fun i hi hpos ↦ ?_⟩,
        fun hb ↦ (hfilled hb).write hb hlayout hpages hn hsize hdata⟩
      · have hcursor : (s.start n + roundUpPages size * pageSize) % 2 ^ 64 = s.start (n + 1) := by
          rw [hround]
          exact Nat.mod_eq_of_lt (hnext.trans_lt hlayout)
        rw [placeSection, hsize, hflags]
        dsimp only [Bind.bind, Except.bind]
        rw [hdata, hmod]
        dsimp only
        rw [hstore, hcursor]
        rfl
      · obtain hlt | rfl := Nat.lt_succ_iff_lt_or_eq.mp hi
        · exact (congrArg Placement.address (Function.update_of_ne hlt.ne _ _)).trans (hlaid.address i hlt hpos)
        · simp [LoadedImage.place]
  exact ⟨loaded', m', heq, hlaid, hfilled⟩

end Place

section Relocate

variable {loaded loaded' : LoadedImage} {exports : Symbols} {m : Memory} {target symbols strings : ℕ}

theorem inside_symbolAddress {index : ℕ} (h : s.SymbolBounded symbols strings index) :
    Inside (symbolAddress s loaded exports m symbols strings index) := by
  obtain ⟨table, size, htable, hsize, hsymbol⟩ := h
  rw [symbolAddress, htable, hsize]
  dsimp only [Bind.bind, Except.bind]
  split
  · exact stops_ok _
  · rename_i hindex
    obtain ⟨place, hplace, hundefined, hdefined⟩ := hsymbol (Nat.not_le.mp hindex)
    rw [hplace]
    dsimp only
    split
    · rename_i hnone
      obtain ⟨names, name, text, hnames, hname, htext⟩ := hundefined hnone
      rw [hnames, hname]
      dsimp only
      rw [htext]
      refine (inside_lookup exports m text).bind fun address _ ↦ ?_
      split <;> exact stops_ok _
    · rename_i hsome
      split
      · exact stops_ok _
      · rename_i hlt
        obtain ⟨value, hvalue⟩ := hdefined hsome (Nat.not_le.mp hlt)
        rw [hvalue]
        exact stops_ok _

theorem inside_applyEntry {entry : ℕ} (h : s.EntryBounded target symbols strings entry)
    (hlaid : LaidOut s loaded loaded' s.count) (hpages : loaded.pages * pageSize = s.start s.count)
    (hend : loaded.base + loaded.pages * pageSize < 2 ^ 64) :
    Inside (applyEntry s loaded' exports target symbols strings m entry) := by
  obtain ⟨info, offset, addend, hinfo, hoffset, haddend, hsymbol, htarget, hplace⟩ := h
  refine Stops.bind (.of_eq_ok hinfo) fun info' hinfo' ↦ ?_
  obtain rfl := Except.ok.inj (hinfo.symm.trans hinfo')
  refine Stops.bind (inside_symbolAddress hsymbol) fun symbol _ ↦ ?_
  cases symbol with
  | error e => exact stops_ok _
  | ok symbol =>
    rw [LoadedImage.addressOf, if_pos htarget, hoffset, haddend]
    dsimp only [Bind.bind, Except.bind]
    cases htype : RelocationType.ofCode (relaType info) with
    | none => exact stops_ok _
    | some type =>
      obtain ⟨hcount, hextent, hfits⟩ := hplace type htype
      have hmod : ((loaded'.placement target).address + offset) % 2 ^ 64 =
          loaded.base + (s.start target + offset) % 2 ^ 64 := by
        rw [hlaid.address target hcount hextent]
        omega
      dsimp only
      obtain ⟨-, hdata⟩ | ⟨-, e, hdata⟩ := relocate_spec type symbol addend (((loaded'.placement target).address + offset) % 2 ^ 64)
      · rw [hdata]
        dsimp only
        rw [LoadedImage.store, if_pos ?_]
        · exact stops_ok _
        · rw [hmod, length_toBytes, hlaid.base, hlaid.pages]
          omega
      · rw [hdata]
        exact stops_ok _

theorem inside_applyEntries {left entry : ℕ}
    (h : ∀ e < left, s.EntryBounded target symbols strings (entry + e * relaSize))
    (hlaid : LaidOut s loaded loaded' s.count) (hpages : loaded.pages * pageSize = s.start s.count)
    (hend : loaded.base + loaded.pages * pageSize < 2 ^ 64) (m : Memory) :
    Inside (applyEntries s loaded' exports target symbols strings left entry m) := by
  induction left generalizing entry m with
  | zero => exact stops_ok _
  | succ left ih =>
    have hfirst := h 0 (Nat.succ_pos left)
    refine Stops.bind (inside_applyEntry hfirst hlaid hpages hend) fun r _ ↦ ?_
    obtain ⟨m', refusal⟩ := r
    cases refusal with
    | some e => exact stops_ok _
    | none =>
      refine ih (fun e he ↦ ?_) m'
      have hnext := h (e + 1) (Nat.succ_lt_succ he)
      rwa [Nat.succ_mul, Nat.add_comm (e * relaSize), ← Nat.add_assoc] at hnext

section

variable (hsane : headerLooksSane s.header s.image.length = true) (h : s.Bounded) (hcontained : s.Contained)
  (hlaid : LaidOut s loaded loaded' s.count) (hpages : loaded.pages * pageSize = s.start s.count)
  (hend : loaded.base + loaded.pages * pageSize < 2 ^ 64)

include hsane h hcontained hlaid hpages hend

theorem inside_applySection (hi : i < s.count) (m : Memory) : Inside (applySection s loaded' exports m i) := by
  obtain ⟨type, htype⟩ : ∃ type, s.type i = .ok type := field_ok hsane h.table hi (by decide)
  rw [applySection, htype]
  dsimp only [Bind.bind, Except.bind]
  split
  · exact stops_ok _
  · rename_i hrela
    rw [not_not.mp hrela] at htype
    obtain ⟨target, allocated, hinfo, hallocated, hrest⟩ := hcontained.relocations i hi htype
    rw [hinfo]
    dsimp only
    rw [hallocated]
    dsimp only
    cases allocated with
    | false => exact stops_ok _
    | true =>
      obtain ⟨symbols, strings, entries, size, hsymbols, hstrings, hentries, hsize, hall⟩ := hrest rfl
      rw [hsymbols]
      dsimp only
      rw [hstrings, hentries, hsize]
      exact inside_applyEntries hall hlaid hpages hend m

theorem inside_applySections {l : List ℕ} (hl : ∀ i ∈ l, i < s.count) (m : Memory) :
    Inside (applySections s loaded' exports l m) := by
  induction l generalizing m with
  | nil => exact stops_ok _
  | cons i l ih =>
    have hi := hl i List.mem_cons_self
    refine Stops.bind (inside_applySection hsane h hcontained hlaid hpages hend hi m) fun r _ ↦ ?_
    obtain ⟨m', refusal⟩ := r
    cases refusal with
    | some e => exact stops_ok _
    | none => exact ih (fun j hj ↦ hl j (List.mem_cons_of_mem i hj)) m'

end

end Relocate

section Finish

variable {loaded : LoadedImage} {k : Kernel}

theorem inside_finishImage (hsane : headerLooksSane s.header s.image.length = true) (h : s.Bounded)
    (hcontained : s.Contained) (code : Code) (loaded : LoadedImage) (k : Kernel) :
    Inside (finishImage code s loaded k) := by
  have hnamed : ∀ i < s.count, ∀ what ∈ [".init_array", ".ctors", ".eris_symtab", ".eris_modules"],
      Inside (s.named i (cstring what)) := by
    intro i hi what hwhat
    obtain ⟨b, hb⟩ := hcontained.names i hi what hwhat
    exact .of_eq_ok hb
  have hsize : ∀ i < s.count, Inside (s.size i) := by
    intro i hi
    obtain ⟨size, hsize⟩ : ∃ size, s.size i = .ok size := field_ok hsane h.table hi (by decide)
    exact .of_eq_ok hsize
  have hloop : ∀ {β : Type} {g : β → ℕ → Except Fault β} {b : β}, (∀ b, ∀ i < s.count, Inside (g b i)) →
      Inside ((List.range s.count).foldlM g b) := by
    intro β g b hg
    exact Stops.foldlM (fun _ _ ↦ True) (fun _ b i hi _ ↦ ⟨hg b i (List.mem_range.mp hi), fun _ _ ↦ trivial⟩) trivial
  have hconstruct : Inside (runConstructors code s loaded k.memory) := by
    refine hloop fun m i hi ↦ Stops.bind ?_ fun b _ ↦ ?_
    · refine (hnamed i hi ".init_array" (by decide)).bind fun b _ ↦ ?_
      split
      · exact stops_ok _
      · exact hnamed i hi ".ctors" (by decide)
    · split
      · exact (hsize i hi).bind fun size _ ↦ inside_callConstructors code loaded _ _ m
      · exact stops_ok _
  have hexport : Inside (registerExports s loaded k.symbols) := by
    refine hloop fun exports i hi ↦ (hnamed i hi ".eris_symtab" (by decide)).bind fun b _ ↦ ?_
    split
    · exact (hsize i hi).bind fun _ _ ↦ stops_ok _
    · exact stops_ok _
  have hprotect : ∀ m, Inside (applyProtections s loaded m) := by
    refine fun m ↦ hloop fun m i hi ↦ ?_
    obtain ⟨size, hsize⟩ := toPlace_ok hsane h.table hi
    refine Stops.bind (.of_eq_ok hsize) fun size _ ↦ ?_
    cases size <;> exact stops_ok _
  have hdescribe : ∀ m t, Inside (registerDescriptors s loaded m t) := by
    refine fun m t ↦ hloop fun st i hi ↦ (hnamed i hi ".eris_modules" (by decide)).bind fun b _ ↦ ?_
    split
    · exact (hsize i hi).bind fun size _ ↦ inside_registerMany loaded m _ _ st
    · exact stops_ok _
  refine hconstruct.bind fun m _ ↦ hexport.bind fun symbols _ ↦ (hprotect m).bind fun m _ ↦ ?_
  refine (hdescribe m k.modules).bind fun r _ ↦ ?_
  obtain ⟨modules, registered⟩ := r
  dsimp only
  split <;> exact stops_ok _

theorem inside_buildImage (hsane : headerLooksSane s.header s.image.length = true) (h : s.Bounded)
    (hcontained : s.Contained) (hpages : loaded.pages * pageSize = s.start s.count)
    (hend : loaded.base + loaded.pages * pageSize < 2 ^ 64) (code : Code) (k : Kernel) :
    Inside (buildImage code s loaded k) := by
  obtain ⟨loaded', m, hplace, hlaid, -⟩ :=
    placeSections_ok hsane h.table h.layout hcontained.contents hpages hend k.memory
  refine Stops.bind (.of_eq_ok hplace) fun st hst ↦ ?_
  obtain rfl := Except.ok.inj (hplace.symm.trans hst)
  refine Stops.bind (inside_applySections hsane h hcontained hlaid hpages hend (fun i hi ↦ List.mem_range.mp hi) m)
    fun r _ ↦ ?_
  obtain ⟨m', refusal⟩ := r
  cases refusal with
  | some e => exact stops_ok _
  | none => exact inside_finishImage hsane h hcontained code loaded' _

end Finish

theorem pages_of_allocateImage {m m' : Memory} {loaded : LoadedImage} (hlayout : s.start s.count < 2 ^ 64)
    (h : allocateImage (s.start s.count) m = (m', some loaded)) : loaded.pages * pageSize = s.start s.count := by
  have hpages : loaded.pages = roundUpPages (s.start s.count) := by
    unfold allocateImage at h
    simp only at h
    split at h
    · cases h
    · split at h
      · cases h
      · cases h
        rfl
  have hmod := start_mod s s.count
  rw [hpages]
  unfold roundUpPages pageSize at *
  omega

def dataImage : Image := object [{}, { name := cstring ".data", flags := 3, data := toBytes 8 0 }]

/-- The same with a relocation of the data, given by the section of its symbols and the place it applies to. -/
def relocatingImage (link offset : ℕ) : Image :=
  object [{}, { name := cstring ".data", flags := 3, data := toBytes 8 0 },
    { type := 2, data := symbolEntry 0 0 0 ++ symbolEntry 0 1 0 },
    { type := 4, link := link, info := 1, data := relaEntry offset 1 1 0 }]

def relocatingSections : Sections := ⟨relocatingImage 2 0, objectHeader [{}, { data := toBytes 8 0 },
  { data := symbolEntry 0 0 0 ++ symbolEntry 0 1 0 }, { data := relaEntry 0 1 1 0 }]⟩

theorem relocated_contained : relocatingSections.Contained := by
  have hplace : ∀ i < 5, i ≠ 1 → relocatingSections.toPlace i = .ok none := by decide +kernel
  have htype : ∀ i < 5, i ≠ 3 → relocatingSections.type i ≠ .ok sectionRela := by decide +kernel
  have hnamed : ∀ i < 5, ∀ what ∈ [".init_array", ".ctors", ".eris_symtab", ".eris_modules"],
      (relocatingSections.named i (cstring what)).toOption.isSome = true := by decide +kernel
  refine ⟨fun i hi size hsize ↦ ?_, fun i hi hrela ↦ ?_, fun i hi what hwhat ↦ ?_⟩
  · by_cases hone : i = 1
    · have hdata : relocatingSections.toPlace 1 = .ok (some 8) ∧
          sectionData relocatingSections 1 8 = .ok (toBytes 8 0) := by decide +kernel
      rw [hone, hdata.1] at hsize
      cases hsize
      exact ⟨_, hone ▸ hdata.2⟩
    · rw [hplace i hi hone] at hsize
      cases hsize
  · by_cases hthree : i = 3
    · rw [hthree]
      refine ⟨1, true, by decide +kernel, by decide +kernel, fun _ ↦ ⟨2, 0, 440, 24, by decide +kernel, by decide +kernel,
        by decide +kernel, by decide +kernel, fun e he ↦ ?_⟩⟩
      obtain rfl := Nat.lt_one_iff.mp he
      refine ⟨4294967297, 0, 0, by decide +kernel, by decide +kernel, by decide +kernel, ?_, by decide, fun type htype ↦ ?_⟩
      · exact ⟨392, 48, by decide +kernel, by decide +kernel, fun _ ↦ ⟨1, by decide +kernel, fun h ↦ absurd h (by decide),
          fun _ _ ↦ ⟨0, by decide +kernel⟩⟩⟩
      · obtain rfl := Option.some.inj htype
        exact ⟨by decide, by decide +kernel, by decide +kernel⟩
    · exact absurd hrela (htype i hi hthree)
  · obtain ⟨b, hb⟩ := Option.isSome_iff_exists.mp (hnamed i hi what hwhat)
    exact ⟨b, toOption_eq_some.mp hb⟩

def leaves {α : Type} : Except Fault α → Bool
  | .ok _ => false
  | .error e => !e.elsewhere

theorem not_inside_of_leaves {α : Type} {x : Except Fault α} (h : leaves x = true) : ¬ Inside x := by
  intro hinside
  cases x with
  | ok a => cases h
  | error e =>
    rw [leaves, hinside e rfl] at h
    cases h

def patch (image : Image) (offset : ℕ) (bytes : List UInt8) : Image :=
  image.take offset ++ bytes ++ image.drop (offset + bytes.length)

end Eris.Loader
