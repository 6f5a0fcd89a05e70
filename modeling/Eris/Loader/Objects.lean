import Eris.Loader.Exports

namespace Eris.Loader

open Library.Words Mm Mm.Memory Modules List

/-- A section of an object file, before it is written down. -/
structure ObjectSection where
  name : CString := []
  type : ℕ := 1
  flags : ℕ := 0
  link : ℕ := 0
  info : ℕ := 0
  data : List UInt8 := []

def encodeFields (fs : List (ℕ × ℕ)) : List UInt8 := fs.flatMap fun f ↦ toBytes f.1 f.2

def sectionNames (ss : List ObjectSection) : List UInt8 := ss.flatMap fun s ↦ s.name ++ [0]

def withNames (ss : List ObjectSection) : List ObjectSection :=
  ss ++ [{ type := 3, data := sectionNames ss ++ [0] }]

def contents (ss : List ObjectSection) : List UInt8 := ss.flatMap ObjectSection.data

def sectionHeader (ss : List ObjectSection) (s : ObjectSection) (i : ℕ) : List UInt8 :=
  encodeFields [(4, (sectionNames (ss.take i)).length), (4, s.type), (8, s.flags), (8, 0),
    (8, headerSize + ss.length * sectionHeaderSize + (contents (ss.take i)).length), (8, s.data.length), (4, s.link), (4, s.info),
    (8, 0), (8, 0)]

def fileHeader (ss : List ObjectSection) : List UInt8 :=
  encodeFields [(6, 0x0102464C457F), (10, 1), (2, typeRelocatable), (2, machineX8664), (4, 1), (16, 0),
    (8, headerSize), (10, 0), (2, sectionHeaderSize), (2, ss.length),
    (2, ss.length - 1)]

/-- An object file: the header, the table of the section headers and what is in the sections. -/
def object (ss : List ObjectSection) : Image :=
  fileHeader (withNames ss) ++
    ((withNames ss).zipIdx.flatMap (fun s ↦ sectionHeader (withNames ss) s.1 s.2) ++
      contents (withNames ss))

def objectHeader (ss : List ObjectSection) : Header where
  ident := [0x7F, 0x45, 0x4C, 0x46, 2, 1]
  type := typeRelocatable
  machine := machineX8664
  sectionHeaderOffset := headerSize
  sectionHeaderSize := sectionHeaderSize
  sectionHeaderCount := ss.length + 1
  sectionNameIndex := ss.length

section Header

variable (image : Image) (before : List (ℕ × ℕ)) {after : List (ℕ × ℕ)} {width n : ℕ}
  {rest : List UInt8}

theorem length_encodeFields (fs : List (ℕ × ℕ)) :
    (encodeFields fs).length = (fs.map Prod.fst).sum := by
  simp [encodeFields, length_flatMap, length_toBytes]

section

variable (h : image = encodeFields (before ++ (width, n) :: after) ++ rest) (ho : (before.map Prod.fst).sum < 2 ^ 64)

include h ho

theorem slice_encodeFields : image.slice (before.map Prod.fst).sum width = .ok (toBytes width n) := by
  have hsplit : image = encodeFields before ++ (toBytes width n ++ (encodeFields after ++ rest)) := by
    rw [h]
    simp [encodeFields]
  have hlen := congrArg List.length hsplit
  simp only [length_append, length_encodeFields, length_toBytes] at hlen
  rw [Image.slice, Nat.mod_eq_of_lt ho, if_pos (by omega), hsplit, ← length_encodeFields,
    drop_left]
  exact congrArg Except.ok (take_left' (length_toBytes ..))

theorem word_encodeFields (hn : n < 256 ^ width) : image.word width (before.map Prod.fst).sum = .ok n := by
  rw [Image.word, slice_encodeFields image before h ho, Except.map, fromBytes_toBytes, Nat.mod_eq_of_lt hn]

end

theorem header_object {ss : List ObjectSection} (hcount : ss.length + 1 < 2 ^ 16) :
    (object ss).header = .ok (objectHeader ss) := by
  have hn : (withNames ss).length = ss.length + 1 := by simp [withNames]
  have hnames : (withNames ss).length - 1 = ss.length := by omega
  have hident := slice_encodeFields (object ss) [] rfl (by decide)
  have htype := word_encodeFields (object ss) [(6, _), (10, _)] rfl (by decide) (by decide)
  have hmachine := word_encodeFields (object ss) [(6, _), (10, _), (2, _)] rfl (by decide) (by decide)
  have hoffset := word_encodeFields (object ss) [(6, _), (10, _), (2, _), (2, _), (4, _), (16, _)]
    rfl (by decide) (by decide)
  have hhead := word_encodeFields (object ss)
    [(6, _), (10, _), (2, _), (2, _), (4, _), (16, _), (8, _), (10, _)] rfl (by simp) (by decide)
  have hlength := word_encodeFields (object ss)
    [(6, _), (10, _), (2, _), (2, _), (4, _), (16, _), (8, _), (10, _), (2, _)] rfl (by simp)
    (by rw [hn]; exact hcount)
  have hindex := word_encodeFields (object ss)
    [(6, _), (10, _), (2, _), (2, _), (4, _), (16, _), (8, _), (10, _), (2, _), (2, _)] rfl (by simp)
    (by rw [hnames]; omega)
  simp only [map_cons, map_nil, sum_cons, sum_nil, Nat.reduceAdd, hn]
    at hident htype hmachine hoffset hhead hlength hindex
  simp only [Image.header, hident, htype, hmachine, hoffset, hhead, hlength, hindex, bind, Except.bind]
  rfl

end Header

def symbolEntry (name section' value : ℕ) : List UInt8 :=
  toBytes 4 name ++ [0, 0] ++ toBytes 2 section' ++ toBytes 8 value ++ toBytes 8 0

def relaEntry (offset symbol type addend : ℕ) : List UInt8 :=
  toBytes 8 offset ++ toBytes 4 type ++ toBytes 4 symbol ++ toBytes 8 addend

def descriptor (abi depCount : ℕ) : List UInt8 :=
  toBytes 8 abi ++ toBytes 48 0 ++ toBytes 8 0 ++ toBytes 8 depCount

def textOffset (texts : List CString) (i : ℕ) : ℕ := ((texts.take i).flatMap (· ++ [0])).length

/-- The sections of an object file with one descriptor, whose `init` returns at once. Its data is
a row of pointers, to the names of its dependencies and to what it imports, and the names. What it
exports all stands for the data. -/
def moduleSections (name : String) (deps imports exported : List String) : List ObjectSection :=
  let texts := (name :: deps ++ exported).map cstring
  let wanted := imports.map cstring
  let pointers := deps.length + imports.length
  let text := fun i ↦ 8 * pointers + textOffset texts i
  let fixed : List ObjectSection :=
    [{}, { name := cstring ".eris_modules", flags := 3, data := descriptor 1 deps.length },
      { name := cstring ".data", flags := 3
        data := toBytes (8 * pointers) 0 ++ texts.flatMap (· ++ [0]) },
      { name := cstring ".text", flags := 6, data := [0xc3] },
      { name := cstring ".symtab", type := 2, link := 5
        data := symbolEntry 0 0 0 ++ symbolEntry 0 2 0 ++ symbolEntry 0 3 0 ++
          (List.range imports.length).flatMap fun j ↦ symbolEntry (textOffset wanted j) 0 0 },
      { name := cstring ".strtab", type := 3, data := wanted.flatMap (· ++ [0]) },
      { name := cstring ".rela", type := 4, link := 4, info := 1
        data := relaEntry 8 1 1 (text 0) ++ relaEntry 40 2 1 0 ++ relaEntry 56 1 1 0 }]
  let pointed : ObjectSection :=
    { name := cstring ".rela", type := 4, link := 4, info := 2
      data := ((List.range deps.length).flatMap fun j ↦ relaEntry (8 * j) 1 1 (text (1 + j))) ++
        (List.range imports.length).flatMap fun j ↦ relaEntry (8 * (deps.length + j)) (3 + j) 1 0 }
  let table : List ObjectSection :=
    [{ name := cstring ".rela", type := 4, link := 4, info := if pointers = 0 then 8 else 9
       data := (List.range exported.length).flatMap fun j ↦
         relaEntry (16 * j) 1 1 (text (1 + deps.length + j)) ++ relaEntry (16 * j + 8) 1 1 0 },
      { name := cstring ".eris_symtab", flags := 3, data := toBytes (16 * exported.length) 0 }]
  fixed ++ (if pointers = 0 then [] else [pointed]) ++ if exported = [] then [] else table

def plainImage : Image := object (moduleSections "alpha" [] [] [])

def Code.idle : Code := ⟨fun _ _ _ m ↦ m.bytes, fun _ _ _ _ _ _ ↦ rfl⟩

def blankMemory (used : ℕ → Bool) : Memory where
  frames := ⟨used, 0⟩
  vmalloc := ⟨[], false, Nat.zero_le _⟩
  root := 1
  tables := fun _ _ ↦ {}
  bytes := fun _ ↦ 0

def blankKernel (used : ℕ → Bool) (symtab : List (CString × ℕ)) : Kernel :=
  ⟨blankMemory used, ⟨symtab, [], by decide⟩, Table.empty⟩

section Blank

variable {used : ℕ → Bool} {symtab : List (CString × ℕ)}

theorem blank_tableAt {d p f : ℕ} (h : (blankMemory used).tableAt d p = some f) : d = 0 ∧ f = 1 := by
  cases d with
  | zero =>
    simp only [tableAt, Library.Radix.node] at h
    split at h
    · exact ⟨rfl, (Option.some.inj h).symm⟩
    · cases h
  | succ d =>
    have hnone : ∀ f i, (blankMemory used).child f i = none := fun _ _ ↦ rfl
    simp [tableAt, Library.Radix.node, hnone] at h

theorem blank_wf (h0 : used 0 = true) (h1 : used 1 = true) : (blankMemory used).Wf where
  separated d p d' p' f _ _ h h' := by
    obtain ⟨rfl, -⟩ := blank_tableAt h
    obtain ⟨rfl, -⟩ := blank_tableAt h'
    have hzero : ∀ q, (blankMemory used).tableAt 0 q = some f → q = 0 := by
      intro q hq
      by_contra hne
      rw [tableAt, Library.Radix.node, if_neg hne] at hq
      cases hq
    exact ⟨rfl, (hzero p h).trans (hzero p' h').symm⟩
  taken := by
    rintro f ⟨d, -, p, h⟩
    obtain ⟨-, rfl⟩ := blank_tableAt h
    exact ⟨by decide, h1⟩
  low := h0
  flat _ _ _ _ _ _ := rfl

theorem blank_frameAt (a : ℕ) : (blankMemory used).frameAt a = none := by
  have hnone : ∀ d, d ≠ 0 → ∀ p, (blankMemory used).tableAt d p = none := by
    intro d hd p
    rw [Option.eq_none_iff_forall_ne_some]
    exact fun f h ↦ hd (blank_tableAt h).1
  simp [frameAt, leaf, hnone]

theorem blank_orderly (h0 : used 0 = true) (h1 : used 1 = true) : (blankMemory used).Orderly where
  wf := blank_wf h0 h1
  tidy := by
    refine ⟨?_, ?_, pairwise_singleton _ _⟩
    · exact forall_mem_singleton.mpr (by decide)
    · exact forall_mem_singleton.mpr (by decide)
  unmapped a _ := blank_frameAt a

theorem blank_settled (h0 : used 0 = true) (h1 : used 1 = true) : (blankKernel used symtab).Settled where
  memory := blank_orderly h0 h1
  lookups name _ := by
    rw [Kernel.symbolLookup, Symbols.lookup]
    split
    · exact ⟨_, rfl⟩
    · exact ⟨0, rfl⟩
  held _ _ _ _ := rfl

end Blank

end Eris.Loader
