import Eris.Fs.Ramfs
import Eris.Library.Transition

namespace Eris.Fs

open Library List Function

def maxNodes : ℕ := 32

def maxName : ℕ := 32

/-- A slot of the table: the name up to the zero byte, whether it is used, and the contents. -/
structure RamNode where
  name : List UInt8 := []
  used : Bool := false
  file : RamFile := {}

def RamNode.bind (node : RamNode) (name : List UInt8) : RamNode :=
  { node with name := name.take (maxName - 1), used := true }

def RamNode.release (node : RamNode) : RamNode := { node with file := {}, used := false }

/-- The table of the files. -/
abbrev RamFiles := Fin maxNodes → RamNode

namespace RamFiles

variable (files : RamFiles)

def find (name : List UInt8) : Option (Fin maxNodes) :=
  (List.finRange maxNodes).find? fun i ↦ (files i).used && (files i).name = name

def lookup (name : List UInt8) : Option (Fin maxNodes) := files.find name

/-- The loop of `entry_at`, with the number of entries seen so far. -/
def entryFrom (index : ℕ) : List (Fin maxNodes) → ℕ → Option (List UInt8)
  | [], _ => none
  | i :: slots, seen =>
    if !(files i).used then entryFrom index slots seen
    else if seen = index then some (files i).name
    else entryFrom index slots (seen + 1)

def entryAt (index : ℕ) : Option (List UInt8) := files.entryFrom index (List.finRange maxNodes) 0

def findFree : Option (Fin maxNodes) := (List.finRange maxNodes).find? fun i ↦ !(files i).used

def ramfsCreateFile (name : List UInt8) : Option (Fin maxNodes) × RamFiles :=
  match files.find name with
  | some existing => (some existing, files)
  | none =>
    match files.findFree with
    | some i => (some i, update files i ((files i).bind name))
    | none => (none, files)

def ramfsRemove (name : List UInt8) : Bool × RamFiles :=
  match files.find name with
  | none => (false, files)
  | some i => (true, update files i (files i).release)

end RamFiles

/-- The table, and what the callers know of it: the node they got for each name that they have not removed since. -/
structure RamTree where
  files : RamFiles
  known : List UInt8 → Option (Fin maxNodes)

inductive RamAction
  | create (name : List UInt8)
  | remove (name : List UInt8)

namespace RamTree

def create (t : RamTree) (name : List UInt8) : RamTree :=
  match t.files.ramfsCreateFile name with
  | (some node, files) => ⟨files, update t.known name (some node)⟩
  | (none, files) => ⟨files, t.known⟩

def remove (t : RamTree) (name : List UInt8) : RamTree :=
  ⟨(t.files.ramfsRemove name).2, update t.known name none⟩

/-- The root directory under the calls that change it. Names are strings with a byte at least. -/
def system : System RamTree RamAction where
  init t := (∀ i, t.files i = {}) ∧ ∀ name, t.known name = none
  enabled _ action :=
    match action with
    | .create name => name ≠ [] ∧ 0 ∉ name
    | .remove name => name ≠ [] ∧ 0 ∉ name
  step t action :=
    match action with
    | .create name => some (t.create name)
    | .remove name => some (t.remove name)

/-- The directory is the map that the callers know. -/
structure Faithful (t : RamTree) : Prop where
  lookup : ∀ name, t.files.lookup name = t.known name
  create : ∀ name node, t.known name = some node → (t.files.ramfsCreateFile name).1 = some node
  apart : ∀ name name' node, t.known name = some node → t.known name' = some node → name = name'
  remove : ∀ name, (t.files.ramfsRemove name).1 = true ↔ t.known name ≠ none
  listed : ∀ name, t.known name ≠ none → ∃! index, t.files.entryAt index = some name
  known : ∀ index name, t.files.entryAt index = some name → t.known name ≠ none

def Careful (t : RamTree) : RamAction → Prop
  | .create name => name.length < maxName ∨ t.files.findFree = none
  | .remove _ => True

def Mirrors (t : RamTree) : Prop :=
  ∀ name i, t.known name = some i ↔ (t.files i).used = true ∧ (t.files i).name = name

variable {t : RamTree} {name : List UInt8}

theorem Mirrors.find (h : Mirrors t) (name : List UInt8) : t.files.find name = t.known name := by
  cases hfind : t.files.find name with
  | none =>
    cases hknown : t.known name with
    | none => rfl
    | some i =>
      have hslot := (h name i).mp hknown
      exact absurd (by simpa using hslot) (find?_eq_none.mp hfind i (mem_finRange i))
  | some i =>
    have hslot : (t.files i).used = true ∧ (t.files i).name = name := by simpa using find?_some hfind
    exact ((h name i).mpr hslot).symm

def entries (files : RamFiles) (slots : List (Fin maxNodes)) : List (List UInt8) :=
  (slots.filter fun i ↦ (files i).used).map fun i ↦ (files i).name

theorem entryFrom_eq (files : RamFiles) (slots : List (Fin maxNodes)) {seen index : ℕ} (hle : seen ≤ index) :
    files.entryFrom index slots seen = (entries files slots)[index - seen]? := by
  induction slots generalizing seen with
  | nil => rfl
  | cons i slots ih =>
    rw [RamFiles.entryFrom]
    cases hused : (files i).used with
    | false =>
      rw [if_pos (by decide), ih hle, entries, entries, filter_cons_of_neg (by rw [hused]; decide)]
    | true =>
      have hcons : entries files (i :: slots) = (files i).name :: entries files slots := by
        rw [entries, filter_cons_of_pos (by exact hused)]
        rfl
      rw [if_neg (by decide), hcons]
      split
      · rename_i heq
        rw [heq, Nat.sub_self, getElem?_cons_zero]
      · rename_i hne
        have hpred : index - seen = index - (seen + 1) + 1 := by omega
        rw [ih (by omega), hpred, getElem?_cons_succ]

theorem Mirrors.nodup_entries (h : Mirrors t) : (entries t.files (List.finRange maxNodes)).Nodup := by
  refine List.Nodup.map_on ?_ ((nodup_finRange maxNodes).filter _)
  intro i hi j hj hname
  have hused := (mem_filter.mp hi).2
  have hused' := (mem_filter.mp hj).2
  have hi := (h _ i).mpr ⟨hused, rfl⟩
  have hj := (h _ j).mpr ⟨hused', hname.symm⟩
  exact Option.some.inj (hi.symm.trans hj)

theorem Mirrors.mem_entries (h : Mirrors t) : name ∈ entries t.files (List.finRange maxNodes) ↔ t.known name ≠ none := by
  rw [entries, mem_map, Option.ne_none_iff_exists']
  constructor
  · rintro ⟨i, hi, hname⟩
    exact ⟨i, (h name i).mpr ⟨(mem_filter.mp hi).2, hname⟩⟩
  · rintro ⟨i, hi⟩
    obtain ⟨hused, hname⟩ := (h name i).mp hi
    exact ⟨i, mem_filter.mpr ⟨mem_finRange i, hused⟩, hname⟩

theorem Mirrors.faithful (h : Mirrors t) : Faithful t := by
  have hentry : ∀ index, t.files.entryAt index = (entries t.files (List.finRange maxNodes))[index]? :=
    fun index ↦ entryFrom_eq t.files (List.finRange maxNodes) (Nat.zero_le index)
  refine ⟨h.find, ?_, ?_, ?_, ?_, ?_⟩
  · intro name node hknown
    rw [RamFiles.ramfsCreateFile, h.find, hknown]
  · intro name name' node hknown hknown'
    exact ((h name node).mp hknown).2.symm.trans ((h name' node).mp hknown').2
  · intro name
    rw [RamFiles.ramfsRemove, h.find]
    cases t.known name <;> simp
  · intro name hknown
    obtain ⟨index, hlt, hindex⟩ := getElem_of_mem (h.mem_entries.mpr hknown)
    refine ⟨index, (hentry index).trans (List.getElem?_eq_some_iff.mpr ⟨hlt, hindex⟩), ?_⟩
    intro index' hindex'
    obtain ⟨hlt', heq⟩ := List.getElem?_eq_some_iff.mp ((hentry index').symm.trans hindex')
    exact (h.nodup_entries.getElem_inj_iff).mp (heq.trans hindex.symm)
  · intro index name hindex
    exact h.mem_entries.mp (mem_of_getElem? ((hentry index).symm.trans hindex))

theorem findFree_eq_some {files : RamFiles} {i : Fin maxNodes} (h : files.findFree = some i) :
    (files i).used = false := by
  simpa using find?_some h

theorem create_cases (t : RamTree) (name : List UInt8) :
    (∃ i, t.files.find name = some i ∧ t.create name = ⟨t.files, update t.known name (some i)⟩) ∨
    (∃ i, t.files.find name = none ∧ t.files.findFree = some i ∧ t.create name =
      ⟨update t.files i ((t.files i).bind name), update t.known name (some i)⟩) ∨
    t.files.find name = none ∧ t.files.findFree = none ∧ t.create name = t := by
  unfold create RamFiles.ramfsCreateFile
  cases hfind : t.files.find name with
  | some i => exact .inl ⟨i, rfl, rfl⟩
  | none =>
    cases hfree : t.files.findFree with
    | some i => exact .inr (.inl ⟨i, rfl, rfl, rfl⟩)
    | none => exact .inr (.inr ⟨rfl, rfl, rfl⟩)

theorem Mirrors.create (h : Mirrors t) (hcareful : t.Careful (.create name)) : Mirrors (t.create name) := by
  obtain ⟨i, hfind, hcreate⟩ | ⟨i, hfind, hfree, hcreate⟩ | ⟨-, -, hcreate⟩ := t.create_cases name
  · have hsame : update t.known name (some i) = t.known := by
      rw [← hfind, h.find, update_eq_self]
    rw [hcreate, hsame]
    exact h
  · have hname : name.take (maxName - 1) = name := by
      obtain hlt | hnone := hcareful
      · exact take_of_length_le (by omega)
      · rw [hfree] at hnone
        cases hnone
    have hunused := findFree_eq_some hfree
    have hunknown := (h.find name).symm.trans hfind
    rw [hcreate]
    intro name' j
    have hold := h name' j
    simp only [update_apply, RamNode.bind, hname]
    grind
  · rw [hcreate]
    exact h

theorem Mirrors.remove (h : Mirrors t) (name : List UInt8) : Mirrors (t.remove name) := by
  intro name' j
  unfold RamTree.remove RamFiles.ramfsRemove
  cases hfind : t.files.find name with
  | none =>
    have hsame : update t.known name none = t.known := by rw [← hfind, h.find, update_eq_self]
    rw [hsame]
    exact h name' j
  | some i =>
    have hknown := (h.find name).symm.trans hfind
    have hold := h name' j
    have hother := h name j
    simp only [update_apply, RamNode.release]
    grind

theorem reached_mirrors (h : system.Reached Careful t) : Mirrors t := by
  refine h.invariant ?_ ?_
  · intro t ⟨hfiles, hknown⟩ name i
    rw [hknown, hfiles]
    simp
  · intro t t' action ht _ hcareful hs
    cases action with
    | create name =>
      cases hs
      exact ht.create hcareful
    | remove name =>
      cases hs
      exact ht.remove name

def Short (t : RamTree) : Prop := ∀ i, (t.files i).name.length < maxName

theorem Short.create (h : Short t) (name : List UInt8) : Short (t.create name) := by
  obtain ⟨i, -, hcreate⟩ | ⟨i, -, -, hcreate⟩ | ⟨-, -, hcreate⟩ := t.create_cases name
  · rw [hcreate]
    exact h
  · rw [hcreate]
    intro j
    dsimp only
    by_cases hji : j = i
    · subst hji
      rw [update_self, RamNode.bind, length_take]
      have hmax : maxName = 32 := rfl
      omega
    · rw [update_of_ne hji]
      exact h j
  · rw [hcreate]
    exact h

theorem Short.remove (h : Short t) (name : List UInt8) : Short (t.remove name) := by
  intro j
  unfold RamTree.remove RamFiles.ramfsRemove
  cases t.files.find name with
  | none => exact h j
  | some i =>
    dsimp only
    by_cases hji : j = i
    · subst hji
      rw [update_self]
      exact h j
    · rw [update_of_ne hji]
      exact h j

theorem reached_short {allowed : RamTree → RamAction → Prop} (h : system.Reached allowed t) : Short t := by
  refine h.invariant ?_ ?_
  · intro t ⟨hfiles, _⟩ i
    rw [hfiles]
    decide
  · intro t t' action ht _ _ hs
    cases action with
    | create name =>
      cases hs
      exact ht.create name
    | remove name =>
      cases hs
      exact ht.remove name

theorem Short.length_lt {i : Fin maxNodes} (h : Short t) (hfind : t.files.find name = some i) : name.length < maxName := by
  have hslot : (t.files i).used = true ∧ (t.files i).name = name := by simpa using find?_some hfind
  exact hslot.2 ▸ h i

/-- In every run in which the names that are created fit the table the directory is the map that the callers know, and
it stops to be so with the first name that does not fit. -/
theorem directory_faithful (h : system.Reached Careful t) :
    Faithful t ∧ ∀ name, name ≠ [] → 0 ∉ name → (Faithful (t.create name) ↔ t.Careful (.create name)) := by
  have hmirrors := reached_mirrors h
  have hshort := reached_short h
  refine ⟨hmirrors.faithful, fun name _ _ ↦ ⟨?_, fun hcareful ↦ (hmirrors.create hcareful).faithful⟩⟩
  intro hfaithful
  obtain ⟨i, hfind, -⟩ | ⟨i, -, -, hcreate⟩ | ⟨-, hfull, -⟩ := t.create_cases name
  · exact .inl (hshort.length_lt hfind)
  · have hknown : (t.create name).known name = some i := by
      rw [hcreate]
      exact update_self ..
    exact .inl ((hshort.create name).length_lt ((hfaithful.lookup name).trans hknown))
  · exact .inr hfull

def noFiles : RamTree := ⟨fun _ ↦ {}, fun _ ↦ none⟩

theorem reached_noFiles {allowed : RamTree → RamAction → Prop} : system.Reached allowed noFiles :=
  .init ⟨fun _ ↦ rfl, fun _ ↦ rfl⟩

theorem directory_faithful_first : Faithful (noFiles.create [0x61]) :=
  ((directory_faithful reached_noFiles).2 [0x61] (by decide) (by decide)).mpr (.inl (by decide))

def longName : List UInt8 := List.replicate 32 0x61

/-- A file is created, and is not found under the name it was created with. -/
theorem directory_loses_longName : system.Reached (fun _ _ ↦ True) (noFiles.create longName) ∧
    (noFiles.create longName).known longName = some ⟨0, by decide⟩ ∧
    (noFiles.create longName).files.lookup longName = none ∧
    ((noFiles.create longName).files.ramfsRemove longName).1 = false := by
  refine ⟨.step (.create longName) reached_noFiles ⟨by decide, by decide⟩ trivial rfl, ?_, ?_, ?_⟩
  · decide +kernel
  · decide +kernel
  · decide +kernel

end RamTree

end Eris.Fs
