import Eris.Modules.Table

namespace Eris.Boot

open Modules

def cmdlineCapacity : ℕ := 512

def maxWords : ℕ := 32

def blank : UInt8 := 32

def comma : UInt8 := 44

def equalsSign : UInt8 := 61

/-- The loop of `split`, with room for so many more words. -/
def split : ℕ → CString → List CString
  | 0, _ => []
  | room + 1, line =>
    match line.dropWhile (· = blank) with
    | [] => []
    | c :: rest =>
      (c :: rest).takeWhile (· ≠ blank) :: split room ((c :: rest).dropWhile (· ≠ blank))

def wordTable (line : CString) : List CString := split maxWords (line.take (cmdlineCapacity - 1))

def find (key line : CString) : Option CString :=
  (wordTable line).findSome? fun word ↦
    if key.isPrefixOf word ∧ (word.drop key.length = [] ∨ (word.drop key.length).head? = some equalsSign) then
      some (word.drop key.length)
    else none

def cmdlineHas (key line : CString) : Bool := (find key line).isSome

def cmdlineValue (key line : CString) : Option CString :=
  match find key line with
  | some (c :: rest) => if c = equalsSign then some rest else none
  | _ => none

/-- The pieces the loop of `blacklisted` compares, with the part of the current one that it has
behind it. It stops at the end of the list, so nothing comes after a comma that ends it. -/
def pieces (current : CString) : CString → List CString
  | [] => if current = [] then [] else [current]
  | c :: rest => if c = comma then current :: pieces [] rest else pieces (current ++ [c]) rest

def blacklisted (line name : CString) : Bool :=
  match cmdlineValue (cstring "modules.blacklist") line with
  | none => false
  | some list => (pieces [] list).contains name

def Blacklists (line name : CString) : Prop :=
  name ≠ [] ∧ ∃ list, cmdlineValue (cstring "modules.blacklist") line = some list ∧ name ∈ list.splitOn comma

theorem modifyHead_self (l : List CString) : l.modifyHead (fun piece ↦ piece) = l := by
  cases l <;> rfl

theorem mem_pieces_iff {name : CString} (h0 : name ≠ []) (current list : CString) :
    name ∈ pieces current list ↔ name ∈ (list.splitOn comma).modifyHead (current ++ ·) := by
  induction list generalizing current with
  | nil =>
    rw [pieces]
    split
    · rename_i hc
      simp [hc, h0]
    · simp
  | cons c rest ih =>
    rw [pieces, List.splitOn, List.splitOnP_cons_eq_if_modifyHead]
    split
    · rename_i hc
      simp [hc, ih, modifyHead_self, List.splitOn]
    · rename_i hc
      rw [ih, if_neg (by simpa using hc), List.modifyHead_modifyHead]
      simp [Function.comp_def, List.splitOn]

theorem blacklisted_iff {line name : CString} (h0 : name ≠ []) :
    blacklisted line name = true ↔ Blacklists line name := by
  unfold blacklisted Blacklists
  cases cmdlineValue (cstring "modules.blacklist") line with
  | none => simp
  | some list => simp [mem_pieces_iff h0, modifyHead_self, h0]

end Eris.Boot
