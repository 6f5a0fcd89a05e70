import Eris.Library.Bytes
import Eris.Library.Paths
import Eris.Loader.Elf

namespace Eris.Boot

open Loader Modules Library.Bytes Library.Paths List Option

/-! The archive that the boot loader has left. Every access to a byte of it may leave it, and so do the functions that
make the access: they are `none` then, and when a loop does not end. -/

def blockSize : ℕ := 512

def slash : UInt8 := 0x2F

def parseOctal : List UInt8 → ℕ → ℕ
  | [], value => value
  | c :: text, value =>
    if 0x30 ≤ c ∧ c ≤ 0x37 then parseOctal text ((value * 8 + (c.toNat - 0x30)) % 2 ^ 64) else value

def roundToBlock (bytes : ℕ) : ℕ := (bytes + blockSize - 1) / blockSize * blockSize

/-- A header by its offset, with the size of the data after it. -/
structure Entry where
  offset : ℕ
  size : ℕ
  deriving DecidableEq

def Entry.data (e : Entry) : ℕ := e.offset + blockSize

def Entry.next (e : Entry) : ℕ := e.offset + (blockSize + roundToBlock e.size)

section

variable (archive : Image)

@[irreducible]
def entryAt (offset : ℕ) : Option (Option ℕ) :=
  if archive.length < (offset + blockSize) % 2 ^ 64 then some none
  else do
    let first ← archive[offset]?
    if first = 0 then return none
    let text ← slice archive (offset + 124) 12
    let size := parseOctal text 0
    return if (offset + blockSize + size) % 2 ^ 64 ≤ archive.length then some size else none

def regular (e : Entry) : Option Bool := do
  let type ← archive[e.offset + 156]?
  return type = 0x30 ∨ type = 0

/-- The loop over the headers, which the callers share. What they do with a regular file ends the loop with a result, or
the loop goes on. -/
def walk {α β : Type} (visit : α → Entry → Option (β ⊕ α)) : ℕ → ℕ → α → Option (β ⊕ α)
  | 0, _, _ => none
  | fuel + 1, offset, a => do
    match ← entryAt archive offset with
    | none => return .inr a
    | some size =>
      let step ← if ← regular archive ⟨offset, size⟩ then visit a ⟨offset, size⟩ else some (.inr a)
      match step with
      | .inl b => return .inl b
      | .inr a => walk visit fuel (Entry.next ⟨offset, size⟩ % 2 ^ 64) a

def rounds : ℕ := archive.length + 1

/-- The loop of `initrd_init`. -/
def initrdFileCount : Option ℕ := do
  match ← walk archive (β := Empty) (fun count _ ↦ some (.inr (count + 1))) (rounds archive) 0 0 with
  | .inr count => return count

def initrdDataAt (index : ℕ) : Option (Option (ℕ × ℕ × ℕ)) := do
  let visit (seen : ℕ) (e : Entry) : Option ((ℕ × ℕ × ℕ) ⊕ ℕ) :=
    some (if seen = index then .inl (e.offset, e.size, e.data) else .inr (seen + 1))
  match ← walk archive visit (rounds archive) 0 0 with
  | .inl found => return some found
  | .inr _ => return none

def initrdNameAt (index : ℕ) : Option (Option (ℕ × ℕ)) := do
  let visit (seen : ℕ) (e : Entry) : Option ((ℕ × ℕ) ⊕ ℕ) :=
    some (if seen = index then .inl (e.offset, e.size) else .inr (seen + 1))
  match ← walk archive visit (rounds archive) 0 0 with
  | .inl found => return some found
  | .inr _ => return none

/-- The loop of `name_matches` over the stored name, from a byte on. -/
def baseFrom : List UInt8 → ℕ → ℕ → Option ℕ
  | [], _, _ => none
  | c :: text, p, base => if c = 0 then some base else baseFrom text (p + 1) (if c = slash then p + 1 else base)

/-- `memcmp` with some bytes of the archive. -/
def sameAt : List UInt8 → ℕ → Option Bool
  | [], _ => some true
  | c :: text, p => do
    let b ← archive[p]?
    if b = c then sameAt text (p + 1) else return false

def nameMatches (stored : ℕ) (wanted : CString) : Option Bool := do
  let base ← baseFrom (archive.drop stored) stored stored
  if ← sameAt archive wanted base then
    let rest ← archive[base + wanted.length]?
    if rest = 0 then return true
    else if rest = 0x2E then sameAt archive [0x2E, 0x6B, 0x6F, 0] (base + wanted.length)
    else return false
  else return false

def initrdFind (name : CString) : Option (Option (ℕ × ℕ)) := do
  let visit (_ : Unit) (e : Entry) : Option ((ℕ × ℕ) ⊕ Unit) := do
    return if ← nameMatches archive e.offset name then .inl (e.size, e.data) else .inr ()
  match ← walk archive visit (rounds archive) 0 () with
  | .inl found => return some found
  | .inr _ => return none

def headersFrom : ℕ → ℕ → List Entry
  | 0, _ => []
  | fuel + 1, offset =>
    match entryAt archive offset with
    | some (some size) => ⟨offset, size⟩ :: headersFrom fuel (Entry.next ⟨offset, size⟩)
    | _ => []

def files : List Entry := (headersFrom archive (rounds archive) 0).filter fun e ↦ regular archive e = some true

def fileName (e : Entry) : CString := (archive.drop e.offset).takeWhile (· ≠ 0)

/-- A file is known by its name without the directories, and without the ending of a module. -/
def Named (e : Entry) (wanted : CString) : Prop :=
  lastPart slash (fileName archive e) = wanted ∨ lastPart slash (fileName archive e) = wanted ++ cstring ".ko"

instance (e : Entry) (wanted : CString) : Decidable (Named archive e wanted) := inferInstanceAs (Decidable (_ ∨ _))

end

variable {archive : Image} {offset : ℕ} {e : Entry}

section Headers

theorem parseOctal_lt (text : List UInt8) (value k : ℕ) (hk : k + text.length ≤ 20) (h : value < 8 ^ k) :
    parseOctal text value < 8 ^ (k + text.length) := by
  induction text generalizing value k with
  | nil => exact h
  | cons c text ih =>
    rw [length_cons] at hk ⊢
    rw [parseOctal]
    split
    · rename_i hc
      have hdigit : c.toNat - 0x30 < 8 := by
        have := UInt8.le_iff_toNat_le.mp hc.2
        have : (0x37 : UInt8).toNat = 0x37 := rfl
        omega
      have hnext : (value * 8 + (c.toNat - 0x30)) % 2 ^ 64 < 8 ^ (k + 1) :=
        (Nat.mod_le _ _).trans_lt (by rw [Nat.pow_succ]; omega)
      rw [← Nat.add_assoc, Nat.add_right_comm]
      exact ih _ (k + 1) (by omega) hnext
    · exact h.trans_le (Nat.pow_le_pow_right (by decide) (by omega))

theorem le_roundToBlock (bytes : ℕ) : bytes ≤ roundToBlock bytes ∧ roundToBlock bytes < bytes + blockSize := by
  have := Nat.div_add_mod' (bytes + blockSize - 1) blockSize
  have := Nat.mod_lt (bytes + blockSize - 1) (show blockSize > 0 by decide)
  unfold roundToBlock
  omega

theorem entryAt_cases (archive : Image) (hoff : offset < 2 ^ 33) :
    entryAt archive offset = some none ∨
      ∃ size, entryAt archive offset = some (some size) ∧ offset + blockSize + size ≤ archive.length := by
  have hblock : blockSize = 512 := rfl
  unfold entryAt
  rw [Nat.mod_eq_of_lt (by omega)]
  split
  · exact .inl rfl
  · rename_i hin
    have hfirst : archive[offset]? = some (archive.getD offset 0) := by
      rw [getElem?_eq_getElem (by omega), getD_eq_getElem _ _ (by omega)]
    rw [hfirst, slice_of_le (by omega)]
    dsimp only [bind_eq_bind, bind_some]
    have hsize := parseOctal_lt ((archive.drop (offset + 124)).take 12) 0 0 (by simp) (by decide)
    have htext : ((archive.drop (offset + 124)).take 12).length = 12 := by simp; omega
    rw [htext] at hsize
    generalize parseOctal ((archive.drop (offset + 124)).take 12) 0 = size at hsize
    split
    · exact .inl rfl
    · rw [Nat.mod_eq_of_lt (by omega)]
      split
      · rename_i hle
        exact .inr ⟨size, rfl, hle⟩
      · exact .inl rfl

theorem regular_eq (e : Entry) (h : e.offset + blockSize ≤ archive.length) : ∃ b, regular archive e = some b := by
  have hblock : blockSize = 512 := rfl
  rw [regular, getElem?_eq_getElem (by omega)]
  exact ⟨_, rfl⟩

theorem headersFrom_spec (hlen : archive.length < 2 ^ 32) (fuel : ℕ) (hoff : offset < 2 ^ 33) :
    (∀ e ∈ headersFrom archive fuel offset, offset ≤ e.offset ∧ e.data + e.size ≤ archive.length) ∧
      (headersFrom archive fuel offset).Pairwise fun e e' ↦ e.data + e.size ≤ e'.offset := by
  induction fuel generalizing offset with
  | zero => exact ⟨nofun, .nil⟩
  | succ fuel ih =>
    rw [headersFrom]
    rcases entryAt_cases archive hoff with hnone | ⟨size, hsome, hle⟩
    · rw [hnone]
      exact ⟨nofun, .nil⟩
    · rw [hsome]
      obtain ⟨hround, hround'⟩ := le_roundToBlock size
      have hnext : Entry.next ⟨offset, size⟩ = offset + (blockSize + roundToBlock size) := rfl
      obtain ⟨hin, hpair⟩ := ih (by omega : Entry.next ⟨offset, size⟩ < 2 ^ 33)
      refine ⟨fun e he ↦ ?_, .cons (fun e he ↦ ?_) hpair⟩
      · rcases mem_cons.mp he with rfl | he
        · exact ⟨le_rfl, hle⟩
        · obtain ⟨hfrom, hend⟩ := hin e he
          exact ⟨by omega, hend⟩
      · have hfrom := (hin e he).1
        unfold Entry.data
        dsimp only
        omega

end Headers

section Walks

variable {α β : Type} (visit : α → Entry → Option (β ⊕ α))

def visits : List Entry → α → Option (β ⊕ α)
  | [], a => some (.inr a)
  | e :: es, a => do
    match ← visit a e with
    | .inl b => return .inl b
    | .inr a => visits es a

theorem walk_eq_visits (hlen : archive.length < 2 ^ 32) {fuel : ℕ} (hpos : 0 < fuel)
    (hfuel : archive.length < offset + fuel) (hoff : offset < 2 ^ 33) (a : α) :
    walk archive visit fuel offset a =
      visits visit ((headersFrom archive fuel offset).filter fun e ↦ regular archive e = some true) a := by
  induction fuel generalizing offset a with
  | zero => omega
  | succ fuel ih =>
    rw [walk, headersFrom]
    rcases entryAt_cases archive hoff with hnone | ⟨size, hsome, hle⟩
    · rw [hnone]
      rfl
    · rw [hsome]
      have hround := le_roundToBlock size
      obtain ⟨b, hb⟩ : ∃ b, regular archive ⟨offset, size⟩ = some b := regular_eq _ (by dsimp only; omega)
      have hnext : Entry.next ⟨offset, size⟩ = offset + (blockSize + roundToBlock size) := rfl
      have hrest := ih (by omega) (by omega) (by omega : Entry.next ⟨offset, size⟩ < 2 ^ 33)
      dsimp only [bind_eq_bind, bind_some]
      rw [hb, Nat.mod_eq_of_lt (by omega)]
      cases b with
      | false =>
        rw [filter_cons_of_neg (by simp [hb])]
        exact hrest a
      | true =>
        rw [filter_cons_of_pos (by simp [hb]), visits]
        cases visit a ⟨offset, size⟩ with
        | none => rfl
        | some step =>
          cases step with
          | inl b => rfl
          | inr a => exact hrest a

theorem walk_files (hlen : archive.length < 2 ^ 32) (a : α) :
    walk archive visit (rounds archive) 0 a = visits visit (files archive) a :=
  walk_eq_visits visit hlen (Nat.succ_pos _) (by omega) (by decide) a

theorem visits_count (es : List Entry) (n : ℕ) :
    visits (β := Empty) (fun count _ ↦ some (.inr (count + 1))) es n = some (.inr (n + es.length)) := by
  induction es generalizing n with
  | nil => rfl
  | cons e es ih =>
    rw [visits, length_cons]
    refine (ih (n + 1)).trans ?_
    rw [Nat.add_assoc, Nat.add_comm 1]

theorem visits_index (g : Entry → β) (index : ℕ) (es : List Entry) {seen : ℕ} (hseen : seen ≤ index) :
    visits (fun seen e ↦ some (if seen = index then .inl (g e) else .inr (seen + 1))) es seen =
      some (match es[index - seen]? with
        | some e => .inl (g e)
        | none => .inr (seen + es.length)) := by
  induction es generalizing seen with
  | nil => rfl
  | cons e es ih =>
    rw [visits]
    by_cases hhere : seen = index
    · subst hhere
      simp
    · have hlater : index - seen = index - (seen + 1) + 1 := by omega
      rw [if_neg hhere, hlater, getElem?_cons_succ]
      refine (ih (by omega : seen + 1 ≤ index)).trans ?_
      rw [length_cons, Nat.add_assoc, Nat.add_comm 1]

theorem visits_find (m : Entry → Bool) (g : Entry → β) (es : List Entry)
    {visit : Unit → Entry → Option (β ⊕ Unit)}
    (hvisit : ∀ e ∈ es, visit () e = some (if m e then .inl (g e) else .inr ())) :
    visits visit es () = some (match es.find? m with
      | some e => .inl (g e)
      | none => .inr ()) := by
  induction es with
  | nil => rfl
  | cons e es ih =>
    rw [visits, hvisit e mem_cons_self, find?_cons]
    cases m e with
    | true => rfl
    | false => exact ih fun e he ↦ hvisit e (mem_cons_of_mem _ he)

end Walks

section Names

theorem baseFrom_eq (name more before : List UInt8) (hname : 0 ∉ name) (hbefore : slash ∉ before) (base : ℕ) :
    baseFrom (name ++ 0 :: more) (base + before.length) base =
      some (base + ((before ++ name).length - (lastPart slash (before ++ name)).length)) := by
  induction name generalizing before base with
  | nil => rw [List.append_nil, lastPart_of_notMem hbefore, Nat.sub_self]; rfl
  | cons c name ih =>
    obtain ⟨hc, hname⟩ := not_or.mp (mt mem_cons.mpr hname)
    rw [cons_append, baseFrom, if_neg (Ne.symm hc)]
    by_cases hslash : c = slash
    · have hle := (lastPart_suffix slash name).length_le
      rw [if_pos hslash, hslash, lastPart_append_sep]
      refine (ih [] hname not_mem_nil (base + before.length + 1)).trans ?_
      simp only [nil_append, length_append, length_cons, Option.some.injEq]
      omega
    · rw [if_neg hslash]
      have hbefore' : slash ∉ before ++ [c] := by
        simp [hbefore, Ne.symm hslash]
      have := ih (before ++ [c]) hname hbefore' base
      rwa [length_append, length_singleton, ← Nat.add_assoc, append_assoc, singleton_append] at this

theorem baseFrom_eq_none {text : List UInt8} (h : 0 ∉ text) (p base : ℕ) : baseFrom text p base = none := by
  induction text generalizing p base with
  | nil => rfl
  | cons c text ih =>
    obtain ⟨hc, htext⟩ := not_or.mp (mt mem_cons.mpr h)
    rw [baseFrom, if_neg (Ne.symm hc)]
    exact ih htext _ _

theorem getElem?_of_drop {p : ℕ} {b : UInt8} {text : List UInt8} (h : archive.drop p = b :: text) :
    archive[p]? = some b ∧ archive.drop (p + 1) = text := by
  have hfirst := congrArg (·[0]?) h
  have hrest := congrArg List.tail h
  rw [getElem?_drop, Nat.add_zero] at hfirst
  rw [tail_drop] at hrest
  exact ⟨hfirst, hrest⟩

theorem sameAt_eq {p : ℕ} {name more : List UInt8} (hdrop : archive.drop p = name ++ 0 :: more) {wanted : List UInt8}
    (hwanted : 0 ∉ wanted) : sameAt archive wanted p = some (decide (wanted <+: name)) := by
  induction wanted generalizing p name with
  | nil => simp [sameAt]
  | cons c wanted ih =>
    obtain ⟨hc, hwanted⟩ := not_or.mp (mt mem_cons.mpr hwanted)
    rw [sameAt]
    cases name with
    | nil =>
      rw [(getElem?_of_drop hdrop).1]
      dsimp only [bind_eq_bind, bind_some]
      rw [if_neg hc]
      simp
    | cons b name =>
      obtain ⟨hb, hrest⟩ := getElem?_of_drop hdrop
      rw [hb]
      dsimp only [bind_eq_bind, bind_some]
      split
      · rename_i heq
        rw [ih hrest hwanted, heq]
        simp
      · rename_i hne
        simp [Ne.symm hne]

theorem sameAt_concat_zero {p : ℕ} {name more : List UInt8} (hdrop : archive.drop p = name ++ 0 :: more)
    (hname : 0 ∉ name) {wanted : List UInt8} (hwanted : 0 ∉ wanted) :
    sameAt archive (wanted ++ [0]) p = some (decide (name = wanted)) := by
  induction wanted generalizing p name with
  | nil =>
    rw [nil_append, sameAt]
    cases name with
    | nil =>
      rw [(getElem?_of_drop hdrop).1]
      rfl
    | cons b name =>
      obtain ⟨hb, -⟩ := not_or.mp (mt mem_cons.mpr hname)
      rw [(getElem?_of_drop hdrop).1]
      dsimp only [bind_eq_bind, bind_some]
      rw [if_neg (Ne.symm hb)]
      simp
  | cons c wanted ih =>
    obtain ⟨hc, hwanted⟩ := not_or.mp (mt mem_cons.mpr hwanted)
    rw [cons_append, sameAt]
    cases name with
    | nil =>
      rw [(getElem?_of_drop hdrop).1]
      dsimp only [bind_eq_bind, bind_some]
      rw [if_neg hc]
      simp
    | cons b name =>
      obtain ⟨-, hname⟩ := not_or.mp (mt mem_cons.mpr hname)
      obtain ⟨hb, hrest⟩ := getElem?_of_drop hdrop
      rw [hb]
      dsimp only [bind_eq_bind, bind_some]
      split
      · rename_i heq
        rw [ih hrest hname hwanted, heq]
        simp
      · rename_i hne
        simp [hne]

theorem exists_stored (hend : 0 ∈ archive.drop e.offset) :
    0 ∉ fileName archive e ∧ ∃ more, archive.drop e.offset = fileName archive e ++ 0 :: more := by
  refine ⟨fun hmem ↦ by simpa using mem_takeWhile_imp hmem, ?_⟩
  have hsplit := takeWhile_append_dropWhile (p := (· ≠ (0 : UInt8))) (l := archive.drop e.offset)
  rcases boundary_dropWhile 0 (archive.drop e.offset) with hnil | ⟨more, hmore⟩
  · rw [hnil, List.append_nil] at hsplit
    rw [← hsplit] at hend
    simpa using mem_takeWhile_imp hend
  · rw [hmore] at hsplit
    exact ⟨more, hsplit.symm⟩

theorem nameMatches_of_part {front part more : List UInt8}
    (hbase : baseFrom (archive.drop offset) offset offset = some (offset + front.length))
    (hpart : archive.drop (offset + front.length) = part ++ 0 :: more) (hzero : 0 ∉ part) {wanted : CString}
    (hwanted : 0 ∉ wanted) :
    nameMatches archive offset wanted = some (decide (part = wanted ∨ part = wanted ++ cstring ".ko")) := by
  rw [nameMatches, hbase]
  dsimp only [bind_eq_bind, bind_some]
  rw [sameAt_eq hpart hwanted]
  dsimp only [bind_some]
  by_cases hbegins : wanted <+: part
  · obtain ⟨t, rfl⟩ := hbegins
    have hrest : archive.drop (offset + front.length + wanted.length) = t ++ 0 :: more := by
      rw [← drop_drop, hpart, append_assoc, drop_left]
    rw [if_pos (by simp)]
    cases t with
    | nil =>
      rw [(getElem?_of_drop hrest).1]
      simp
    | cons c t =>
      have hc : c ≠ 0 := fun h ↦ hzero (by simp [h])
      have ht : 0 ∉ c :: t := fun h ↦ hzero (mem_append_right _ h)
      rw [(getElem?_of_drop hrest).1]
      dsimp only [bind_some]
      rw [if_neg hc]
      by_cases hdot : c = 0x2E
      · rw [if_pos hdot]
        refine (sameAt_concat_zero hrest ht (by decide : (0 : UInt8) ∉ [0x2E, 0x6B, 0x6F])).trans ?_
        simp [cstring]
      · rw [if_neg hdot]
        simp [cstring, hdot]
  · rw [if_neg (by simpa using hbegins)]
    have hnot : ¬ (part = wanted ∨ part = wanted ++ cstring ".ko") := by
      rintro (rfl | rfl)
      · exact hbegins prefix_rfl
      · exact hbegins (prefix_append _ _)
    rw [decide_eq_false hnot]
    rfl

theorem nameMatches_eq (hend : 0 ∈ archive.drop e.offset) {wanted : CString} (hwanted : 0 ∉ wanted) :
    nameMatches archive e.offset wanted = some (decide (Named archive e wanted)) := by
  obtain ⟨hname, more, hstored⟩ := exists_stored hend
  obtain ⟨front, hfront⟩ := lastPart_suffix slash (fileName archive e)
  have hbase := baseFrom_eq (fileName archive e) more [] hname not_mem_nil e.offset
  have hlength := congrArg List.length hfront
  rw [length_append] at hlength
  rw [length_nil, Nat.add_zero, nil_append, ← hstored, ← hlength, Nat.add_sub_cancel] at hbase
  have hpart : archive.drop (e.offset + front.length) = lastPart slash (fileName archive e) ++ 0 :: more := by
    rw [← drop_drop, hstored]
    nth_rewrite 1 [← hfront]
    rw [append_assoc, drop_left]
  have hzero : 0 ∉ lastPart slash (fileName archive e) := fun h ↦ hname ((lastPart_suffix slash _).subset h)
  exact (nameMatches_of_part hbase hpart hzero hwanted).trans (congrArg some (decide_eq_decide.mpr Iff.rfl))

end Names

/-- The four walks end inside the archive and agree on its files; the data of a file lies after its header and before the
next one; and a file is found by its name. -/
structure Agree (archive : Image) : Prop where
  count : initrdFileCount archive = some (files archive).length
  dataAt : ∀ i, initrdDataAt archive i = some ((files archive)[i]?.map fun e ↦ (e.offset, e.size, e.data))
  nameAt : ∀ i, initrdNameAt archive i = some ((files archive)[i]?.map fun e ↦ (e.offset, e.size))
  inside : ∀ e ∈ files archive, e.data + e.size ≤ archive.length
  apart : (files archive).Pairwise fun e e' ↦ e.data + e.size ≤ e'.offset
  find : ∀ wanted, 0 ∉ wanted → initrdFind archive wanted =
    some (((files archive).find? fun e ↦ decide (Named archive e wanted)).map fun e ↦ (e.size, e.data))

section

variable (hlen : archive.length < 2 ^ 32)

include hlen

theorem initrdFileCount_eq : initrdFileCount archive = some (files archive).length := by
  rw [initrdFileCount, walk_files _ hlen, visits_count, Nat.zero_add]
  rfl

theorem initrdDataAt_eq (i : ℕ) :
    initrdDataAt archive i = some ((files archive)[i]?.map fun e ↦ (e.offset, e.size, e.data)) := by
  rw [initrdDataAt, walk_files _ hlen, visits_index _ i _ (Nat.zero_le i), Nat.sub_zero]
  cases (files archive)[i]? <;> rfl

theorem initrdNameAt_eq (i : ℕ) :
    initrdNameAt archive i = some ((files archive)[i]?.map fun e ↦ (e.offset, e.size)) := by
  rw [initrdNameAt, walk_files _ hlen, visits_index _ i _ (Nat.zero_le i), Nat.sub_zero]
  cases (files archive)[i]? <;> rfl

theorem initrdFind_eq (hend : ∀ e ∈ files archive, 0 ∈ archive.drop e.offset) {wanted : CString}
    (hwanted : 0 ∉ wanted) : initrdFind archive wanted =
      some (((files archive).find? fun e ↦ decide (Named archive e wanted)).map fun e ↦ (e.size, e.data)) := by
  rw [initrdFind, walk_files _ hlen, visits_find (fun e ↦ decide (Named archive e wanted)) fun e ↦ (e.size, e.data)]
  · cases (files archive).find? fun e ↦ decide (Named archive e wanted) <;> rfl
  · intro e he
    rw [nameMatches_eq (hend e he) hwanted]
    rfl

end

theorem visits_eq_none {β : Type} {visit : Unit → Entry → Option (β ⊕ Unit)} {es : List Entry}
    (hstay : ∀ e ∈ es, visit () e = none ∨ visit () e = some (.inr ())) (hleave : ∃ e ∈ es, visit () e = none) :
    visits visit es () = none := by
  induction es with
  | nil =>
    obtain ⟨e, he, -⟩ := hleave
    cases he
  | cons e es ih =>
    rw [visits]
    rcases hstay e mem_cons_self with hnone | hgo
    · rw [hnone]
      rfl
    · rw [hgo]
      refine ih (fun e he ↦ hstay e (mem_cons_of_mem _ he)) ?_
      obtain ⟨e', he', hnone⟩ := hleave
      rcases mem_cons.mp he' with rfl | he'
      · rw [hgo] at hnone
        cases hnone
      · exact ⟨e', he', hnone⟩

theorem initrdFind_eq_none (hlen : archive.length < 2 ^ 32) (h : ∃ e ∈ files archive, 0 ∉ archive.drop e.offset)
    {wanted : CString} (hwanted : 0 ∉ wanted) (hlong : archive.length < wanted.length) :
    initrdFind archive wanted = none := by
  obtain ⟨e, he, hend⟩ := h
  have hleave : ∀ e : Entry, 0 ∉ archive.drop e.offset → nameMatches archive e.offset wanted = none := by
    intro e he
    rw [nameMatches, baseFrom_eq_none he]
    rfl
  have hnot : ∀ e, ¬ Named archive e wanted := by
    intro e hnamed
    have hpart := (lastPart_suffix slash (fileName archive e)).length_le
    have hname : (fileName archive e).length ≤ archive.length :=
      ( takeWhile_prefix _).length_le.trans (length_drop.trans_le (Nat.sub_le _ _))
    rcases hnamed with heq | heq <;> rw [heq] at hpart
    · omega
    · rw [length_append] at hpart
      omega
  rw [initrdFind, walk_files _ hlen, visits_eq_none]
  · rfl
  · intro e _
    by_cases hend : 0 ∈ archive.drop e.offset
    · rw [nameMatches_eq hend hwanted, decide_eq_false (hnot e)]
      exact .inr rfl
    · rw [hleave e hend]
      exact .inl rfl
  · refine ⟨e, he, ?_⟩
    rw [hleave e hend]
    rfl

def oneModule : Image :=
  cstring "modules/a.ko" ++ List.replicate 112 0 ++ cstring "00000000003" ++ List.replicate 21 0 ++ [0x30] ++
    List.replicate 355 0 ++ [7, 8, 9]

end Eris.Boot
