import Eris.Fs.Ext2Layout

namespace Eris.Fs.Ext2

open Block Library.Bytes Library.Words List

def entriesFrom (block : List UInt8) : ℕ → ℕ → List Entry
  | 0, _ => []
  | fuel + 1, offset =>
    if offset + entrySize < block.length then
      let raw := (block.drop offset).take entrySize
      if field raw 4 2 = 0 then []
      else ⟨offset, field raw 0 4, field raw 4 2, field raw 6 1⟩ :: entriesFrom block fuel (offset + field raw 4 2)
    else []

def liveEntries (block : List UInt8) : List Entry := (entriesFrom block (block.length + 1) 0).filter (·.inode ≠ 0)

def visitAll {α β γ : Type} (visit : α → γ → Except Fault (β ⊕ α)) : List γ → α → Except Fault (β ⊕ α)
  | [], a => .ok (.inr a)
  | c :: l, a =>
    match visit a c with
    | .error fault => .error fault
    | .ok (.inl b) => .ok (.inl b)
    | .ok (.inr a) => visitAll visit l a

def Named (block : List UInt8) (name : List UInt8) (entry : Entry) : Prop :=
  name.length = entry.nameLength ∧ name <+: block.drop (entry.offset + entrySize)

def Crosses (block : List UInt8) (name : List UInt8) (entry : Entry) : Prop :=
  name.length = entry.nameLength ∧ block.drop (entry.offset + entrySize) <+: name ∧
    block.length < entry.offset + entrySize + entry.nameLength

instance (block name : List UInt8) : DecidablePred (Named block name) :=
  fun _ ↦ inferInstanceAs (Decidable (_ ∧ _))

instance (block name : List UInt8) : DecidablePred (Crosses block name) :=
  fun _ ↦ inferInstanceAs (Decidable (_ ∧ _ ∧ _))

section Entries

variable {α β : Type} {block name : List UInt8} {visit : α → Entry → Except Fault (β ⊕ α)} {a : α} {offset p : ℕ}
  {entry : Entry}

theorem overEntries_eq {fuel : ℕ} (hpos : 0 < fuel) (hfuel : block.length < offset + fuel) :
    overEntries block block.length visit fuel offset a =
      visitAll visit ((entriesFrom block fuel offset).filter (·.inode ≠ 0)) a := by
  induction fuel generalizing offset a with
  | zero => cases hpos
  | succ fuel ih =>
    rw [overEntries, entriesFrom]
    split
    · rename_i hinside
      rw [slice_of_le (by omega)]
      dsimp only
      split
      · rfl
      · rename_i hlength
        have ih := fun a ↦ ih (a := a) (by omega)
          (by omega : block.length < offset + field ((block.drop offset).take entrySize) 4 2 + fuel)
        by_cases hlive : field ((block.drop offset).take entrySize) 0 4 ≠ 0
        · rw [if_pos hlive, filter_cons_of_pos (by simpa using hlive), visitAll]
          cases hvisit : visit a _ with
          | error fault => rfl
          | ok r =>
            cases r with
            | inl b => rfl
            | inr a => exact ih a
        · rw [if_neg hlive, filter_cons_of_neg (by simpa using hlive)]
          exact ih a
    · rfl

theorem offset_lt_of_mem {fuel : ℕ} (h : entry ∈ entriesFrom block fuel offset) :
    entry.offset + entrySize < block.length := by
  induction fuel generalizing offset with
  | zero => cases h
  | succ fuel ih =>
    rw [entriesFrom] at h
    split at h
    · rename_i hinside
      dsimp only at h
      split at h
      · cases h
      · obtain rfl | h := mem_cons.mp h
        · exact hinside
        · exact ih h
    · cases h

theorem offset_lt_of_mem_live (h : entry ∈ liveEntries block) : entry.offset + entrySize < block.length :=
  offset_lt_of_mem (mem_filter.mp h).1

theorem inode_ne_of_mem_live (h : entry ∈ liveEntries block) : entry.inode ≠ 0 := by
  simpa using (mem_filter.mp h).2

theorem inode_lt_of_mem {fuel : ℕ} (h : entry ∈ entriesFrom block fuel offset) : entry.inode < 2 ^ 32 := by
  induction fuel generalizing offset with
  | zero => cases h
  | succ fuel ih =>
    rw [entriesFrom] at h
    split at h
    · dsimp only at h
      split at h
      · cases h
      · obtain rfl | h := mem_cons.mp h
        · exact field_lt ..
        · exact ih h
    · cases h

theorem sameAt_eq (hp : p ≤ block.length) : sameAt block name p = if name <+: block.drop p then .ok true
    else if block.drop p <+: name then .error .outsideBlock else .ok false := by
  induction name generalizing p with
  | nil => rw [if_pos nil_prefix]; rfl
  | cons c name ih =>
    rw [sameAt]
    by_cases hlt : p < block.length
    · rw [getElem?_eq_getElem hlt, drop_eq_getElem_cons hlt]
      dsimp only
      split
      · rename_i heq
        subst heq
        rw [ih hlt]
        simp only [cons_prefix_cons, true_and]
      · rename_i hne
        rw [if_neg fun h ↦ hne (cons_prefix_cons.mp h).1.symm, if_neg fun h ↦ hne (cons_prefix_cons.mp h).1]
        rfl
    · rw [getElem?_eq_none (Nat.not_lt.mp hlt), drop_eq_nil_of_le (Nat.not_lt.mp hlt),
        if_neg (by simp), if_pos nil_prefix]

theorem visitAll_find {P Q : Entry → Prop} [DecidablePred P] [DecidablePred Q] {visit : Unit → Entry → Except Fault (β ⊕ Unit)}
    {f : Entry → β} {fault : Fault} {entries : List Entry} (h : ∀ entry ∈ entries, visit () entry =
      if P entry then .ok (.inl (f entry)) else if Q entry then .error fault else .ok (.inr ())) :
    visitAll visit entries () = match entries.find? fun entry ↦ P entry ∨ Q entry with
      | none => .ok (.inr ())
      | some entry => if P entry then .ok (.inl (f entry)) else .error fault := by
  induction entries with
  | nil => rfl
  | cons entry entries ih =>
    rw [visitAll, h entry mem_cons_self]
    by_cases hP : P entry
    · rw [if_pos hP, find?_cons_of_pos (by simp [hP])]
      dsimp only
      rw [if_pos hP]
    · rw [if_neg hP]
      by_cases hQ : Q entry
      · rw [if_pos hQ, find?_cons_of_pos (by simp [hQ])]
        dsimp only
        rw [if_neg hP]
      · rw [if_neg hQ, find?_cons_of_neg (by simp [hP, hQ])]
        exact ih fun entry' hmem ↦ h entry' (mem_cons_of_mem _ hmem)

theorem scan_eq {fs : Ext2Fs} (hblock : block.length = fs.blockSize) : fs.scan block name =
    match (liveEntries block).find? fun entry ↦ Named block name entry ∨ Crosses block name entry with
    | none => .ok (.inr ())
    | some entry => if Named block name entry then .ok (.inl entry.inode) else .error .outsideBlock := by
  rw [Ext2Fs.scan, ← hblock, overEntries_eq (Nat.succ_pos _) (by omega)]
  refine visitAll_find fun entry hentry ↦ ?_
  have hinside := offset_lt_of_mem_live hentry
  by_cases hlength : name.length = entry.nameLength
  · rw [if_pos hlength, sameAt_eq hinside.le]
    by_cases hnamed : name <+: block.drop (entry.offset + entrySize)
    · have hyes : Named block name entry := ⟨hlength, hnamed⟩
      rw [if_pos hnamed, if_pos hyes]
      rfl
    · have hno : ¬ Named block name entry := fun h ↦ hnamed h.2
      rw [if_neg hnamed, if_neg hno]
      by_cases hcrosses : block.drop (entry.offset + entrySize) <+: name
      · have hlong : block.length < entry.offset + entrySize + entry.nameLength := by
          by_contra hshort
          refine hnamed (prefix_of_prefix_length_le prefix_rfl hcrosses ?_)
          rw [length_drop]
          omega
        have hyes : Crosses block name entry := ⟨hlength, hcrosses, hlong⟩
        rw [if_pos hcrosses, if_pos hyes]
        rfl
      · have hno : ¬ Crosses block name entry := fun h ↦ hcrosses h.2.1
        rw [if_neg hcrosses, if_neg hno]
        rfl
  · have hno : ¬ Named block name entry := fun h ↦ hlength h.1
    have hno' : ¬ Crosses block name entry := fun h ↦ hlength h.1
    rw [if_neg hlength, if_neg hno, if_neg hno']
    rfl

def numberNamed (block name : List UInt8) : Option ℕ := ((liveEntries block).find? fun e ↦ Named block name e).map (·.inode)

theorem Named.not_crosses (h : Named block name entry) (hinside : entry.offset + entrySize ≤ block.length) :
    ¬ Crosses block name entry := by
  intro hcrosses
  have hle := h.2.length_le
  have hlong := hcrosses.2.2
  rw [length_drop, h.1] at hle
  omega

theorem scan_cases {fs : Ext2Fs} (hblock : block.length = fs.blockSize) (name : List UInt8) :
    (fs.scan block name = .ok (.inr ()) ∧ numberNamed block name = none) ∨
    (∃ number < 2 ^ 32, fs.scan block name = .ok (.inl number) ∧ numberNamed block name = some number) ∨
    fs.scan block name = .error .outsideBlock ∧ ∃ before entry after, liveEntries block = before ++ entry :: after ∧
      Crosses block name entry ∧ ∀ e ∈ before, ¬ Named block name e := by
  rw [scan_eq hblock]
  cases hfind : (liveEntries block).find? fun entry ↦ Named block name entry ∨ Crosses block name entry with
  | none =>
    have hnone : ∀ e ∈ liveEntries block, ¬ Named block name e := fun e he hnamed ↦
      find?_eq_none.mp hfind e he (decide_eq_true (.inl hnamed))
    refine .inl ⟨rfl, ?_⟩
    rw [numberNamed, find?_eq_none.mpr (by simpa using hnone)]
    rfl
  | some entry =>
    obtain ⟨hentry, before, after, hsplit, hbefore⟩ := find?_eq_some_iff_append.mp hfind
    have hnot : ∀ e ∈ before, ¬ Named block name e := by
      intro e he hnamed
      have := hbefore e he
      simp [hnamed] at this
    dsimp only
    split
    · rename_i hnamed
      have hmem := mem_of_find?_eq_some hfind
      refine .inr (.inl ⟨entry.inode, inode_lt_of_mem (mem_filter.mp hmem).1, rfl, ?_⟩)
      have hfirst : (liveEntries block).find? (fun e ↦ Named block name e) = some entry :=
        find?_eq_some_iff_append.mpr ⟨decide_eq_true hnamed, before, after, hsplit, by simpa using hnot⟩
      rw [numberNamed, hfirst]
      rfl
    · rename_i hnamed
      have hcrosses := (of_decide_eq_true hentry).resolve_left hnamed
      exact .inr (.inr ⟨rfl, before, entry, after, hsplit, hcrosses, hnot⟩)

theorem scan_error {fs : Ext2Fs} (hblock : block.length = fs.blockSize) {before after : List Entry}
    (hsplit : liveEntries block = before ++ entry :: after) (hcrosses : Crosses block name entry)
    (hnot : ∀ e ∈ before, ¬ Named block name e) : fs.scan block name = .error .outsideBlock := by
  have hentry : entry ∈ liveEntries block := by simp [hsplit]
  have hnamed : ¬ Named block name entry := fun h ↦ h.not_crosses (offset_lt_of_mem_live hentry).le hcrosses
  rw [scan_eq hblock, hsplit, find?_append]
  cases hfind : before.find? fun entry ↦ Named block name entry ∨ Crosses block name entry with
  | none =>
    rw [Option.none_or, find?_cons_of_pos (by simp [hcrosses])]
    exact if_neg hnamed
  | some e =>
    rw [Option.some_or]
    exact if_neg (hnot e (mem_of_find?_eq_some hfind))

end Entries

section Blocks

variable (dev : Device) (disk : DiskInode) (index : ℕ)

/-- The block of a directory at an index, if the loops come so far and it can be read. -/
def directoryBlock : Option (List UInt8) :=
  if index * (mountedOn dev).blockSize % 2 ^ 32 < disk.size ∧ pointerAt dev disk index ≠ 0 then
    blockAt dev (pointerAt dev disk index)
  else none

def FitsAt : Prop :=
  (Indirect dev disk index → Fits dev disk.indirect) ∧
    (pointerAt dev disk index ≠ 0 → Fits dev (pointerAt dev disk index))

def Reading (frames : Frames) (index : ℕ) : Prop :=
  ((frames.below index).below 0).page = true ∧ (((frames.below index).below 0).below 0).page = true ∧
    ((frames.below index).below 1).page = true

variable {dev disk index} {α β : Type} {visit : ℕ → α → List UInt8 → Except Fault (β ⊕ α)} {a : α} {frames : Frames}

theorem pointerAt_lt (dev : Device) (disk : DiskInode) (index : ℕ) : pointerAt dev disk index < 2 ^ 32 := by
  rw [pointerAt]
  split
  · exact direct_lt ..
  · split
    · have hlt := fromBytes_lt (span dev.bytes (disk.indirect * (mountedOn dev).blockSize + 4 * (index - 12)) 4)
      rwa [length_span] at hlt
    · decide

theorem length_directoryBlock {block : List UInt8} (h : directoryBlock dev disk index = some block) :
    block.length = (mountedOn dev).blockSize :=
  length_blockAt (Option.ite_none_right_eq_some.mp h).2

theorem directoryBlock_eq_none (h : 12 + (mountedOn dev).blockSize / 4 ≤ index) : directoryBlock dev disk index = none := by
  refine if_neg fun hblock ↦ hblock.2 ?_
  have hindirect : ¬ Indirect dev disk index := fun h' ↦ by
    have := h'.2.1
    omega
  rw [pointerAt, if_neg (by omega), if_neg fun h' ↦ hindirect h'.1]

theorem blockFor_of_fits (h : Indirect dev disk index → Fits dev disk.indirect) (frames : Frames) :
    (mountedOn dev).blockFor frames disk index = .ok (pointerAt dev disk index) ∨
      (mountedOn dev).blockFor frames disk index = .ok 0 ∧ ¬ (frames.page = true ∧ (frames.below 0).page = true) := by
  rw [blockFor_eq]
  by_cases hindirect : Indirect dev disk index
  · rw [if_pos hindirect, if_pos (h hindirect)]
    by_cases hpages : frames.page = true ∧ (frames.below 0).page = true
    · exact .inl (if_pos hpages)
    · exact .inr ⟨if_neg hpages, hpages⟩
  · exact .inl (if_neg hindirect)

theorem overBlocks_cases {fuel : ℕ} (hfits : index * (mountedOn dev).blockSize % 2 ^ 32 < disk.size → FitsAt dev disk index) :
    ((mountedOn dev).overBlocks frames disk visit (fuel + 1) index a = .ok (.inr a) ∧
      ¬ (Reading frames index ∧ (directoryBlock dev disk index).isSome)) ∨
    ∃ block, directoryBlock dev disk index = some block ∧
      (mountedOn dev).overBlocks frames disk visit (fuel + 1) index a =
        match visit index a block with
        | .error fault => .error fault
        | .ok (.inl b) => .ok (.inl b)
        | .ok (.inr a) => (mountedOn dev).overBlocks frames disk visit fuel (index + 1) a := by
  rw [Ext2Fs.overBlocks]
  by_cases hsize : index * (mountedOn dev).blockSize % 2 ^ 32 < disk.size
  · obtain ⟨htable, hblock⟩ := hfits hsize
    rw [if_pos hsize]
    obtain hnumber | ⟨hnumber, hpages⟩ := blockFor_of_fits htable ((frames.below index).below 0)
    · rw [hnumber]
      dsimp only [Bind.bind, Except.bind]
      by_cases hzero : pointerAt dev disk index = 0
      · rw [if_pos hzero]
        refine .inl ⟨rfl, fun h ↦ ?_⟩
        rw [directoryBlock, if_neg fun h' ↦ h'.2 hzero] at h
        cases h.2
      · rw [if_neg hzero, readBlock_eq dev (pointerAt_lt ..), if_neg fun h ↦ h.2 (hblock hzero)]
        have hdirectory : directoryBlock dev disk index = blockAt dev (pointerAt dev disk index) := if_pos ⟨hsize, hzero⟩
        by_cases hpage : ((frames.below index).below 1).page = true
        · rw [if_pos hpage, ← hdirectory]
          cases hread : directoryBlock dev disk index with
          | none => exact .inl ⟨rfl, fun h ↦ by cases h.2⟩
          | some block =>
            refine .inr ⟨block, rfl, ?_⟩
            dsimp only
            cases visit index a block with
            | error fault => rfl
            | ok r => cases r <;> rfl
        · rw [if_neg hpage]
          exact .inl ⟨rfl, fun h ↦ hpage h.1.2.2⟩
    · rw [hnumber]
      exact .inl ⟨rfl, fun h ↦ hpages ⟨h.1.1, h.1.2.1⟩⟩
  · rw [if_neg hsize]
    refine .inl ⟨rfl, fun h ↦ ?_⟩
    rw [directoryBlock, if_neg fun h' ↦ hsize h'.1] at h
    cases h.2

theorem overBlocks_ok (I : ℕ → α → Prop)
    (hfits : ∀ index a, I index a → index * (mountedOn dev).blockSize % 2 ^ 32 < disk.size → FitsAt dev disk index)
    (hvisit : ∀ index a block, I index a → directoryBlock dev disk index = some block →
      ∃ r, visit index a block = .ok r ∧ ∀ a', r = .inr a' → I (index + 1) a')
    {fuel : ℕ} (hfuel : index + fuel = (mountedOn dev).rounds) (hindex : index ≤ 12 + (mountedOn dev).blockSize / 4)
    (hI : I index a) : ∃ r, (mountedOn dev).overBlocks frames disk visit fuel index a = .ok r := by
  induction fuel generalizing index a with
  | zero =>
    rw [Ext2Fs.rounds] at hfuel
    omega
  | succ fuel ih =>
    obtain ⟨hend, -⟩ | ⟨block, hblock, hnext⟩ := overBlocks_cases (hfits index a hI)
    · exact ⟨_, hend⟩
    · obtain ⟨r, hr, hkeep⟩ := hvisit index a block hI hblock
      rw [hnext, hr]
      cases r with
      | inl b => exact ⟨_, rfl⟩
      | inr a' =>
        refine ih (by omega) ?_ (hkeep a' rfl)
        by_contra hlast
        rw [directoryBlock_eq_none (by omega)] at hblock
        cases hblock

theorem overBlocks_eq {visit : α → List UInt8 → Except Fault (β ⊕ α)} {total : ℕ} {blocks : ℕ → List UInt8}
    (hfits : ∀ index, FitsAt dev disk index) (hreading : ∀ index, Reading frames index)
    (hblocks : ∀ index < total, directoryBlock dev disk index = some (blocks index))
    (hend : directoryBlock dev disk total = none) {count fuel : ℕ} (hcount : index + count = total) (hfuel : count < fuel) :
    (mountedOn dev).overBlocks frames disk (fun _ ↦ visit) fuel index a =
      visitAll visit ((List.range' index count).map blocks) a := by
  induction count generalizing index fuel a with
  | zero =>
    obtain rfl : index = total := hcount
    obtain ⟨fuel, rfl⟩ := Nat.exists_eq_succ_of_ne_zero hfuel.ne'
    obtain ⟨hdone, -⟩ | ⟨block, hblock, -⟩ := overBlocks_cases fun _ ↦ hfits index
    · exact hdone
    · rw [hend] at hblock
      cases hblock
  | succ count ih =>
    obtain ⟨fuel, rfl⟩ := Nat.exists_eq_succ_of_ne_zero (Nat.ne_of_gt (Nat.zero_lt_of_lt hfuel))
    have hblock := hblocks index (by omega)
    obtain ⟨-, hnot⟩ | ⟨block, hblock', hnext⟩ := overBlocks_cases fun _ ↦ hfits index
    · exact absurd ⟨hreading index, by rw [hblock]; rfl⟩ hnot
    · cases hblock.symm.trans hblock'
      rw [hnext, range'_succ, map_cons, visitAll]
      cases visit a (blocks index) with
      | error fault => rfl
      | ok r =>
        cases r with
        | inl b => rfl
        | inr a => exact ih (by omega) (by omega)

theorem overBlocks_error (I : ℕ → α → Prop) {last : ℕ}
    (hfits : ∀ index ≤ last, index * (mountedOn dev).blockSize % 2 ^ 32 < disk.size → FitsAt dev disk index)
    (hreading : ∀ index, Reading frames index)
    (hblocks : ∀ index ≤ last, ∃ block, directoryBlock dev disk index = some block)
    (hvisit : ∀ index a block, I index a → index < last → directoryBlock dev disk index = some block →
      (∃ fault, visit index a block = .error fault) ∨ ∃ a', visit index a block = .ok (.inr a') ∧ I (index + 1) a')
    (hlast : ∀ a block, I last a → directoryBlock dev disk last = some block → ∃ fault, visit last a block = .error fault)
    {fuel : ℕ} (hfuel : last < index + fuel) (hindex : index ≤ last) (hI : I index a) :
    ∃ fault, (mountedOn dev).overBlocks frames disk visit fuel index a = .error fault := by
  induction fuel generalizing index a with
  | zero => omega
  | succ fuel ih =>
    obtain ⟨block, hblock⟩ := hblocks index hindex
    obtain ⟨-, hnot⟩ | ⟨block', hblock', hnext⟩ := overBlocks_cases (hfits index hindex)
    · exact absurd ⟨hreading index, by rw [hblock]; rfl⟩ hnot
    · rw [hnext]
      obtain hlt | rfl := Nat.lt_or_eq_of_le hindex
      · obtain ⟨fault, hfault⟩ | ⟨a', ha', hI'⟩ := hvisit index a block' hI hlt hblock'
        · rw [hfault]
          exact ⟨fault, rfl⟩
        · rw [ha']
          exact ih (by omega) hlt hI'
      · obtain ⟨fault, hfault⟩ := hlast a block' hI hblock'
        rw [hfault]
        exact ⟨fault, rfl⟩

end Blocks

end Eris.Fs.Ext2
