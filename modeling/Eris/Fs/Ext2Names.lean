import Eris.Fs.Ext2Cache

namespace Eris.Fs.Ext2

open Block Library.Bytes Library.Filling List

/-- What is listed is found as the inode of that entry, and what is found is listed once. -/
structure Agree (dev : Device) (disk : DiskInode) (cache : List Ext2Inode) : Prop where
  found : ∀ i name, (mountedOn dev).entryAt allFrames disk i = .ok (some name) →
    ∃ number cache', (listed dev disk)[i]?.map Prod.snd = some number ∧
      (mountedOn dev).lookup allFrames disk name cache = .ok (some (nodeOn dev number), cache')
  once : ∀ name, 0 ∉ name → ∀ node cache', (mountedOn dev).lookup allFrames disk name cache = .ok (some node, cache') →
    ∃! i, (mountedOn dev).entryAt allFrames disk i = .ok (some name)

variable {dev : Device} {disk : DiskInode} {block : List UInt8} {wanted seen : ℕ}

theorem visitAll_listEntry {entries : List Entry}
    (hinside : ∀ e ∈ entries, e.offset + entrySize + e.nameLength ≤ block.length) (hseen : seen ≤ wanted) :
    visitAll (Ext2Fs.listEntry wanted block) entries seen =
      .ok (match entries[wanted - seen]? with
        | none => .inr (seen + entries.length)
        | some e => .inl (((block.drop (e.offset + entrySize)).take e.nameLength).take 63)) := by
  induction entries generalizing seen with
  | nil => rfl
  | cons e entries ih =>
    have he := hinside e mem_cons_self
    rw [visitAll, Ext2Fs.listEntry]
    obtain rfl | hlt := Nat.eq_or_lt_of_le hseen
    · rw [if_pos rfl, slice_of_le (by omega), Nat.sub_self, getElem?_cons_zero, ← take_take]
      rfl
    · have hnext : wanted - seen = wanted - (seen + 1) + 1 := by omega
      rw [if_neg hlt.ne, hnext, getElem?_cons_succ, length_cons, Nat.add_comm entries.length, ← Nat.add_assoc]
      exact ih (fun e' he' ↦ hinside e' (mem_cons_of_mem _ he')) hlt

theorem visitAll_entries {fs : Ext2Fs} {blocks : List (List UInt8)} (hblocks : ∀ block ∈ blocks, block.length = fs.blockSize ∧
      ∀ e ∈ liveEntries block, e.offset + entrySize + e.nameLength ≤ block.length) (hseen : seen ≤ wanted) :
    visitAll (fun seen block ↦ overEntries block fs.blockSize (Ext2Fs.listEntry wanted block) (fs.blockSize + 1) 0 seen)
        blocks seen =
      .ok (match (blocks.flatMap entriesIn)[wanted - seen]? with
        | none => .inr (seen + (blocks.flatMap entriesIn).length)
        | some e => .inl (e.1.take 63)) := by
  induction blocks generalizing seen with
  | nil => rfl
  | cons block blocks ih =>
    obtain ⟨hlength, hinside⟩ := hblocks block mem_cons_self
    have hcount : (entriesIn block).length = (liveEntries block).length := length_map _
    rw [visitAll, ← hlength, overEntries_eq (Nat.succ_pos _) (by omega), ← liveEntries, visitAll_listEntry hinside hseen,
      flatMap_cons, getElem?_append, hcount]
    by_cases hlt : wanted - seen < (liveEntries block).length
    · rw [if_pos hlt, entriesIn, getElem?_map, getElem?_eq_getElem hlt]
      rfl
    · rw [if_neg hlt, getElem?_eq_none (Nat.not_lt.mp hlt)]
      dsimp only
      rw [hlength, ih (fun b hb ↦ hblocks b (mem_cons_of_mem _ hb)) (by omega), length_append, hcount,
        Nat.add_assoc, Nat.sub_add_eq]

theorem Listable.entryAt_eq (h : WellFormed dev) (hdir : Listable dev disk) (hdirectory : disk.isDirectory = true) (i : ℕ) :
    (mountedOn dev).entryAt allFrames disk i = .ok ((listed dev disk)[i]?.map fun e ↦ e.1.take 63) := by
  have hpage : allFrames.page = true := rfl
  rw [Ext2Fs.entryAt, if_pos hdirectory, if_pos hpage]
  dsimp only
  rw [hdir.overBlocks_eq h, visitAll_entries (by rw [h.mounted_blockSize]; exact hdir.blocks_inside) (Nat.zero_le i),
    ← listed, Nat.sub_zero]
  cases (listed dev disk)[i]? <;> rfl

theorem Listable.lookup_of_mem (hdir : Listable dev disk) {e : List UInt8 × ℕ} (he : e ∈ listed dev disk) :
    (listed dev disk).lookup e.1 = some e.2 := by
  have hunique := hdir.unique
  obtain ⟨before, after, hsplit⟩ := append_of_mem he
  rw [hsplit, map_append, nodup_append] at hunique
  refine lookup_eq_some_iff.mpr ⟨before, after, hsplit, fun p hp ↦ bne_iff_ne.mpr fun hname ↦ ?_⟩
  exact hunique.2.2 p.1 (mem_map_of_mem hp) e.1 mem_cons_self hname.symm

theorem Listable.lookup_entry (h : WellFormed dev) (hdir : Listable dev disk) (hdirectory : disk.isDirectory = true)
    {c : List ℕ} (hroom : c.length < maxOpenInodes) {e : List UInt8 × ℕ} (he : e ∈ listed dev disk) :
    ∃ cache', (mountedOn dev).lookup allFrames disk e.1 (c.map (nodeOn dev)) = .ok (some (nodeOn dev e.2), cache') := by
  have hrange : 0 < e.2 ∧ e.2 ≤ (superOn dev).inodeCount := by
    obtain ⟨block, hblock, hentry⟩ := mem_flatMap.mp he
    obtain ⟨index, hindex, rfl⟩ := mem_map.mp hblock
    obtain ⟨live, hlive, rfl⟩ := mem_map.mp hentry
    exact ⟨Nat.pos_of_ne_zero (inode_ne_of_mem_live hlive), (hdir.inside index (mem_range.mp hindex) live hlive).2⟩
  have hmem : e.2 ∈ (put maxOpenInodes c e.2).2 := by
    obtain ⟨hin, hput⟩ | ⟨-, -, hput⟩ | ⟨-, hfull, -⟩ := put_cases maxOpenInodes c e.2
    · rwa [hput]
    · rw [hput]
      exact mem_append_right _ mem_cons_self
    · exact absurd hroom (Nat.not_lt.mpr hfull)
  refine ⟨(opened dev e.2 c).2, ?_⟩
  rw [hdir.lookup_eq h hdirectory, hdir.lookup_of_mem he]
  dsimp only
  rw [h.openInode_eq hrange, opened, if_pos hmem]

/-- Listing and lookup agree exactly if no name has more than 63 bytes. -/
theorem listing_agrees_iff (h : WellFormed dev) (hdir : Listable dev disk) (hdirectory : disk.isDirectory = true)
    (hnul : ∀ e ∈ listed dev disk, 0 ∉ e.1) {c : List ℕ} (hroom : c.length < maxOpenInodes) :
    Agree dev disk (c.map (nodeOn dev)) ↔ ∀ e ∈ listed dev disk, e.1.length ≤ 63 := by
  have hentry : ∀ i name, (mountedOn dev).entryAt allFrames disk i = .ok (some name) ↔
      ∃ e, (listed dev disk)[i]? = some e ∧ e.1.take 63 = name := by
    intro i name
    rw [hdir.entryAt_eq h hdirectory, Except.ok.injEq, Option.map_eq_some_iff]
  constructor
  · intro hagree e he
    obtain ⟨cache', hlookup⟩ := hdir.lookup_entry h hdirectory hroom he
    obtain ⟨i, hlisted, -⟩ := hagree.once e.1 (hnul e he) _ _ hlookup
    obtain ⟨e', -, hname⟩ := (hentry i e.1).mp hlisted
    rw [← hname, length_take]
    exact min_le_left _ _
  · intro hshort
    have htake : ∀ e ∈ listed dev disk, e.1.take 63 = e.1 := fun e he ↦ take_of_length_le (hshort e he)
    constructor
    · intro i name hlisted
      obtain ⟨e, he, rfl⟩ := (hentry i name).mp hlisted
      have hmem := mem_of_getElem? he
      obtain ⟨cache', hlookup⟩ := hdir.lookup_entry h hdirectory hroom hmem
      rw [htake e hmem, he]
      exact ⟨e.2, cache', rfl, hlookup⟩
    · intro name _ node cache' hlookup
      obtain ⟨number, hfound⟩ : ∃ number, (listed dev disk).lookup name = some number := by
        rw [hdir.lookup_eq h hdirectory] at hlookup
        cases hnone : (listed dev disk).lookup name with
        | none =>
          rw [hnone] at hlookup
          cases hlookup
        | some number => exact ⟨number, rfl⟩
      obtain ⟨before, after, hsplit, -⟩ := lookup_eq_some_iff.mp hfound
      have hmem : (name, number) ∈ listed dev disk := by
        rw [hsplit]
        exact mem_append_right _ mem_cons_self
      obtain ⟨i, hi⟩ := mem_iff_getElem?.mp hmem
      refine ⟨i, (hentry i name).mpr ⟨_, hi, htake _ hmem⟩, fun j hj ↦ ?_⟩
      obtain ⟨e, he, hname⟩ := (hentry j name).mp hj
      rw [htake e (mem_of_getElem? he)] at hname
      obtain ⟨hlt, -⟩ := List.getElem?_eq_some_iff.mp he
      refine (getElem?_inj (by rwa [length_map]) hdir.unique).mp ?_
      rw [getElem?_map, getElem?_map, he, hi]
      exact congrArg some hname

theorem crowded_listable : Listable crowded (inodeOn crowded rootInode) :=
  (crowded_tree.directories _ .root crowded_entries.1).listable crowded_tree.toWellFormed

theorem listing_agrees_crowded : Agree crowded (inodeOn crowded rootInode) [] := by
  have hlisted : listed crowded (inodeOn crowded rootInode) = (List.range 32).map fun k ↦ ([(97 + k).toUInt8], 3 + k) :=
    by decide +kernel
  have hroom : ([] : List ℕ).length < maxOpenInodes := by decide
  refine (listing_agrees_iff crowded_tree.toWellFormed crowded_listable crowded_entries.1 ?_ hroom).mpr ?_
  · rw [hlisted]
    decide +kernel
  · rw [hlisted]
    decide +kernel

def overlongEntry : Device where
  readable _ := true
  bytes address :=
    if 11264 ≤ address ∧ address < 12288 then
      match address - 11264 with
      | 0 => 3
      | 5 => 4
      | 6 => 64
      | k => if 8 ≤ k ∧ k < 72 then 97 else 0
    else crowded.bytes address

/-- The name is found, and only its first 63 bytes are listed. -/
theorem listing_cut : WellFormed overlongEntry ∧ Listable overlongEntry (inodeOn overlongEntry rootInode) ∧
    (mountedOn overlongEntry).lookup allFrames (inodeOn overlongEntry rootInode) (List.replicate 64 97) [] =
      .ok (some (nodeOn overlongEntry 3), [nodeOn overlongEntry 3]) ∧
    (mountedOn overlongEntry).entryAt allFrames (inodeOn overlongEntry rootInode) 0 = .ok (some (List.replicate 63 97)) ∧
    (mountedOn overlongEntry).entryAt allFrames (inodeOn overlongEntry rootInode) 1 = .ok none :=
  ⟨⟨by decide +kernel, by decide +kernel, by decide +kernel, by decide +kernel, by decide +kernel, by decide +kernel,
      by decide +kernel, by decide +kernel, by decide +kernel, fun _ _ ↦ rfl⟩,
    ⟨by decide +kernel, by decide +kernel, by decide +kernel, by decide +kernel⟩,
    by decide +kernel, by decide +kernel, by decide +kernel⟩

end Eris.Fs.Ext2
