import Eris.Fs.Ext2Directory
import Eris.Library.Outcome

namespace Eris.Fs.Ext2

open Block Library.Bytes Library.Words List

/-- The cache after a mount: inodes have been opened one after the other. -/
inductive Opened (fs : Ext2Fs) : List Ext2Inode → Prop
  | nil : Opened fs []
  | opened {cache cache' : List Ext2Inode} {number : ℕ} {frames : Frames} {node : Option Ext2Inode} : Opened fs cache →
      number < 2 ^ 32 → fs.openInode frames number cache = .ok (node, cache') → Opened fs cache'

/-- No call has a fault, on any inode that has been opened and with any arguments. -/
structure SafeCalls (fs : Ext2Fs) (cache : List Ext2Inode) : Prop where
  openInode : ∀ frames, ∀ number < 2 ^ 32, ∃ r, fs.openInode frames number cache = .ok r
  read : ∀ node ∈ cache, ∀ frames offset length, ∃ r, fs.read frames node.disk offset length = .ok r
  lookup : ∀ node ∈ cache, ∀ frames name, 0 ∉ name → ∃ r, fs.lookup frames node.disk name cache = .ok r
  entryAt : ∀ node ∈ cache, ∀ frames index, ∃ r, fs.entryAt frames node.disk index = .ok r

def Safe (dev : Device) : Prop :=
  ∀ (fs : Ext2Fs) (frames : Frames), ∃ r, fs.mount frames dev = .ok r ∧
    (r.1 = true → ∀ cache, Opened r.2 cache → SafeCalls r.2 cache)

def Mountable (dev : Device) : Prop := dev.Readable superblockOffset superblockSize ∧ (superOn dev).magic = ext2Magic

section Conditions

variable (dev : Device) (number : ℕ) (disk : DiskInode)

/-- The part of the name that `entry_at` copies lies in the block, and a name that would be compared beyond its end is
found before: in an entry of the same block, or in an earlier block as a name of the directory itself, which is open. -/
structure SafeEntry (index : ℕ) (block : List UInt8) (before : List Entry) (entry : Entry) : Prop where
  copy : entry.offset + entrySize + min 63 entry.nameLength ≤ block.length
  compare : ∀ name, 0 ∉ name → Crosses block name entry → (∃ e ∈ before, Named block name e) ∨
    ∃ j < index, ∃ b, directoryBlock dev disk j = some b ∧ numberNamed b name = some number

structure SafeInode : Prop where
  divides : disk.size ≠ 0 → (mountedOn dev).blockSize ≠ 0
  fits : ∀ index, index * (mountedOn dev).blockSize < disk.size → FitsAt dev disk index
  entries : disk.isDirectory = true → ∀ index block, (∀ j < index, ∃ b, directoryBlock dev disk j = some b) →
    directoryBlock dev disk index = some block → ∀ before entry after, liveEntries block = before ++ entry :: after →
    SafeEntry dev number disk index block before entry

/-- What a device has to hold. -/
structure Tame : Prop where
  blocksPerGroup : 0 < (superOn dev).blocksPerGroup
  inodesPerGroup : 0 < (superOn dev).inodesPerGroup
  inodes : ∀ number < 2 ^ 32, ∀ disk, inodeAt dev number = some disk → SafeInode dev number disk

end Conditions

variable {dev : Device} {number index : ℕ} {disk : DiskInode} {frames : Frames} {cache cache' : List Ext2Inode}
  {block name : List UInt8}

theorem openInode_cases (hgroup : 0 < (superOn dev).inodesPerGroup) (hnumber : number < 2 ^ 32) (frames : Frames)
    (cache : List Ext2Inode) :
    (∃ node ∈ cache, node.number = number ∧ (mountedOn dev).openInode frames number cache = .ok (some node, cache)) ∨
    (∀ node ∈ cache, node.number ≠ number) ∧ ((mountedOn dev).openInode frames number cache = .ok (none, cache) ∨
        ∃ disk, inodeAt dev number = some disk ∧ cache.length < maxOpenInodes ∧
          (mountedOn dev).openInode frames number cache = .ok (some ⟨number, disk⟩, cache ++ [⟨number, disk⟩])) := by
  rw [Ext2Fs.openInode]
  cases hfind : cache.find? (·.number = number) with
  | some node => exact .inl ⟨node, mem_of_find?_eq_some hfind, by simpa using find?_some hfind, rfl⟩
  | none =>
    have hnot : ∀ node ∈ cache, node.number ≠ number := by simpa using hfind
    refine .inr ⟨hnot, ?_⟩
    dsimp only
    split
    · exact .inl rfl
    · rename_i hroom
      rw [readInode_eq hgroup hnumber]
      by_cases hpages : (frames.below 0).page = true ∧ (frames.below 1).page = true
      · rw [if_pos hpages]
        cases hdisk : inodeAt dev number with
        | none => exact .inl rfl
        | some disk => exact .inr ⟨disk, rfl, Nat.not_le.mp hroom, rfl⟩
      · rw [if_neg hpages]
        exact .inl rfl

theorem Opened.inodeAt_eq (hgroup : 0 < (superOn dev).inodesPerGroup) (h : Opened (mountedOn dev) cache)
    {node : Ext2Inode} (hnode : node ∈ cache) : node.number < 2 ^ 32 ∧ inodeAt dev node.number = some node.disk := by
  induction h with
  | nil => cases hnode
  | @opened cache cache' number frames found _ hnumber hopen ih =>
    obtain ⟨_, -, -, hsame⟩ | ⟨-, hsame | ⟨disk, hdisk, -, hnew⟩⟩ := openInode_cases hgroup hnumber frames cache
    · rw [hsame] at hopen
      cases hopen
      exact ih hnode
    · rw [hsame] at hopen
      cases hopen
      exact ih hnode
    · rw [hnew] at hopen
      cases hopen
      obtain hnode | hnode := mem_append.mp hnode
      · exact ih hnode
      · cases mem_singleton.mp hnode
        exact ⟨hnumber, hdisk⟩

theorem fitsAt_of_reached (h : ∀ index, index * (mountedOn dev).blockSize < disk.size → FitsAt dev disk index)
    (hbefore : ∀ j < index, ∃ b, directoryBlock dev disk j = some b)
    (hsize : index * (mountedOn dev).blockSize % 2 ^ 32 < disk.size) : FitsAt dev disk index := by
  by_cases hsmall : (mountedOn dev).blockSize ≤ pageSize
  · exact ⟨fun _ ↦ fits_of_le hsmall _, fun _ ↦ fits_of_le hsmall _⟩
  · have hzero := h 0 (by omega)
    obtain rfl | hpos := Nat.eq_zero_or_pos index
    · exact hzero
    · obtain ⟨b, hb⟩ := hbefore 0 hpos
      obtain ⟨⟨-, hpointer⟩, hread⟩ := Option.ite_none_right_eq_some.mp hb
      obtain ⟨hread, -⟩ := Option.ite_none_right_eq_some.mp hread
      exact absurd ⟨Nat.not_le.mp hsmall, hread.mono (Nat.not_le.mp hsmall)⟩ (hzero.2 hpointer)

section

variable (h : SafeInode dev number disk)

include h

theorem SafeInode.readFrom_ok (frames : Frames) {offset length : ℕ} (fuel : ℕ) (hend : offset + length ≤ disk.size)
    (out : List UInt8) : ∃ r, (mountedOn dev).readFrom frames disk offset length fuel out = .ok r := by
  induction fuel generalizing out with
  | zero => exact ⟨_, rfl⟩
  | succ fuel ih =>
    rw [Ext2Fs.readFrom]
    split
    · rename_i hmore
      have hsize : disk.size < 2 ^ 32 := field_lt ..
      have hu32 : (offset + out.length) / (mountedOn dev).blockSize % 2 ^ 32 =
          (offset + out.length) / (mountedOn dev).blockSize :=
        Nat.mod_eq_of_lt ((Nat.div_le_self ..).trans_lt (by omega))
      obtain ⟨htable, hblock⟩ := h.fits ((offset + out.length) / (mountedOn dev).blockSize)
        ((Nat.div_mul_le_self ..).trans_lt (by omega))
      rw [if_neg (h.divides (by omega)), hu32]
      obtain hnumber | ⟨hnumber, -⟩ := blockFor_of_fits htable ((frames.below out.length).below 0)
      · rw [hnumber]
        dsimp only [Bind.bind, Except.bind]
        split
        · exact ⟨_, rfl⟩
        · rename_i hzero
          rw [readBlock_eq dev (pointerAt_lt ..), if_neg fun hleaves ↦ hleaves.2 (hblock hzero)]
          dsimp only
          split
          · exact ⟨_, rfl⟩
          · exact ih _
      · rw [hnumber]
        exact ⟨_, rfl⟩
    · exact ⟨_, rfl⟩

theorem SafeInode.read_ok (frames : Frames) (offset length : ℕ) :
    ∃ r, (mountedOn dev).read frames disk offset length = .ok r := by
  rw [Ext2Fs.read]
  split
  · exact ⟨_, rfl⟩
  · split
    · dsimp only
      have hend : offset + (if disk.size - offset < length then disk.size - offset else length) ≤ disk.size := by
        split <;> omega
      obtain ⟨out, hout⟩ := h.readFrom_ok frames _ hend []
      rw [hout]
      exact ⟨_, rfl⟩
    · exact ⟨_, rfl⟩

theorem SafeInode.scan_ok (hdirectory : disk.isDirectory = true)
    (hbefore : ∀ j < index, ∃ b, directoryBlock dev disk j = some b ∧ numberNamed b name ≠ some number)
    (hblock : directoryBlock dev disk index = some block) (hname : 0 ∉ name) :
    ((mountedOn dev).scan block name = .ok (.inr ()) ∧ numberNamed block name = none) ∨
    ∃ n < 2 ^ 32, (mountedOn dev).scan block name = .ok (.inl n) ∧ numberNamed block name = some n := by
  obtain hnone | hsome | ⟨-, before, entry, after, hsplit, hcrosses, hnot⟩ :=
    scan_cases (length_directoryBlock hblock) name
  · exact .inl hnone
  · exact .inr hsome
  · have hblocks : ∀ j < index, ∃ b, directoryBlock dev disk j = some b := by
      intro j hj
      obtain ⟨b, hb, -⟩ := hbefore j hj
      exact ⟨b, hb⟩
    have hentry := h.entries hdirectory index block hblocks hblock before entry after hsplit
    obtain ⟨e, he, hnamed⟩ | ⟨j, hj, b, hb, hfound⟩ := hentry.compare name hname hcrosses
    · exact absurd hnamed (hnot e he)
    · obtain ⟨b', hb', hne⟩ := hbefore j hj
      rw [hb] at hb'
      cases hb'
      exact absurd hfound hne

theorem SafeInode.lookup_ok (hgroup : 0 < (superOn dev).inodesPerGroup) (hnode : ⟨number, disk⟩ ∈ cache)
    (frames : Frames) (hname : 0 ∉ name) : ∃ r, (mountedOn dev).lookup frames disk name cache = .ok r := by
  rw [Ext2Fs.lookup]
  split
  · rename_i hdirectory
    split
    · let I : ℕ → List Ext2Inode → Prop := fun index cache' ↦ cache' = cache ∧
        ∀ j < index, ∃ b, directoryBlock dev disk j = some b ∧ numberNamed b name ≠ some number
      have hfits : ∀ index cache', I index cache' → index * (mountedOn dev).blockSize % 2 ^ 32 < disk.size →
          FitsAt dev disk index := by
        rintro index - ⟨-, hbefore⟩ hsize
        refine fitsAt_of_reached h.fits (fun j hj ↦ ?_) hsize
        obtain ⟨b, hb, -⟩ := hbefore j hj
        exact ⟨b, hb⟩
      have hvisit : ∀ index cache' block, I index cache' → directoryBlock dev disk index = some block →
          ∃ r, (mountedOn dev).lookupIn frames name index cache' block = .ok r ∧ ∀ a', r = .inr a' → I (index + 1) a' := by
        rintro index cache' block ⟨hsame, hbefore⟩ hblock
        have hnext : numberNamed block name ≠ some number → I (index + 1) cache := by
          refine fun hne ↦ ⟨rfl, fun j hj ↦ ?_⟩
          obtain hj | rfl := Nat.lt_succ_iff_lt_or_eq.mp hj
          · exact hbefore j hj
          · exact ⟨block, hblock, hne⟩
        rw [Ext2Fs.lookupIn, hsame]
        obtain ⟨hscan, hnone⟩ | ⟨n, hn, hscan, hsome⟩ := h.scan_ok hdirectory hbefore hblock hname
        · rw [hscan]
          refine ⟨.inr cache, rfl, ?_⟩
          rintro _ ⟨⟩
          exact hnext (by rw [hnone]; nofun)
        · rw [hscan]
          dsimp only [Bind.bind, Except.bind]
          rw [Ext2Fs.openFound]
          obtain ⟨node, -, -, hopen⟩ | ⟨hnot, hopen | ⟨disk', -, -, hopen⟩⟩ :=
            openInode_cases hgroup hn ((frames.below index).below 2) cache
          · rw [hopen]
            exact ⟨_, rfl, nofun⟩
          · rw [hopen]
            refine ⟨.inr cache, rfl, ?_⟩
            rintro _ ⟨⟩
            refine hnext fun hself ↦ hnot _ hnode ?_
            exact Option.some.inj (hself.symm.trans hsome)
          · rw [hopen]
            exact ⟨_, rfl, nofun⟩
      obtain ⟨r, hr⟩ := overBlocks_ok I hfits hvisit (Nat.zero_add _) (Nat.zero_le _) ⟨rfl, nofun⟩
      rw [hr]
      cases r <;> exact ⟨_, rfl⟩
    · exact ⟨_, rfl⟩
  · exact ⟨_, rfl⟩

end

theorem listEntry_ok {wanted seen : ℕ} {entry : Entry}
    (hcopy : entry.offset + entrySize + min 63 entry.nameLength ≤ block.length) :
    ∃ r, Ext2Fs.listEntry wanted block seen entry = .ok r := by
  rw [Ext2Fs.listEntry]
  split
  · rw [slice_of_le hcopy]
    exact ⟨_, rfl⟩
  · exact ⟨_, rfl⟩

theorem visitAll_ok {α β : Type} {visit : α → Entry → Except Fault (β ⊕ α)} {entries : List Entry}
    (h : ∀ entry ∈ entries, ∀ a, ∃ r, visit a entry = .ok r) (a : α) : ∃ r, visitAll visit entries a = .ok r := by
  induction entries generalizing a with
  | nil => exact ⟨_, rfl⟩
  | cons entry entries ih =>
    obtain ⟨r, hr⟩ := h entry mem_cons_self a
    rw [visitAll, hr]
    cases r with
    | inl b => exact ⟨_, rfl⟩
    | inr a' => exact ih (fun entry hmem ↦ h entry (mem_cons_of_mem _ hmem)) a'

theorem SafeInode.entryAt_ok (h : SafeInode dev number disk) (frames : Frames) (wanted : ℕ) :
    ∃ r, (mountedOn dev).entryAt frames disk wanted = .ok r := by
  rw [Ext2Fs.entryAt]
  split
  · rename_i hdirectory
    split
    · let I : ℕ → ℕ → Prop := fun index _ ↦ ∀ j < index, ∃ b, directoryBlock dev disk j = some b
      dsimp only
      have hvisit : ∀ index seen block, I index seen → directoryBlock dev disk index = some block →
          ∃ r, overEntries block (mountedOn dev).blockSize (Ext2Fs.listEntry wanted block)
            ((mountedOn dev).blockSize + 1) 0 seen = .ok r ∧ ∀ a', r = .inr a' → I (index + 1) a' := by
        intro index seen block hbefore hblock
        rw [← length_directoryBlock hblock, overEntries_eq (Nat.succ_pos _) (by omega)]
        have hentries : ∀ entry ∈ liveEntries block, ∀ seen, ∃ r, Ext2Fs.listEntry wanted block seen entry = .ok r := by
          intro entry hentry seen
          obtain ⟨before, after, hsplit⟩ := append_of_mem hentry
          exact listEntry_ok (h.entries hdirectory index block hbefore hblock before entry after hsplit).copy
        obtain ⟨r, hr⟩ := visitAll_ok hentries seen
        refine ⟨r, hr, fun _ _ j hj ↦ ?_⟩
        obtain hj | rfl := Nat.lt_succ_iff_lt_or_eq.mp hj
        · exact hbefore j hj
        · exact ⟨block, hblock⟩
      obtain ⟨r, hr⟩ := overBlocks_ok I (fun _ _ ↦ fitsAt_of_reached h.fits) hvisit
        (Nat.zero_add _) (Nat.zero_le _) nofun
      rw [hr]
      cases r <;> exact ⟨_, rfl⟩
    · exact ⟨_, rfl⟩
  · exact ⟨_, rfl⟩

theorem safe_of_tame (h : Mountable dev → Tame dev) : Safe dev := by
  intro fs frames
  by_cases hmount : frames.page = true ∧ dev.Readable superblockOffset superblockSize ∧ (superOn dev).magic = ext2Magic
  · obtain ⟨hpage, hread, hmagic⟩ := hmount
    have htame := h ⟨hread, hmagic⟩
    refine ⟨(true, mountedOn dev), ?_, fun _ cache hcache ↦ ?_⟩
    · rw [fs.mount_eq hpage hread hmagic, if_neg htame.blocksPerGroup.ne']
    · have hsafe : ∀ node ∈ cache, SafeInode dev node.number node.disk := by
        intro node hnode
        obtain ⟨hnumber, hdisk⟩ := hcache.inodeAt_eq htame.inodesPerGroup hnode
        exact htame.inodes _ hnumber _ hdisk
      constructor
      · intro frames number hnumber
        obtain ⟨_, -, -, hopen⟩ | ⟨-, hopen | ⟨_, -, -, hopen⟩⟩ :=
          openInode_cases htame.inodesPerGroup hnumber frames cache
        · exact ⟨_, hopen⟩
        · exact ⟨_, hopen⟩
        · exact ⟨_, hopen⟩
      · exact fun node hnode ↦ (hsafe node hnode).read_ok
      · exact fun node hnode frames name hname ↦
          (hsafe node hnode).lookup_ok htame.inodesPerGroup hnode frames hname
      · exact fun node hnode ↦ (hsafe node hnode).entryAt_ok
  · obtain ⟨fs', hfs'⟩ := fs.mount_eq_false hmount
    exact ⟨_, hfs', nofun⟩

section Necessary

def unopened : Frames
  | _ :: 2 :: _ => false
  | _ => true

theorem opened_singleton (hgroup : 0 < (superOn dev).inodesPerGroup) (hnumber : number < 2 ^ 32)
    (hdisk : inodeAt dev number = some disk) : Opened (mountedOn dev) [⟨number, disk⟩] := by
  refine .opened .nil hnumber (?_ : (mountedOn dev).openInode allFrames number [] = .ok (some ⟨number, disk⟩, _))
  rw [Ext2Fs.openInode, find?_nil]
  rw [if_neg (by decide), readInode_eq hgroup hnumber, if_pos ⟨rfl, rfl⟩, hdisk]
  rfl

theorem readFrom_ok_of_read {offset : ℕ} (hlt : offset < disk.size)
    (h : ∃ r, (mountedOn dev).read allFrames disk offset 1 = .ok r) :
    ∃ r, (mountedOn dev).readFrom allFrames disk offset 1 1 [] = .ok r := by
  obtain ⟨r, hr⟩ := h
  have hpage : allFrames.page = true := rfl
  have hlength : (if disk.size - offset < 1 then disk.size - offset else 1) = 1 := by split <;> omega
  rw [Ext2Fs.read, if_neg (by omega), if_pos hpage, hlength] at hr
  obtain ⟨out, hout, -⟩ := Library.Outcome.bind_eq_ok.mp hr
  exact ⟨out, hout⟩

theorem divides_of_read (hsize : disk.size ≠ 0) (h : ∃ r, (mountedOn dev).read allFrames disk 0 1 = .ok r) :
    (mountedOn dev).blockSize ≠ 0 := by
  intro hzero
  obtain ⟨r, hr⟩ := readFrom_ok_of_read (Nat.pos_of_ne_zero hsize) h
  rw [Ext2Fs.readFrom, if_pos (by decide), if_pos hzero] at hr
  cases hr

theorem fitsAt_of_read (hpos : (mountedOn dev).blockSize ≠ 0) (hindex : index * (mountedOn dev).blockSize < disk.size)
    (h : ∃ r, (mountedOn dev).read allFrames disk (index * (mountedOn dev).blockSize) 1 = .ok r) :
    FitsAt dev disk index := by
  obtain ⟨r, hr⟩ := readFrom_ok_of_read hindex h
  have hsize : disk.size < 2 ^ 32 := field_lt ..
  have hdiv : (index * (mountedOn dev).blockSize + ([] : List UInt8).length) / (mountedOn dev).blockSize % 2 ^ 32 =
      index := by
    have hle := Nat.le_mul_of_pos_right index (Nat.pos_of_ne_zero hpos)
    rw [length_nil, Nat.add_zero, Nat.mul_div_cancel _ (Nat.pos_of_ne_zero hpos), Nat.mod_eq_of_lt (by omega)]
  rw [Ext2Fs.readFrom, if_pos (by decide), if_neg hpos, hdiv] at hr
  have htable : Indirect dev disk index → Fits dev disk.indirect := by
    intro hindirect
    by_contra hleaves
    rw [blockFor_eq, if_pos hindirect, if_pos ⟨rfl, rfl⟩, if_neg hleaves] at hr
    cases hr
  refine ⟨htable, fun hzero ↦ ?_⟩
  by_contra hleaves
  obtain hnumber | ⟨-, hpages⟩ := blockFor_of_fits htable ((allFrames.below ([] : List UInt8).length).below 0)
  · rw [hnumber] at hr
    dsimp only [Bind.bind, Except.bind] at hr
    rw [if_neg hzero, readBlock_eq dev (pointerAt_lt ..), if_pos ⟨rfl, hleaves⟩] at hr
    cases hr
  · exact hpages ⟨rfl, rfl⟩

theorem visitAll_skip {wanted seen : ℕ} {before after : List Entry} (h : seen + before.length ≤ wanted) :
    visitAll (Ext2Fs.listEntry wanted block) (before ++ after) seen =
      visitAll (Ext2Fs.listEntry wanted block) after (seen + before.length) := by
  induction before generalizing seen with
  | nil => rfl
  | cons entry before ih =>
    rw [length_cons] at h ⊢
    rw [cons_append, visitAll, Ext2Fs.listEntry, if_neg (by omega)]
    refine (ih (by omega)).trans ?_
    rw [Nat.add_right_comm, Nat.add_assoc]

def liveBefore (dev : Device) (disk : DiskInode) (index : ℕ) : ℕ :=
  ∑ j ∈ Finset.range index, ((directoryBlock dev disk j).map fun b ↦ (liveEntries b).length).getD 0

theorem liveBefore_succ (hblock : directoryBlock dev disk index = some block) :
    liveBefore dev disk (index + 1) = liveBefore dev disk index + (liveEntries block).length := by
  rw [liveBefore, Finset.sum_range_succ, hblock]
  rfl

theorem liveBefore_mono (dev : Device) (disk : DiskInode) : Monotone (liveBefore dev disk) :=
  fun _ _ h ↦ Finset.sum_le_sum_of_subset (Finset.range_subset_range.mpr h)

section Directory

variable (hdirectory : disk.isDirectory = true)
  (hfits : ∀ index, index * (mountedOn dev).blockSize < disk.size → FitsAt dev disk index)
  (hbefore : ∀ j < index, ∃ b, directoryBlock dev disk j = some b)
  (hblock : directoryBlock dev disk index = some block)
  {before after : List Entry} {entry : Entry} (hsplit : liveEntries block = before ++ entry :: after)

include hbefore hblock in
theorem blocks_upTo : ∀ j ≤ index, ∃ b, directoryBlock dev disk j = some b := by
  intro j hj
  obtain hj | rfl := Nat.lt_or_eq_of_le hj
  · exact hbefore j hj
  · exact ⟨block, hblock⟩

include hfits hbefore in
theorem fitsAt_upTo : ∀ j ≤ index, j * (mountedOn dev).blockSize % 2 ^ 32 < disk.size → FitsAt dev disk j :=
  fun _ hj ↦ fitsAt_of_reached hfits fun k hk ↦ hbefore k (hk.trans_le hj)

include hblock in
theorem index_lt_rounds : index < (mountedOn dev).rounds := by
  by_contra hlast
  rw [directoryBlock_eq_none (by rw [Ext2Fs.rounds] at hlast; omega)] at hblock
  cases hblock

include hdirectory hfits hbefore hblock hsplit in
theorem copy_of_entryAt (h : ∀ wanted, ∃ r, (mountedOn dev).entryAt allFrames disk wanted = .ok r) :
    entry.offset + entrySize + min 63 entry.nameLength ≤ block.length := by
  by_contra hleaves
  obtain ⟨r, hr⟩ := h (liveBefore dev disk index + before.length)
  have hpage : allFrames.page = true := rfl
  rw [Ext2Fs.entryAt, if_pos hdirectory, if_pos hpage] at hr
  obtain ⟨r', hr', -⟩ := Library.Outcome.bind_eq_ok.mp hr
  -- the blocks before are counted, and the entries before it in its block are
  have hcount : ∀ j seen b, seen = liveBefore dev disk j → j < index → directoryBlock dev disk j = some b →
      overEntries b (mountedOn dev).blockSize (Ext2Fs.listEntry (liveBefore dev disk index + before.length) b)
        ((mountedOn dev).blockSize + 1) 0 seen = .ok (.inr (liveBefore dev disk (j + 1))) := by
    intro j seen b hseen hj hb
    have hmono := liveBefore_mono dev disk hj
    rw [Nat.succ_eq_add_one, liveBefore_succ hb] at hmono
    rw [← length_directoryBlock hb, overEntries_eq (Nat.succ_pos _) (by omega), ← liveEntries, liveBefore_succ hb, hseen,
      ← List.append_nil (liveEntries b), visitAll_skip (by omega), List.append_nil]
    rfl
  have hfault : ∀ seen b, seen = liveBefore dev disk index → directoryBlock dev disk index = some b →
      overEntries b (mountedOn dev).blockSize (Ext2Fs.listEntry (liveBefore dev disk index + before.length) b)
        ((mountedOn dev).blockSize + 1) 0 seen = .error .outsideBlock := by
    intro seen b hseen hb
    cases hblock.symm.trans hb
    rw [← length_directoryBlock hb, overEntries_eq (Nat.succ_pos _) (by omega), ← liveEntries, hsplit, hseen,
      visitAll_skip le_rfl, visitAll, Ext2Fs.listEntry, if_pos rfl, slice, if_neg hleaves]
  have hreading : ∀ j, Reading allFrames j := fun _ ↦ ⟨rfl, rfl, rfl⟩
  obtain ⟨fault, herror⟩ := overBlocks_error (fun j seen ↦ seen = liveBefore dev disk j)
    (fitsAt_upTo hfits hbefore) hreading (blocks_upTo hbefore hblock)
    (fun j seen b hseen hj hb ↦ .inr ⟨_, hcount j seen b hseen hj hb, rfl⟩)
    (fun seen b hseen hb ↦ ⟨_, hfault seen b hseen hb⟩)
    ((index_lt_rounds hblock).trans_eq (Nat.zero_add _).symm) (Nat.zero_le _) (rfl : 0 = liveBefore dev disk 0)
  rw [hr'] at herror
  cases herror

include hdirectory hfits hbefore hblock hsplit in
theorem compare_of_lookup (hgroup : 0 < (superOn dev).inodesPerGroup) (hcrosses : Crosses block name entry)
    (h : ∃ r, (mountedOn dev).lookup unopened disk name [⟨number, disk⟩] = .ok r) :
    (∃ e ∈ before, Named block name e) ∨
      ∃ j < index, ∃ b, directoryBlock dev disk j = some b ∧ numberNamed b name = some number := by
  by_contra hnot
  obtain ⟨hfirst, hself⟩ := not_or.mp hnot
  obtain ⟨r, hr⟩ := h
  have hpage : unopened.page = true := rfl
  rw [Ext2Fs.lookup, if_pos hdirectory, if_pos hpage] at hr
  obtain ⟨r', hr', -⟩ := Library.Outcome.bind_eq_ok.mp hr
  have hgoes : ∀ j cache b, cache = [⟨number, disk⟩] → j < index → directoryBlock dev disk j = some b →
      (∃ fault, (mountedOn dev).lookupIn unopened name j cache b = .error fault) ∨
        ∃ cache', (mountedOn dev).lookupIn unopened name j cache b = .ok (.inr cache') ∧ cache' = [⟨number, disk⟩] := by
    rintro j - b rfl hj hb
    rw [Ext2Fs.lookupIn]
    obtain ⟨hscan, -⟩ | ⟨n, hn, hscan, hfound⟩ | ⟨hscan, -⟩ := scan_cases (length_directoryBlock hb) name
    · rw [hscan]
      exact .inr ⟨_, rfl, rfl⟩
    · have hne : number ≠ n := fun hsame ↦ hself ⟨j, hj, b, hb, hsame ▸ hfound⟩
      have hopen : (mountedOn dev).openInode ((unopened.below j).below 2) n [⟨number, disk⟩] =
          .ok (none, [⟨number, disk⟩]) := by
        rw [Ext2Fs.openInode, find?_cons_of_neg (by simpa using hne), find?_nil]
        rw [if_neg (by simp [maxOpenInodes]), readInode_eq hgroup hn, if_neg (by rintro ⟨⟨⟩, -⟩)]
        rfl
      rw [hscan]
      dsimp only [Bind.bind, Except.bind]
      rw [Ext2Fs.openFound, hopen]
      exact .inr ⟨_, rfl, rfl⟩
    · rw [hscan]
      exact .inl ⟨_, rfl⟩
  have hfault : ∀ cache b, cache = [⟨number, disk⟩] → directoryBlock dev disk index = some b →
      ∃ fault, (mountedOn dev).lookupIn unopened name index cache b = .error fault := by
    intro cache b _ hb
    cases hblock.symm.trans hb
    have hbefore' : ∀ e ∈ before, ¬ Named block name e := fun e he hnamed ↦ hfirst ⟨e, he, hnamed⟩
    rw [Ext2Fs.lookupIn, scan_error (length_directoryBlock hb) hsplit hcrosses hbefore']
    exact ⟨_, rfl⟩
  have hreading : ∀ j, Reading unopened j := fun _ ↦ ⟨rfl, rfl, rfl⟩
  obtain ⟨fault, herror⟩ := overBlocks_error (fun _ cache ↦ cache = [(⟨number, disk⟩ : Ext2Inode)])
    (fitsAt_upTo hfits hbefore) hreading (blocks_upTo hbefore hblock) hgoes hfault
    ((index_lt_rounds hblock).trans_eq (Nat.zero_add _).symm) (Nat.zero_le _) rfl
  rw [hr'] at herror
  cases herror

end Directory

theorem tame_of_safe (h : Safe dev) (hmount : Mountable dev) : Tame dev := by
  obtain ⟨r, hr, hcalls⟩ := h (mountedOn dev) allFrames
  rw [Ext2Fs.mount_eq _ rfl hmount.1 hmount.2] at hr
  by_cases hblocks : (superOn dev).blocksPerGroup = 0
  · rw [if_pos hblocks] at hr
    cases hr
  rw [if_neg hblocks] at hr
  cases hr
  have hcalls := hcalls rfl
  have hgroup : 0 < (superOn dev).inodesPerGroup := by
    by_contra hgroup
    obtain ⟨r, hr⟩ := (hcalls [] .nil).openInode allFrames rootInode (by decide)
    rw [Ext2Fs.openInode, find?_nil] at hr
    rw [if_neg (by decide), Ext2Fs.readInode, mounted_device] at hr
    dsimp only at hr
    rw [if_neg (by decide), mounted_super, if_pos (by omega)] at hr
    cases hr
  refine ⟨Nat.pos_of_ne_zero hblocks, hgroup, fun number hnumber disk hdisk ↦ ?_⟩
  have hsafe := hcalls _ (opened_singleton hgroup hnumber hdisk)
  have hread := hsafe.read _ (mem_singleton.mpr rfl) allFrames
  have hdivides : disk.size ≠ 0 → (mountedOn dev).blockSize ≠ 0 := fun hsize ↦ divides_of_read hsize (hread 0 1)
  have hfits : ∀ index, index * (mountedOn dev).blockSize < disk.size → FitsAt dev disk index :=
    fun index hindex ↦ fitsAt_of_read (hdivides (by omega)) hindex (hread _ 1)
  refine ⟨hdivides, hfits, fun hdirectory index block hbefore hblock before entry after hsplit ↦ ⟨?_, ?_⟩⟩
  · exact copy_of_entryAt hdirectory hfits hbefore hblock hsplit
      (hsafe.entryAt _ (mem_singleton.mpr rfl) allFrames)
  · exact fun name hname hcrosses ↦ compare_of_lookup hdirectory hfits hbefore hblock hsplit hgroup hcrosses
      (hsafe.lookup _ (mem_singleton.mpr rfl) unopened name hname)

end Necessary

/-- A device can be mounted and worked with exactly if its contents are right. -/
theorem safe_iff (dev : Device) : Safe dev ↔ (Mountable dev → Tame dev) :=
  ⟨fun h hmount ↦ tame_of_safe h hmount, safe_of_tame⟩

def emptyImage : Device where
  readable _ := true
  bytes
    | 1080 => 0x53
    | 1081 => 0xEF
    | _ => 0

def largeBlocks : Device where
  readable _ := true
  bytes
    | 1048 => 3
    | 1056 => 64
    | 1064 => 8
    | 1080 => 0x53
    | 1081 => 0xEF
    | 8200 => 2
    | 16513 => 0x40
    | 16516 => 1
    | 16552 => 3
    | _ => 0

/-- A root directory whose last entry has a name of 200 bytes, of which there is room for four. -/
def longName : Device where
  readable _ := true
  bytes
    | 1044 => 1
    | 1056 => 64
    | 1064 => 8
    | 1080 => 0x53
    | 1081 => 0xEF
    | 2056 => 3
    | 3201 => 0x40
    | 3205 => 4
    | 3240 => 10
    | 10240 => 2
    | 10244 => 244
    | 10245 => 3
    | 11252 => 2
    | 11256 => 12
    | 11258 => 200
    | address => if 11260 ≤ address ∧ address < 11264 then 0x61 else 0

/-- A mount divides by zero; a read of a block leaves its page; a listing and a lookup leave the block. -/
theorem device_faults : ¬ Safe emptyImage ∧ (mountedOn emptyImage).mount allFrames emptyImage = .error .divideByZero ∧
    ((mountedOn largeBlocks).mount allFrames largeBlocks).isOk = true ∧
    (∃ node, (mountedOn largeBlocks).root allFrames [] = .ok (some node, [node]) ∧
      (mountedOn largeBlocks).read allFrames node.disk 0 1 = .error .outsidePage) ∧
    ∃ node, (mountedOn longName).root allFrames [] = .ok (some node, [node]) ∧
      (mountedOn longName).entryAt allFrames node.disk 1 = .error .outsideBlock ∧
      (mountedOn longName).lookup allFrames node.disk (List.replicate 200 0x61) [node] = .error .outsideBlock := by
  have hmount : (mountedOn emptyImage).mount allFrames emptyImage = .error .divideByZero := by
    have hmagic : (superOn emptyImage).magic = ext2Magic := by decide +kernel
    have hzero : (superOn emptyImage).blocksPerGroup = 0 := by decide +kernel
    rw [Ext2Fs.mount_eq _ rfl (fun _ _ ↦ rfl) hmagic, if_pos hzero]
  refine ⟨fun h ↦ ?_, hmount, ?_, ⟨⟨2, inodeOn largeBlocks 2⟩, ?_, ?_⟩, ⟨2, inodeOn longName 2⟩, ?_, ?_, ?_⟩
  · obtain ⟨r, hr, -⟩ := h (mountedOn emptyImage) allFrames
    rw [hmount] at hr
    cases hr
  · decide +kernel
  · decide +kernel
  · decide +kernel
  · decide +kernel
  · decide +kernel
  · decide +kernel

end Eris.Fs.Ext2
