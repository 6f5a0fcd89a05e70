import Eris.Fs.Ext2Listing
import Eris.Fs.Resolve
import Eris.Library.Filling

namespace Eris.Fs.Ext2

open Block Library.Bytes Library.Filling

section Tree

variable (dev : Device)

def entriesOn (disk : DiskInode) : List (List UInt8 × ℕ) :=
  ((List.range (blockTotal dev disk)).map (fileBlock dev disk)).flatMap entriesIn

/-- A directory without holes; its names lie inside their blocks and are unique. -/
structure DirectoryOn (disk : DiskInode) : Prop where
  mapped : Mapped dev disk
  inside : ∀ index < blockTotal dev disk, ∀ e ∈ liveEntries (fileBlock dev disk index),
    e.offset + entrySize + e.nameLength ≤ blockSizeOn dev ∧ e.inode ≤ (superOn dev).inodeCount
  unique : ((entriesOn dev disk).map Prod.fst).Nodup

def childOn (number : ℕ) (name : List UInt8) : Option ℕ :=
  if (inodeOn dev number).isDirectory then (entriesOn dev (inodeOn dev number)).lookup name else none

/-- The inodes that paths lead to. -/
inductive OnTree : ℕ → Prop
  | root : OnTree rootInode
  | child {number : ℕ} {name : List UInt8} {child : ℕ} : OnTree number → childOn dev number name = some child → OnTree child

/-- A file system all of whose directories are well formed. -/
structure Tree : Prop extends WellFormed dev where
  rootInode_le : rootInode ≤ (superOn dev).inodeCount
  directories : ∀ number, OnTree dev number → (inodeOn dev number).isDirectory = true →
    DirectoryOn dev (inodeOn dev number)

/-- What `open` makes of an inode. -/
def nodeOn (number : ℕ) : Ext2Inode := ⟨number, inodeOn dev number⟩

/-- The file system as `resolve` sees it. -/
def backend : Backend (List Ext2Inode) Ext2Inode where
  root _ cache := ((mountedOn dev).root allFrames cache).toOption.getD (none, cache)
  lookup node name cache := ((mountedOn dev).lookup allFrames node.disk name cache).toOption.getD (none, cache)

/-- What `open` answers, and the cache afterwards. -/
def opened (number : ℕ) (c : List ℕ) : Option Ext2Inode × List Ext2Inode :=
  (if number ∈ (put maxOpenInodes c number).2 then some (nodeOn dev number) else none,
    (put maxOpenInodes c number).2.map (nodeOn dev))

def trail : ℕ → List (List UInt8) → List ℕ
  | number, [] => [number]
  | number, name :: names =>
    match childOn dev number name with
    | none => [number]
    | some child => number :: trail child names

def target : ℕ → List (List UInt8) → Option ℕ
  | number, [] => some number
  | number, name :: names => (childOn dev number name).bind fun child ↦ target child names

variable (mounts : List Mount)

def inodesOn (path : List UInt8) : List ℕ :=
  match namesIn mounts path with
  | none => []
  | some (_, names) => trail dev rootInode names

def inodeNamed (path : List UInt8) : Option ℕ := (namesIn mounts path).bind fun p ↦ target dev rootInode p.2

def cacheAfter (history : List (List UInt8)) : List Ext2Inode :=
  history.foldl (fun cache path ↦ (resolveIn (backend dev) mounts path cache).2) []

def keptOf (history : List (List UInt8)) : List ℕ := fill maxOpenInodes [] (history.flatMap (inodesOn dev mounts))

end Tree

variable {dev : Device} {disk : DiskInode} {number index : ℕ} {block name : List UInt8} {cache : List Ext2Inode}
  {c : List ℕ}

theorem OnTree.range (h : Tree dev) (hon : OnTree dev number) : 0 < number ∧ number ≤ (superOn dev).inodeCount := by
  induction hon with
  | root => exact ⟨by decide, h.rootInode_le⟩
  | @child number name child hparent hchild _ =>
    obtain ⟨hdirectory, hchild⟩ := Option.ite_none_right_eq_some.mp hchild
    have hdir := h.directories number hparent hdirectory
    obtain ⟨l₁, l₂, hsplit, -⟩ := List.lookup_eq_some_iff.mp hchild
    have hmem : (name, child) ∈ entriesOn dev (inodeOn dev number) := by simp [hsplit]
    obtain ⟨block, hblock, hentry⟩ := List.mem_flatMap.mp hmem
    obtain ⟨index, hindex, rfl⟩ := List.mem_map.mp hblock
    obtain ⟨e, he, heq⟩ := List.mem_map.mp hentry
    cases heq
    exact ⟨Nat.pos_of_ne_zero (inode_ne_of_mem_live he), (hdir.inside index (List.mem_range.mp hindex) e he).2⟩

theorem DirectoryOn.visited_eq (h : WellFormed dev) (hdir : DirectoryOn dev disk) : visited dev disk = blockTotal dev disk := by
  rw [visited, min_eq_left]
  rw [blockTotal, ceilDiv_le_iff_le_mul h.blockSize_pos, Nat.mul_comm]
  exact hdir.mapped.size_le

theorem DirectoryOn.listable (h : WellFormed dev) (hdir : DirectoryOn dev disk) : Listable dev disk := by
  have hvisited := hdir.visited_eq h
  refine ⟨hdir.mapped.indirect, fun index hindex ↦ ?_, fun index hindex ↦ ?_, ?_⟩
  · exact hdir.mapped.pointers index ((h.lt_blockTotal_iff index).mp (hvisited ▸ hindex))
  · exact hdir.inside index (hvisited ▸ hindex)
  · rw [listed, hvisited]
    exact hdir.unique

theorem Tree.lookup_eq (h : Tree dev) (hon : OnTree dev number) (name : List UInt8) (cache : List Ext2Inode) :
    (mountedOn dev).lookup allFrames (inodeOn dev number) name cache =
      match childOn dev number name with
      | none => .ok (none, cache)
      | some child => (mountedOn dev).openInode allFrames child cache := by
  rw [childOn]
  by_cases hdirectory : (inodeOn dev number).isDirectory = true
  · have hdir := h.directories number hon hdirectory
    have hlookup := (hdir.listable h.toWellFormed).lookup_eq h.toWellFormed hdirectory name cache
    rw [listed, hdir.visited_eq h.toWellFormed] at hlookup
    rw [if_pos hdirectory]
    exact hlookup
  · rw [Ext2Fs.lookup, if_neg hdirectory, if_neg hdirectory]
    rfl

theorem find_nodeOn (dev : Device) (number : ℕ) (c : List ℕ) :
    (c.map (nodeOn dev)).find? (·.number = number) = if number ∈ c then some (nodeOn dev number) else none := by
  induction c with
  | nil => rfl
  | cons n c ih =>
    rw [List.map_cons, List.find?_cons, ih]
    by_cases hn : n = number
    · simp [nodeOn, hn]
    · simp [nodeOn, hn, Ne.symm hn]

theorem WellFormed.openInode_eq (h : WellFormed dev) (hrange : 0 < number ∧ number ≤ (superOn dev).inodeCount) (c : List ℕ) :
    (mountedOn dev).openInode allFrames number (c.map (nodeOn dev)) = .ok (opened dev number c) := by
  obtain ⟨hpos, hle⟩ := hrange
  have hnumber := hle.trans_lt (Library.Words.field_lt ..)
  rw [Ext2Fs.openInode, opened, find_nodeOn, List.length_map]
  obtain ⟨hmem, hput⟩ | ⟨hnot, hroom, hput⟩ | ⟨hnot, hfull, hput⟩ := put_cases maxOpenInodes c number
  · rw [hput, if_pos hmem]
    rfl
  · rw [hput, if_neg hnot, if_pos (List.mem_append_right _ List.mem_cons_self), List.map_append]
    rw [if_neg (Nat.not_le.mpr hroom), readInode_eq h.inodesPerGroup hnumber, if_pos ⟨rfl, rfl⟩, h.inodeAt_eq hpos hle]
    rfl
  · rw [hput, if_neg hnot]
    dsimp only
    rw [if_pos hfull]
    rfl

theorem Tree.backend_root (h : Tree dev) (mount : Mount) (c : List ℕ) :
    (backend dev).root mount (c.map (nodeOn dev)) = opened dev rootInode c := by
  change ((mountedOn dev).openInode allFrames rootInode _).toOption.getD _ = _
  rw [h.openInode_eq (OnTree.root.range h)]
  rfl

theorem Tree.backend_lookup (h : Tree dev) (hon : OnTree dev number) (name : List UInt8) (c : List ℕ) :
    (backend dev).lookup (nodeOn dev number) name (c.map (nodeOn dev)) =
      match childOn dev number name with
      | none => (none, c.map (nodeOn dev))
      | some child => opened dev child c := by
  change ((mountedOn dev).lookup allFrames (inodeOn dev number) name _).toOption.getD _ = _
  rw [h.lookup_eq hon]
  cases hchild : childOn dev number name with
  | none => rfl
  | some child =>
    dsimp only
    rw [h.openInode_eq ((hon.child hchild).range h)]
    rfl

theorem Tree.follow_eq (h : Tree dev) (names : List (List UInt8)) (hon : OnTree dev number) (c : List ℕ) :
    follow (backend dev) (opened dev number c).1 names (opened dev number c).2 =
      (if trail dev number names ⊆ fill maxOpenInodes c (trail dev number names) then
          (target dev number names).map (nodeOn dev) else none,
        (fill maxOpenInodes c (trail dev number names)).map (nodeOn dev)) := by
  induction names generalizing number c with
  | nil =>
    rw [trail, target, fill, fill, follow, opened]
    simp only [List.cons_subset, List.nil_subset, and_true, Option.map_some]
  | cons name names ih =>
    by_cases hmem : number ∈ (put maxOpenInodes c number).2
    · rw [opened, if_pos hmem, follow, h.backend_lookup hon, trail, target]
      cases hchild : childOn dev number name with
      | none =>
        rw [fill, fill, Option.bind_none, Option.map_none, ite_self]
        cases names <;> rfl
      | some child =>
        rw [Option.bind_some, fill]
        refine (ih (.child hon hchild) _).trans ?_
        simp only [List.cons_subset, subset_fill _ hmem, true_and]
    · have hfull : fill maxOpenInodes c (trail dev number (name :: names)) = (put maxOpenInodes c number).2 := by
        obtain ⟨hin, hput⟩ | ⟨-, -, hput⟩ | ⟨-, hfull, hput⟩ := put_cases maxOpenInodes c number
        · exact absurd (hput ▸ hin) hmem
        · exact absurd (hput ▸ List.mem_append_right _ List.mem_cons_self) hmem
        · rw [fill_of_full hfull, hput]
      have hhead : number ∈ trail dev number (name :: names) := by
        rw [trail]
        split <;> exact List.mem_cons_self
      rw [hfull, opened, if_neg hmem, if_neg fun hall ↦ hmem (hall hhead)]
      rfl

theorem Tree.resolveIn_eq (h : Tree dev) (mounts : List Mount) (path : List UInt8) (c : List ℕ) :
    resolveIn (backend dev) mounts path (c.map (nodeOn dev)) =
      (if inodesOn dev mounts path ⊆ fill maxOpenInodes c (inodesOn dev mounts path) then
          (inodeNamed dev mounts path).map (nodeOn dev) else none,
        (fill maxOpenInodes c (inodesOn dev mounts path)).map (nodeOn dev)) := by
  rw [Fs.resolveIn_eq, inodesOn, inodeNamed]
  cases namesIn mounts path with
  | none =>
    rw [fill, Option.bind_none, Option.map_none, ite_self]
  | some p =>
    obtain ⟨mount, names⟩ := p
    dsimp only
    rw [h.backend_root]
    exact h.follow_eq names .root c

theorem Tree.cacheAfter_eq (h : Tree dev) (mounts : List Mount) (history : List (List UInt8)) :
    cacheAfter dev mounts history = (keptOf dev mounts history).map (nodeOn dev) := by
  have hfold : ∀ (c : List ℕ), history.foldl (fun cache path ↦ (resolveIn (backend dev) mounts path cache).2)
      (c.map (nodeOn dev)) = (fill maxOpenInodes c (history.flatMap (inodesOn dev mounts))).map (nodeOn dev) := by
    induction history with
    | nil => exact fun c ↦ rfl
    | cons path history ih =>
      intro c
      rw [List.foldl_cons, List.flatMap_cons, fill_append, h.resolveIn_eq, ih]
  exact hfold []

/-- A path is found after some others as it is right after mounting, exactly if there is room for its inodes beside
those that are kept of the others. -/
theorem resolve_history_iff (h : Tree dev) (mounts : List Mount) (history : List (List UInt8)) (path : List UInt8) :
    (resolveIn (backend dev) mounts path (cacheAfter dev mounts history)).1 = (resolveIn (backend dev) mounts path []).1 ↔
      ((inodeNamed dev mounts path).isSome → (inodesOn dev mounts path).toFinset.card ≤ maxOpenInodes →
        ((keptOf dev mounts history).toFinset ∪ (inodesOn dev mounts path).toFinset).card ≤ maxOpenInodes) := by
  have hvalid : Valid maxOpenInodes (keptOf dev mounts history) := valid_nil.fill _
  have hfresh : (resolveIn (backend dev) mounts path []).1 =
      if (inodesOn dev mounts path).toFinset.card ≤ maxOpenInodes then
        (inodeNamed dev mounts path).map (nodeOn dev) else none := by
    refine (congrArg Prod.fst (h.resolveIn_eq mounts path [])).trans ?_
    have hroom : inodesOn dev mounts path ⊆ fill maxOpenInodes [] (inodesOn dev mounts path) ↔ _ :=
      valid_nil.subset_fill_iff _
    rw [List.toFinset_nil, Finset.empty_union] at hroom
    simp only [hroom]
  rw [hfresh, h.cacheAfter_eq, h.resolveIn_eq]
  simp only [hvalid.subset_fill_iff]
  have hmono : ((keptOf dev mounts history).toFinset ∪ (inodesOn dev mounts path).toFinset).card ≤ maxOpenInodes →
      (inodesOn dev mounts path).toFinset.card ≤ maxOpenInodes :=
    (Finset.card_le_card Finset.subset_union_right).trans
  cases inodeNamed dev mounts path with
  | none => simp
  | some n =>
    constructor
    · intro heq _ halone
      by_contra hover
      rw [if_neg hover, if_pos halone] at heq
      cases heq
    · intro hcond
      by_cases halone : (inodesOn dev mounts path).toFinset.card ≤ maxOpenInodes
      · rw [if_pos halone, if_pos (hcond rfl halone)]
      · rw [if_neg halone, if_neg fun hover ↦ halone (hmono hover)]

def crowded : Device where
  readable _ := true
  bytes
    | 1024 => 64
    | 1028 => 32
    | 1044 => 1
    | 1056 => 64
    | 1064 => 64
    | 1080 => 0x53
    | 1081 => 0xEF
    | 1100 => 1
    | 1112 => 128
    | 2056 => 3
    | 3201 => 0x40
    | 3205 => 4
    | 3240 => 11
    | 11640 => 0x8C
    | 11641 => 2
    | address =>
      if 11264 ≤ address ∧ address < 11648 then
        match (address - 11264) % 12 with
        | 0 => (3 + (address - 11264) / 12).toUInt8
        | 4 => 12
        | 6 => 1
        | 8 => (97 + (address - 11264) / 12).toUInt8
        | _ => 0
      else 0

def crowdedMounts : List Mount := [⟨[47], some 0⟩]

def crowdedPath (k : ℕ) : List UInt8 := [47, (97 + k).toUInt8]

theorem crowded_entries : (inodeOn crowded rootInode).isDirectory = true ∧
    entriesOn crowded (inodeOn crowded rootInode) = (List.range 32).map fun k ↦ ([(97 + k).toUInt8], 3 + k) := by
  decide +kernel

theorem crowded_tree : Tree crowded := by
  have hwell : WellFormed crowded :=
    ⟨by decide +kernel, by decide +kernel, by decide +kernel, by decide +kernel, by decide +kernel, by decide +kernel,
      by decide +kernel, by decide +kernel, by decide +kernel, fun _ _ ↦ rfl⟩
  obtain ⟨hdirectory, hentries⟩ := crowded_entries
  have hfiles : ∀ n < 35, 3 ≤ n → (inodeOn crowded n).isDirectory = false := by decide +kernel
  have hon : ∀ number, OnTree crowded number → number = rootInode ∨ (3 ≤ number ∧ number < 35) := by
    intro number hon
    induction hon with
    | root => exact .inl rfl
    | @child number name child hparent hchild ih =>
      obtain rfl | ⟨hle, hlt⟩ := ih
      · rw [childOn, if_pos hdirectory, hentries] at hchild
        obtain ⟨l₁, l₂, hsplit, -⟩ := List.lookup_eq_some_iff.mp hchild
        have hmem : (name, child) ∈ (List.range 32).map fun k ↦ ([(97 + k).toUInt8], 3 + k) := by
          rw [hsplit]
          exact List.mem_append_right _ List.mem_cons_self
        obtain ⟨k, hk, heq⟩ := List.mem_map.mp hmem
        have hk := List.mem_range.mp hk
        cases heq
        omega
      · rw [childOn, hfiles number hlt hle] at hchild
        cases hchild
  refine ⟨hwell, by decide +kernel, fun number hnumber hdir ↦ ?_⟩
  obtain rfl | ⟨hle, hlt⟩ := hon number hnumber
  · refine ⟨⟨by decide +kernel, by decide +kernel, fun index hindex ↦ ?_⟩, by decide +kernel, ?_⟩
    · have hsize : (inodeOn crowded rootInode).size = 1024 := by decide +kernel
      have hblock : blockSizeOn crowded = 1024 := by decide +kernel
      have hzero : index = 0 := by
        rw [hsize, hblock] at hindex
        omega
      rw [hzero]
      decide +kernel
    · rw [hentries]
      decide +kernel
  · rw [hfiles number hlt hle] at hdir
    cases hdir

theorem crowded_path {k : ℕ} (hk : k < 32) : inodesOn crowded crowdedMounts (crowdedPath k) = [rootInode, 3 + k] ∧
    inodeNamed crowded crowdedMounts (crowdedPath k) = some (3 + k) := by
  have hnames : ∀ k < 32, (namesIn crowdedMounts (crowdedPath k)).map Prod.snd = some [[(97 + k).toUInt8]] := by
    decide +kernel
  have hlookup : ∀ k < 32, ((List.range 32).map fun k ↦ ([(97 + k).toUInt8], 3 + k)).lookup [(97 + k).toUInt8] =
      some (3 + k) := by
    decide +kernel
  have hchild : childOn crowded rootInode [(97 + k).toUInt8] = some (3 + k) := by
    rw [childOn, if_pos crowded_entries.1, crowded_entries.2, hlookup k hk]
  obtain ⟨⟨mount, names⟩, hpath, hsome⟩ := Option.map_eq_some_iff.mp (hnames k hk)
  cases hsome
  rw [inodesOn, inodeNamed, hpath, Option.bind_some]
  dsimp only
  rw [trail, target, hchild]
  exact ⟨rfl, rfl⟩

theorem resolve_history_beside : (resolveIn (backend crowded) crowdedMounts (crowdedPath 1)
      (cacheAfter crowded crowdedMounts [crowdedPath 0])).1 =
    (resolveIn (backend crowded) crowdedMounts (crowdedPath 1) []).1 := by
  refine (resolve_history_iff crowded_tree crowdedMounts [crowdedPath 0] (crowdedPath 1)).mpr fun _ _ ↦ ?_
  rw [keptOf, List.flatMap_cons, (crowded_path (by decide)).1, (crowded_path (by decide)).1]
  decide

/-- A file that is found right after mounting is not found after the other 31. -/
theorem resolve_forgets : Tree crowded ∧
    (resolveIn (backend crowded) crowdedMounts (crowdedPath 31) []).1 = some (nodeOn crowded 34) ∧
    (resolveIn (backend crowded) crowdedMounts (crowdedPath 31)
      (cacheAfter crowded crowdedMounts ((List.range 31).map crowdedPath))).1 = none := by
  have hhistory : ((List.range 31).map crowdedPath).flatMap (inodesOn crowded crowdedMounts) =
      (List.range 31).flatMap fun k ↦ [rootInode, 3 + k] := by
    rw [List.flatMap_map]
    refine List.flatMap_congr fun k hk ↦ (crowded_path ?_).1
    exact (List.mem_range.mp hk).trans (by decide)
  obtain ⟨hinodes, hnamed⟩ := crowded_path (by decide : 31 < 32)
  refine ⟨crowded_tree, ?_, ?_⟩
  · refine (congrArg Prod.fst (crowded_tree.resolveIn_eq crowdedMounts (crowdedPath 31) [])).trans ?_
    have hroom : [rootInode, 3 + 31] ⊆ fill maxOpenInodes [] [rootInode, 3 + 31] := by decide
    rw [hinodes, hnamed, if_pos hroom]
    rfl
  · have hfull : ¬ [rootInode, 3 + 31] ⊆ fill maxOpenInodes (fill maxOpenInodes []
        ((List.range 31).flatMap fun k ↦ [rootInode, 3 + k])) [rootInode, 3 + 31] := by
      decide +kernel
    rw [crowded_tree.cacheAfter_eq, crowded_tree.resolveIn_eq, keptOf, hhistory, hinodes, if_neg hfull]

end Eris.Fs.Ext2
