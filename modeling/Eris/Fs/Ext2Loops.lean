import Eris.Fs.Ext2Directory
import Eris.Library.Outcome

namespace Eris.Fs.Ext2

open Block Library.Bytes Library.Outcome Library.Words

/-- A computation that comes to an end. -/
def Ends {α : Type} (x : Except Fault α) : Prop := Stops (· ≠ .endless) x

variable {α β : Type} {fs : Ext2Fs} {frames : Frames} {disk : DiskInode} {block : List UInt8} {index number : ℕ}

theorem ends_error {e : Fault} (h : e ≠ .endless) : Ends (.error e : Except Fault α) :=
  fun _ he ↦ Except.error.inj he ▸ h

theorem overEntries_ends {blockSize fuel offset : ℕ} {visit : α → Entry → Except Fault (β ⊕ α)}
    (hvisit : ∀ a entry, Ends (visit a entry)) (hpos : 0 < fuel) (hfuel : blockSize < offset + fuel) (a : α) :
    Ends (overEntries block blockSize visit fuel offset a) := by
  induction fuel generalizing offset a with
  | zero => omega
  | succ fuel ih =>
    rw [overEntries]
    split
    case isTrue hin =>
      split
      · exact ends_error (by decide)
      case h_2 raw _ =>
        dsimp only
        split
        · exact stops_ok _
        case isFalse hlength =>
          have hrest (a) : Ends (overEntries block blockSize visit fuel (offset + field raw 4 2) a) :=
            ih (by omega) (by omega) a
          split
          · refine (hvisit a _).bind fun step _ ↦ ?_
            cases step with
            | inl b => exact stops_ok _
            | inr a => exact hrest a
          · exact hrest a
    case isFalse => exact stops_ok _

theorem readBlock_ends (fs : Ext2Fs) (frames : Frames) (number : ℕ) : Ends (fs.readBlock frames number) := by
  rw [Ext2Fs.readBlock]
  split
  · exact stops_ok _
  · dsimp only
    split
    · exact ends_error (by decide)
    · exact stops_ok _

theorem blockFor_ends (fs : Ext2Fs) (frames : Frames) (disk : DiskInode) (index : ℕ) :
    Ends (fs.blockFor frames disk index) := by
  rw [Ext2Fs.blockFor]
  split
  · exact stops_ok _
  · split
    · exact stops_ok _
    · split
      · refine (readBlock_ends fs _ _).bind fun table _ ↦ ?_
        cases table with
        | none => exact stops_ok _
        | some table =>
          dsimp only
          split
          · exact ends_error (by decide)
          · exact stops_ok _
      · exact stops_ok _

theorem lt_of_blockFor (h : fs.blockFor frames disk index = .ok number) (hne : number ≠ 0) :
    index < 12 + fs.blockSize / 4 := by
  rw [Ext2Fs.blockFor] at h
  by_contra hle
  rw [if_neg (by omega), if_pos (.inl (by omega))] at h
  exact hne (Except.ok.inj h).symm

/-- Behind the last block that an inode can have, the number of a block is zero. -/
theorem overBlocks_ends {fuel : ℕ} {visit : ℕ → α → List UInt8 → Except Fault (β ⊕ α)}
    (hvisit : ∀ index a block, Ends (visit index a block)) (hindex : index ≤ 12 + fs.blockSize / 4)
    (hfuel : 12 + fs.blockSize / 4 < index + fuel) (a : α) : Ends (fs.overBlocks frames disk visit fuel index a) := by
  induction fuel generalizing index a with
  | zero => omega
  | succ fuel ih =>
    rw [Ext2Fs.overBlocks]
    split
    · refine (blockFor_ends fs _ disk index).bind fun number hnumber ↦ ?_
      split
      · exact stops_ok _
      case isFalse hne =>
        have hlt := lt_of_blockFor hnumber hne
        refine (readBlock_ends fs _ number).bind fun block _ ↦ ?_
        cases block with
        | none => exact stops_ok _
        | some block =>
          refine (hvisit index a block).bind fun step _ ↦ ?_
          cases step with
          | inl b => exact stops_ok _
          | inr a => exact ih (by omega) (by omega) a
    · exact stops_ok _

theorem sameAt_ends (block name : List UInt8) (p : ℕ) : Ends (sameAt block name p) := by
  induction name generalizing p with
  | nil => exact stops_ok _
  | cons c name ih =>
    rw [sameAt]
    split
    · exact ends_error (by decide)
    · split
      · exact ih (p + 1)
      · exact stops_ok _

theorem readInode_ends (fs : Ext2Fs) (frames : Frames) (number : ℕ) : Ends (fs.readInode frames number) := by
  rw [Ext2Fs.readInode]
  split
  · exact stops_ok _
  · split
    · exact stops_ok _
    · split
      · exact ends_error (by decide)
      · dsimp only
        split
        · exact stops_ok _
        · split <;> exact stops_ok _

theorem openInode_ends (fs : Ext2Fs) (frames : Frames) (number : ℕ) (cache : List Ext2Inode) :
    Ends (fs.openInode frames number cache) := by
  rw [Ext2Fs.openInode]
  split
  · exact stops_ok _
  · split
    · exact stops_ok _
    · refine (readInode_ends fs frames number).bind fun found _ ↦ ?_
      cases found <;> exact stops_ok _

theorem scan_ends (fs : Ext2Fs) (block name : List UInt8) : Ends (fs.scan block name) := by
  refine overEntries_ends (fun _ entry ↦ ?_) (Nat.succ_pos _) (by omega) ()
  split
  · refine (sameAt_ends block name _).bind fun same _ ↦ ?_
    cases same <;> exact stops_ok _
  · exact stops_ok _

theorem lookupIn_ends (fs : Ext2Fs) (frames : Frames) (name : List UInt8) (index : ℕ) (cache : List Ext2Inode)
    (block : List UInt8) : Ends (fs.lookupIn frames name index cache block) := by
  refine (scan_ends fs block name).bind fun found _ ↦ ?_
  cases found with
  | inr u => exact stops_ok _
  | inl number =>
    refine (openInode_ends fs _ number cache).bind fun out _ ↦ ?_
    obtain ⟨node, cache⟩ := out
    cases node <;> exact stops_ok _

theorem listEntry_ends (wanted : ℕ) (block : List UInt8) (seen : ℕ) (entry : Entry) :
    Ends (Ext2Fs.listEntry wanted block seen entry) := by
  rw [Ext2Fs.listEntry]
  split
  · split
    · exact ends_error (by decide)
    · exact stops_ok _
  · exact stops_ok _

variable {dev : Device}

theorem blockFor_lt (h : (mountedOn dev).blockFor frames disk index = .ok number) : number < 2 ^ 32 := by
  rw [blockFor_eq] at h
  split_ifs at h <;> cases h
  all_goals first | exact pointerAt_lt .. | decide

theorem length_of_readBlock (hnumber : number < 2 ^ 32)
    (h : (mountedOn dev).readBlock frames number = .ok (some block)) : block.length = (mountedOn dev).blockSize := by
  rw [readBlock_eq dev hnumber] at h
  split_ifs at h
  · exact length_blockAt (Except.ok.inj h)
  · cases h

/-- Rounds beyond the length of the buffer change nothing: each round delivers a byte. -/
theorem readFrom_fuel {offset length fuel : ℕ} {out : List UInt8} (hfuel : length ≤ out.length + fuel) (extra : ℕ) :
    (mountedOn dev).readFrom frames disk offset length (fuel + extra) out =
      (mountedOn dev).readFrom frames disk offset length fuel out := by
  induction fuel generalizing out with
  | zero =>
    cases extra with
    | zero => rfl
    | succ extra => exact if_neg (by omega)
  | succ fuel ih =>
    rw [Nat.add_right_comm, Ext2Fs.readFrom, Ext2Fs.readFrom]
    refine ite_congr rfl (fun hshort ↦ ite_congr rfl (fun _ ↦ rfl) fun hsize ↦ ?_) fun _ ↦ rfl
    refine bind_congr_ok fun number hnumber ↦ ite_congr rfl (fun _ ↦ rfl) fun _ ↦ ?_
    refine bind_congr_ok fun scratch hscratch ↦ ?_
    cases scratch with
    | none => rfl
    | some scratch =>
      refine ih ?_
      have hlength := length_of_readBlock (blockFor_lt hnumber) hscratch
      have hinside := Nat.mod_lt (offset + out.length) (Nat.pos_of_ne_zero hsize)
      rw [List.length_append, List.length_take, List.length_drop, hlength]
      split_ifs <;> omega

end Eris.Fs.Ext2
