import Eris.Fs.Ext2Cache
import Eris.Library.Outcome
import Eris.Library.Transition

namespace Eris.Fs.Ext2

open Block Library.Outcome List

namespace Ext2Fs

variable (fs : Ext2Fs)

def walk (frames : Frames) : List (List UInt8) → Ext2Inode → List Ext2Inode → Except Fault (Option Ext2Inode × List Ext2Inode)
  | [], node, cache => return (some node, cache)
  | name :: names, node, cache => do
    match ← fs.lookup (frames.below names.length) node.disk name cache with
    | (none, cache) => return (none, cache)
    | (some node, cache) => walk frames names node cache

def find (frames : Frames) (names : List (List UInt8)) (cache : List Ext2Inode) :
    Except Fault (Option Ext2Inode × List Ext2Inode) := do
  match ← fs.root (frames.below 0) cache with
  | (none, cache) => return (none, cache)
  | (some node, cache) => fs.walk (frames.below 1) names node cache

end Ext2Fs

/-- The one file system and its open inodes. Of the devices it is only recorded which one is mounted, and which one was
when an inode was read. -/
structure Served where
  fs : Ext2Fs
  cache : List Ext2Inode
  current : Option ℕ
  origins : List (Option ℕ)

namespace Served

variable (devices : ℕ → Device) (s : Served)

/-- `ext2_mount`, unless it divides by zero. -/
def ext2Mount (frames : Frames) : Option ℕ → Option (Bool × Served)
  | none => some (false, s)
  | some d =>
    match s.fs.mount frames (devices d) with
    | .error _ => none
    | .ok (ok, fs) => some (ok, { s with fs, current := if ok then some d else none })

def find (frames : Frames) (names : List (List UInt8)) : Option (Option Ext2Inode × Served) :=
  match s.fs.find frames names s.cache with
  | .error _ => none
  | .ok (node, cache) => some (node, { s with
      cache
      origins := s.origins ++ List.replicate (cache.length - s.cache.length) s.current })

end Served

inductive MountCall
  | mount (device : Option ℕ) (frames : Frames)
  | find (names : List (List UInt8)) (frames : Frames)

def served (devices : ℕ → Device) : Library.System Served MountCall where
  init s := s.fs.device = none ∧ s.cache = [] ∧ s.current = none ∧ s.origins = []
  enabled _ _ := True
  step s
    | .mount device frames => (s.ext2Mount devices frames device).map Prod.snd
    | .find names frames => (s.find frames names).map Prod.snd

/-- A device that can be mounted is one that all open inodes were read from, and one that cannot is not tried while
another is mounted. -/
def Careful (devices : ℕ → Device) (s : Served) : MountCall → Prop
  | .mount (some d) frames =>
    if frames.page = true ∧ (devices d).Readable superblockOffset superblockSize ∧ (superOn (devices d)).magic = ext2Magic then
      ∀ o ∈ s.origins, o = some d
    else s.current = none
  | _ => True

section Grows

variable {fs : Ext2Fs} {frames : Frames} {disk : DiskInode} {cache cache' : List Ext2Inode} {found : Option Ext2Inode}

def Grows (cache : List Ext2Inode) (r : Option Ext2Inode × List Ext2Inode) : Prop :=
  cache <+: r.2 ∧ ∀ node ∈ r.1, node ∈ r.2

theorem openInode_grows {number : ℕ} {r : Option Ext2Inode × List Ext2Inode}
    (h : fs.openInode frames number cache = .ok r) : Grows cache r := by
  rw [Ext2Fs.openInode] at h
  cases hfind : cache.find? (·.number = number) with
  | some node =>
    rw [hfind] at h
    cases h
    exact ⟨prefix_rfl, fun n hn ↦ Option.some.inj hn ▸ mem_of_find?_eq_some hfind⟩
  | none =>
    rw [hfind] at h
    dsimp only at h
    split at h
    · cases h
      exact ⟨prefix_rfl, by simp⟩
    · obtain ⟨disk, -, h⟩ := bind_eq_ok.mp h
      cases disk with
      | none =>
        cases h
        exact ⟨prefix_rfl, by simp⟩
      | some disk =>
        cases h
        exact ⟨prefix_append .., fun n hn ↦ Option.some.inj hn ▸ mem_append_right _ mem_cons_self⟩

theorem overBlocks_keeps {α β : Type} {visit : ℕ → α → List UInt8 → Except Fault (β ⊕ α)} {J : β → Prop} {I : α → Prop}
    (hvisit : ∀ index a block r, I a → visit index a block = .ok r → Sum.elim J I r) {fuel index : ℕ} {a : α} {r : β ⊕ α}
    (ha : I a) (h : fs.overBlocks frames disk visit fuel index a = .ok r) : Sum.elim J I r := by
  induction fuel generalizing index a with
  | zero => cases h
  | succ fuel ih =>
    rw [Ext2Fs.overBlocks] at h
    split at h
    · obtain ⟨number, -, h⟩ := bind_eq_ok.mp h
      split at h
      · cases h
        exact ha
      · obtain ⟨block, -, h⟩ := bind_eq_ok.mp h
        cases block with
        | none =>
          cases h
          exact ha
        | some block =>
          obtain ⟨r', hr', h⟩ := bind_eq_ok.mp h
          have hkept := hvisit _ _ _ _ ha hr'
          cases r' with
          | inl b =>
            cases h
            exact hkept
          | inr a' => exact ih hkept h
    · cases h
      exact ha

theorem lookup_grows {name : List UInt8} {r : Option Ext2Inode × List Ext2Inode}
    (h : fs.lookup frames disk name cache = .ok r) : Grows cache r := by
  have hsame : Grows cache (none, cache) := ⟨prefix_rfl, nofun⟩
  rw [Ext2Fs.lookup] at h
  split at h
  · split at h
    · obtain ⟨r', hr', h⟩ := bind_eq_ok.mp h
      have hkept := overBlocks_keeps (J := fun p ↦ Grows cache (some p.1, p.2))
        (fun index c block r hc hvisit ↦ ?_) prefix_rfl hr'
      · cases r' with
        | inl p =>
          cases h
          exact hkept
        | inr c =>
          cases h
          exact ⟨hkept, nofun⟩
      · obtain ⟨scanned, -, hvisit⟩ := bind_eq_ok.mp hvisit
        cases scanned with
        | inr u =>
          cases hvisit
          exact hc
        | inl number =>
          obtain ⟨opened, hopen, hvisit⟩ := bind_eq_ok.mp hvisit
          have hgrows := openInode_grows hopen
          obtain ⟨node, c'⟩ := opened
          cases node with
          | none =>
            cases hvisit
            exact hc.trans hgrows.1
          | some node =>
            cases hvisit
            exact ⟨hc.trans hgrows.1, hgrows.2⟩
    · cases h
      exact hsame
  · cases h
    exact hsame

theorem walk_grows {names : List (List UInt8)} {node : Ext2Inode} {r : Option Ext2Inode × List Ext2Inode}
    (hnode : node ∈ cache) (h : fs.walk frames names node cache = .ok r) : Grows cache r := by
  induction names generalizing node cache with
  | nil =>
    cases h
    exact ⟨prefix_rfl, fun n hn ↦ Option.some.inj hn ▸ hnode⟩
  | cons name names ih =>
    obtain ⟨⟨found, cache'⟩, hlookup, h⟩ := bind_eq_ok.mp h
    have hgrows := lookup_grows hlookup
    cases found with
    | none =>
      cases h
      exact hgrows
    | some node' =>
      have hrest := ih (hgrows.2 node' rfl) h
      exact ⟨hgrows.1.trans hrest.1, hrest.2⟩

theorem find_grows {names : List (List UInt8)} {r : Option Ext2Inode × List Ext2Inode}
    (h : fs.find frames names cache = .ok r) : Grows cache r := by
  obtain ⟨⟨found, cache'⟩, hroot, h⟩ := bind_eq_ok.mp h
  have hgrows := openInode_grows hroot
  cases found with
  | none =>
    cases h
    exact hgrows
  | some node =>
    have hrest := walk_grows (hgrows.2 node rfl) h
    exact ⟨hgrows.1.trans hrest.1, hrest.2⟩

end Grows

/-- Every open inode was read from the device that is mounted. -/
structure Apart (s : Served) : Prop where
  length : s.origins.length = s.cache.length
  current : ∀ o ∈ s.origins, o = s.current

variable {devices : ℕ → Device} {s s' : Served}

theorem step_mount {device : Option ℕ} {frames : Frames} :
    (served devices).step s (.mount device frames) = (s.ext2Mount devices frames device).map Prod.snd := rfl

theorem ext2Mount_apart {frames : Frames} {d : ℕ} {ok : Bool} (h : Apart s) (hcareful : Careful devices s (.mount (some d) frames))
    (hmount : s.ext2Mount devices frames (some d) = some (ok, s')) : Apart s' ∧ (ok = false → s.current = none) := by
  rw [Careful] at hcareful
  rw [Served.ext2Mount] at hmount
  by_cases hsuper : frames.page = true ∧ (devices d).Readable superblockOffset superblockSize ∧
      (superOn (devices d)).magic = ext2Magic
  · rw [if_pos hsuper] at hcareful
    rw [s.fs.mount_eq hsuper.1 hsuper.2.1 hsuper.2.2] at hmount
    split at hmount
    · cases hmount
    · rename_i hresult
      split at hresult
      · cases hresult
      · cases hresult
        cases hmount
        exact ⟨⟨h.length, hcareful⟩, nofun⟩
  · rw [if_neg hsuper] at hcareful
    obtain ⟨fs', hfs'⟩ := s.fs.mount_eq_false hsuper
    rw [hfs'] at hmount
    cases hmount
    exact ⟨⟨h.length, hcareful ▸ h.current⟩, fun _ ↦ hcareful⟩

theorem find_apart {frames : Frames} {names : List (List UInt8)} {found : Option Ext2Inode} (h : Apart s)
    (hfind : s.find frames names = some (found, s')) : Apart s' ∧ s'.current = s.current ∧ ∀ node ∈ found, node ∈ s'.cache := by
  rw [Served.find] at hfind
  cases hresult : s.fs.find frames names s.cache with
  | error fault =>
    rw [hresult] at hfind
    cases hfind
  | ok r =>
    rw [hresult] at hfind
    have hgrows := find_grows hresult
    obtain ⟨node, cache'⟩ := r
    cases hfind
    refine ⟨⟨?_, fun o ho ↦ ?_⟩, rfl, hgrows.2⟩
    · have hle := hgrows.1.length_le
      rw [length_append, length_replicate, h.length]
      exact Nat.add_sub_of_le hle
    · obtain ho | ho := mem_append.mp ho
      · exact h.current o ho
      · exact eq_of_mem_replicate ho

theorem reached_serves_one (h : (served devices).Reached (Careful devices) s) : Apart s := by
  refine h.invariant (fun s hs ↦ ?_) fun s s' a hI _ hcareful hstep ↦ ?_
  · obtain ⟨-, hcache, -, horigins⟩ := hs
    refine ⟨by rw [hcache, horigins]; rfl, fun o ho ↦ ?_⟩
    rw [horigins] at ho
    cases ho
  · cases a with
    | mount device frames =>
      obtain ⟨⟨ok, _⟩, hmount, rfl⟩ := Option.map_eq_some_iff.mp hstep
      cases device with
      | none =>
        cases hmount
        exact hI
      | some d => exact (ext2Mount_apart hI hcareful hmount).1
    | find names frames =>
      obtain ⟨⟨found, _⟩, hfind, rfl⟩ := Option.map_eq_some_iff.mp hstep
      exact (find_apart hI hfind).1

/-- In every run that is careful, a mount that fails changes nothing while a device is mounted, and a path is resolved
to an inode that was read from the device that is mounted. -/
theorem mounts_serve (h : (served devices).Reached (Careful devices) s) :
    (∀ device frames s', Careful devices s (.mount device frames) →
      s.ext2Mount devices frames device = some (false, s') → s.current ≠ none → s' = s) ∧
    ∀ names frames s' node, s.find frames names = some (some node, s') →
      node ∈ s'.cache ∧ ∀ k : ℕ, s'.cache[k]? = some node → s'.origins[k]? = some s.current := by
  have hapart := reached_serves_one h
  refine ⟨fun device frames s' hcareful hmount hcurrent ↦ ?_, fun names frames s' node hfind ↦ ?_⟩
  · cases device with
    | none =>
      cases hmount
      rfl
    | some d => exact absurd ((ext2Mount_apart hapart hcareful hmount).2 rfl) hcurrent
  · obtain ⟨hapart', hcurrent, hnode⟩ := find_apart hapart hfind
    refine ⟨hnode node rfl, fun k hk ↦ ?_⟩
    have hlt := (List.getElem?_eq_some_iff.mp hk).1
    rw [← hapart'.length] at hlt
    rw [getElem?_eq_getElem hlt, hapart'.current _ (getElem_mem hlt), hcurrent]

def unmounted : Served := ⟨{ mountedOn crowded with device := none }, [], none, []⟩

def threeDevices : ℕ → Device
  | 0 => crowded
  | 1 => indirectImage
  | _ => ⟨fun _ ↦ 0, fun _ ↦ true⟩

theorem mounts_serve_root : ∃ s node s', (served threeDevices).Reached (Careful threeDevices) s ∧
    s.find allFrames [] = some (some node, s') ∧ s'.cache = [node] ∧ s'.origins[0]? = some (some 0) := by
  have hmount : unmounted.ext2Mount threeDevices allFrames (some 0) =
      some (true, { unmounted with fs := mountedOn crowded, current := some 0 }) := by
    have hfirst : unmounted.fs.mount allFrames (threeDevices 0) = .ok (true, mountedOn crowded) :=
      crowded_tree.mount_eq unmounted.fs rfl
    rw [Served.ext2Mount, hfirst]
    rfl
  have hcareful : Careful threeDevices unmounted (.mount (some 0) allFrames) := by
    rw [Careful]
    split
    · nofun
    · rfl
  have hinit : (served threeDevices).Reached (Careful threeDevices) unmounted := .init ⟨rfl, rfl, rfl, rfl⟩
  have hstep : (served threeDevices).step unmounted (.mount (some 0) allFrames) =
      some { unmounted with fs := mountedOn crowded, current := some 0 } := by
    rw [step_mount, hmount]
    rfl
  have hreached := hinit.step _ trivial hcareful hstep
  have hroot : (mountedOn crowded).find allFrames [] [] = .ok (some (nodeOn crowded rootInode), [nodeOn crowded rootInode]) := by
    decide +kernel
  have hfind : Served.find { unmounted with fs := mountedOn crowded, current := some 0 } allFrames [] =
      some (some (nodeOn crowded rootInode), ⟨mountedOn crowded, [nodeOn crowded rootInode], some 0, [some 0]⟩) := by
    rw [Served.find]
    dsimp only [unmounted]
    rw [hroot]
    rfl
  exact ⟨_, _, _, hreached, hfind, rfl, ((mounts_serve hreached).2 _ _ _ _ hfind).2 0 rfl⟩

/-- The root directory of one device is what the root of the next one is resolved to, and a device that is no file
system ends the one that was mounted. -/
theorem mounts_mix :
    ((served threeDevices).replay (fun _ _ ↦ true) [.mount (some 0) allFrames, .find [] allFrames,
        .mount (some 1) allFrames] unmounted).bind (fun s ↦ (s.find allFrames []).map fun r ↦ (r.1, r.2.current, r.2.origins)) =
      some (some (nodeOn crowded rootInode), some 1, [some 0]) ∧
    nodeOn crowded rootInode ≠ nodeOn indirectImage rootInode ∧
    ((served threeDevices).replay (fun _ _ ↦ true) [.mount (some 0) allFrames, .mount (some 2) allFrames] unmounted).map
        (fun s ↦ (s.current, s.fs.device.isSome)) = some (none, false) := by
  refine ⟨?_, ?_, ?_⟩ <;> decide +kernel

end Eris.Fs.Ext2
