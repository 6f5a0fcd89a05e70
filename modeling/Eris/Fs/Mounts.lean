import Eris.Fs.Resolve
import Eris.Library.Slots
import Eris.Library.Transition

namespace Eris.Fs

open Library Library.Paths Library.Slots List

def maxMounts : ℕ := 8

def maxPath : ℕ := 128

def mount (mounts : List Mount) (path : Option (List UInt8)) (filesystem : Option (Option ℕ)) : ℤ × List Mount :=
  match path, filesystem with
  | some path, some root =>
    if path.head? ≠ some slash then (-1, mounts)
    else if maxMounts ≤ mounts.length then (-1, mounts)
    else (0, mounts ++ [⟨path.take (maxPath - 1), root⟩])
  | _, _ => (-1, mounts)

def unmount (mounts : List Mount) (path : List UInt8) : ℤ × List Mount :=
  match mounts.findIdx? (·.path = path) with
  | none => (-1, mounts)
  | some i => (0, swapRemove mounts i)

inductive TableAction
  | mount (path : Option (List UInt8)) (filesystem : Option (Option ℕ))
  | unmount (path : List UInt8)

def tables : System (List Mount) TableAction where
  init mounts := mounts = []
  enabled _ action :=
    match action with
    | .mount path _ => ∀ bytes ∈ path, 0 ∉ bytes
    | .unmount _ => True
  step mounts action :=
    match action with
    | .mount path filesystem => some (mount mounts path filesystem).2
    | .unmount path => some (unmount mounts path).2

/-- The path of a mount that is in the table. -/
structure Stored (m : Mount) : Prop where
  absolute : m.path.head? = some slash
  string : 0 ∉ m.path
  short : m.path.length < maxPath

variable {mounts : List Mount}

theorem mount_stored {path : Option (List UInt8)} {filesystem : Option (Option ℕ)} (h : ∀ m ∈ mounts, Stored m)
    (hpath : ∀ bytes ∈ path, 0 ∉ bytes) : ∀ m ∈ (mount mounts path filesystem).2, Stored m := by
  unfold mount
  split
  · rename_i bytes root
    split
    · exact h
    · rename_i habs
      split
      · exact h
      · intro m hm
        obtain hm | hm := mem_append.mp hm
        · exact h m hm
        · obtain rfl := mem_singleton.mp hm
          refine ⟨?_, fun hzero ↦ hpath bytes rfl (mem_of_mem_take hzero), ?_⟩
          · rw [head?_take, if_neg (by decide)]
            exact not_not.mp habs
          · rw [length_take]
            have hmax : maxPath = 128 := rfl
            omega
  · exact h

theorem unmount_cases (mounts : List Mount) (path : List UInt8) :
    (mounts.findIdx? (·.path = path) = none ∧ unmount mounts path = (-1, mounts)) ∨
      ∃ i, mounts.findIdx? (·.path = path) = some i ∧ unmount mounts path = (0, swapRemove mounts i) := by
  rw [unmount]
  cases mounts.findIdx? (·.path = path) with
  | none => exact .inl ⟨rfl, rfl⟩
  | some i => exact .inr ⟨i, rfl, rfl⟩

theorem reached_stored (h : tables.Reached (fun _ _ ↦ True) mounts) : ∀ m ∈ mounts, Stored m := by
  refine h.invariant (I := fun mounts ↦ ∀ m ∈ mounts, Stored m) ?_ ?_
  · intro mounts hnil m hm
    cases hnil
    cases hm
  · intro mounts mounts' action hmounts hon _ hs
    cases action with
    | mount path filesystem =>
      cases hs
      exact mount_stored hmounts hon
    | unmount path =>
      cases hs
      obtain ⟨-, hun⟩ | ⟨i, -, hun⟩ := unmount_cases mounts path
      · rw [hun]
        exact hmounts
      · rw [hun]
        intro m hm
        exact hmounts m (mem_of_mem_swapRemove hm)

/-- What the loop of `mount_for` asks of a mount. -/
def onPath (text : ℕ → UInt8) (m : Mount) : Bool :=
  (compare text (m.path.take (pathLength m.path)) 0 []).1 &&
    !decide (1 < pathLength m.path ∧ text (pathLength m.path) ≠ 0 ∧ text (pathLength m.path) ≠ slash)

/-- The loop of `mount_for`, with the number of the best mount so far and its length. -/
def mountIndex (text : ℕ → UInt8) : List Mount → ℕ → Option (ℕ × ℕ) → Option (ℕ × ℕ)
  | [], _, best => best
  | m :: mounts, k, best =>
    if onPath text m = true ∧ best.all (·.2 < pathLength m.path) then
      mountIndex text mounts (k + 1) (some (k, pathLength m.path))
    else mountIndex text mounts (k + 1) best

def through (mounts : List Mount) (path : List UInt8) : Option ℕ :=
  (mountIndex (kernelText path) mounts 0 none).map Prod.fst

theorem compare_fst (text : ℕ → UInt8) (bytes : List UInt8) (i : ℕ) (seen seen' : List ℕ) :
    (compare text bytes i seen).1 = (compare text bytes i seen').1 := by
  induction bytes generalizing i seen seen' with
  | nil => rfl
  | cons b bytes ih =>
    rw [compare, compare]
    split
    · exact ih ..
    · rfl

theorem mountFor_eq_mountIndex (text : ℕ → UInt8) (entry : ℕ → Mount) (mounts : List Mount) (k : ℕ)
    (hentry : ∀ j m, mounts[j]? = some m → entry (k + j) = m) (best : Option (ℕ × ℕ)) (seen : List ℕ) :
    (mountFor text mounts (best.map fun x ↦ (entry x.1, x.2)) seen).1 =
      (mountIndex text mounts k best).map fun x ↦ (entry x.1, x.2) := by
  induction mounts generalizing k best seen with
  | nil => rfl
  | cons m mounts ih =>
    have hrest : ∀ j m', mounts[j]? = some m' → entry (k + 1 + j) = m' := by
      intro j m' hj
      rw [Nat.add_assoc, Nat.add_comm 1 j]
      exact hentry (j + 1) m' hj
    have hall : (best.map fun x ↦ (entry x.1, x.2)).all (·.2 < pathLength m.path) =
        best.all (·.2 < pathLength m.path) := by
      cases best <;> rfl
    have hfst := compare_fst text (m.path.take (pathLength m.path)) 0 seen []
    rw [mountFor, mountIndex, onPath, ← hfst, hall]
    rcases compare text (m.path.take (pathLength m.path)) 0 seen with ⟨_ | _, seen'⟩
    · rw [if_neg (by simp)]
      exact ih (k + 1) hrest best seen'
    · dsimp only
      split
      · rename_i hafter
        rw [if_neg (by simp [hafter])]
        exact ih (k + 1) hrest best _
      · rename_i hafter
        have hon : (true && !decide (1 < pathLength m.path ∧ text (pathLength m.path) ≠ 0 ∧
            text (pathLength m.path) ≠ slash)) = true := by
          rw [Bool.true_and, Bool.not_eq_true', decide_eq_false_iff_not]
          exact hafter
        split
        · rename_i hbetter
          rw [if_pos ⟨hon, hbetter⟩, ← ih (k + 1) hrest, Option.map_some, ← hentry 0 m rfl]
          rfl
        · rename_i hbetter
          rw [if_neg fun h ↦ hbetter h.2]
          exact ih (k + 1) hrest best _

def Chosen (mounts : List Mount) (path : List UInt8) (k : ℕ) : Prop :=
  ∃ m, mounts[k]? = some m ∧ Covers m path ∧ ∀ j m', mounts[j]? = some m' → Covers m' path →
    pathLength m'.path < pathLength m.path ∨ pathLength m'.path = pathLength m.path ∧ k ≤ j

theorem Chosen.unique {path : List UInt8} {k k' : ℕ} (h : Chosen mounts path k) (h' : Chosen mounts path k') : k = k' := by
  obtain ⟨m, hm, hcovers, hfirst⟩ := h
  obtain ⟨m', hm', hcovers', hfirst'⟩ := h'
  have h₁ := hfirst k' m' hm' hcovers'
  have h₂ := hfirst' k m hm hcovers
  omega

variable {path : List UInt8}

theorem onPath_iff (hpath : 0 ∉ path) (habs : path.head? = some slash) {m : Mount} (hm : Stored m) :
    onPath (kernelText path) m = true ↔ Covers m path := by
  rw [covers_iff hpath habs hm.string [], onPath, Bool.and_eq_true, Bool.not_eq_true', decide_eq_false_iff_not]

def Best (mounts : List Mount) (path : List UInt8) (best : Option (ℕ × ℕ)) : Prop :=
  (∀ x ∈ best, Chosen mounts path x.1 ∧ ∀ m, mounts[x.1]? = some m → x.2 = pathLength m.path) ∧
    (best = none → ∀ m ∈ mounts, ¬ Covers m path)

theorem Best.skip {m : Mount} {best : Option (ℕ × ℕ)} (h : Best mounts path best)
    (hm : Covers m path → ∃ x ∈ best, pathLength m.path ≤ x.2) : Best (mounts ++ [m]) path best := by
  refine ⟨fun x hx ↦ ?_, fun hnone m' hm' hcovers ↦ ?_⟩
  · obtain ⟨⟨mx, hmx, hcovers, hfirst⟩, hlength⟩ := h.1 x hx
    have hlt := (List.getElem?_eq_some_iff.mp hmx).1
    refine ⟨⟨mx, getElem?_concat_eq_some.mpr (.inl hmx), hcovers, ?_⟩, ?_⟩
    · intro j m' hj hm'
      obtain hj | ⟨rfl, rfl⟩ := getElem?_concat_eq_some.mp hj
      · exact hfirst j m' hj hm'
      · obtain ⟨y, hy, hle⟩ := hm hm'
        obtain rfl := Option.some.inj (hx.symm.trans hy)
        rw [hlength mx hmx] at hle
        omega
    · intro m' hm'
      obtain hm' | ⟨heq, -⟩ := getElem?_concat_eq_some.mp hm'
      · exact hlength m' hm'
      · omega
  · obtain hm' | hm' := mem_append.mp hm'
    · exact h.2 hnone m' hm' hcovers
    · obtain rfl := mem_singleton.mp hm'
      obtain ⟨x, hx, -⟩ := hm hcovers
      rw [hnone] at hx
      cases hx

theorem Best.take {m : Mount} {best : Option (ℕ × ℕ)} (h : Best mounts path best) (hm : Covers m path)
    (hbetter : ∀ x ∈ best, x.2 < pathLength m.path) :
    Best (mounts ++ [m]) path (some (mounts.length, pathLength m.path)) := by
  have hself : (mounts ++ [m])[mounts.length]? = some m := getElem?_concat_eq_some.mpr (.inr ⟨rfl, rfl⟩)
  refine ⟨?_, fun hnone ↦ by cases hnone⟩
  intro x hx
  obtain rfl := Option.some.inj hx
  refine ⟨⟨m, hself, hm, ?_⟩, ?_⟩
  · intro j m' hj hm'
    obtain hj | ⟨rfl, rfl⟩ := getElem?_concat_eq_some.mp hj
    · -- an earlier mount that leads to the path is no longer than the best one so far
      cases best with
      | none => exact absurd hm' (h.2 rfl m' (mem_of_getElem? hj))
      | some y =>
        obtain ⟨⟨my, hmy, -, hfirst⟩, hlength⟩ := h.1 y rfl
        have hle := hfirst j m' hj hm'
        have hlt := hbetter y rfl
        rw [hlength my hmy] at hlt
        omega
    · exact .inr ⟨rfl, le_rfl⟩
  · intro m' hm'
    rw [hself] at hm'
    rw [Option.some.inj hm']

theorem mountIndex_best (hpath : 0 ∉ path) (habs : path.head? = some slash) {mounts done : List Mount}
    (hmounts : ∀ m ∈ mounts, Stored m) {best : Option (ℕ × ℕ)} (h : Best done path best) :
    Best (done ++ mounts) path (mountIndex (kernelText path) mounts done.length best) := by
  induction mounts generalizing done best with
  | nil => rwa [List.append_nil]
  | cons m mounts ih =>
    rw [forall_mem_cons] at hmounts
    rw [mountIndex]
    have hlen : done.length + 1 = (done ++ [m]).length := by rw [length_append, length_singleton]
    rw [append_cons, hlen]
    split
    · rename_i hfound
      refine ih hmounts.2 (h.take ((onPath_iff hpath habs hmounts.1).mp hfound.1) ?_)
      intro x hx
      have hall := hfound.2
      rw [Option.mem_def.mp hx] at hall
      simpa using hall
    · rename_i hnot
      refine ih hmounts.2 (h.skip fun hcovers ↦ ?_)
      have hnone : ¬ best.all (·.2 < pathLength m.path) = true :=
        fun hall ↦ hnot ⟨(onPath_iff hpath habs hmounts.1).mpr hcovers, hall⟩
      cases best with
      | none => exact absurd rfl hnone
      | some x => exact ⟨x, rfl, by simpa using hnone⟩

theorem through_eq_some_iff (hpath : 0 ∉ path) (habs : path.head? = some slash) (hmounts : ∀ m ∈ mounts, Stored m)
    {k : ℕ} : through mounts path = some k ↔ Chosen mounts path k := by
  have hempty : Best [] path none := ⟨fun x hx ↦ (by cases hx), fun _ m hm ↦ (by cases hm)⟩
  have hbest := mountIndex_best hpath habs hmounts hempty
  obtain ⟨hsome, hnone⟩ := hbest
  rw [through]
  constructor
  · intro h
    obtain ⟨x, hx, rfl⟩ := Option.map_eq_some_iff.mp h
    exact (hsome x hx).1
  · intro h
    cases hindex : mountIndex (kernelText path) mounts 0 none with
    | none =>
      obtain ⟨m, hm, hcovers, -⟩ := h
      exact absurd hcovers (hnone hindex m (mem_of_getElem? hm))
    | some x => exact congrArg some ((hsome x hindex).1.unique h)

theorem Covers.strip_eq {m m' : Mount} (h : Covers m path) (h' : Covers m' path)
    (hlen : pathLength m.path = pathLength m'.path) : strip slash m.path = strip slash m'.path := by
  have heq : (strip slash m.path).length = (strip slash m'.path).length := by rw [length_strip, length_strip, hlen]
  exact (prefix_of_prefix_length_le h.1 h'.1 heq.le).eq_of_length heq

theorem Covers.congr {m m' : Mount} (h : Covers m path) (hstrip : strip slash m'.path = strip slash m.path) :
    Covers m' path := by
  rw [Covers, hstrip]
  exact h

/-- The place of an entry after the one at `i` has been removed. -/
def placeAfter (mounts : List Mount) (i k : ℕ) : ℕ := if k + 1 = mounts.length then i else k

/-- Where a mount between the removed one and the last one has the same name as the last one, so has the removed one or
one in front of it. -/
def Shielded (mounts : List Mount) (i : ℕ) : Prop :=
  ∀ last, mounts.getLast? = some last → ∀ j m, i < j → j + 1 < mounts.length → mounts[j]? = some m →
    strip slash m.path = strip slash last.path →
    ∃ h m', h ≤ i ∧ mounts[h]? = some m' ∧ strip slash m'.path = strip slash last.path

theorem Shielded.chosen {i k : ℕ} (h : Shielded mounts i) (hi : i < mounts.length) (hk : k ≠ i)
    (hchosen : Chosen mounts path k) : Chosen (swapRemove mounts i) path (placeAfter mounts i k) := by
  obtain ⟨m, hm, hcovers, hfirst⟩ := hchosen
  refine ⟨m, (getElem?_swapRemove_eq_some hi).mpr ⟨k, hk, hm, rfl⟩, hcovers, ?_⟩
  intro j' m' hj' hm'
  obtain ⟨j, hj, hjm', rfl⟩ := (getElem?_swapRemove_eq_some hi).mp hj'
  obtain hlt | ⟨hlen, hkj⟩ := hfirst j m' hjm' hm'
  · exact .inl hlt
  · refine .inr ⟨hlen, ?_⟩
    have hjlt := (List.getElem?_eq_some_iff.mp hjm').1
    unfold placeAfter
    by_cases hlast : j + 1 = mounts.length
    · rw [if_pos hlast]
      by_cases hklast : k + 1 = mounts.length
      · rw [if_pos hklast]
      · rw [if_neg hklast]
        by_contra hik
        -- the last mount would come in front of the chosen one
        have hgetLast : mounts.getLast? = some m' := by
          rw [getLast?_eq_getElem?, ← hjm']
          congr 1
          omega
        obtain ⟨h', mh, hle, hmh, hstrip⟩ := h m' hgetLast k m (by omega) (by omega) hm (hcovers.strip_eq hm' hlen.symm)
        have hearlier := hfirst h' mh hmh (hm'.congr hstrip)
        have hsame : pathLength mh.path = pathLength m'.path := by rw [← length_strip, ← length_strip, hstrip]
        omega
    · rw [if_neg hlast, if_neg (by omega)]
      exact hkj

theorem covers_strip (m : Mount) : Covers m (strip slash m.path) :=
  ⟨prefix_rfl, .inr (.inl (drop_length ..))⟩

theorem Stored.strip {m : Mount} (h : Stored m) : 0 ∉ strip slash m.path ∧ (strip slash m.path).head? = some slash := by
  constructor
  · rw [← take_pathLength]
    exact fun hzero ↦ h.string (mem_of_mem_take hzero)
  · have habs := h.absolute
    cases hpath : m.path with
    | nil =>
      rw [hpath] at habs
      cases habs
    | cons b rest =>
      rw [hpath] at habs
      exact habs

theorem exists_unshielded {i : ℕ} (hi : i < mounts.length) (hmounts : ∀ m ∈ mounts, Stored m)
    (h : ¬ Shielded mounts i) : ∃ path k, 0 ∉ path ∧ path.head? = some slash ∧ k ≠ i ∧ Chosen mounts path k ∧
      ¬ Chosen (swapRemove mounts i) path (placeAfter mounts i k) := by
  classical
  unfold Shielded at h
  push Not at h
  obtain ⟨last, hlast, j₀, m₀, hj₀, hlt₀, hm₀, hstrip₀, hnone⟩ := h
  have hstored := hmounts last (mem_of_getLast? hlast)
  rw [getLast?_eq_getElem?] at hlast
  -- the first mount after the hole with the name of the last one
  have hex : ∃ j m, i < j ∧ mounts[j]? = some m ∧ strip slash m.path = strip slash last.path :=
    ⟨j₀, m₀, hj₀, hm₀, hstrip₀⟩
  obtain ⟨m, hij, hm, hstrip⟩ := Nat.find_spec hex
  have hle := Nat.find_min' hex ⟨m₀, hj₀, hm₀, hstrip₀⟩
  have hmin : ∀ j m', i < j → mounts[j]? = some m' → strip slash m'.path = strip slash last.path → Nat.find hex ≤ j :=
    fun j m' hij hm' hstrip' ↦ Nat.find_min' hex ⟨m', hij, hm', hstrip'⟩
  generalize Nat.find hex = k at hij hm hle hmin
  have hplace : placeAfter mounts i k = k := if_neg (by omega)
  have hlength : ∀ {m' : Mount}, strip slash m'.path = strip slash last.path →
      pathLength m'.path = pathLength last.path := fun h ↦ by rw [← length_strip, ← length_strip, h]
  refine ⟨strip slash last.path, k, hstored.strip.1, hstored.strip.2, hij.ne', ?_, ?_⟩
  · refine ⟨m, hm, (covers_strip last).congr hstrip, ?_⟩
    intro j m' hj hcovers
    have hshort : pathLength m'.path ≤ pathLength last.path := by
      rw [← length_strip, ← length_strip]
      exact hcovers.1.length_le
    rw [hlength hstrip]
    obtain hlt | heq := hshort.lt_or_eq
    · exact .inl hlt
    · have hsame := hcovers.strip_eq (covers_strip last) heq
      refine .inr ⟨heq, ?_⟩
      by_contra hjk
      by_cases hji : j ≤ i
      · exact hnone j m' hji hj hsame
      · exact hjk (hmin j m' (by omega) hj hsame)
  · rw [hplace]
    intro ⟨m', hm', _, hfirst⟩
    have hmoved := (getElem?_swapRemove_eq_some hi).mpr ⟨mounts.length - 1, by omega, hlast, by rw [if_pos (by omega)]⟩
    have hkept := (getElem?_swapRemove_eq_some hi).mpr ⟨k, hij.ne', hm, hplace.symm⟩
    obtain rfl := Option.some.inj (hm'.symm.trans hkept)
    have hbefore := hfirst i last hmoved (covers_strip last)
    have hsame := hlength hstrip
    omega

/-- A mount is removed, and every path that was resolved through another one still is, exactly if the move of the last
mount into the hole passes over no mount of its name. -/
theorem unmount_frame_iff (h : tables.Reached (fun _ _ ↦ True) mounts) {path : List UInt8} {i : ℕ}
    (hfind : mounts.findIdx? (·.path = path) = some i) :
    unmount mounts path = (0, swapRemove mounts i) ∧
      (∀ j m, (swapRemove mounts i)[j]? = some m ↔ ∃ k, k ≠ i ∧ mounts[k]? = some m ∧ j = placeAfter mounts i k) ∧
      ((∀ p, 0 ∉ p → p.head? = some slash → ∀ k, k ≠ i → through mounts p = some k →
        through (swapRemove mounts i) p = some (placeAfter mounts i k)) ↔ Shielded mounts i) := by
  have hmounts := reached_stored h
  have hi := (findIdx?_eq_some_iff_getElem.mp hfind).1
  have hmounts' : ∀ m ∈ swapRemove mounts i, Stored m := fun m hm ↦ hmounts m (mem_of_mem_swapRemove hm)
  refine ⟨by rw [unmount, hfind], fun j m ↦ getElem?_swapRemove_eq_some hi, ?_⟩
  constructor
  · intro hframe
    by_contra hnot
    obtain ⟨p, k, hp, habs, hk, hchosen, hlost⟩ := exists_unshielded hi hmounts hnot
    have hthrough := hframe p hp habs k hk ((through_eq_some_iff hp habs hmounts).mpr hchosen)
    exact hlost ((through_eq_some_iff hp habs hmounts').mp hthrough)
  · intro hshielded p hp habs k hk hthrough
    rw [through_eq_some_iff hp habs hmounts] at hthrough
    rw [through_eq_some_iff hp habs hmounts']
    exact hshielded.chosen hi hk hthrough

def twoAtDisk : List Mount := [⟨[slash, 0x78], some 0⟩, ⟨[slash, 0x6D], some 1⟩, ⟨[slash, 0x6D], some 2⟩]

theorem reached_twoAtDisk : tables.Reached (fun _ _ ↦ True) twoAtDisk := by
  have hstring : ∀ b : UInt8, b ≠ 0 → ∀ bytes ∈ some [slash, b], 0 ∉ bytes := by
    intro b hb bytes hbytes
    obtain rfl := Option.some.inj hbytes
    simp [slash, hb.symm]
  have h₁ : tables.Reached (fun _ _ ↦ True) [⟨[slash, 0x78], some 0⟩] :=
    .step (.mount (some [slash, 0x78]) (some (some 0))) (.init rfl) (hstring 0x78 (by decide)) trivial rfl
  have h₂ : tables.Reached (fun _ _ ↦ True) [⟨[slash, 0x78], some 0⟩, ⟨[slash, 0x6D], some 1⟩] :=
    .step (.mount (some [slash, 0x6D]) (some (some 1))) h₁ (hstring 0x6D (by decide)) trivial rfl
  exact .step (.mount (some [slash, 0x6D]) (some (some 2))) h₂ (hstring 0x6D (by decide)) trivial rfl

/-- The first of the two is removed, and the third file system is still found. -/
theorem unmount_frame_first : tables.Reached (fun _ _ ↦ True) twoAtDisk ∧
    ∀ p, 0 ∉ p → p.head? = some slash → ∀ k, k ≠ 1 → through twoAtDisk p = some k →
      through (swapRemove twoAtDisk 1) p = some (placeAfter twoAtDisk 1 k) := by
  have hfind : twoAtDisk.findIdx? (·.path = [slash, 0x6D]) = some 1 := rfl
  refine ⟨reached_twoAtDisk, (unmount_frame_iff reached_twoAtDisk hfind).2.2.mpr ?_⟩
  intro last hlast j m hij hj
  have hlength : twoAtDisk.length = 3 := rfl
  omega

/-- The third file system is unmounted, and the path of the two others is resolved through the second of them. -/
theorem unmount_swaps_mounts : tables.Reached (fun _ _ ↦ True) twoAtDisk ∧
    unmount twoAtDisk [slash, 0x78] = (0, [⟨[slash, 0x6D], some 2⟩, ⟨[slash, 0x6D], some 1⟩]) ∧
    through twoAtDisk [slash, 0x6D] = some 1 ∧ placeAfter twoAtDisk 0 1 = 1 ∧
    through (unmount twoAtDisk [slash, 0x78]).2 [slash, 0x6D] = some 0 :=
  ⟨reached_twoAtDisk, rfl, by decide +kernel, rfl, by decide +kernel⟩

end Eris.Fs
