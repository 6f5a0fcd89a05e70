import Eris.Library.Slots
import Eris.Mm.Frames

namespace Eris.Mm

open Library.Slots

def vmallocBase : ℕ := 2 ^ 30

def vmallocEnd : ℕ := 2 ^ 31

def maxRanges : ℕ := 64

structure Range where
  start : ℕ
  length : ℕ
  deriving DecidableEq

/-- The array `free_ranges` up to `range_count`. -/
structure Vmalloc where
  ranges : List Range
  initialised : Bool
  fits : ranges.length ≤ maxRanges

def roundUp (length : ℕ) : ℕ := (length + pageSize - 1) % 2 ^ 64 / pageSize * pageSize

namespace Vmalloc

def ensureInitialised (v : Vmalloc) : Vmalloc :=
  if v.initialised then v
  else ⟨[⟨vmallocBase, vmallocEnd - vmallocBase⟩], true, by decide⟩

def extent (length : ℕ) : ℕ := (roundUp length + pageSize) % 2 ^ 64

/-- Take the front of range `i`, and drop the range when nothing is left of it. -/
def cut (v : Vmalloc) (i : ℕ) (r : Range) (wanted : ℕ) : Vmalloc :=
  if r.length - wanted = 0 then
    { v with
      ranges := swapRemove v.ranges i
      fits := by have h := v.fits; rw [length_swapRemove]; omega }
  else
    { v with
      ranges := v.ranges.set i ⟨r.start + wanted, r.length - wanted⟩
      fits := by have h := v.fits; rwa [List.length_set] }

def reserve (length : ℕ) (v : Vmalloc) : Vmalloc × ℕ :=
  let v := v.ensureInitialised
  match v.ranges.findIdx? (fun r ↦ extent length ≤ r.length) with
  | none => (v, 0)
  | some i =>
    match v.ranges[i]? with
    | none => (v, 0)
    | some r => (v.cut i r (extent length), r.start)

/-- Grow the first range that ends where the released one starts or the other way round. -/
def mergeInto (address released : ℕ) : List Range → Option (List Range)
  | [] => none
  | r :: rs =>
    if r.start = (address + released) % 2 ^ 64 then
      some (⟨address, (r.length + released) % 2 ^ 64⟩ :: rs)
    else if (r.start + r.length) % 2 ^ 64 = address then
      some (⟨r.start, (r.length + released) % 2 ^ 64⟩ :: rs)
    else (mergeInto address released rs).map (r :: ·)

theorem length_mergeInto {address released : ℕ} {rs rs' : List Range}
    (h : mergeInto address released rs = some rs') : rs'.length = rs.length := by
  induction rs generalizing rs' with
  | nil => cases h
  | cons r rs ih =>
    rw [mergeInto] at h
    split at h
    · cases h
      rfl
    · split at h
      · cases h
        rfl
      · obtain ⟨rs'', hrs, rfl⟩ := Option.map_eq_some_iff.mp h
        rw [List.length_cons, ih hrs, List.length_cons]

def release (address length : ℕ) (v : Vmalloc) : Vmalloc :=
  let v := v.ensureInitialised
  match h : mergeInto address (extent length) v.ranges with
  | some rs => { v with ranges := rs, fits := by rw [length_mergeInto h]; exact v.fits }
  | none =>
    if hroom : v.ranges.length < maxRanges then
      { v with
        ranges := v.ranges ++ [⟨address, extent length⟩]
        fits := by rw [List.length_append, List.length_singleton]; omega }
    else v

def Free (v : Vmalloc) (a : ℕ) : Prop :=
  ∃ r ∈ v.ensureInitialised.ranges, r.start ≤ a ∧ a < r.start + r.length

end Vmalloc

end Eris.Mm
