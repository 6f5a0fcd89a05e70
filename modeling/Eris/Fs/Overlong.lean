import Eris.Fs.Resolve

namespace Eris.Fs

open Library.Paths List

variable {σ ν : Type} (fs : Backend σ ν)

theorem follow_none (names : List (List UInt8)) (s : σ) : follow fs none names s = (none, s) := by
  cases names <;> rfl

theorem follow_append (node : Option ν) (names names' : List (List UInt8)) (s : σ) :
    follow fs node (names ++ names') s = follow fs (follow fs node names s).1 names' (follow fs node names s).2 := by
  induction names generalizing node s with
  | nil => cases node <;> rfl
  | cons name names ih =>
    cases node with
    | none => rw [follow_none, follow_none, follow_none]
    | some node => exact ih _ _

def belongs (mounts : List Mount) (path : List UInt8) : Option (Mount × List UInt8) :=
  (mountFor (kernelText path) mounts none [0]).1.map fun best ↦
    (best.1, path.drop (if 1 < best.2 then best.2 else 0))

def named (mounts : List Mount) (path : List UInt8) (s : σ) : Option ν :=
  match belongs mounts path with
  | none => none
  | some (mount, rest) => (follow fs (fs.root mount s).1 (components slash rest) (fs.root mount s).2).1

/-- Take the directory that the components before the first overlong one lead to. If there is an entry under the part of
the overlong component that fits the buffer, then the other parts and the rest of the path lead from it to no node but
the one that the path names. -/
def Sheltered (mounts : List Mount) (path : List UInt8) (s : σ) : Prop :=
  ∀ mount rest long others, belongs mounts path = some (mount, rest) →
    (components slash rest).dropWhile (·.length ≤ 63) = long :: others → ∀ directory s₁ entry s₂,
      follow fs (fs.root mount s).1 ((components slash rest).takeWhile (·.length ≤ 63)) (fs.root mount s).2 =
        (some directory, s₁) → fs.lookup directory (long.take 63) s₁ = (some entry, s₂) →
      ∀ node, (follow fs (some entry) (pieces 63 (long.drop 63) ++ others.flatMap (pieces 63)) s₂).1 = some node →
        named fs mounts path s = some node

variable {mounts : List Mount} {path : List UInt8}

theorem resolveIn_pieces (hpath : 0 ∉ path) (habs : path.head? = some slash) (s : σ) : resolveIn fs mounts path s =
    match belongs mounts path with
    | none => (none, s)
    | some (mount, rest) =>
      follow fs (fs.root mount s).1 ((components slash rest).flatMap (pieces 63)) (fs.root mount s).2 := by
  have hslash : kernelText path 0 = slash := by
    cases path with
    | nil => cases habs
    | cons b rest => exact Option.some.inj habs
  rw [resolveIn_eq, namesIn, if_neg (not_not.mpr hslash), belongs]
  cases (mountFor (kernelText path) mounts none [0]).1 with
  | none => rfl
  | some best =>
    have hnames : namesFrom (kernelText path) (path.length + 1) (if 1 < best.2 then best.2 else 0) = _ :=
      namesFrom_eq hpath (by omega)
    exact congrArg (fun names ↦ follow fs (fs.root best.1 s).1 names (fs.root best.1 s).2) hnames

theorem flatMap_pieces_split {ws : List (List UInt8)} (hne : ∀ w ∈ ws, w ≠ []) : ws.flatMap (pieces 63) =
    ws.takeWhile (·.length ≤ 63) ++ (ws.dropWhile (·.length ≤ 63)).flatMap (pieces 63) := by
  conv_lhs => rw [← takeWhile_append_dropWhile (p := fun w : List UInt8 ↦ w.length ≤ 63) (l := ws)]
  rw [flatMap_append, flatMap_pieces_of_length_le]
  · intro w hw
    exact hne w (( takeWhile_prefix _).mem hw)
  · intro w hw
    simpa using mem_takeWhile_imp hw

variable {fs}

theorem follow_pieces_cons {long : List UInt8} (hlong : 63 < long.length) (others : List (List UInt8)) (directory : ν)
    (s : σ) : follow fs (some directory) ((long :: others).flatMap (pieces 63)) s =
      follow fs (fs.lookup directory (long.take 63) s).1 (pieces 63 (long.drop 63) ++ others.flatMap (pieces 63))
        (fs.lookup directory (long.take 63) s).2 := by
  have hne := length_pos_iff.mp (Nat.zero_lt_of_lt hlong)
  rw [flatMap_cons, pieces_of_ne_nil (by decide) hne]
  rfl

def deepTree : Backend Unit ℕ where
  root _ s := (some 0, s)
  lookup node name s :=
    (if node = 0 ∧ name = List.replicate 63 0x61 then some 1
      else if node = 1 ∧ name = [0x62] then some 2 else none, s)

end Eris.Fs
