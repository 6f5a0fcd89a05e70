import Mathlib

namespace Eris.Fs

inductive NodeType
  | file
  | directory
  | device
  deriving DecidableEq

structure Mount where
  path : List UInt8
  root : Option ℕ

/-- The file systems as the VFS sees them, their nodes by number. A transfer of `length` bytes has a
result and a number of bytes of the buffer, from the first on, that it fills or takes. -/
structure Files where
  mounts : List Mount
  type : ℕ → NodeType
  lookup : ℕ → List UInt8 → Option ℕ
  read : ℕ → ℕ → ℕ → ℤ × ℕ
  write : ℕ → ℕ → ℕ → ℤ × ℕ
  read_le : ∀ node offset length, (read node offset length).2 ≤ length
  write_le : ∀ node offset length, (write node offset length).2 ≤ length

def slash : UInt8 := 0x2F

def trimmed (path : List UInt8) : ℕ → ℕ
  | n + 2 => if path.getD (n + 1) 0 = slash then trimmed path (n + 1) else n + 2
  | n => n

def pathLength (path : List UInt8) : ℕ := trimmed path path.length

/-! A path is the bytes from a pointer on. The functions below pass on the list of those they have
looked at, the last one first. -/

section

variable (text : ℕ → UInt8)

/-- `memcmp` of the path, from a byte on. -/
def compare : List UInt8 → ℕ → List ℕ → Bool × List ℕ
  | [], _, seen => (true, seen)
  | b :: rest, i, seen => if text i = b then compare rest (i + 1) (i :: seen) else (false, i :: seen)

/-- The loop of `mount_for`, with the best mount so far and its length. -/
def mountFor : List Mount → Option (Mount × ℕ) → List ℕ → Option (Mount × ℕ) × List ℕ
  | [], best, seen => (best, seen)
  | mount :: mounts, best, seen =>
    match compare text (mount.path.take (pathLength mount.path)) 0 seen with
    | (false, seen) => mountFor mounts best seen
    | (true, seen) =>
      if 1 < pathLength mount.path ∧ text (pathLength mount.path) ≠ 0 ∧ text (pathLength mount.path) ≠ slash then
        mountFor mounts best (pathLength mount.path :: seen)
      else if best.all (·.2 < pathLength mount.path) then
        mountFor mounts (some (mount, pathLength mount.path)) (pathLength mount.path :: seen)
      else mountFor mounts best (pathLength mount.path :: seen)

def skipSlashes : ℕ → ℕ → List ℕ → ℕ × List ℕ
  | 0, i, seen => (i, seen)
  | fuel + 1, i, seen => if text i = slash then skipSlashes fuel (i + 1) (i :: seen) else (i, i :: seen)

def component : ℕ → ℕ → List UInt8 → List ℕ → List UInt8 × ℕ × List ℕ
  | 0, i, name, seen => (name, i, seen)
  | room + 1, i, name, seen =>
    if text i ≠ 0 ∧ text i ≠ slash then component room (i + 1) (name ++ [text i]) (i :: seen)
    else (name, i, i :: seen)

variable (files : Files)

/-- The loop of `resolve` from a node on. Every round looks at a byte that is new. -/
def descend : ℕ → Option ℕ → ℕ → List ℕ → Option ℕ × List ℕ
  | 0, node, _, seen => (node, seen)
  | _ + 1, none, _, seen => (none, seen)
  | fuel + 1, some node, i, seen =>
    if text i = 0 then (some node, i :: seen)
    else
      let (i, seen) := skipSlashes text fuel i (i :: seen)
      if text i = 0 then (some node, i :: seen)
      else
        let (name, i, seen) := component text 63 i [] (i :: seen)
        descend fuel (files.lookup node name) i seen

def resolve : Option ℕ × List ℕ :=
  if text 0 ≠ slash then (none, [0])
  else
    match mountFor text files.mounts none [0] with
    | (none, seen) => (none, seen)
    | (some (mount, length), seen) => descend text files (2 ^ 64) mount.root (if 1 < length then length else 0) seen

end

def kernelText (path : List UInt8) (i : ℕ) : UInt8 := path.getD i 0

def writeFile (files : Files) (path : List UInt8) (length : ℕ) : ℤ × ℕ :=
  match (resolve (kernelText path) files).1 with
  | none => (-1, 0)
  | some node => if files.type node = .directory then (-1, 0) else files.write node 0 length

/-- What has been looked at is the first `n` bytes. -/
def Front (seen : List ℕ) (n : ℕ) : Prop := ∀ i, i ∈ seen ↔ i < n

def extent (seen : List ℕ) : ℕ := seen.foldr (fun i n ↦ max (i + 1) n) 0

variable {seen : List ℕ} {i n : ℕ}

theorem lt_extent_iff (seen : List ℕ) (i : ℕ) : i < extent seen ↔ ∃ j ∈ seen, i ≤ j := by
  induction seen with
  | nil => simp [extent]
  | cons j seen ih =>
    change i < max (j + 1) (extent seen) ↔ _
    rw [lt_max_iff, ih, List.exists_mem_cons_iff, Nat.lt_succ_iff]

theorem Front.extent_eq (h : Front seen n) : extent seen = n := by
  have hlt : ∀ i, i < extent seen ↔ i < n := by
    intro i
    rw [lt_extent_iff]
    constructor
    · rintro ⟨j, hj, hij⟩
      exact lt_of_le_of_lt hij ((h j).mp hj)
    · exact fun hi ↦ ⟨i, (h i).mpr hi, le_rfl⟩
  have h1 := hlt (extent seen)
  have h2 := hlt n
  omega

theorem Front.look (h : Front seen n) (hi : i ≤ n) : Front (i :: seen) (max n (i + 1)) := by
  intro j
  rw [List.mem_cons, h j]
  omega

theorem exists_ge_mono {P : ℕ → Prop} {k : ℕ} (hn : n ≤ k) (h : ∃ n' ≥ k, P n') : ∃ n' ≥ n, P n' := by
  obtain ⟨n', hn', hp⟩ := h
  exact ⟨n', hn.trans hn', hp⟩

section

variable (text : ℕ → UInt8) (files : Files)

theorem compare_front (path : List UInt8) (h : Front seen n) (hi : i ≤ n) :
    ∃ n' ≥ n, Front (compare text path i seen).2 n' ∧ ((compare text path i seen).1 = true → i + path.length ≤ n') := by
  induction path generalizing i n seen with
  | nil => exact ⟨n, le_rfl, h, fun _ ↦ hi⟩
  | cons b rest ih =>
    rw [compare]
    split
    · obtain ⟨n', hn, hfront, hlen⟩ := ih (h.look hi) (by omega : i + 1 ≤ max n (i + 1))
      refine ⟨n', by omega, hfront, fun hc ↦ ?_⟩
      have := hlen hc
      rw [List.length_cons]
      omega
    · exact ⟨_, le_max_left _ _, h.look hi, fun hc ↦ by cases hc⟩

theorem trimmed_le (path : List UInt8) (n : ℕ) : trimmed path n ≤ n := by
  fun_induction trimmed path n with
  | case1 n hslash ih => omega
  | case2 n hslash => omega
  | case3 n hn => exact le_rfl

theorem mountFor_front (mounts : List Mount) (best : Option (Mount × ℕ)) (h : Front seen n)
    (hbest : ∀ x ∈ best, x.2 ≤ n) :
    ∃ n' ≥ n, Front (mountFor text mounts best seen).2 n' ∧ ∀ x ∈ (mountFor text mounts best seen).1, x.2 ≤ n' := by
  -- a mount that the path has been compared with is no longer than what has been looked at
  have hstep : ∀ {mount : Mount} {seen seen' : List ℕ} {b : Bool} {n : ℕ}, Front seen n →
      compare text (mount.path.take (pathLength mount.path)) 0 seen = (b, seen') →
      ∃ n' ≥ n, Front seen' n' ∧ (b = true → pathLength mount.path ≤ n') := by
    intro mount seen seen' b n h heq
    obtain ⟨n', hn, hfront, hlen⟩ :=
      compare_front text (mount.path.take (pathLength mount.path)) h (Nat.zero_le n)
    have hle : pathLength mount.path ≤ mount.path.length := trimmed_le _ _
    rw [heq] at hfront hlen
    rw [List.length_take, min_eq_left hle, Nat.zero_add] at hlen
    exact ⟨n', hn, hfront, hlen⟩
  fun_induction mountFor text mounts best seen generalizing n with
  | case1 best seen => exact ⟨n, le_rfl, h, hbest⟩
  | case2 mount mounts best seen seen' heq ih =>
    obtain ⟨n₁, hn₁, hfront, -⟩ := hstep h heq
    exact exists_ge_mono hn₁ (ih hfront fun x hx ↦ (hbest x hx).trans hn₁)
  | case3 mount mounts best seen seen' heq hafter ih | case5 mount mounts best seen seen' heq hafter hbetter ih =>
    obtain ⟨n₁, hn₁, hfront, hle⟩ := hstep h heq
    have hn := hn₁.trans (le_max_left n₁ (pathLength mount.path + 1))
    exact exists_ge_mono hn (ih (hfront.look (hle rfl)) fun x hx ↦ (hbest x hx).trans hn)
  | case4 mount mounts best seen seen' heq hafter hbetter ih =>
    obtain ⟨n₁, hn₁, hfront, hle⟩ := hstep h heq
    refine exists_ge_mono (hn₁.trans (le_max_left _ _)) (ih (hfront.look (hle rfl)) ?_)
    rintro x ⟨⟩
    exact (hle rfl).trans (le_max_left _ _)

theorem skipSlashes_front (fuel : ℕ) (h : Front seen n) (hi : i ≤ n) :
    ∃ n' ≥ n, Front (skipSlashes text fuel i seen).2 n' ∧ (skipSlashes text fuel i seen).1 ≤ n' := by
  fun_induction skipSlashes text fuel i seen generalizing n with
  | case1 i seen => exact ⟨n, le_rfl, h, hi⟩
  | case2 fuel i seen hslash ih =>
    exact exists_ge_mono (le_max_left _ _) (ih (h.look hi) (le_max_right _ _))
  | case3 fuel i seen hslash => exact ⟨_, le_max_left _ _, h.look hi, hi.trans (le_max_left _ _)⟩

theorem component_front (room : ℕ) (name : List UInt8) (h : Front seen n) (hi : i ≤ n) :
    ∃ n' ≥ n, Front (component text room i name seen).2.2 n' ∧ (component text room i name seen).2.1 ≤ n' := by
  fun_induction component text room i name seen generalizing n with
  | case1 i name seen => exact ⟨n, le_rfl, h, hi⟩
  | case2 room i name seen hmore ih =>
    exact exists_ge_mono (le_max_left _ _) (ih (h.look hi) (le_max_right _ _))
  | case3 room i name seen hend => exact ⟨_, le_max_left _ _, h.look hi, hi.trans (le_max_left _ _)⟩

theorem descend_front (fuel : ℕ) (node : Option ℕ) (h : Front seen n) (hi : i ≤ n) :
    ∃ n' ≥ n, Front (descend text files fuel node i seen).2 n' := by
  fun_induction descend text files fuel node i seen generalizing n with
  | case1 node i seen => exact ⟨n, le_rfl, h⟩
  | case2 fuel i seen => exact ⟨n, le_rfl, h⟩
  | case3 fuel node i seen hend => exact ⟨_, le_max_left _ _, h.look hi⟩
  | case4 fuel node i seen hmore j seen' heq hend =>
    obtain ⟨n₁, hn₁, hfront, hj⟩ := skipSlashes_front text fuel (h.look hi) (hi.trans (le_max_left _ _))
    rw [heq] at hfront hj
    exact ⟨_, by omega, hfront.look hj⟩
  | case5 fuel node i seen hmore j seen' heq hend name k seen'' heq' ih =>
    obtain ⟨n₁, hn₁, hfront, hj⟩ := skipSlashes_front text fuel (h.look hi) (hi.trans (le_max_left _ _))
    rw [heq] at hfront hj
    obtain ⟨n₂, hn₂, hfront', hk⟩ := component_front text 63 [] (hfront.look hj) (hj.trans (le_max_left _ _))
    rw [heq'] at hfront' hk
    exact exists_ge_mono (by omega) (ih hfront' hk)

theorem resolve_front : ∃ n ≥ 1, Front (resolve text files).2 n := by
  have hfirst : Front [0] 1 := by
    intro i
    rw [List.mem_singleton]
    omega
  rw [resolve]
  split
  · exact ⟨1, le_rfl, hfirst⟩
  · obtain ⟨n, hn, hfront, hlen⟩ := mountFor_front text files.mounts none hfirst (by simp)
    split
    · rename_i seen heq
      rw [heq] at hfront
      exact ⟨n, hn, hfront⟩
    · rename_i mount length seen heq
      rw [heq] at hfront hlen
      have hle := hlen _ rfl
      exact exists_ge_mono hn (descend_front text files (2 ^ 64) mount.root hfront
        (by split <;> omega))

end

end Eris.Fs
