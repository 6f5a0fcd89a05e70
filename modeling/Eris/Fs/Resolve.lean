import Eris.Fs.Vfs
import Eris.Library.Paths

namespace Eris.Fs

open Library.Paths List

/-- What the mounted file systems answer. An answer may depend on what they were asked before. -/
structure Backend (σ ν : Type) where
  root : Mount → σ → Option ν × σ
  lookup : ν → List UInt8 → σ → Option ν × σ

variable {σ ν : Type} (fs : Backend σ ν)

/-- The loop of `resolve` from a node on, as the file systems see it. -/
def walk (text : ℕ → UInt8) : ℕ → Option ν → ℕ → σ → Option ν × σ
  | 0, node, _, s => (node, s)
  | _ + 1, none, _, s => (none, s)
  | fuel + 1, some node, i, s =>
    if text i = 0 then (some node, s)
    else
      let (i, _) := skipSlashes text fuel i []
      if text i = 0 then (some node, s)
      else
        let (name, i, _) := component text 63 i [] []
        let (next, s) := fs.lookup node name s
        walk text fuel next i s

/-- `resolve` of a path of the kernel. Every round of the loop takes a byte of it. -/
def resolveIn (mounts : List Mount) (path : List UInt8) (s : σ) : Option ν × σ :=
  if kernelText path 0 ≠ slash then (none, s)
  else
    match (mountFor (kernelText path) mounts none [0]).1 with
    | none => (none, s)
    | some (mount, length) =>
      let (node, s) := fs.root mount s
      walk fs (kernelText path) (path.length + 1) node (if 1 < length then length else 0) s

def follow : Option ν → List (List UInt8) → σ → Option ν × σ
  | node, [], s => (node, s)
  | none, _ :: _, s => (none, s)
  | some node, name :: names, s =>
    let (next, s) := fs.lookup node name s
    follow next names s

def Covers (mount : Mount) (path : List UInt8) : Prop :=
  strip slash mount.path <+: path ∧
    (strip slash mount.path = [slash] ∨ Boundary slash (path.drop (strip slash mount.path).length))

/-- The mount that a path belongs to: no other one that leads to the path has as long a name. -/
def Selected (mounts : List Mount) (path : List UInt8) (mount : Mount) : Prop :=
  mount ∈ mounts ∧ Covers mount path ∧ ∀ m ∈ mounts, Covers m path → m = mount ∨
    (strip slash m.path).length < (strip slash mount.path).length

section Text

variable {path : List UInt8} {i : ℕ}

theorem kernelText_eq_zero_iff (hpath : 0 ∉ path) : kernelText path i = 0 ↔ path.length ≤ i := by
  rw [kernelText]
  constructor
  · intro h
    by_contra hlt
    rw [getD_eq_getElem _ _ (Nat.not_le.mp hlt)] at h
    exact hpath (h ▸ getElem_mem _)
  · exact getD_eq_default path 0

theorem drop_eq_cons (hi : i < path.length) : path.drop i = kernelText path i :: path.drop (i + 1) := by
  rw [drop_eq_getElem_cons hi, kernelText, getD_eq_getElem _ _ hi]

theorem take_trimmed (path : List UInt8) {n : ℕ} (hn : n ≤ path.length) :
    path.take (trimmed path n) = strip slash (path.take n) := by
  have hlast : ∀ {n}, n + 2 ≤ path.length → ∃ x l, path.take (n + 1) = x :: l ∧
      path.take (n + 2) = x :: l ++ [path.getD (n + 1) 0] := by
    intro n hn
    obtain ⟨x, l, hl⟩ := exists_cons_of_length_pos (l := path.take (n + 1)) (by simp; omega)
    refine ⟨x, l, hl, ?_⟩
    rw [← hl, take_add_one, getD_eq_getElem _ _ (by omega), getElem?_eq_getElem (by omega)]
    rfl
  fun_induction trimmed path n with
  | case1 n hslash ih =>
    obtain ⟨x, l, hl, hl'⟩ := hlast hn
    rw [ih (by omega), hl, hl', strip_concat, if_pos hslash]
  | case2 n hslash =>
    obtain ⟨x, l, hl, hl'⟩ := hlast hn
    rw [hl', strip_concat, if_neg hslash]
  | case3 n hsmall =>
    rcases n with _ | _ | n
    · rfl
    · cases path <;> rfl
    · exact absurd rfl (hsmall n)

theorem take_pathLength (path : List UInt8) : path.take (pathLength path) = strip slash path := by
  rw [pathLength, take_trimmed path le_rfl, take_length]

theorem length_strip (path : List UInt8) : (strip slash path).length = pathLength path := by
  rw [← take_pathLength, length_take]
  exact min_eq_left (trimmed_le path path.length)

theorem compare_iff (hpath : 0 ∉ path) {bytes : List UInt8} (hbytes : 0 ∉ bytes) (i : ℕ) (seen : List ℕ) :
    (compare (kernelText path) bytes i seen).1 = true ↔ bytes <+: path.drop i := by
  induction bytes generalizing i seen with
  | nil => simp [compare]
  | cons b bytes ih =>
    obtain ⟨hb, hrest⟩ := not_or.mp (mt mem_cons.mpr hbytes)
    rw [compare]
    by_cases hi : i < path.length
    · rw [drop_eq_cons hi, cons_prefix_cons]
      split
      · rename_i heq
        rw [ih hrest]
        exact ⟨fun h ↦ ⟨heq.symm, h⟩, fun h ↦ h.2⟩
      · rename_i hne
        exact ⟨(absurd · Bool.false_ne_true), fun h ↦ absurd h.1.symm hne⟩
    · have hzero := (kernelText_eq_zero_iff hpath).mpr (Nat.not_lt.mp hi)
      rw [if_neg (by rw [hzero]; exact hb), drop_eq_nil_of_le (Nat.not_lt.mp hi)]
      simp

theorem boundary_drop_iff (hpath : 0 ∉ path) :
    Boundary slash (path.drop i) ↔ kernelText path i = 0 ∨ kernelText path i = slash := by
  rw [kernelText_eq_zero_iff hpath]
  by_cases hi : i < path.length
  · rw [drop_eq_cons hi, Boundary]
    simp [Nat.not_le.mpr hi]
  · rw [drop_eq_nil_of_le (Nat.not_lt.mp hi)]
    exact ⟨fun _ ↦ .inl (Nat.not_lt.mp hi), fun _ ↦ .inl rfl⟩

theorem covers_iff (hpath : 0 ∉ path) (habs : path.head? = some slash) {mount : Mount} (hmount : 0 ∉ mount.path)
    (seen : List ℕ) : Covers mount path ↔
      (compare (kernelText path) (mount.path.take (pathLength mount.path)) 0 seen).1 = true ∧
        ¬ (1 < pathLength mount.path ∧ kernelText path (pathLength mount.path) ≠ 0 ∧
          kernelText path (pathLength mount.path) ≠ slash) := by
  have hzero : 0 ∉ strip slash mount.path := by
    rw [← take_pathLength]
    exact fun h ↦ hmount (mem_of_mem_take h)
  obtain ⟨rest, rfl⟩ : ∃ rest, path = slash :: rest := by
    cases path with
    | nil => cases habs
    | cons b rest => exact ⟨rest, by rw [Option.some.inj habs]⟩
  rw [Covers, take_pathLength, compare_iff hpath hzero, drop_zero, boundary_drop_iff hpath, ← length_strip]
  refine and_congr_right fun hfront ↦ ?_
  generalize strip slash mount.path = p at hfront
  match p, hfront with
  | [], _ => simp [kernelText]
  | [b], hfront =>
    obtain ⟨rfl, -⟩ := cons_prefix_cons.mp hfront
    simp
  | b :: c :: p, _ =>
    simp only [length_cons, List.cons.injEq, reduceCtorEq, and_false, false_or]
    constructor
    · rintro (h | h) ⟨-, h₀, h₁⟩
      · exact h₀ h
      · exact h₁ h
    · intro h
      by_contra hnot
      rw [not_or] at hnot
      exact h ⟨by omega, hnot⟩

theorem mountFor_spec (hpath : 0 ∉ path) (habs : path.head? = some slash) (mounts : List Mount)
    (hmounts : ∀ m ∈ mounts, 0 ∉ m.path) (best : Option (Mount × ℕ)) (seen : List ℕ) :
    (∀ x ∈ best, ∃ y ∈ (mountFor (kernelText path) mounts best seen).1, x.2 ≤ y.2) ∧
    (∀ m ∈ mounts, Covers m path → ∃ y ∈ (mountFor (kernelText path) mounts best seen).1, pathLength m.path ≤ y.2) ∧
    ∀ y ∈ (mountFor (kernelText path) mounts best seen).1,
      y ∈ best ∨ ∃ m ∈ mounts, Covers m path ∧ y = (m, pathLength m.path) := by
  -- the rest of the loop for a mount that is passed over
  have hpass : ∀ {mount : Mount} {mounts : List Mount} {best result : Option (Mount × ℕ)},
      (Covers mount path → ∃ x ∈ best, pathLength mount.path ≤ x.2) → ((∀ x ∈ best, ∃ y ∈ result, x.2 ≤ y.2) ∧
        (∀ m ∈ mounts, Covers m path → ∃ y ∈ result, pathLength m.path ≤ y.2) ∧
        ∀ y ∈ result, y ∈ best ∨ ∃ m ∈ mounts, Covers m path ∧ y = (m, pathLength m.path)) →
      (∀ x ∈ best, ∃ y ∈ result, x.2 ≤ y.2) ∧
        (∀ m ∈ mount :: mounts, Covers m path → ∃ y ∈ result, pathLength m.path ≤ y.2) ∧
        ∀ y ∈ result, y ∈ best ∨ ∃ m ∈ mount :: mounts, Covers m path ∧ y = (m, pathLength m.path) := by
    rintro mount mounts best result hmount ⟨hbest, hall, hfrom⟩
    refine ⟨hbest, fun m hm hc ↦ ?_, fun y hy ↦ ?_⟩
    · rcases mem_cons.mp hm with rfl | hm
      · obtain ⟨x, hx, hle⟩ := hmount hc
        obtain ⟨y, hy, hle'⟩ := hbest x hx
        exact ⟨y, hy, hle.trans hle'⟩
      · exact hall m hm hc
    · rcases hfrom y hy with h | ⟨m, hm, h⟩
      · exact .inl h
      · exact .inr ⟨m, mem_cons_of_mem _ hm, h⟩
  fun_induction mountFor (kernelText path) mounts best seen with
  | case1 best seen => exact ⟨fun x hx ↦ ⟨x, hx, le_rfl⟩, by simp, fun y hy ↦ .inl hy⟩
  | case2 mount mounts best seen seen' heq ih =>
    refine hpass (fun hc ↦ ?_) (ih fun m hm ↦ hmounts m (mem_cons_of_mem _ hm))
    rw [covers_iff hpath habs (hmounts mount mem_cons_self) seen, heq] at hc
    cases hc.1
  | case3 mount mounts best seen seen' heq hafter ih =>
    refine hpass (fun hc ↦ ?_) (ih fun m hm ↦ hmounts m (mem_cons_of_mem _ hm))
    rw [covers_iff hpath habs (hmounts mount mem_cons_self) seen] at hc
    exact absurd hafter hc.2
  | case4 mount mounts best seen seen' heq hafter hbetter ih =>
    have hcovers : Covers mount path := by
      rw [covers_iff hpath habs (hmounts mount mem_cons_self) seen, heq]
      exact ⟨rfl, hafter⟩
    obtain ⟨hbest, hall, hfrom⟩ := ih fun m hm ↦ hmounts m (mem_cons_of_mem _ hm)
    obtain ⟨y, hy, hle⟩ := hbest _ rfl
    refine ⟨fun x hx ↦ ⟨y, hy, ?_⟩, fun m hm hc ↦ ?_, fun y hy ↦ ?_⟩
    · rw [Option.mem_def] at hx
      rw [hx, Option.all_some, decide_eq_true_eq] at hbetter
      exact hbetter.le.trans hle
    · rcases mem_cons.mp hm with rfl | hm
      · exact ⟨y, hy, hle⟩
      · exact hall m hm hc
    · rcases hfrom y hy with h | ⟨m, hm, h⟩
      · exact .inr ⟨mount, mem_cons_self, hcovers, (Option.some.inj h).symm⟩
      · exact .inr ⟨m, mem_cons_of_mem _ hm, h⟩
  | case5 mount mounts best seen seen' heq hafter hbetter ih =>
    refine hpass (fun hc ↦ ?_) (ih fun m hm ↦ hmounts m (mem_cons_of_mem _ hm))
    cases best with
    | none => exact absurd rfl hbetter
    | some x =>
      rw [Option.all_some, decide_eq_true_eq] at hbetter
      exact ⟨x, rfl, Nat.not_lt.mp hbetter⟩

theorem drop_skipSlashes {fuel : ℕ} (hfuel : path.length ≤ i + fuel) (seen : List ℕ) :
    path.drop (skipSlashes (kernelText path) fuel i seen).1 = (path.drop i).dropWhile (· = slash) := by
  fun_induction skipSlashes (kernelText path) fuel i seen with
  | case1 i seen => rw [drop_eq_nil_of_le (by omega), dropWhile_nil]
  | case2 fuel i seen hslash ih =>
    rw [ih (by omega)]
    by_cases hi : i < path.length
    · rw [drop_eq_cons hi, dropWhile_cons_of_pos (by simpa using hslash)]
    · rw [drop_eq_nil_of_le (by omega), drop_eq_nil_of_le (by omega)]
  | case3 fuel i seen hslash =>
    by_cases hi : i < path.length
    · rw [drop_eq_cons hi, dropWhile_cons_of_neg (by simpa using hslash)]
    · rw [drop_eq_nil_of_le (by omega), dropWhile_nil]

theorem le_skipSlashes (text : ℕ → UInt8) (fuel i : ℕ) (seen : List ℕ) : i ≤ (skipSlashes text fuel i seen).1 := by
  fun_induction skipSlashes text fuel i seen with
  | case1 i seen => exact le_rfl
  | case2 fuel i seen hslash ih => omega
  | case3 fuel i seen hslash => exact le_rfl

theorem component_spec (hpath : 0 ∉ path) (room : ℕ) (name : List UInt8) (seen : List ℕ) :
    (component (kernelText path) room i name seen).1 = name ++ ((path.drop i).takeWhile (· ≠ slash)).take room ∧
      (component (kernelText path) room i name seen).2.1 =
        i + (((path.drop i).takeWhile (· ≠ slash)).take room).length := by
  fun_induction component (kernelText path) room i name seen with
  | case1 i name seen =>
    rw [take_zero]
    simp
  | case2 room i name seen hmore ih =>
    have hi : i < path.length := by
      by_contra hi
      exact hmore.1 ((kernelText_eq_zero_iff hpath).mpr (Nat.not_lt.mp hi))
    obtain ⟨hname, hend⟩ := ih
    rw [drop_eq_cons hi, takeWhile_cons_of_pos (by simpa using hmore.2), take_succ_cons, hname, hend,
      length_cons]
    exact ⟨by simp, by omega⟩
  | case3 room i name seen hend =>
    have hnil : (path.drop i).takeWhile (· ≠ slash) = [] := by
      by_cases hi : i < path.length
      · have hslash : kernelText path i = slash := by
          by_contra hne
          exact hend ⟨fun hzero ↦ Nat.not_le.mpr hi ((kernelText_eq_zero_iff hpath).mp hzero), hne⟩
        rw [drop_eq_cons hi, takeWhile_cons_of_neg (by simpa using hslash)]
      · rw [drop_eq_nil_of_le (by omega), takeWhile_nil]
    rw [hnil]
    simp

end Text

/-- The names that the loop of `resolve` looks up, one after the other. -/
def namesFrom (text : ℕ → UInt8) : ℕ → ℕ → List (List UInt8)
  | 0, _ => []
  | fuel + 1, i =>
    if text i = 0 then []
    else
      let (i, _) := skipSlashes text fuel i []
      if text i = 0 then []
      else
        let (name, i, _) := component text 63 i [] []
        name :: namesFrom text fuel i

def namesIn (mounts : List Mount) (path : List UInt8) : Option (Mount × List (List UInt8)) :=
  if kernelText path 0 ≠ slash then none
  else
    match (mountFor (kernelText path) mounts none [0]).1 with
    | none => none
    | some (mount, length) =>
      some (mount, namesFrom (kernelText path) (path.length + 1) (if 1 < length then length else 0))

theorem walk_eq_follow_names (text : ℕ → UInt8) (fuel : ℕ) (node : Option ν) (i : ℕ) (s : σ) :
    walk fs text fuel node i s = follow fs node (namesFrom text fuel i) s := by
  induction fuel generalizing node i s with
  | zero => cases node <;> rfl
  | succ fuel ih =>
    cases node with
    | none => cases namesFrom text (fuel + 1) i <;> rfl
    | some node =>
      rw [walk, namesFrom]
      split
      · rfl
      · dsimp only
        split
        · rfl
        · exact ih _ _ _

theorem namesFrom_eq {path : List UInt8} (hpath : 0 ∉ path) {fuel i : ℕ} (hfuel : path.length < i + fuel) :
    namesFrom (kernelText path) fuel i = (components slash (path.drop i)).flatMap (pieces 63) := by
  induction fuel generalizing i with
  | zero =>
    rw [drop_eq_nil_of_le (by omega), components_nil]
    rfl
  | succ fuel ih =>
    rw [namesFrom]
    split
    · rename_i hend
      rw [drop_eq_nil_of_le ((kernelText_eq_zero_iff hpath).mp hend), components_nil]
      rfl
    · have hskip := drop_skipSlashes (by omega : path.length ≤ i + fuel) []
      have hle := le_skipSlashes (kernelText path) fuel i []
      generalize (skipSlashes (kernelText path) fuel i []) = r at hskip hle
      obtain ⟨j, seen⟩ := r
      dsimp only at hskip hle ⊢
      rw [← components_dropWhile, ← hskip]
      split
      · rename_i hend
        rw [drop_eq_nil_of_le ((kernelText_eq_zero_iff hpath).mp hend), components_nil]
        rfl
      · rename_i hmore
        have hj := Nat.not_le.mp (mt (kernelText_eq_zero_iff hpath).mpr hmore)
        have hne := ne_of_dropWhile_eq_cons (hskip.symm.trans (drop_eq_cons hj))
        obtain ⟨hname, hend⟩ := component_spec hpath 63 [] []
        generalize component (kernelText path) 63 j [] [] = r at hname hend
        obtain ⟨name, k, seen'⟩ := r
        dsimp only at hname hend ⊢
        have hboth := takeWhile_append_dropWhile (p := (· ≠ slash)) (l := path.drop j)
        have hbound := boundary_dropWhile slash (path.drop j)
        have hword : (path.drop j).takeWhile (· ≠ slash) ≠ [] := by
          rw [drop_eq_cons hj, takeWhile_cons_of_pos (by simpa using hne)]
          exact cons_ne_nil _ _
        have hsep : slash ∉ (path.drop j).takeWhile (· ≠ slash) := by
          intro hmem
          simpa using mem_takeWhile_imp hmem
        generalize (path.drop j).takeWhile (· ≠ slash) = word at hname hend hboth hword hsep
        generalize (path.drop j).dropWhile (· ≠ slash) = rest at hboth hbound
        -- what is left of the word, if it was cut, comes before the rest
        have hdrop : path.drop k = word.drop 63 ++ rest := by
          rw [hend, ← drop_drop, ← hboth, length_take]
          rcases le_total word.length 63 with hshort | hlong
          · rw [min_eq_right hshort, drop_left, drop_of_length_le hshort, nil_append]
          · rw [min_eq_left hlong, drop_append_of_le_length hlong]
        have hpos : 0 < (word.take 63).length := by
          rw [length_take]
          have := length_pos_iff.mpr hword
          omega
        rw [ih (by omega), hdrop, ← hboth, flatMap_pieces_components hsep hbound,
          flatMap_pieces_components (fun hmem ↦ hsep (mem_of_mem_drop hmem)) hbound,
          pieces_of_ne_nil (by decide) hword, hname]
        rfl

theorem walk_eq_follow {path : List UInt8} (hpath : 0 ∉ path) {fuel i : ℕ} (hfuel : path.length < i + fuel)
    (hnames : ∀ c ∈ components slash (path.drop i), c.length ≤ 63) (node : Option ν) (s : σ) :
    walk fs (kernelText path) fuel node i s = follow fs node (components slash (path.drop i)) s := by
  rw [walk_eq_follow_names, namesFrom_eq hpath hfuel, flatMap_pieces_of_length_le (fun _ ↦ ne_nil_of_mem_components) hnames]

theorem resolveIn_eq (mounts : List Mount) (path : List UInt8) (s : σ) :
    resolveIn fs mounts path s =
      match namesIn mounts path with
      | none => (none, s)
      | some (mount, names) => follow fs (fs.root mount s).1 names (fs.root mount s).2 := by
  rw [resolveIn, namesIn]
  split
  · rfl
  · split
    · rfl
    · exact walk_eq_follow_names ..

theorem components_drop_suffix {path : List UInt8} {mount : Mount} (h : Covers mount path) :
    components slash (path.drop (strip slash mount.path).length) <:+ components slash path := by
  obtain ⟨⟨rest, rfl⟩, hend⟩ := h
  rw [drop_left] at hend ⊢
  rcases hend with hroot | hend
  · rw [hroot, singleton_append, components_sep_cons]
  · rw [components_append hend]
    exact suffix_append _ _

theorem components_drop_short {path p : List UInt8} (hp : p <+: path) (hlen : p.length ≤ 1)
    (habs : path.head? = some slash) : components slash (path.drop p.length) = components slash path := by
  obtain ⟨rest, rfl⟩ := hp
  rw [drop_left]
  cases p with
  | nil => rfl
  | cons b p =>
    obtain rfl := eq_nil_of_length_eq_zero (by simpa using hlen)
    obtain rfl := Option.some.inj habs
    rw [singleton_append, components_sep_cons]

/-- For every table of mounts and every path whose names fit the buffer, `resolve` looks the components of the rest up
from the root of the mount that the path belongs to, or fails when it belongs to none. -/
theorem resolveIn_spec (mounts : List Mount) (hmounts : ∀ m ∈ mounts, m.path.length < 128 ∧ 0 ∉ m.path)
    (hdistinct : (mounts.map fun m ↦ strip slash m.path).Nodup) {path : List UInt8} (hpath : 0 ∉ path)
    (habs : path.head? = some slash) (hnames : ∀ c ∈ components slash path, c.length ≤ 63) (s : σ) :
    (∃ mount, Selected mounts path mount ∧ resolveIn fs mounts path s =
      follow fs (fs.root mount s).1 (components slash (path.drop (strip slash mount.path).length)) (fs.root mount s).2) ∨
    (∀ m ∈ mounts, ¬ Covers m path) ∧ resolveIn fs mounts path s = (none, s) := by
  obtain ⟨-, hall, hfrom⟩ := mountFor_spec hpath habs mounts (fun m hm ↦ (hmounts m hm).2) none [0]
  have hslash : kernelText path 0 = slash := by
    cases path with
    | nil => cases habs
    | cons b rest => exact Option.some.inj habs
  rw [resolveIn, if_neg (not_not.mpr hslash)]
  cases hbest : (mountFor (kernelText path) mounts none [0]).1 with
  | none =>
    rw [hbest] at hall
    refine .inr ⟨fun m hm hc ↦ ?_, rfl⟩
    obtain ⟨y, hy, -⟩ := hall m hm hc
    cases hy
  | some best =>
    rw [hbest] at hall hfrom
    rcases hfrom best rfl with hnone | ⟨mount, hmem, hcovers, rfl⟩
    · cases hnone
    · refine .inl ⟨mount, ⟨hmem, hcovers, fun m hm hc ↦ ?_⟩, ?_⟩
      · -- two mounts of one length that lead to the path have one name
        obtain ⟨y, hy, hle⟩ := hall m hm hc
        cases hy
        rw [length_strip, length_strip]
        rcases hle.lt_or_eq with hlt | heq
        · exact .inr hlt
        · rw [← length_strip, ← length_strip] at heq
          have hsame := (prefix_of_prefix_length_le hc.1 hcovers.1 heq.le).eq_of_length heq
          exact .inl (inj_on_of_nodup_map hdistinct hm hmem hsame)
      · dsimp only
        have hrest := components_drop_suffix hcovers
        split
        · rw [walk_eq_follow fs hpath (by omega), length_strip]
          rw [← length_strip]
          exact fun c hc ↦ hnames c (hrest.subset hc)
        · rename_i hshort
          rw [walk_eq_follow fs hpath (by omega) (by simpa using hnames), drop_zero]
          rw [components_drop_short hcovers.1 (by rw [length_strip]; omega) habs]

def threeMounts : List Mount := [⟨[47], some 1⟩, ⟨[47, 109, 47], some 2⟩, ⟨[47, 109, 110], some 3⟩]

def handingOut : Backend ℕ ℕ where
  root mount s := (mount.root, s)
  lookup _ _ s := (some s, s + 1)

theorem resolveIn_spec_nested : ∃ mount, Selected threeMounts [47, 109, 47, 47, 97] mount ∧
    resolveIn handingOut threeMounts [47, 109, 47, 47, 97] 7 =
      follow handingOut mount.root (components slash ([47, 109, 47, 47, 97].drop (strip slash mount.path).length)) 7 := by
  rcases resolveIn_spec handingOut threeMounts (by decide) (by decide)
    (by decide : (0 : UInt8) ∉ [47, 109, 47, 47, 97]) rfl (by decide) 7 with h | ⟨hnone, -⟩
  · exact h
  · exact absurd ⟨by decide, .inl rfl⟩ (hnone ⟨[47], some 1⟩ (by simp [threeMounts]))

/-- The file systems of a table whose answers do not depend on what they were asked before. -/
def Files.backend (files : Files) : Backend Unit ℕ where
  root mount s := (mount.root, s)
  lookup node name s := (files.lookup node name, s)

theorem skipSlashes_fst (text : ℕ → UInt8) (fuel i : ℕ) (seen seen' : List ℕ) :
    (skipSlashes text fuel i seen).1 = (skipSlashes text fuel i seen').1 := by
  induction fuel generalizing i seen seen' with
  | zero => rfl
  | succ fuel ih =>
    rw [skipSlashes, skipSlashes]
    split
    · exact ih _ _ _
    · rfl

theorem component_fst (text : ℕ → UInt8) (room i : ℕ) (name : List UInt8) (seen seen' : List ℕ) :
    (component text room i name seen).1 = (component text room i name seen').1 ∧
      (component text room i name seen).2.1 = (component text room i name seen').2.1 := by
  induction room generalizing i name seen seen' with
  | zero => exact ⟨rfl, rfl⟩
  | succ room ih =>
    rw [component, component]
    split
    · exact ih _ _ _ _
    · exact ⟨rfl, rfl⟩

theorem descend_eq_walk (files : Files) (text : ℕ → UInt8) (fuel : ℕ) (node : Option ℕ) (i : ℕ) (seen : List ℕ) :
    (descend text files fuel node i seen).1 = (walk files.backend text fuel node i ()).1 := by
  induction fuel generalizing node i seen with
  | zero => rfl
  | succ fuel ih =>
    cases node with
    | none => rfl
    | some node =>
      rw [descend, walk]
      split
      · rfl
      · have hskip := skipSlashes_fst text fuel i (i :: seen) []
        generalize skipSlashes text fuel i (i :: seen) = r at hskip
        obtain ⟨j, seen₁⟩ := r
        dsimp only at hskip ⊢
        rw [← hskip]
        split
        · rfl
        · obtain ⟨hname, hend⟩ := component_fst text 63 j [] (j :: seen₁) []
          generalize component text 63 j [] (j :: seen₁) = r at hname hend
          obtain ⟨name, k, seen₂⟩ := r
          rw [← hname, ← hend]
          exact ih _ _ _

theorem resolve_eq_resolveIn (files : Files) {path : List UInt8} (hpath : 0 ∉ path) (hlength : path.length < 2 ^ 64)
    (hnames : ∀ i, ∀ c ∈ components slash (path.drop i), c.length ≤ 63) :
    (resolve (kernelText path) files).1 = (resolveIn files.backend files.mounts path ()).1 := by
  rw [resolve, resolveIn]
  split
  · rfl
  · cases hbest : mountFor (kernelText path) files.mounts none [0] with
    | mk best seen =>
      cases best with
      | none => rfl
      | some best =>
        dsimp only
        rw [descend_eq_walk, walk_eq_follow _ hpath (by omega) (hnames _), walk_eq_follow _ hpath (by omega) (hnames _)]
        rfl

end Eris.Fs
