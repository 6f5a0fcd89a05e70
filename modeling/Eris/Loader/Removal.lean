import Eris.Library.Sweep
import Eris.Loader.Objects

namespace Eris.Loader

open Library.Outcome Library.Slots Library.Words Mm Modules List

namespace Symbols

variable {m : Memory} {name : CString} {owner a : ℕ} {s : Symbols} {t : RegisteredTable}
  {ts : List RegisteredTable}

def answer (m : Memory) (name : CString) (t : RegisteredTable) : Except Fault (Option ℕ) :=
  lookupIn m name t.count t.table

def stopsAt (m : Memory) (name : CString) (t : RegisteredTable) : Bool :=
  match answer m name t with
  | .ok none => false
  | _ => true

theorem stopsAt_eq_false_iff : stopsAt m name t = false ↔ answer m name t = .ok none := by
  rw [stopsAt]
  split
  · rename_i h
    simp [h]
  · rename_i h
    simpa using h

theorem lookupTables_eq (m : Memory) (name : CString) (ts : List RegisteredTable) :
    lookupTables m name ts =
      match ts.find? (stopsAt m name) with
      | none => .ok 0
      | some t => (answer m name t).map (·.getD 0) := by
  induction ts with
  | nil => rfl
  | cons t ts ih =>
    rw [lookupTables, find?_cons]
    change (answer m name t >>= _) = _
    cases h : stopsAt m name t with
    | false =>
      rw [stopsAt_eq_false_iff] at h
      rw [h]
      exact ih
    | true =>
      cases hans : answer m name t with
      | error e =>
        simp only [hans]
        rfl
      | ok found =>
        cases found with
        | some address =>
          simp only [hans]
          rfl
        | none =>
          rw [stopsAt, hans] at h
          cases h

theorem lookupTables_eq_ok_iff (h : ∃ t ∈ ts, stopsAt m name t = true) :
    lookupTables m name ts = .ok a ↔ (ts.find? (stopsAt m name)).map (answer m name) = some (.ok (some a)) := by
  rw [lookupTables_eq]
  cases hfind : ts.find? (stopsAt m name) with
  | none =>
    obtain ⟨t, ht, hstop⟩ := h
    exact absurd hstop (find?_eq_none.mp hfind t ht)
  | some t =>
    have hstop := find?_some hfind
    simp only [Option.map_some, Option.some.injEq]
    cases hans : answer m name t with
    | error e => simp [Except.map]
    | ok found =>
      cases found with
      | some address => simp [Except.map]
      | none =>
        rw [stopsAt_eq_false_iff.mpr hans] at hstop
        cases hstop

theorem dropOwner_eq_sweep (owner left i : ℕ) (ts : List RegisteredTable) :
    dropOwner owner left i ts = sweep (fun t ↦ t.owner = owner) left i ts := by
  induction left generalizing i ts with
  | zero => rfl
  | succ left ih =>
    rw [dropOwner, sweep]
    split
    · rename_i h
      simp [h]
    · rename_i t h
      simp only [h, decide_eq_true_eq, ih]

def exporter (s : Symbols) (m : Memory) (name : CString) : Option RegisteredTable :=
  match s.symtab.find? (fun symbol ↦ symbol.1 == name) with
  | some _ => none
  | none => s.tables.find? (stopsAt m name)

/-- What was not resolved to the owner is resolved as before, and nothing is resolved to a
table of the owner any more. -/
structure Unaffected (s : Symbols) (m : Memory) (owner : ℕ) : Prop where
  others : ∀ name, 0 ∉ name → ∀ a, s.lookup m name = .ok a → (∀ t, s.exporter m name = some t → t.owner ≠ owner) →
    (s.unregisterOwner owner).lookup m name = .ok a
  gone : ∀ name, 0 ∉ name → ∀ t, (s.unregisterOwner owner).exporter m name = some t → t.owner ≠ owner

/-- Where two tables of others stop the lookup of a name, the first and the last to do so, and
the tables of the owner before the one are more than those of others after the other, both
say the same. -/
def Unovertaken (s : Symbols) (m : Memory) (owner : ℕ) : Prop :=
  ∀ name, 0 ∉ name → s.symtab.find? (fun symbol ↦ symbol.1 == name) = none →
    ∀ before t mid u tail, s.tables = before ++ t :: (mid ++ u :: tail) →
      (∀ w ∈ before, stopsAt m name w = false) → (∃ a, answer m name t = .ok (some a)) → t.owner ≠ owner →
      stopsAt m name u = true → u.owner ≠ owner → (∀ w ∈ tail, w.owner ≠ owner → stopsAt m name w = false) →
      tail.countP (fun w ↦ w.owner ≠ owner) < before.countP (fun w ↦ w.owner = owner) →
      answer m name u = answer m name t

theorem mem_unregisterOwner_iff : t ∈ (s.unregisterOwner owner).tables ↔ t ∈ s.tables ∧ t.owner ≠ owner := by
  rw [(perm_unregisterOwner s owner).mem_iff, mem_filter, decide_eq_true_iff]

theorem exporter_unregisterOwner (h : (s.unregisterOwner owner).exporter m name = some t) : t.owner ≠ owner := by
  rw [exporter] at h
  split at h
  · cases h
  · exact (mem_unregisterOwner_iff.mp (mem_of_find?_eq_some h)).2

theorem lookup_of_find_none (h : s.symtab.find? (fun symbol ↦ symbol.1 == name) = none) :
    s.lookup m name = lookupTables m name s.tables := by
  rw [lookup, h]

theorem lookup_unregisterOwner_of_find_none (h : s.symtab.find? (fun symbol ↦ symbol.1 == name) = none) :
    (s.unregisterOwner owner).lookup m name = lookupTables m name (s.unregisterOwner owner).tables :=
  lookup_of_find_none h

theorem lookup_unregisterOwner_of_find_some {symbol : CString × ℕ}
    (h : s.symtab.find? (fun symbol ↦ symbol.1 == name) = some symbol) :
    (s.unregisterOwner owner).lookup m name = s.lookup m name := by
  simp only [lookup, unregisterOwner, h]

theorem lookupTables_unregisterOwner_iff {before rest : List RegisteredTable}
    (htables : s.tables = before ++ t :: rest) (hbefore : ∀ w ∈ before, stopsAt m name w = false)
    (hans : answer m name t = .ok (some a)) (howner : t.owner ≠ owner) :
    lookupTables m name (s.unregisterOwner owner).tables = .ok a ↔
    ∀ mid u tail, rest = mid ++ u :: tail → stopsAt m name u = true → u.owner ≠ owner →
      (∀ w ∈ tail, w.owner ≠ owner → stopsAt m name w = false) →
      tail.countP (fun w ↦ w.owner ≠ owner) < before.countP (fun w ↦ w.owner = owner) →
      answer m name u = answer m name t := by
  have hstop : stopsAt m name t = true := by rw [stopsAt, hans]
  have hmem := mem_unregisterOwner_iff.mpr ⟨by rw [htables]; simp, howner⟩
  have hsweep : (s.unregisterOwner owner).tables = sweep (fun t ↦ t.owner = owner)
      (before ++ t :: rest).length 0 (before ++ t :: rest) := by
    rw [← htables]
    exact dropOwner_eq_sweep owner _ 0 s.tables
  rw [lookupTables_eq_ok_iff ⟨t, hmem, hstop⟩, hsweep, ← hans,
    map_find_sweep_iff (answer m name) (fun w hw _ ↦ hbefore w hw) (by simpa using howner) hstop]
  simp only [decide_eq_false_iff_not]
  constructor
  · intro h mid u tail hrest hu hou htail hlt
    refine h mid u tail hrest hou hu htail ?_
    simpa using hlt
  · intro h mid u tail hrest hou hu htail hlt
    refine h mid u tail hrest hu hou htail ?_
    simpa using hlt

/-- Removing the tables of an owner touches nothing else exactly where no table moves ahead
of one that has been answering the same name otherwise. -/
theorem unaffected_iff (s : Symbols) (m : Memory) (owner : ℕ) : s.Unaffected m owner ↔ s.Unovertaken m owner := by
  constructor
  · intro h name h0 hsym before t mid u tail htables hbefore ⟨a, hans⟩ howner
    have hstop : stopsAt m name t = true := by rw [stopsAt, hans]
    have hfind : s.tables.find? (stopsAt m name) = some t := by
      rw [find?_eq_some_iff_append]
      exact ⟨hstop, before, mid ++ u :: tail, htables, fun w hw ↦ by simp [hbefore w hw]⟩
    have hlookup : s.lookup m name = .ok a := by
      rw [lookup_of_find_none hsym, lookupTables_eq_ok_iff ⟨t, mem_of_find?_eq_some hfind, hstop⟩, hfind,
        Option.map_some, hans]
    have hexporter : s.exporter m name = some t := by
      rw [exporter, hsym]
      exact hfind
    have hafter := h.others name h0 a hlookup fun w hw ↦ by
      rw [hexporter] at hw
      exact Option.some.inj hw ▸ howner
    rw [lookup_unregisterOwner_of_find_none hsym] at hafter
    exact (lookupTables_unregisterOwner_iff htables hbefore hans howner).mp hafter mid u tail rfl
  · intro h
    refine ⟨?_, fun name _ t ht ↦ exporter_unregisterOwner ht⟩
    intro name h0 a hlookup hexporter
    cases hsym : s.symtab.find? (fun symbol ↦ symbol.1 == name) with
    | some symbol =>
      rw [lookup_unregisterOwner_of_find_some hsym]
      exact hlookup
    | none =>
      rw [lookup_of_find_none hsym] at hlookup
      rw [lookup_unregisterOwner_of_find_none hsym]
      rw [exporter, hsym] at hexporter
      cases hfind : s.tables.find? (stopsAt m name) with
      | none =>
        have hnone : (s.unregisterOwner owner).tables.find? (stopsAt m name) = none := by
          rw [find?_eq_none] at hfind ⊢
          exact fun w hw ↦ hfind w (mem_unregisterOwner_iff.mp hw).1
        rw [lookupTables_eq, hfind] at hlookup
        rw [lookupTables_eq, hnone]
        exact hlookup
      | some t =>
        obtain ⟨hstop, before, rest, htables, hbefore⟩ := find?_eq_some_iff_append.mp hfind
        have hquiet : ∀ w ∈ before, stopsAt m name w = false := fun w hw ↦ by simpa using hbefore w hw
        have hans : answer m name t = .ok (some a) := by
          have hok := (lookupTables_eq_ok_iff ⟨t, mem_of_find?_eq_some hfind, hstop⟩).mp hlookup
          rw [hfind] at hok
          exact Option.some.inj hok
        have howner := hexporter t hfind
        rw [lookupTables_unregisterOwner_iff htables hquiet hans howner]
        intro mid u tail hrest hu hou htail hlt
        exact h name h0 hsym before t mid u tail (hrest ▸ htables) hquiet ⟨a, hans⟩ howner hu hou htail hlt

/-- Every page is one page, with three tables of one symbol each: the last two are of one name. -/
def threeTables : Memory :=
  { blankMemory fun _ ↦ true with
    tables := fun _ _ ↦ { present := true, frame := 1 }
    bytes := fun p ↦ (toBytes 16 0 ++ toBytes 8 66 ++ toBytes 8 0x1000 ++ toBytes 8 64 ++ toBytes 8 0x2000 ++
      toBytes 8 64 ++ toBytes 8 0x3000 ++ cstring "x" ++ [0] ++ cstring "y" ++ [0]).getD (p % pageSize) 0 }

def threeOwners : Symbols := ⟨[], [⟨16, 1, 1⟩, ⟨32, 1, 2⟩, ⟨48, 1, 3⟩], by decide⟩

/-- The third image takes over a name of the second one when the first one leaves. -/
theorem lookup_overtaken : threeOwners.lookup threeTables (cstring "x") = .ok 0x2000 ∧
    threeOwners.exporter threeTables (cstring "x") = some ⟨32, 1, 2⟩ ∧
    (threeOwners.unregisterOwner 1).lookup threeTables (cstring "x") = .ok 0x3000 := by
  decide +kernel

end Symbols

end Eris.Loader
