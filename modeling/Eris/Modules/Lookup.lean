import Eris.Modules.Framework

namespace Eris.Modules

open Library.Slots List

def Table.infos (t : Table) : List ModuleInfo := t.live.map Module.info

def Table.names (t : Table) : List CString := t.infos.map ModuleInfo.name

def Table.lookup (t : Table) (name : CString) : Option Module :=
  t.live.find? (fun m ↦ m.info.name == name)

namespace Table

variable {t : Table} {i : ℕ} {m : Module} {a b : CString} {f : Module → Module}

theorem find_some (h : t.find a = some i) :
    ∃ m, t.live[i]? = some m ∧ t.lookup a = some m ∧ m.info.name = a := by
  obtain ⟨m, hm⟩ : ∃ m, t.live[i]? = some m := by
    obtain ⟨hi, _⟩ := findIdx?_eq_some_iff_getElem.mp h
    exact ⟨_, getElem?_eq_getElem hi⟩
  have hl : t.lookup a = some m := by
    rw [lookup, find?_eq_bind_findIdx?_getElem?, ← find, h]
    exact hm
  exact ⟨m, hm, hl, by simpa using find?_some hl⟩

theorem find_eq_none : t.find a = none ↔ t.lookup a = none := by
  simp [find, lookup]

theorem lookup_eq_none : t.lookup a = none ↔ a ∉ t.names := by
  simp [lookup, names, infos]

theorem find_of_lookup (h : t.lookup a = some m) : ∃ i, t.find a = some i ∧ t.live[i]? = some m := by
  cases hf : t.find a with
  | none => simp [find_eq_none.mp hf] at h
  | some i =>
    obtain ⟨m', hm, hl, -⟩ := find_some hf
    exact ⟨i, rfl, Option.some.inj (hl.symm.trans h) ▸ hm⟩

theorem lookup_mem (h : t.lookup a = some m) : m ∈ t.live := mem_of_find?_eq_some h

theorem lookup_name (h : t.lookup a = some m) : m.info.name = a := by
  simpa using find?_some h

theorem lookup_of_mem (hn : t.names.Nodup) (hm : m ∈ t.live) : t.lookup m.info.name = some m := by
  have hn' : (t.live.map (fun m ↦ m.info.name)).Nodup := by
    rw [names, infos, map_map] at hn
    exact hn
  unfold lookup
  generalize t.live = l at hn' hm
  induction l with
  | nil => simp at hm
  | cons b l ih =>
    simp only [map_cons, nodup_cons, mem_map, not_exists, not_and] at hn'
    rcases mem_cons.mp hm with rfl | hm
    · simp
    · rw [find?_cons_of_neg (by simpa using Ne.symm (hn'.1 m hm))]
      exact ih hn'.2 hm

theorem lookup_of_getElem? (hn : t.names.Nodup) (hm : t.live[i]? = some m) :
    t.lookup m.info.name = some m := lookup_of_mem hn (mem_of_getElem? hm)

theorem find_of_getElem? (hn : t.names.Nodup) (hm : t.live[i]? = some m) :
    t.find m.info.name = some i := by
  obtain ⟨hi, he⟩ := List.getElem?_eq_some_iff.mp hm
  refine findIdx?_eq_some_iff_getElem.mpr ⟨hi, by simp [he], fun j hji ↦ ?_⟩
  have hlen : t.names.length = t.live.length := by simp [names, infos]
  have hne : t.names[j] ≠ t.names[i] := fun h ↦ by
    have := hn.getElem_inj_iff.mp h
    omega
  simpa [names, infos, he] using hne

@[simp] theorem live_print (t : Table) (e : Event) : (t.print e).live = t.live := rfl

@[simp] theorem infos_print (t : Table) (e : Event) : (t.print e).infos = t.infos := rfl

@[simp] theorem names_print (t : Table) (e : Event) : (t.print e).names = t.names := rfl

@[simp] theorem lookup_print (t : Table) (e : Event) (a : CString) :
    (t.print e).lookup a = t.lookup a := rfl

@[simp] theorem find_print (t : Table) (e : Event) (a : CString) :
    (t.print e).find a = t.find a := rfl

@[simp] theorem log_print (t : Table) (e : Event) : (t.print e).log = t.log ++ [e] := rfl

@[simp] theorem log_modify (t : Table) (i : ℕ) (f : Module → Module) :
    (t.modify i f).log = t.log := rfl

@[simp] theorem live_modify (t : Table) (i : ℕ) (f : Module → Module) :
    (t.modify i f).live = t.live.modify i f := rfl

theorem infos_modify (hf : ∀ m, (f m).info = m.info) : (t.modify i f).infos = t.infos :=
  map_modify_of_eq hf t.live i

theorem getElem?_of_infos {t t' : Table} (h : t'.infos = t.infos) (hm : t.live[i]? = some m) :
    ∃ m', t'.live[i]? = some m' ∧ m'.info = m.info := by
  have hget := congrArg (fun l ↦ l[i]?) h
  simp only [infos, getElem?_map, hm, Option.map_some] at hget
  exact Option.map_eq_some_iff.mp hget

theorem names_modify (hf : ∀ m, (f m).info = m.info) : (t.modify i f).names = t.names := by
  rw [names, infos_modify hf, names]

theorem lookup_modify (hn : t.names.Nodup) (hm : t.live[i]? = some m)
    (hf : ∀ m, (f m).info = m.info) :
    (t.modify i f).lookup a = if a = m.info.name then some (f m) else t.lookup a := by
  have hn' : (t.modify i f).names.Nodup := by rwa [names_modify hf]
  have hi : (t.modify i f).live[i]? = some (f m) := by simp [hm]
  split
  · rename_i h
    rw [h, ← hf m]
    exact lookup_of_getElem? hn' hi
  · rename_i h
    cases hl : t.lookup a with
    | none => rwa [lookup_eq_none, names_modify hf, ← lookup_eq_none]
    | some m' =>
      obtain ⟨j, hj⟩ := mem_iff_getElem?.mp (lookup_mem hl)
      have hij : i ≠ j := by
        rintro rfl
        rw [hm] at hj
        exact h (Option.some.inj hj ▸ (lookup_name hl).symm)
      have hj' : (t.modify i f).live[j]? = some m' := by simp [hij, hj]
      rw [← lookup_name hl]
      exact lookup_of_getElem? hn' hj'

theorem find_congr {t t' : Table} (h : t'.infos = t.infos) (a : CString) :
    t'.find a = t.find a := by
  have hf (t : Table) : t.find a = t.infos.findIdx? (fun info ↦ info.name == a) := by
    rw [find, infos, findIdx?_map]
    rfl
  rw [hf, hf, h]

/-- The state and the error of the entry a name resolves to. -/
def status (t : Table) (a : CString) : Option (ModuleState × ℤ) :=
  (t.lookup a).map (fun m ↦ (m.state, m.error))

def stateOf (t : Table) (a : CString) : Option ModuleState := (t.lookup a).map Module.state

theorem stateOf_eq (t : Table) (a : CString) : t.stateOf a = (t.status a).map Prod.fst := by
  simp [stateOf, status, Function.comp_def]

@[simp] theorem status_print (t : Table) (e : Event) (a : CString) :
    (t.print e).status a = t.status a := rfl

@[simp] theorem stateOf_print (t : Table) (e : Event) (a : CString) :
    (t.print e).stateOf a = t.stateOf a := rfl

theorem status_modify (hn : t.names.Nodup) (hm : t.live[i]? = some m)
    (hf : ∀ m, (f m).info = m.info) :
    (t.modify i f).status a = if a = m.info.name then some ((f m).state, (f m).error) else t.status a := by
  unfold status
  rw [lookup_modify hn hm hf]
  split <;> simp

theorem stateOf_modify (hn : t.names.Nodup) (hm : t.live[i]? = some m)
    (hf : ∀ m, (f m).info = m.info) :
    (t.modify i f).stateOf a = if a = m.info.name then some (f m).state else t.stateOf a := by
  unfold stateOf
  rw [lookup_modify hn hm hf]
  split <;> simp

theorem stateOf_of_getElem? (hn : t.names.Nodup) (hm : t.live[i]? = some m) :
    t.stateOf m.info.name = some m.state := by
  simp [stateOf, lookup_of_getElem? hn hm]

theorem stateOf_eq_none : t.stateOf a = none ↔ a ∉ t.names := by
  rw [stateOf, Option.map_eq_none_iff, lookup_eq_none]

end Table

section Acquire

variable (deps : List CString) (t : Table)

theorem acquireDependencies_map {β : Type} {g : Module → β} (hg : ∀ m, g m.takeDependent = g m) :
    (acquireDependencies deps t).live.map g = t.live.map g := by
  induction deps generalizing t with
  | nil => rfl
  | cons dep deps ih =>
    unfold acquireDependencies
    split
    · exact ih t
    · exact (ih _).trans (map_modify_of_eq hg t.live _)

theorem acquireDependencies_infos : (acquireDependencies deps t).infos = t.infos :=
  acquireDependencies_map deps t fun _ ↦ rfl

theorem acquireDependencies_spare : (acquireDependencies deps t).spare = t.spare := by
  induction deps generalizing t with
  | nil => rfl
  | cons dep deps ih =>
    unfold acquireDependencies
    split
    · exact ih t
    · exact ih _

theorem acquireDependencies_log : (acquireDependencies deps t).log = t.log := by
  induction deps generalizing t with
  | nil => rfl
  | cons dep deps ih =>
    unfold acquireDependencies
    split
    · exact ih t
    · exact ih _

theorem acquireDependencies_lookup (hn : t.names.Nodup) (a : CString) :
    (acquireDependencies deps t).lookup a =
      (t.lookup a).map fun m ↦ { m with dependents := m.dependents + deps.count a } := by
  induction deps generalizing t with
  | nil => simp [acquireDependencies]
  | cons dep deps ih =>
    unfold acquireDependencies
    split
    · rename_i h
      rw [ih t hn]
      by_cases ha : dep = a
      · simp [Table.find_eq_none.mp (ha ▸ h)]
      · rw [count_cons_of_ne ha]
    · rename_i j h
      obtain ⟨m, hm, hl, rfl⟩ := Table.find_some h
      have hf : ∀ m : Module, m.takeDependent.info = m.info := fun _ ↦ rfl
      rw [ih _ (by rwa [Table.names_modify hf]), Table.lookup_modify hn hm hf]
      by_cases ha : m.info.name = a
      · subst ha
        simp only [if_true, hl, Option.map_some, count_cons_self, Module.takeDependent]
        rw [Nat.add_right_comm, Nat.add_assoc]
      · rw [if_neg (Ne.symm ha), count_cons_of_ne ha]

theorem acquireDependencies_status (hn : t.names.Nodup) (a : CString) :
    (acquireDependencies deps t).status a = t.status a := by
  simp [Table.status, acquireDependencies_lookup deps t hn, Function.comp_def]

end Acquire

end Eris.Modules
