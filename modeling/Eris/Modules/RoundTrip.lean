import Eris.Modules.Unloading

namespace Eris.Modules

open Counting Library.Outcome List Table

variable {t t' t₁ t₂ t₃ : Table} {x : Module} {init : InitResult} {name a : CString}
  {deps : List CString}

theorem Table.perm_of_lookup (hn : t.names.Nodup) (hn' : t'.names.Nodup)
    (h : ∀ a, t'.lookup a = t.lookup a) : t'.live.Perm t.live := by
  have hnodup : ∀ {u : Table}, u.names.Nodup → u.live.Nodup := by
    intro u hu
    rw [Table.names, Table.infos, map_map] at hu
    exact hu.of_map
  have hmem : ∀ {u : Table}, u.names.Nodup → ∀ m, m ∈ u.live ↔ u.lookup m.info.name = some m :=
    fun hu m ↦ ⟨Table.lookup_of_mem hu, lookup_mem⟩
  refine (perm_ext_iff_of_nodup (hnodup hn') (hnodup hn)).mpr fun m ↦ ?_
  rw [hmem hn', hmem hn, h]

theorem loadDependencies_of_ready (room : ℕ) (h : ∀ d ∈ deps, t.stateOf d = some .ready) :
    loadDependencies (loadLocked init (room + 1)) name deps t = (t, 0) := by
  induction deps with
  | nil => rfl
  | cons d deps ih =>
    obtain ⟨m, hm, hs⟩ := Option.map_eq_some_iff.mp (h d mem_cons_self)
    obtain ⟨j, hj, hmj⟩ := find_of_lookup hm
    have hload : loadLocked init (room + 1) t j = (t, 0) := by simp [loadLocked, hmj, hs]
    rw [loadDependencies, hj]
    simp only [hload, ne_eq, not_true, if_false]
    exact ih fun d hd ↦ h d (mem_cons_of_mem _ hd)

theorem names_concat (hlive : t₁.live = t.live ++ [x]) (hn : t₁.names.Nodup) :
    t.names.Nodup ∧ x.info.name ∉ t.names := by
  rw [Table.names, Table.infos, hlive] at hn
  simp only [map_append, map_cons, map_nil] at hn
  have hsplit := nodup_append.mp hn
  exact ⟨hsplit.1, fun hmem ↦ hsplit.2.2 _ hmem _ mem_cons_self rfl⟩

theorem not_listed_of_fresh (hfresh : name ∉ t.names) (hdeps : ∀ d ∈ deps, t.stateOf d = some .ready) :
    name ∉ deps := by
  intro hmem
  have hnone := stateOf_eq_none.mpr hfresh
  rw [hdeps _ hmem] at hnone
  cases hnone

theorem moduleLoad_fresh (hlive : t₁.live = t.live ++ [x]) (hn : t₁.names.Nodup)
    (hx : x.state = .registered) (hdeps : ∀ d ∈ x.info.deps, t.stateOf d = some .ready)
    (h : moduleLoad init x.info.name t₁ = (t₂, 0)) :
    t₂.names.Nodup ∧ t₂.live[t.live.length]? = some x.succeed ∧ ∀ a, a ≠ x.info.name → t₂.lookup a =
        (t.lookup a).map fun m ↦ { m with dependents := m.dependents + x.info.deps.count a } := by
  have hxi : t₁.live[t.live.length]? = some x := by rw [hlive, getElem?_concat_length]
  have hfresh := (names_concat hlive hn).2
  have hnot := not_listed_of_fresh hfresh hdeps
  have hf : ∀ s (m : Module), (m.setState s).info = m.info := fun _ _ ↦ rfl
  generalize hu : t₁.modify t.live.length (Module.setState .loading) = u
  have hnu : u.names.Nodup := by rwa [← hu, names_modify (hf _)]
  have hlook : ∀ a, u.lookup a = if a = x.info.name then some (x.setState .loading) else t.lookup a := by
    intro a
    rw [← hu, lookup_modify hn hxi (hf _)]
    split
    · rfl
    · rename_i ha
      rw [lookup_append hlive, if_neg (Ne.symm ha), Option.or_none]
  have hready : ∀ d ∈ x.info.deps, u.stateOf d = some .ready := by
    intro d hd
    have hne : d ≠ x.info.name := fun h ↦ hnot (h ▸ hd)
    rw [Table.stateOf, hlook, if_neg hne]
    exact hdeps d hd
  have hrun : moduleLoad init x.info.name t₁ = startModule init t.live.length x.info u := by
    have hup : loadDependencies (loadLocked init maxModules) x.info.name x.info.deps u = (u, 0) :=
      loadDependencies_of_ready 63 hready
    rw [moduleLoad, find_of_getElem? hn hxi]
    simp only [loadLocked, hxi, hx, hu, hup, ne_eq, not_true, if_false]
  rw [hrun, startModule] at h
  generalize hc : callInit init x.info (checkLicense x.info u) = called at h
  have hcl : called.1.live = u.live := by
    rw [← hc, Loading.callInit_live, Loading.checkLicense_live]
  split at h
  · rename_i hne
    exact absurd (Prod.mk.inj h).2 hne
  · obtain rfl := (Prod.mk.inj h).1
    have hnc : called.1.names.Nodup := by rwa [Table.names, Table.infos, hcl]
    have hinfos := acquireDependencies_infos x.info.deps called.1
    have hna : (acquireDependencies x.info.deps called.1).names.Nodup := by
      rwa [Table.names, hinfos]
    have hlc : ∀ a, called.1.lookup a = u.lookup a := fun a ↦ by rw [Table.lookup, hcl, Table.lookup]
    have hla := acquireDependencies_lookup x.info.deps called.1 hnc
    simp only [hlc, hlook] at hla
    have hself : (acquireDependencies x.info.deps called.1).lookup x.info.name = some (x.setState .loading) := by
      rw [hla, if_pos rfl, count_eq_zero_of_not_mem hnot]
      rfl
    have hget : (acquireDependencies x.info.deps called.1).live[t.live.length]? = some (x.setState .loading) := by
      have hui : u.live[t.live.length]? = some (x.setState .loading) := by
        simp [← hu, hxi]
      have hfind := find_of_getElem? hnu hui
      have hsame : (acquireDependencies x.info.deps called.1).infos = u.infos :=
        hinfos.trans (by rw [Table.infos, hcl, Table.infos])
      rw [← find_congr hsame] at hfind
      obtain ⟨m, hm, hlm, -⟩ := find_some hfind
      rw [hm, ← hlm]
      exact hself
    have hs : ∀ m : Module, m.succeed.info = m.info := fun _ ↦ rfl
    refine ⟨?_, ?_, fun a ha ↦ ?_⟩
    · rw [names_print, names_modify hs]
      exact hna
    · simp [hget, Module.succeed, Module.setState]
    · rw [lookup_print, lookup_modify hna hget hs, if_neg (by exact ha), hla, if_neg ha]

theorem moduleUnload_fresh {r : Option (ℕ × ℕ)} (hlive : t₁.live = t.live ++ [x])
    (hn : t₁.names.Nodup) (hx : x.state = .registered) (hbase : x.imageBase ≠ 0)
    (hdeps : ∀ d ∈ x.info.deps, t.stateOf d = some .ready)
    (hload : moduleLoad init x.info.name t₁ = (t₂, 0))
    (hunload : moduleUnload x.info.name t₂ = .ok (t₃, 0, r)) :
    t₃.live.Perm t.live ∧ r = some (x.imageBase, x.imagePages) := by
  obtain ⟨hn₂, hget, hlook⟩ := moduleLoad_fresh hlive hn hx hdeps hload
  obtain ⟨hnt, hfresh⟩ := names_concat hlive hn
  have hnot := not_listed_of_fresh hfresh hdeps
  have hname : x.succeed.info.name = x.info.name := rfl
  have hfind := find_of_getElem? hn₂ hget
  rw [hname] at hfind
  rw [moduleUnload, hfind] at hunload
  simp only [hget, Option.getD_some] at hunload
  rw [if_neg (by simp [Module.succeed])] at hunload
  split at hunload
  · cases hunload
  · obtain ⟨u, hu, hunload⟩ := bind_eq_ok.mp hunload
    have hexit := callExit_live x.succeed.info t₂
    have hle : ∀ a m, (callExit x.succeed.info t₂).lookup a = some m → x.info.deps.count a ≤ m.dependents := by
      intro a m hm
      rw [Table.lookup, hexit, ← Table.lookup] at hm
      by_cases ha : a = x.info.name
      · rw [ha, count_eq_zero_of_not_mem hnot]
        exact Nat.zero_le _
      · rw [hlook a ha] at hm
        obtain ⟨m', -, rfl⟩ := Option.map_eq_some_iff.mp hm
        exact Nat.le_add_left ..
    obtain ⟨u', hu', hrel, hmap⟩ := releaseDependencies_ok x.succeed.info.name x.info.deps
      (by simpa [Table.names, Table.infos, hexit] using hn₂) hle
    obtain rfl := Except.ok.inj (hu.symm.trans hu')
    have hinfos : u.infos = t₂.infos := by
      rw [Table.infos, hmap Module.info fun _ ↦ rfl, hexit, Table.infos]
    have hnu : u.names.Nodup := by rwa [Table.names, hinfos]
    obtain ⟨m₂, hm₂, hi₂⟩ := getElem?_of_infos hinfos hget
    have hfs : ∀ m : Module, (m.setState .registered).info = m.info := fun _ ↦ rfl
    have hfd : ∀ m : Module, m.detach.info = m.info := fun _ ↦ rfl
    have hm₃ : (u.modify t.live.length (Module.setState .registered)).live[t.live.length]? =
        some (m₂.setState .registered) := by simp [hm₂]
    have hm₄ : ((u.modify t.live.length (Module.setState .registered)).modify t.live.length
        Module.detach).live[t.live.length]? = some (m₂.setState .registered).detach := by simp [hm₂]
    have hn₃ : (u.modify t.live.length (Module.setState .registered)).names.Nodup := by
      rwa [names_modify hfs]
    have hn₄ : ((u.modify t.live.length (Module.setState .registered)).modify t.live.length
        Module.detach).names.Nodup := by
      rwa [names_modify hfd]
    rw [stopModule, if_pos (by exact hbase)] at hunload
    cases hunload
    refine ⟨perm_of_lookup hnt ?_ fun a ↦ ?_, rfl⟩
    · have hperm := ((vacate_live hm₄).2.map Module.info).map ModuleInfo.name
      exact (nodup_cons.mp (hperm.nodup_iff.mpr hn₄)).2
    · rw [lookup_print, lookup_vacate hn₄ hm₄]
      split
      · rename_i ha
        rw [ha, show (m₂.setState .registered).detach.info.name = x.info.name from congrArg _ hi₂]
        exact (lookup_eq_none.mpr hfresh).symm
      · rename_i ha
        have hne : a ≠ x.info.name := fun h ↦ ha (h.trans (congrArg ModuleInfo.name hi₂).symm)
        rw [lookup_modify hn₃ hm₃ hfd, if_neg (by exact ha), lookup_modify hnu hm₂ hfs,
          if_neg (by exact ha), hrel, Table.lookup, hexit, ← Table.lookup, hlook a hne, Option.map_map]
        simp [Function.comp_def]

end Eris.Modules
