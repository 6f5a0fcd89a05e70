import Eris.Library.Outcome
import Eris.Modules.Counting

namespace Eris.Modules.Counting

open Library.Outcome Library.Slots Loading List Function Option

variable {extra : CString → ℕ} {t t' : Table} {i : ℕ} {m : Module} {a : CString}

theorem Sound.congr {extra' : CString → ℕ} (h : Sound extra t)
    (he : ∀ a ∈ t.names, extra' a = extra a) : Sound extra' t := by
  refine ⟨h.names, fun a m hm ↦ ?_, h.ready, h.error⟩
  rw [he a, h.count a m hm]
  by_contra ha
  rw [← Table.lookup_eq_none, hm] at ha
  cases ha

theorem uses_eq_zero_iff : t.uses a = 0 ↔ ∀ m ∈ t.live, m.state = .ready → a ∉ m.info.deps := by
  simp only [Table.uses, List.sum_eq_zero_iff_forall_eq_nat, List.mem_map, forall_exists_index, and_imp,
    forall_apply_eq_imp_iff₂, Module.listed]
  refine forall₂_congr fun m _ ↦ ?_
  split <;> simp_all [count_eq_zero]

theorem Sound.uses_absent (h : Sound extra t) (ha : a ∉ t.names) : t.uses a = 0 := by
  refine uses_eq_zero_iff.mpr fun m hm hr hd ↦ ?_
  have hs := h.ready _ m (Table.lookup_of_mem h.names hm) hr a hd
  rw [Table.stateOf_eq_none.mpr ha] at hs
  cases hs

theorem lookup_append {slot : Module} {u : Table} (hu : u.live = t.live ++ [slot]) :
    u.lookup a = (t.lookup a).or (if slot.info.name = a then some slot else none) := by
  by_cases ha : slot.info.name = a <;> simp [Table.lookup, hu]

theorem uses_append {slot : Module} {u : Table} (hu : u.live = t.live ++ [slot])
    (hslot : slot.state = .registered) (a : CString) : u.uses a = t.uses a := by
  simp [Table.uses, hu, Module.listed, hslot]

theorem Sound.push (h : Sound extra t) {slot : Module} {u : Table} (hu : u.live = t.live ++ [slot])
    (hslot : slot.state = .registered) (hnew : slot.info.name ∉ t.names) :
    Sound (Function.update extra slot.info.name slot.dependents) u := by
  have huses := uses_append hu hslot
  have hlook := fun b ↦ lookup_append (a := b) hu
  have hcases : ∀ b m, u.lookup b = some m → t.lookup b = some m ∨ m = slot ∧ b = slot.info.name := by
    intro b m hb
    rw [hlook] at hb
    cases hl : t.lookup b with
    | some m' =>
      rw [hl] at hb
      exact .inl hb
    | none =>
      rw [hl, none_or] at hb
      split at hb
      · rename_i heq
        exact .inr ⟨(Option.some.inj hb).symm, heq.symm⟩
      · cases hb
  refine .of_each ?_ fun b m hb ↦ ?_
  · have : u.names = t.names ++ [slot.info.name] := by simp [Table.names, Table.infos, hu]
    rw [this]
    refine nodup_append.mpr ⟨h.names, nodup_singleton _, fun b hb c hc ↦ ?_⟩
    rintro rfl
    exact hnew (mem_singleton.mp hc ▸ hb)
  · rw [huses]
    rcases hcases b m hb with hb | ⟨rfl, rfl⟩
    · refine ⟨?_, fun hr d hd ↦ ?_, h.error b m hb⟩
      · rw [update_of_ne, h.count b m hb]
        rintro rfl
        exact absurd hb (by simp [Table.lookup_eq_none.mpr hnew])
      · obtain ⟨m', hm', hs'⟩ := map_eq_some_iff.mp (h.ready b m hb hr d hd)
        rw [Table.stateOf, hlook, hm']
        exact congrArg some hs'
    · rw [update_self, h.uses_absent hnew, Nat.add_zero, hslot]
      exact ⟨rfl, by simp, by simp⟩

theorem push_some {info : ModuleInfo} {base pages : ℕ} (h : t.push info base pages = some t') :
    ∃ slot spare, t.spare = slot :: spare ∧ t'.live = t.live ++ [slot.assign info base pages] ∧
      t'.spare = spare := by
  unfold Table.push at h
  split at h
  · cases h
  · rename_i slot spare hspare
    cases h
    exact ⟨slot, spare, hspare, rfl, rfl⟩

theorem listed_le_uses (hm : t.live[i]? = some m) (a : CString) : m.listed a ≤ t.uses a := by
  have h := uses_modify (f := Module.setState .registered) a hm
  have h0 : (m.setState .registered).listed a = 0 := by simp [Module.listed, Module.setState]
  omega

theorem releaseDependencies_ok (name : CString) (deps : List CString) (hn : t.names.Nodup)
    (h : ∀ a m, t.lookup a = some m → deps.count a ≤ m.dependents) :
    ∃ t', releaseDependencies name deps t = .ok t' ∧
      (∀ a, t'.lookup a = (t.lookup a).map fun m ↦ { m with dependents := m.dependents - deps.count a }) ∧
      ∀ {β : Type} (g : Module → β), (∀ m, g m.dropDependent = g m) →
        t'.live.map g = t.live.map g := by
  induction deps generalizing t with
  | nil => exact ⟨t, rfl, fun a ↦ by simp, fun _ _ ↦ rfl⟩
  | cons dep deps ih =>
    unfold releaseDependencies
    split
    · rename_i hf
      have hdep := Table.find_eq_none.mp hf
      obtain ⟨t', ht', hl, hg⟩ := ih hn fun a m hm ↦
        (count_le_count_cons ..).trans (h a m hm)
      refine ⟨t', ht', fun a ↦ ?_, hg⟩
      rw [hl]
      by_cases ha : dep = a
      · simp [← ha, hdep]
      · rw [count_cons_of_ne ha]
    · rename_i j hf
      obtain ⟨m, hm, hlm, rfl⟩ := Table.find_some hf
      have hpos := h _ m hlm
      rw [count_cons_self] at hpos
      have hne : ¬ (t.live[j]?.getD Module.zero).dependents = 0 := by
        rw [hm, getD_some]
        omega
      have hfd : ∀ m : Module, m.dropDependent.info = m.info := fun _ ↦ rfl
      have hlook := fun b ↦ Table.lookup_modify (a := b) hn hm hfd
      obtain ⟨t', ht', hl, hg⟩ := ih (t := t.modify j Module.dropDependent)
        (by rwa [Table.names_modify hfd]) fun a m' hm' ↦ by
          rw [hlook] at hm'
          split at hm'
          · rename_i ha
            cases hm'
            rw [ha]
            simp only [Module.dropDependent]
            omega
          · rename_i ha
            have := h a m' hm'
            rwa [count_cons_of_ne (Ne.symm ha)] at this
      refine ⟨t', by rw [if_neg hne]; exact ht', fun a ↦ ?_, fun g hgd ↦ ?_⟩
      · rw [hl, hlook]
        split
        · rename_i ha
          rw [ha, hlm]
          simp only [map_some, count_cons_self, Module.dropDependent]
          congr 2
          omega
        · rename_i ha
          rw [count_cons_of_ne (Ne.symm ha)]
      · rw [hg g hgd]
        exact map_modify_of_eq hgd t.live j

theorem callExit_live (info : ModuleInfo) (t : Table) : (callExit info t).live = t.live := by
  unfold callExit
  split <;> rfl

theorem releaseDependencies_map {β : Type} {g : Module → β} (hg : ∀ m : Module, g m.dropDependent = g m)
    {name : CString} {deps : List CString} (h : releaseDependencies name deps t = .ok t') :
    t'.live.map g = t.live.map g := by
  induction deps generalizing t with
  | nil =>
    cases h
    rfl
  | cons dep deps ih =>
    rw [releaseDependencies] at h
    split at h
    · exact ih h
    · split at h
      · cases h
      · exact (ih h).trans (map_modify_of_eq hg t.live _)

theorem Sound.retire (h : Sound extra t) (hm : t.live[i]? = some m) (hr : m.state = .ready)
    (h0 : m.dependents = 0) {u : Table}
    (hl : ∀ a, u.lookup a =
      (t.lookup a).map fun m' ↦ { m' with dependents := m'.dependents - m.info.deps.count a })
    (hg : u.live.map (fun m ↦ (m.info, m.state)) = t.live.map (fun m ↦ (m.info, m.state))) :
    Sound extra (u.modify i (Module.setState .registered)) ∧
      ∃ m₂, u.live[i]? = some m₂ ∧ ∀ b m', (u.modify i (Module.setState .registered)).lookup b = some m' →
        ∃ m₀, t.lookup b = some m₀ ∧ m₀.info = m'.info ∧ m₀.users = m'.users := by
  have hlm := Table.lookup_of_getElem? h.names hm
  have hinfos : u.infos = t.infos := by
    have := congrArg (List.map Prod.fst) hg
    simpa [Table.infos, comp_def] using this
  have hn : u.names.Nodup := by
    rw [Table.names, hinfos]
    exact h.names
  have hu0 : t.uses m.info.name = 0 := by
    have := h.count _ m hlm
    omega
  obtain ⟨m₂, hm₂, hi₂, hs₂⟩ : ∃ m₂, u.live[i]? = some m₂ ∧ m₂.info = m.info ∧ m₂.state = m.state := by
    have hget := congrArg (fun l ↦ l[i]?) hg
    simpa [hm] using hget
  have hf : ∀ m : Module, (m.setState .registered).info = m.info := fun _ ↦ rfl
  have hlook : ∀ b, (u.modify i (Module.setState .registered)).lookup b =
      if b = m.info.name then some (m₂.setState .registered)
      else (t.lookup b).map fun m' ↦ { m' with dependents := m'.dependents - m.info.deps.count b } := by
    intro b
    rw [Table.lookup_modify hn hm₂ hf, hi₂, hl]
  have hm₂' : m₂ = { m with dependents := m.dependents - m.info.deps.count m.info.name } := by
    have := Table.lookup_of_getElem? hn hm₂
    rw [hi₂, hl, hlm] at this
    exact (Option.some.inj this).symm
  have huses : ∀ b, (u.modify i (Module.setState .registered)).uses b + m.info.deps.count b =
      t.uses b := by
    intro b
    have hu := uses_modify (f := Module.setState .registered) b hm₂
    have hut : u.uses b = t.uses b := by
      have := congrArg (List.map fun p ↦ if p.2 = ModuleState.ready then p.1.deps.count b else 0) hg
      simp only [List.map_map, comp_def] at this
      exact congrArg List.sum this
    rw [hut] at hu
    simpa [Module.listed, Module.setState, hs₂, hi₂, hr] using hu
  refine ⟨.of_each (by rwa [Table.names_modify hf]) fun b m' hb ↦ ?_, m₂, hm₂, fun b m' hb ↦ ?_⟩
  · rw [hlook] at hb
    have hub := huses b
    split at hb
    · rename_i hbm
      have hc := h.count _ m hlm
      cases hb
      refine ⟨?_, by simp [Module.setState], by simp [Module.setState]⟩
      rw [hm₂', hbm]
      rw [hbm] at hub
      simp only [Module.setState]
      omega
    · obtain ⟨m₁, hm₁, rfl⟩ := map_eq_some_iff.mp hb
      have hc := h.count b m₁ hm₁
      refine ⟨?_, fun hr' d hd ↦ ?_, h.error b m₁ hm₁⟩
      · dsimp only
        omega
      · have hd' : d ≠ m.info.name := by
          rintro rfl
          exact uses_eq_zero_iff.mp hu0 m₁ (Table.lookup_mem hm₁) hr' hd
        have hs := h.ready b m₁ hm₁ hr' d hd
        rw [Table.stateOf, hlook, if_neg hd']
        simpa [Table.stateOf, comp_def] using hs
  · rw [hlook] at hb
    split at hb
    · rename_i hbm
      cases hb
      exact ⟨m, hbm ▸ hlm, hi₂.symm, by rw [hm₂']; rfl⟩
    · obtain ⟨m₁, hm₁, rfl⟩ := map_eq_some_iff.mp hb
      exact ⟨m₁, hm₁, rfl, rfl⟩

theorem vacate_live (hm : t.live[i]? = some m) :
    (t.vacate i).live = swapRemove t.live i ∧ (m :: (t.vacate i).live).Perm t.live := by
  obtain ⟨hi, rfl⟩ := List.getElem?_eq_some_iff.mp hm
  have hlive : (t.vacate i).live = swapRemove t.live i := by
    unfold Table.vacate
    split
    · rename_i hn
      simp [getLast?_eq_none_iff.mp hn] at hi
    · rfl
  rw [hlive]
  exact ⟨rfl, perm_cons_swapRemove t.live hi⟩

theorem lookup_vacate (hn : t.names.Nodup) (hm : t.live[i]? = some m) (a : CString) :
    (t.vacate i).lookup a = if a = m.info.name then none else t.lookup a := by
  have hp := (vacate_live hm).2
  have hp' : ((m :: (t.vacate i).live).map fun m ↦ m.info.name).Nodup := by
    rw [(hp.map _).nodup_iff]
    simpa [Table.names, Table.infos, comp_def] using hn
  rw [map_cons, nodup_cons] at hp'
  have hn' : (t.vacate i).names.Nodup := by
    simpa [Table.names, Table.infos, comp_def] using hp'.2
  split
  · rename_i ha
    rw [Table.lookup_eq_none, ha]
    simpa [Table.names, Table.infos, comp_def] using hp'.1
  · rename_i ha
    cases hl : t.lookup a with
    | none =>
      rw [Table.lookup_eq_none] at hl ⊢
      refine fun hmem ↦ hl ?_
      have := ((hp.map Module.info).map ModuleInfo.name).mem_iff (a := a)
      exact this.mp (mem_cons_of_mem _ hmem)
    | some m' =>
      have hmem : m' ∈ (t.vacate i).live := by
        rcases mem_cons.mp (hp.mem_iff.mpr (Table.lookup_mem hl)) with rfl | hmem
        · exact absurd (Table.lookup_name hl).symm ha
        · exact hmem
      rw [← Table.lookup_name hl]
      exact Table.lookup_of_mem hn' hmem

theorem Sound.vacate (h : Sound extra t) (hm : t.live[i]? = some m) (hs : m.state ≠ .ready) :
    Sound extra (t.vacate i) := by
  have hp := (vacate_live hm).2
  have hlook := lookup_vacate h.names hm
  have huses : ∀ b, (t.vacate i).uses b = t.uses b := by
    intro b
    have := ((hp.map (Module.listed b)).sum_eq)
    simpa [Table.uses, Module.listed, hs] using this
  refine .of_each ?_ fun b m' hb ↦ ?_
  · have := ((hp.map Module.info).map ModuleInfo.name).nodup_iff.mpr h.names
    exact (nodup_cons.mp this).2
  · rw [hlook] at hb
    rw [huses]
    split at hb
    · cases hb
    · refine ⟨h.count b m' hb, fun hr d hd ↦ ?_, h.error b m' hb⟩
      have hd' := h.ready b m' hb hr d hd
      rw [Table.stateOf, hlook, if_neg, ← Table.stateOf, hd']
      rintro rfl
      rw [Table.stateOf_of_getElem? h.names hm] at hd'
      exact hs (Option.some.inj hd')

/-- Unloading never stops the kernel, and there are four ways it can end. -/
theorem moduleUnload_spec (h : Sound extra t) (name : CString) :
    (t.lookup name = none ∧ moduleUnload name t = .ok (t, -1, none)) ∨
    ∃ m, t.lookup name = some m ∧
      (m.state ≠ .ready ∧ moduleUnload name t = .ok (t, 0, none) ∨
      m.state = .ready ∧ (m.dependents ≠ 0 ∨ m.users ≠ 0) ∧
        moduleUnload name t = .ok (t.print (.stillInUse name m.dependents m.users), -1, none) ∨
      m.state = .ready ∧ m.dependents = 0 ∧ m.users = 0 ∧
        ∃ t' image, moduleUnload name t = .ok (t', 0, image) ∧ Sound extra t' ∧
          ∀ a m', t'.lookup a = some m' →
            ∃ m₀, t.lookup a = some m₀ ∧ m₀.info = m'.info ∧ m₀.users = m'.users) := by
  cases hf : t.find name with
  | none => exact .inl ⟨Table.find_eq_none.mp hf, by simp [moduleUnload, hf]⟩
  | some i =>
    obtain ⟨m, hm, hl, rfl⟩ := Table.find_some hf
    refine .inr ⟨m, hl, ?_⟩
    have hget : t.live[i]?.getD Module.zero = m := by simp [hm]
    by_cases hs : m.state = .ready
    swap
    · exact .inl ⟨hs, by simp [moduleUnload, hf, hm, hs]⟩
    by_cases hheld : m.dependents ≠ 0 ∨ m.users ≠ 0
    · refine .inr (.inl ⟨hs, hheld, ?_⟩)
      simp only [moduleUnload, hf, hget, hs, ne_eq, not_true, if_false]
      rw [if_pos hheld]
    · have h0 : m.dependents = 0 := by tauto
      have hu0 : m.users = 0 := by tauto
      refine .inr (.inr ⟨hs, h0, hu0, ?_⟩)
      have hexit := callExit_live m.info t
      have hle : ∀ a m', (callExit m.info t).lookup a = some m' →
          m.info.deps.count a ≤ m'.dependents := by
        intro a m' hm'
        rw [Table.lookup, hexit] at hm'
        have hc := h.count a m' hm'
        have hlist := listed_le_uses hm a
        rw [Module.listed, if_pos hs] at hlist
        omega
      obtain ⟨u, hu, hlook, hmap⟩ := releaseDependencies_ok m.info.name m.info.deps
        (by simpa [Table.names, Table.infos, hexit] using h.names) hle
      simp only [Table.lookup, hexit] at hlook
      have hg := hexit ▸ hmap (fun m ↦ (m.info, m.state)) fun _ ↦ rfl
      obtain ⟨hretire, m₂, hm₂, hsame⟩ := h.retire hm hs h0 hlook hg
      have hrun : moduleUnload m.info.name t = .ok (stopModule m.info.name i m u) := by
        simp only [moduleUnload, hf, hget, hs, ne_eq, not_true, if_false, if_neg hheld, hu]
        rfl
      rw [hrun]
      unfold stopModule
      split
      · have hfd : ∀ m : Module, m.detach.info = m.info := fun _ ↦ rfl
        have hm₃ : (u.modify i (Module.setState .registered)).live[i]? =
            some (m₂.setState .registered) := by simp [hm₂]
        have hm₄ : ((u.modify i (Module.setState .registered)).modify i Module.detach).live[i]? =
            some (m₂.setState .registered).detach := by simp [hm₂]
        have hdetach := hretire.modify_idle hm₃ hfd rfl (by simp [Module.setState])
          (by simp [Module.setState, Module.detach]) (by simp [Module.setState, Module.detach])
        refine ⟨_, _, rfl, (hdetach.vacate hm₄ (by simp [Module.setState, Module.detach])).print _, ?_⟩
        intro a m' hm'
        rw [Table.lookup_print, lookup_vacate hdetach.names hm₄,
          Table.lookup_modify hretire.names hm₃ hfd] at hm'
        split at hm'
        · cases hm'
        · rename_i ha
          rw [if_neg (by exact ha)] at hm'
          exact hsame a m' hm'
      · exact ⟨_, _, rfl, hretire.print _, hsame⟩

end Eris.Modules.Counting
