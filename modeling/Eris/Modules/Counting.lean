import Eris.Modules.Search

namespace Eris.Modules

open Library.Slots Loading Option Table

/-- How often a module holds a reference to the one called `a`. -/
def Module.listed (a : CString) (m : Module) : ℕ :=
  if m.state = .ready then m.info.deps.count a else 0

def Table.uses (t : Table) (a : CString) : ℕ := (t.live.map (Module.listed a)).sum

namespace Counting

/-- Between two calls no ready module depends on one that is not, and each count is what the
ready modules hold plus what was left in the slot when the module was put there. -/
structure Sound (extra : CString → ℕ) (t : Table) : Prop where
  names : t.names.Nodup
  count : ∀ a m, t.lookup a = some m → m.dependents = extra a + t.uses a
  ready : ∀ a m, t.lookup a = some m → m.state = .ready → ∀ d ∈ m.info.deps, t.stateOf d = some .ready
  error : ∀ a m, t.lookup a = some m → m.state = .failed → m.error ≠ 0

variable {extra : CString → ℕ} {t : Table} {i : ℕ} {m : Module} {a : CString}
  {f : Module → Module}

theorem uses_modify (a : CString) (hm : t.live[i]? = some m) :
    (t.modify i f).uses a + m.listed a = t.uses a + (f m).listed a :=
  sum_map_modify (Module.listed a) f hm

theorem Sound.print (h : Sound extra t) (e : Event) : Sound extra (t.print e) :=
  ⟨h.names, h.count, h.ready, h.error⟩

theorem Sound.of_each (hn : t.names.Nodup) (h : ∀ a m, t.lookup a = some m → m.dependents = extra a + t.uses a ∧
    (m.state = .ready → ∀ d ∈ m.info.deps, t.stateOf d = some .ready) ∧ (m.state = .failed → m.error ≠ 0)) :
    Sound extra t :=
  ⟨hn, fun a m hm ↦ (h a m hm).1, fun a m hm ↦ (h a m hm).2.1, fun a m hm ↦ (h a m hm).2.2⟩

theorem Sound.modify_idle (h : Sound extra t) (hm : t.live[i]? = some m)
    (hf : ∀ m, (f m).info = m.info) (hd : (f m).dependents = m.dependents)
    (hs : m.state ≠ .ready) (hs' : (f m).state ≠ .ready)
    (he : (f m).state = .failed → (f m).error ≠ 0) : Sound extra (t.modify i f) := by
  have huses : ∀ b, (t.modify i f).uses b = t.uses b := by
    intro b
    have hu := uses_modify (f := f) b hm
    simpa [Module.listed, hs, hs'] using hu
  have hready : ∀ b, t.stateOf b = some .ready → (t.modify i f).stateOf b = some .ready := by
    intro b hb
    rw [stateOf_modify h.names hm hf, if_neg, hb]
    rintro rfl
    rw [stateOf_of_getElem? h.names hm] at hb
    exact hs (Option.some.inj hb)
  refine .of_each (by rw [names_modify hf]; exact h.names) fun b m' hb ↦ ?_
  rw [lookup_modify h.names hm hf] at hb
  rw [huses]
  split at hb
  · rename_i hbm
    cases hb
    refine ⟨?_, fun hr ↦ absurd hr hs', he⟩
    rw [hd, hbm]
    exact h.count _ _ (lookup_of_getElem? h.names hm)
  · exact ⟨h.count b m' hb, fun hr d hd' ↦ hready d (h.ready b m' hb hr d hd'), h.error b m' hb⟩

theorem uses_acquire (deps : List CString) (t : Table) (a : CString) :
    (acquireDependencies deps t).uses a = t.uses a := by
  unfold Table.uses
  rw [acquireDependencies_map deps t fun _ ↦ rfl]

theorem Sound.succeed (h : Sound extra t) (hm : t.live[i]? = some m) (hs : m.state ≠ .ready)
    (hdeps : ∀ d ∈ m.info.deps, t.stateOf d = some .ready) :
    Sound extra ((acquireDependencies m.info.deps t).modify i Module.succeed) := by
  have hn : (acquireDependencies m.info.deps t).names.Nodup := by
    rw [Table.names, acquireDependencies_infos]
    exact h.names
  have hl := acquireDependencies_lookup m.info.deps t h.names
  have hf : ∀ m : Module, m.succeed.info = m.info := fun _ ↦ rfl
  obtain ⟨m', hm', hi', hs'⟩ : ∃ m', (acquireDependencies m.info.deps t).live[i]? = some m' ∧
      m'.info = m.info ∧ m'.state = m.state := by
    have hget := congrArg (fun l ↦ l[i]?)
      (acquireDependencies_map m.info.deps t (g := fun m ↦ (m.info, m.state)) fun _ ↦ rfl)
    simpa [hm] using hget
  have hm'' : m' = { m with dependents := m.dependents + m.info.deps.count m.info.name } := by
    have := lookup_of_getElem? hn hm'
    rw [hi', hl, lookup_of_getElem? h.names hm] at this
    exact (Option.some.inj this).symm
  have huses : ∀ b, ((acquireDependencies m.info.deps t).modify i Module.succeed).uses b =
      t.uses b + m.info.deps.count b := by
    intro b
    have hu := uses_modify (f := Module.succeed) b hm'
    rw [uses_acquire] at hu
    simpa [Module.listed, Module.succeed, hs', hi', hs] using hu
  have hlook : ∀ b, ((acquireDependencies m.info.deps t).modify i Module.succeed).lookup b =
      if b = m.info.name then some m'.succeed
      else (t.lookup b).map fun m₁ ↦ { m₁ with dependents := m₁.dependents + m.info.deps.count b } := by
    intro b
    rw [lookup_modify hn hm' hf, hi', hl]
  have hready : ∀ b, t.stateOf b = some .ready →
      ((acquireDependencies m.info.deps t).modify i Module.succeed).stateOf b = some .ready := by
    intro b hb
    rw [Table.stateOf, hlook]
    split
    · rfl
    · simpa [Table.stateOf, Function.comp_def] using hb
  refine .of_each (by rwa [names_modify hf]) fun b m₁ hb ↦ ?_
  rw [hlook] at hb
  rw [huses]
  split at hb
  · rename_i hbm
    have hc := h.count _ _ (lookup_of_getElem? h.names hm)
    cases hb
    refine ⟨?_, fun _ d hd ↦ hready d (hdeps d (by simpa [Module.succeed, hi'] using hd)), by simp [Module.succeed]⟩
    rw [hm'', hbm]
    simp only [Module.succeed, hc]
    omega
  · obtain ⟨m₂, hm₂, rfl⟩ := map_eq_some_iff.mp hb
    refine ⟨?_, fun hr d hd ↦ hready d (h.ready b m₂ hm₂ hr d hd), h.error b m₂ hm₂⟩
    simp only [h.count b m₂ hm₂]
    omega

variable (extra) in
def LoadSound (load : Table → ℕ → Table × ℤ) : Prop :=
  ∀ t i m, Sound extra t → t.live[i]? = some m →
    Sound extra (load t i).1 ∧ (load t i).1.infos = t.infos ∧ Ext (fun _ ↦ True) t (load t i).1 ∧
    ((load t i).2 = 0 → (load t i).1.stateOf m.info.name = some .ready)

theorem loadDependencies_sound {load : Table → ℕ → Table × ℤ} (hload : LoadSound extra load)
    (name : CString) (deps : List CString) (t : Table) (h : Sound extra t) :
    Sound extra (loadDependencies load name deps t).1 ∧ (loadDependencies load name deps t).1.infos = t.infos ∧
    Ext (fun _ ↦ True) t (loadDependencies load name deps t).1 ∧ ((loadDependencies load name deps t).2 = 0 →
      ∀ d ∈ deps, (loadDependencies load name deps t).1.stateOf d = some .ready) := by
  induction deps generalizing t with
  | nil => exact ⟨h, rfl, .refl _ t, by simp⟩
  | cons d deps ih =>
    unfold loadDependencies
    split
    · exact ⟨h.print _, rfl, .print _ t _, by simp⟩
    · rename_i j hf
      obtain ⟨m, hm, -, rfl⟩ := find_some hf
      obtain ⟨hsound, hinfos, hext, hok⟩ := hload t j m h hm
      split
      · rename_i hne
        exact ⟨hsound, hinfos, hext, fun h0 ↦ absurd h0 hne⟩
      · rename_i heq
        obtain ⟨hsound', hinfos', hext', hready⟩ := ih (load t j).1 hsound
        refine ⟨hsound', hinfos'.trans hinfos, hext.trans hext', fun h0 c hc ↦ ?_⟩
        rcases List.mem_cons.mp hc with rfl | hc
        · exact hext'.kept _ _ (hok (not_not.mp heq)) (by simp)
        · exact hready h0 c hc

theorem startModule_sound (init : InitResult) (h : Sound extra t) (hm : t.live[i]? = some m)
    (hs : m.state = .loading) (hdeps : ∀ d ∈ m.info.deps, t.stateOf d = some .ready) :
    Sound extra (startModule init i m.info t).1 ∧ (startModule init i m.info t).1.infos = t.infos := by
  have hlive : (callInit init m.info (checkLicense m.info t)).1.live = t.live := by
    rw [callInit_live, checkLicense_live]
  unfold startModule
  dsimp only
  generalize callInit init m.info (checkLicense m.info t) = called at hlive
  have hst : ∀ b, called.1.stateOf b = t.stateOf b := fun b ↦ by
    simp only [Table.stateOf, Table.lookup, hlive]
  have hinfos : called.1.infos = t.infos := by simp only [Table.infos, hlive]
  have hc : Sound extra called.1 := by
    refine ⟨?_, ?_, ?_, ?_⟩
    · simpa only [Table.names, hinfos] using h.names
    · simpa only [Table.lookup, Table.uses, hlive] using h.count
    · simpa only [Table.lookup, hst, hlive] using h.ready
    · simpa only [Table.lookup, hlive] using h.error
  have hmc : called.1.live[i]? = some m := by rw [hlive, hm]
  split
  · rename_i hne
    have hf : ∀ m : Module, (m.fail called.2).info = m.info := fun _ ↦ rfl
    exact ⟨(hc.modify_idle hmc hf rfl (by simp [hs]) (by simp [Module.fail]) fun _ ↦ hne).print _,
      (infos_modify hf).trans hinfos⟩
  · have hf : ∀ m : Module, m.succeed.info = m.info := fun _ ↦ rfl
    have hia := acquireDependencies_infos m.info.deps called.1
    exact ⟨(hc.succeed hmc (by simp [hs]) fun d hd ↦ (hst d).trans (hdeps d hd)).print _,
      (infos_modify hf).trans (hia.trans hinfos)⟩

theorem loadLocked_sound (init : InitResult) (room : ℕ) :
    LoadSound extra (loadLocked init room) := by
  induction room with
  | zero => exact fun t i m h hm ↦ ⟨h.print _, rfl, .print _ t _, by simp [loadLocked]⟩
  | succ room ih =>
    intro t i m h hm
    have ha := stateOf_of_getElem? h.names hm
    unfold loadLocked
    simp only [hm]
    cases hs : m.state with
    | ready =>
      rw [hs] at ha
      exact ⟨h, rfl, .refl _ t, fun _ ↦ ha⟩
    | loading => exact ⟨h.print _, rfl, .print _ t _, by simp⟩
    | failed =>
      exact ⟨h, rfl, .refl _ t, fun h0 ↦ absurd h0 (h.error _ m (lookup_of_getElem? h.names hm) hs)⟩
    | registered =>
      have hf : ∀ m : Module, (m.setState .loading).info = m.info := fun _ ↦ rfl
      have h₁ := h.modify_idle hm hf rfl (by simp [hs]) (by simp [Module.setState]) (by simp [Module.setState])
      obtain ⟨h₂, hinfos, hext, hready⟩ := loadDependencies_sound ih m.info.name m.info.deps _ h₁
      generalize loadDependencies (loadLocked init room) m.info.name m.info.deps
        (t.modify i (Module.setState .loading)) = out at h₂ hinfos hext hready
      rw [infos_modify hf] at hinfos
      have hself : (t.modify i (Module.setState .loading)).stateOf m.info.name = some .loading := by
        rw [stateOf_modify h.names hm hf, if_pos rfl]
        rfl
      obtain ⟨m₂, hm₂, hi₂⟩ := getElem?_of_infos hinfos hm
      have hs₂ : m₂.state = .loading := by
        have hk := hext.kept _ _ hself (by simp)
        rw [← hi₂, stateOf_of_getElem? h₂.names hm₂] at hk
        exact Option.some.inj hk
      dsimp only
      split
      · have hff : ∀ m : Module, (m.fail (-1)).info = m.info := fun _ ↦ rfl
        refine ⟨h₂.modify_idle hm₂ hff rfl (by simp [hs₂]) (by simp [Module.fail])
          (by simp [Module.fail]), (infos_modify hff).trans hinfos, ?_, by simp⟩
        refine Ext.wrap h.names hm hs trivial (fun _ _ ↦ trivial) hext (fun b hb ↦ ?_) (.inr ?_)
        · rw [stateOf_modify h₂.names hm₂ hff, hi₂, if_neg hb]
        · rw [stateOf_modify h₂.names hm₂ hff, hi₂, if_pos rfl]
          rfl
      · rename_i heq
        have hstart := startModule_sound init h₂ hm₂ hs₂
          (by rw [hi₂]; exact hready (not_not.mp heq))
        have hsettles := startModule_settles init h₂.names hm₂
        rw [hi₂] at hstart hsettles
        obtain ⟨hout, hset, hok⟩ := hsettles
        exact ⟨hstart.1, hstart.2.trans hinfos, .wrap h.names hm hs trivial (fun _ _ ↦ trivial) hext hout hset, hok⟩

theorem loadLocked_frame {β : Type} {g : Module → β}
    (hg : ∀ m s d e, g { m with state := s, dependents := d, error := e } = g m)
    (init : InitResult) (room : ℕ) (t : Table) (i : ℕ) :
    (loadLocked init room t i).1.live.map g = t.live.map g ∧ (loadLocked init room t i).1.spare = t.spare := by
  have hmod : ∀ (f : Module → Module) (u : Table) (j : ℕ), (∀ m, g (f m) = g m) →
      (u.modify j f).live.map g = u.live.map g := fun f u j hf ↦ map_modify_of_eq hf u.live j
  induction room generalizing t i with
  | zero => exact ⟨rfl, rfl⟩
  | succ room ih =>
    have hdeps : ∀ name deps (u : Table),
        (loadDependencies (loadLocked init room) name deps u).1.live.map g = u.live.map g ∧
        (loadDependencies (loadLocked init room) name deps u).1.spare = u.spare := by
      intro name deps
      induction deps with
      | nil => exact fun u ↦ ⟨rfl, rfl⟩
      | cons dep deps ihd =>
        intro u
        unfold loadDependencies
        split
        · exact ⟨rfl, rfl⟩
        · rename_i j _
          split
          · exact ih u j
          · exact ⟨(ihd _).1.trans (ih u j).1, (ihd _).2.trans (ih u j).2⟩
    have hstart : ∀ info (u : Table), (startModule init i info u).1.live.map g = u.live.map g ∧
        (startModule init i info u).1.spare = u.spare := by
      intro info u
      have hlive : (callInit init info (checkLicense info u)).1.live = u.live := by
        rw [callInit_live, checkLicense_live]
      have hspare : (callInit init info (checkLicense info u)).1.spare = u.spare := by
        unfold callInit checkLicense
        split <;> split <;> rfl
      unfold startModule
      dsimp only
      generalize callInit init info (checkLicense info u) = called at hlive hspare
      rw [← hlive, ← hspare]
      split
      · exact ⟨hmod _ called.1 i fun m ↦ hg m .failed m.dependents called.2, rfl⟩
      · refine ⟨(hmod _ _ i fun m ↦ hg m .ready m.dependents 0).trans ?_, acquireDependencies_spare info.deps called.1⟩
        exact acquireDependencies_map info.deps called.1
          fun m ↦ hg m m.state (m.dependents + 1) m.error
    unfold loadLocked
    split
    · exact ⟨rfl, rfl⟩
    · rename_i m _
      split
      · exact ⟨rfl, rfl⟩
      · exact ⟨rfl, rfl⟩
      · exact ⟨rfl, rfl⟩
      · have henter := hmod _ t i fun m ↦ hg m .loading m.dependents m.error
        obtain ⟨hd, hsp⟩ := hdeps m.info.name m.info.deps (t.modify i (Module.setState .loading))
        dsimp only
        split
        · exact ⟨(hmod _ _ i fun m ↦ hg m .failed m.dependents (-1)).trans (hd.trans henter), hsp⟩
        · exact ⟨(hstart _ _).1.trans (hd.trans henter), (hstart _ _).2.trans hsp⟩

def Table.usersOf (t : Table) (a : CString) : Option UInt32 := (t.lookup a).map Module.users

theorem loadLocked_users (init : InitResult) (room : ℕ) (t : Table) (i : ℕ) (a : CString) :
    Table.usersOf (loadLocked init room t i).1 a = Table.usersOf t a := by
  have hu : ∀ t : Table, Table.usersOf t a =
      ((t.live.map fun m ↦ (m.info.name, m.users)).find? fun p ↦ p.1 == a).map Prod.snd := by
    intro t
    rw [List.find?_map, map_map]
    rfl
  rw [hu, hu, (loadLocked_frame (fun _ _ _ _ ↦ rfl) init room t i).1]

end Counting

end Eris.Modules
