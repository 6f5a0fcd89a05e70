import Eris.Modules.SearchInvariant

namespace Eris.Modules.Loading

open Relation Library.Grounding List Table

variable {result : ModuleInfo → ℤ} {t₀ t t' t'' : Table} {i : ℕ} {m : Module} {a : CString}

variable (result t₀)

def LoadSpec (room : ℕ) (load : Table → ℕ → Table × ℤ) : Prop :=
  ∀ t i m, Inv result t₀ t → t.live[i]? = some m → pending t < room →
    (∀ b, t.stateOf b = some .loading → TransGen (DependsOn t₀) b m.info.name) → Inv result t₀ (load t i).1 ∧
    Ext (ReflTransGen (Visits result t₀) m.info.name) t (load t i).1 ∧
    ((load t i).2 = 0 → (load t i).1.stateOf m.info.name = some .ready) ∧
    ((load t i).2 ≠ 0 → ¬ ComesUp result t₀ m.info.name) ∧ (load t i).1.stateOf m.info.name ≠ some .registered

structure DepsSpec (a : CString) (deps : List CString) (t : Table) (out : Table × ℤ) : Prop where
  inv : Inv result t₀ out.1
  ext : Ext (TransGen (Visits result t₀) a) t out.1
  ready : out.2 = 0 → ∀ d ∈ deps, out.1.stateOf d = some .ready
  failed : out.2 ≠ 0 → ∃ d ∈ deps, ¬ ComesUp result t₀ d
  visited : ∀ before b after, deps = before ++ b :: after → (∀ d ∈ before, ComesUp result t₀ d) →
    out.1.stateOf b ≠ some .registered

variable {result t₀}

theorem not_comesUp_of_absent (h : t₀.lookup a = none) : ¬ ComesUp result t₀ a := by
  intro hc
  obtain ⟨m, hm, -⟩ := Grounded.sound hc
  simp [h] at hm

theorem loadDependencies_spec {room : ℕ} {load : Table → ℕ → Table × ℤ}
    (hload : LoadSpec result t₀ room load) (name : CString) {m₀ : Module}
    (hm₀ : t₀.lookup a = some m₀) (hr₀ : m₀.state = .registered)
    (deps before : List CString) (t : Table) (hdeps : m₀.info.deps = before ++ deps)
    (hbefore : ∀ d ∈ before, ComesUp result t₀ d) (h : Inv result t₀ t)
    (ha : t.stateOf a = some .loading)
    (hstack : ∀ b, t.stateOf b = some .loading → ReflTransGen (DependsOn t₀) b a)
    (hroom : pending t < room) :
    DepsSpec result t₀ a deps t (loadDependencies load name deps t) := by
  induction deps generalizing before t with
  | nil => exact ⟨h, .refl _ t, by simp, fun hne ↦ absurd rfl hne, by simp⟩
  | cons d deps ih =>
    have hedge : DependsOn t₀ a d := ⟨m₀, hm₀, hr₀, by simp [hdeps]⟩
    have hvisit : Visits result t₀ a d := ⟨m₀, before, deps, hm₀, hr₀, hdeps, hbefore⟩
    -- a dependency that does not come up is the last one looked at
    have hlast : ¬ ComesUp result t₀ d → ∀ out : Table, out.stateOf d ≠ some .registered →
        ∀ pre b post, d :: deps = pre ++ b :: post → (∀ d ∈ pre, ComesUp result t₀ d) →
          out.stateOf b ≠ some .registered := by
      intro hd out hout pre b post he hpre
      cases pre with
      | nil =>
        simp only [nil_append, List.cons.injEq] at he
        exact he.1 ▸ hout
      | cons c pre =>
        simp only [cons_append, List.cons.injEq] at he
        exact absurd (he.1 ▸ hpre c (by simp)) hd
    unfold loadDependencies
    split
    · rename_i hf
      rw [find_eq_none, lookup_eq_none] at hf
      have hd : ¬ ComesUp result t₀ d := by
        apply not_comesUp_of_absent
        rwa [lookup_eq_none, ← h.names]
      have hout : (t.print (.missingDependency name d)).stateOf d ≠ some .registered := by
        rw [stateOf_print, stateOf_eq_none.mpr hf]
        simp
      exact ⟨h.print (by simp) (by simp), .print _ t _, by simp, fun _ ↦ ⟨d, by simp, hd⟩,
        hlast hd _ hout⟩
    · rename_i j hf
      obtain ⟨m, hm, -, rfl⟩ := find_some hf
      obtain ⟨hinv, hext, hok, hbad, hreg⟩ := hload t j m h hm hroom
        fun b hb ↦ TransGen.tail' (hstack b hb) hedge
      have hext' := hext.mono fun b hb ↦ TransGen.head' hvisit hb
      split
      · rename_i hne
        have hd := hbad hne
        exact ⟨hinv, hext', fun h0 ↦ absurd h0 hne, fun _ ↦ ⟨_, by simp, hd⟩, hlast hd _ hreg⟩
      · rename_i heq
        have hd := hok (not_not.mp heq)
        have hnames := hinv.names.trans h.names.symm
        have hout := ih (before ++ [m.info.name]) (load t j).1 (by simp [hdeps])
          (by
            intro d hd'
            rcases mem_append.mp hd' with hd' | hd'
            · exact hbefore d hd'
            · rw [mem_singleton.mp hd']
              exact hinv.ready _ hd)
          hinv (hext.kept a _ ha (by simp)) (fun b hb ↦ hstack b (hext.loading b hb))
          ((hext.pending_le hnames).trans_lt hroom)
        refine ⟨hout.inv, hext'.trans hout.ext, ?_, ?_, ?_⟩
        · intro h0 c hc
          rcases mem_cons.mp hc with rfl | hc
          · exact hout.ext.kept _ _ hd (by simp)
          · exact hout.ready h0 c hc
        · intro hne
          obtain ⟨c, hc, hcu⟩ := hout.failed hne
          exact ⟨c, mem_cons_of_mem _ hc, hcu⟩
        · intro pre b post he hpre
          cases pre with
          | nil =>
            simp only [nil_append, List.cons.injEq] at he
            rw [← he.1, hout.ext.kept _ _ hd (by simp)]
            simp
          | cons c pre =>
            simp only [cons_append, List.cons.injEq] at he
            exact hout.visited pre b post he.2 fun d hd' ↦ hpre d (mem_cons_of_mem _ hd')

theorem Inv.checkLicense (h : Inv result t₀ t) (info : ModuleInfo) :
    Inv result t₀ (checkLicense info t) := by
  unfold Modules.checkLicense
  split
  · exact h
  · have hp : Inv result t₀ (t.print (.tainted info.name info.license)) :=
      h.print (by simp) (by simp)
    exact hp.of_status rfl (fun _ ↦ rfl) rfl

theorem checkLicense_live (info : ModuleInfo) (t : Table) : (checkLicense info t).live = t.live := by
  unfold Modules.checkLicense
  split <;> rfl

theorem callInit_snd (result : ModuleInfo → ℤ) (info : ModuleInfo) (t : Table) :
    (callInit (fixed result) info t).2 = initValue result info := by
  unfold callInit initValue fixed
  split <;> simp_all

theorem callInit_live (init : InitResult) (info : ModuleInfo) (t : Table) :
    (callInit init info t).1.live = t.live := by
  unfold callInit
  split <;> rfl

theorem callInit_log (result : ModuleInfo → ℤ) (info : ModuleInfo) (t : Table) :
    info.init = none ∧ (callInit (fixed result) info t).1.log = t.log ++ [] ∨ (callInit (fixed result) info t).1.log =
      t.log ++ [.initReturned info.name (initValue result info)] := by
  cases hi : info.init with
  | none => simp [callInit, hi]
  | some f => simp [callInit, initValue, fixed, hi]

theorem startModule_stateOf (init : InitResult) (hn : t.names.Nodup) (hm : t.live[i]? = some m) (b : CString) :
    (startModule init i m.info t).1.stateOf b = if b = m.info.name then
      some (if (startModule init i m.info t).2 = 0 then .ready else .failed) else t.stateOf b := by
  have hlive : (callInit init m.info (checkLicense m.info t)).1.live = t.live := by
    rw [callInit_live, checkLicense_live]
  unfold startModule
  dsimp only
  generalize callInit init m.info (checkLicense m.info t) = called at hlive
  have hst : called.1.stateOf b = t.stateOf b := by simp only [Table.stateOf, Table.lookup, hlive]
  have hnc : called.1.names.Nodup := by simpa only [Table.names, Table.infos, hlive] using hn
  rw [← hlive] at hm
  split
  · rename_i hne
    rw [stateOf_print, stateOf_modify (f := Module.fail called.2) hnc hm fun _ ↦ rfl, hst]
    rfl
  · have hia := acquireDependencies_infos m.info.deps called.1
    obtain ⟨m', hm', hname⟩ := getElem?_of_infos hia hm
    rw [stateOf_print, stateOf_modify (f := Module.succeed) (by rwa [Table.names, hia]) hm' fun _ ↦ rfl, hname, stateOf_eq,
      acquireDependencies_status _ _ hnc, ← stateOf_eq, hst]
    rfl

theorem startModule_settles (init : InitResult) (hn : t.names.Nodup) (hm : t.live[i]? = some m) :
    (∀ b, b ≠ m.info.name → (startModule init i m.info t).1.stateOf b = t.stateOf b) ∧
    Settled (startModule init i m.info t).1 m.info.name ∧ ((startModule init i m.info t).2 = 0 →
      (startModule init i m.info t).1.stateOf m.info.name = some .ready) := by
  have hst := startModule_stateOf init hn hm
  refine ⟨fun b hb ↦ by rw [hst, if_neg hb], ?_, fun h0 ↦ by rw [hst, if_pos rfl, if_pos h0]⟩
  rw [Settled, hst, if_pos rfl]
  split <;> simp

theorem comesUp_iff_of_deps {m₀ : Module} (hm₀ : t₀.lookup a = some m₀)
    (hr₀ : m₀.state = .registered) (hdeps : ∀ d ∈ m₀.info.deps, ComesUp result t₀ d) :
    ComesUp result t₀ a ↔ initValue result m₀.info = 0 := by
  constructor
  · intro h
    obtain ⟨m, hm, hs⟩ := Grounded.sound h
    obtain rfl := Option.some.inj (hm₀.symm.trans hm)
    simpa [hr₀] using hs
  · intro h
    refine .mk ⟨m₀, hm₀, .inr ⟨hr₀, h⟩⟩ fun b hb ↦ ?_
    obtain ⟨m, hm, -, hb⟩ := hb
    obtain rfl : m₀ = m := Option.some.inj (hm₀.symm.trans hm)
    exact hdeps b hb

theorem startModule_spec (hn : t₀.names.Nodup) {m₀ : Module} (h : Inv result t₀ t)
    (hm : t.live[i]? = some m) (hs : m.state = .loading) (hm₀ : t₀.lookup m.info.name = some m₀)
    (hi₀ : m₀.info = m.info) (hr₀ : m₀.state = .registered)
    (hdeps : ∀ d ∈ m.info.deps, t.stateOf d = some .ready)
    (hclosed : ∀ b, Visits result t₀ m.info.name b → t.stateOf b ≠ some .registered) :
    Inv result t₀ (startModule (fixed result) i m.info t).1 ∧ ((startModule (fixed result) i m.info t).2 ≠ 0 → ¬ ComesUp result t₀ m.info.name) := by
  have hl := h.checkLicense m.info
  have hnl := hl.names ▸ hn
  have hlive := checkLicense_live m.info t
  generalize hu : checkLicense m.info t = u at hl hnl hlive
  have hup := comesUp_iff_of_deps hm₀ hr₀ fun d hd ↦ h.ready d (hdeps d (hi₀ ▸ hd))
  rw [hi₀] at hup
  have hmu : u.live[i]? = some m := by rw [hlive, hm]
  have hst : ∀ b, u.stateOf b = t.stateOf b := fun b ↦ by
    simp only [Table.stateOf, Table.lookup, hlive]
  have hau : u.stateOf m.info.name = some .loading := by
    rw [stateOf_of_getElem? hnl hmu, hs]
  have hclosed' : ∀ b, Visits result t₀ m.info.name b → u.stateOf b ≠ some .registered := by
    simpa only [hst] using hclosed
  have hreg : t₀.stateOf m.info.name = some .registered := by simp [Table.stateOf, hm₀, hr₀]
  have hevents : ∀ s r, (s = ModuleState.ready → r = 0) → r = initValue result m.info →
      ∃ events, (callInit (fixed result) m.info u).1.log = u.log ++ events ∧
      (events = [] ∧ (s = .ready → ∀ m', t₀.lookup m.info.name = some m' → m'.info.init = none) ∨
      ∃ r, events = [.initReturned m.info.name r] ∧ (s = .ready → r = 0) ∧
        ∀ m', t₀.lookup m.info.name = some m' → ∀ d ∈ m'.info.deps, u.stateOf d = some .ready) := by
    intro s r hsr hr
    rcases callInit_log result m.info u with ⟨hnone, hlog⟩ | hlog
    · refine ⟨[], hlog, .inl ⟨rfl, fun _ m' hm' ↦ ?_⟩⟩
      obtain rfl := Option.some.inj (hm₀.symm.trans hm')
      rw [hi₀, hnone]
    · refine ⟨_, hlog, .inr ⟨_, rfl, fun h ↦ hr ▸ hsr h, fun m' hm' d hd ↦ ?_⟩⟩
      obtain rfl : m₀ = m' := Option.some.inj (hm₀.symm.trans hm')
      rw [hst]
      exact hdeps d (hi₀ ▸ hd)
  have hclive := callInit_live (fixed result) m.info u
  have hcsnd := callInit_snd result m.info u
  unfold startModule
  simp only [hu, hcsnd]
  generalize callInit (fixed result) m.info u = called at hclive hevents
  have hmc : called.1.live[i]? = some m := by rw [hclive, hmu]
  have hinfos : called.1.infos = u.infos := by simp only [Table.infos, hclive]
  have hnc : called.1.names.Nodup := by rwa [Table.names, hinfos]
  have hstc : ∀ b, called.1.status b = u.status b := fun b ↦ by
    simp only [Table.status, Table.lookup, hclive]
  split
  · rename_i hne
    obtain ⟨events, hlog, hev⟩ := hevents .failed (initValue result m.info) (by simp) rfl
    have hf : ∀ m' : Module, (m'.fail (initValue result m.info)).info = m'.info := fun _ ↦ rfl
    have hsettle := hl.settle hau ((infos_modify hf).trans hinfos)
      (fun b ↦ (status_modify hnc hmc hf).trans (by rw [hstc]; rfl)) hlog
      (.inr ⟨rfl, hne, fun h ↦ hne (hup.mp h)⟩) hclosed' hev hreg
    exact ⟨hsettle.print (by simp) (by simp), fun _ h ↦ hne (hup.mp h)⟩
  · rename_i heq
    have h0 := not_not.mp heq
    obtain ⟨events, hlog, hev⟩ := hevents .ready 0 (fun _ ↦ rfl) h0.symm
    have hf : ∀ m' : Module, m'.succeed.info = m'.info := fun _ ↦ rfl
    have hia := acquireDependencies_infos m.info.deps called.1
    have hna : (acquireDependencies m.info.deps called.1).names.Nodup := by
      rwa [Table.names, hia]
    have hsa := acquireDependencies_status m.info.deps called.1 hnc
    obtain ⟨m', hm', hname⟩ := getElem?_of_infos hia hmc
    have hsettle := hl.settle hau ((infos_modify hf).trans (hia.trans hinfos))
      (fun b ↦ (status_modify hna hm' hf).trans (by rw [hsa, hstc, hname]; rfl))
      ((acquireDependencies_log m.info.deps called.1).trans hlog)
      (.inl ⟨rfl, hup.mpr h0⟩) hclosed' hev hreg
    exact ⟨hsettle.print (by simp) (by simp), fun h ↦ absurd rfl h⟩

theorem Inv.info_eq (h : Inv result t₀ t) (hn : t₀.names.Nodup) (hm : t.live[i]? = some m) :
    ∃ m₀, t₀.lookup m.info.name = some m₀ ∧ m₀.info = m.info := by
  obtain ⟨m₀, hm₀, hi⟩ := getElem?_of_infos h.infos.symm hm
  exact ⟨m₀, hi ▸ lookup_of_getElem? hn hm₀, hi⟩

theorem pending_enter (hn : t.names.Nodup) (hm : t.live[i]? = some m)
    (hr : m.state = .registered) :
    pending (t.modify i (Module.setState .loading)) < pending t := by
  have hf : ∀ m : Module, (m.setState .loading).info = m.info := fun _ ↦ rfl
  have ha : t.stateOf m.info.name = some .registered := by
    rw [stateOf_of_getElem? hn hm, hr]
  apply Finset.card_lt_card
  rw [Finset.ssubset_iff_of_subset]
  · refine ⟨m.info.name, ?_, ?_⟩
    · simp only [Finset.mem_filter, mem_toFinset, ha, and_true]
      by_contra hmem
      rw [← stateOf_eq_none, ha] at hmem
      cases hmem
    · simp [stateOf_modify hn hm hf, Module.setState]
  · intro b hb
    simp only [Finset.mem_filter, names_modify hf, stateOf_modify hn hm hf] at hb ⊢
    refine ⟨hb.1, ?_⟩
    split at hb
    · simp [Module.setState] at hb
    · exact hb.2

theorem Ext.wrap {p q : CString → Prop} (hn : t.names.Nodup) (hm : t.live[i]? = some m)
    (hr : m.state = .registered) (hq : q m.info.name) (hpq : ∀ b, p b → q b)
    (h : Ext p (t.modify i (Module.setState .loading)) t')
    (hout : ∀ b, b ≠ m.info.name → t''.stateOf b = t'.stateOf b)
    (hset : Settled t'' m.info.name) : Ext q t t'' := by
  have hf : ∀ m : Module, (m.setState .loading).info = m.info := fun _ ↦ rfl
  have ha : t.stateOf m.info.name = some .registered := by
    rw [stateOf_of_getElem? hn hm, hr]
  have hst : ∀ b, b ≠ m.info.name → (t.modify i (Module.setState .loading)).stateOf b = t.stateOf b := fun b hb ↦ by
    rw [stateOf_modify hn hm hf, if_neg hb]
  refine ⟨fun b s hb hs ↦ ?_, fun b hb ↦ ?_, fun b hb hb' ↦ ?_⟩
  · have hne : b ≠ m.info.name := by
      rintro rfl
      exact hs (Option.some.inj (hb.symm.trans ha))
    rw [hout b hne]
    exact h.kept b s ((hst b hne).trans hb) hs
  · have hne : b ≠ m.info.name := by
      rintro rfl
      simp [Settled, hb] at hset
    rw [hout b hne] at hb
    exact (hst b hne).symm.trans (h.loading b hb)
  · by_cases hne : b = m.info.name
    · exact hne ▸ hq
    · rw [hout b hne] at hb'
      exact hpq b (h.touched b ((hst b hne).trans hb) hb')

theorem Settled.not_registered (h : Settled t a) : t.stateOf a ≠ some .registered := by
  rcases h with h | h <;> simp [h]

theorem loadLocked_spec (hn : t₀.names.Nodup) (hload : ∀ a, t₀.stateOf a ≠ some .loading)
    (room : ℕ) : LoadSpec result t₀ room (loadLocked (fixed result) room) := by
  induction room with
  | zero => exact fun t i m _ _ hroom ↦ absurd hroom (Nat.not_lt_zero _)
  | succ room ih =>
    intro t i m h hm hroom hstack
    have hnt := h.names ▸ hn
    have ha := stateOf_of_getElem? hnt hm
    unfold loadLocked
    simp only [hm]
    cases hs : m.state with
    | ready =>
      rw [hs] at ha
      exact ⟨h, .refl _ t, fun _ ↦ ha, fun hne ↦ absurd rfl hne, by simp [ha]⟩
    | loading =>
      rw [hs] at ha
      refine ⟨h.print (by simp) (by simp), .print _ t _, by simp, fun _ hc ↦ ?_, by simp [ha]⟩
      exact Grounded.not_transGen_self hc (hstack _ ha)
    | failed =>
      rw [hs] at ha
      have hst : t.status m.info.name = some (.failed, m.error) := by
        simp [Table.status, lookup_of_getElem? hnt hm, hs]
      obtain ⟨he, hc⟩ := h.failed _ _ hst
      exact ⟨h, .refl _ t, fun h0 ↦ absurd h0 he, fun _ ↦ hc, by simp [ha]⟩
    | registered =>
      rw [hs] at ha
      have hf : ∀ m : Module, (m.setState .loading).info = m.info := fun _ ↦ rfl
      obtain ⟨m₀, hm₀, hi₀⟩ := h.info_eq hn hm
      have hr₀ : m₀.state = .registered := by
        have := h.registered hload (.inl ha)
        simpa [Table.stateOf, hm₀] using this
      have h₁ := h.enter hn hm hs
      have hself : (t.modify i (Module.setState .loading)).stateOf m.info.name = some .loading := by
        rw [stateOf_modify hnt hm hf, if_pos rfl]
        rfl
      have hstack₁ : ∀ b, (t.modify i (Module.setState .loading)).stateOf b = some .loading →
          ReflTransGen (DependsOn t₀) b m.info.name := by
        intro b hb
        by_cases hne : b = m.info.name
        · exact hne ▸ .refl
        · rw [stateOf_modify hnt hm hf, if_neg hne] at hb
          exact (hstack b hb).to_reflTransGen
      have hdeps := loadDependencies_spec ih m.info.name hm₀ hr₀ m.info.deps []
        (t.modify i (Module.setState .loading)) (by rw [hi₀, nil_append]) (by simp) h₁ hself
        hstack₁ (by have := pending_enter hnt hm hs; omega)
      generalize loadDependencies (loadLocked (fixed result) room) m.info.name m.info.deps
        (t.modify i (Module.setState .loading)) = out at hdeps
      have hclosed : ∀ b, Visits result t₀ m.info.name b → out.1.stateOf b ≠ some .registered := by
        rintro b ⟨m', before, after, hm', -, hsplit, hbefore⟩
        obtain rfl := Option.some.inj (hm₀.symm.trans hm')
        exact hdeps.visited before b after (hi₀ ▸ hsplit) hbefore
      have hno := hdeps.inv.names ▸ hn
      have hloading := hdeps.ext.kept _ _ hself (by simp)
      obtain ⟨m₂, hm₂, hi₂⟩ := getElem?_of_infos (hdeps.inv.infos.trans h.infos.symm) hm
      have hs₂ : m₂.state = .loading := by
        rw [← hi₂, stateOf_of_getElem? hno hm₂] at hloading
        exact Option.some.inj hloading
      dsimp only
      split
      · rename_i hne
        have hff : ∀ m : Module, (m.fail (-1)).info = m.info := fun _ ↦ rfl
        have hnc : ¬ ComesUp result t₀ m.info.name := by
          obtain ⟨d, hd, hdc⟩ := hdeps.failed hne
          exact fun hc ↦ hdc (hc.step ⟨m₀, hm₀, hr₀, hi₀ ▸ hd⟩)
        have hset : Settled (out.1.modify i (Module.fail (-1))) m.info.name := by
          right
          rw [stateOf_modify hno hm₂ hff, hi₂, if_pos rfl]
          rfl
        refine ⟨?_, ?_, by simp, fun _ ↦ hnc, hset.not_registered⟩
        · have hlog : (out.1.modify i (Module.fail (-1))).log = out.1.log ++ [] := by simp
          exact hdeps.inv.settle hloading (infos_modify hff)
            (fun b ↦ (status_modify hno hm₂ hff).trans (by rw [hi₂]; rfl)) hlog
            (.inr ⟨rfl, by simp [Module.fail], hnc⟩) hclosed (.inl ⟨rfl, by simp⟩)
            (by simp [Table.stateOf, hm₀, hr₀])
        · refine Ext.wrap hnt hm hs .refl (fun b hb ↦ hb.to_reflTransGen) hdeps.ext
            (fun b hb ↦ ?_) hset
          rw [stateOf_modify hno hm₂ hff, hi₂, if_neg hb]
      · rename_i heq
        have hstart := startModule_spec hn hdeps.inv hm₂ hs₂ (by rwa [hi₂]) (hi₀.trans hi₂.symm) hr₀
          (by rw [hi₂]; exact hdeps.ready (not_not.mp heq)) (by rwa [hi₂])
        have hsettles := startModule_settles (fixed result) hno hm₂
        rw [hi₂] at hstart hsettles
        obtain ⟨hout, hset, hok⟩ := hsettles
        exact ⟨hstart.1, .wrap hnt hm hs .refl (fun b hb ↦ hb.to_reflTransGen) hdeps.ext hout hset, hok,
          hstart.2, hset.not_registered⟩

end Eris.Modules.Loading
