import Eris.Modules.Search

namespace Eris.Modules.Loading

open Relation Library.Grounding List Table

variable {result : ModuleInfo → ℤ} {t₀ t : Table} {a b : CString}

def namesAt (t : Table) (slots : List ℕ) (a : CString) : Prop :=
  ∃ i ∈ slots, t.names[i]? = some a

theorem pending_le (t : Table) : pending t ≤ maxModules := by
  have hlen : t.names.length ≤ maxModules := by
    have := t.fits
    simp only [Table.names, Table.infos, length_map]
    omega
  exact (Finset.card_filter_le _ _).trans ((toFinset_card_le _).trans hlen)

theorem Inv.refl (hfail : ∀ m ∈ t₀.live, m.state = .failed → m.error ≠ 0) :
    Inv result t₀ t₀ := by
  have hnot : ∀ b c, t₀.stateOf b ≠ some .registered → ¬ DependsOn t₀ b c := by
    rintro b c hb ⟨m, hm, hr, -⟩
    exact hb (by simp [Table.stateOf, hm, hr])
  refine ⟨rfl, fun _ _ h _ ↦ h, fun b hb ↦ ?_, fun b e hb ↦ ?_, ?_, [], by simp, ?_⟩
  · obtain ⟨m, hm, hs⟩ := Option.map_eq_some_iff.mp hb
    exact .mk ⟨m, hm, .inl hs⟩ fun c hc ↦ absurd hc (hnot b c (by simp [hb]))
  · obtain ⟨m, hm, hs⟩ := Option.map_eq_some_iff.mp hb
    obtain ⟨hst, rfl⟩ := Prod.mk.inj hs
    refine ⟨hfail m (lookup_mem hm) hst, fun hc ↦ ?_⟩
    obtain ⟨m', hm', hs'⟩ := Grounded.sound hc
    obtain rfl := Option.some.inj (hm.symm.trans hm')
    simp [hst] at hs'
  · rintro b c hb ⟨m, before, after, hm, hr, -⟩
    have : t₀.stateOf b = some .registered := by simp [Table.stateOf, hm, hr]
    simp [Settled, this] at hb
  · refine ⟨by simp, by simp, fun b m hm hr _ hb ↦ ?_, fun l₁ _ _ _ hl ↦ by simp at hl⟩
    simp [Table.stateOf, hm, hr] at hb

/-- A loop over slots. If a round settles the module of its slot when that one is `allowed`, and
touches no more than what it needs, then so does the loop. -/
theorem slots_spec {σ : Type*} (view : σ → Table) (f : σ → ℕ → σ) (allowed : CString → Prop)
    (hround : ∀ s i m, Inv result t₀ (view s) → (∀ a, (view s).stateOf a ≠ some .loading) →
      (view s).live[i]? = some m → Inv result t₀ (view (f s i)) ∧
      Ext (fun b ↦ allowed m.info.name ∧ ReflTransGen (Visits result t₀) m.info.name b) (view s)
        (view (f s i)) ∧ (allowed m.info.name → (view (f s i)).stateOf m.info.name ≠ some .registered))
    (slots : List ℕ) (hslots : ∀ i ∈ slots, i < t₀.registered) (s : σ)
    (h : Inv result t₀ (view s)) (hidle : ∀ a, (view s).stateOf a ≠ some .loading) :
    Inv result t₀ (view (slots.foldl f s)) ∧ Ext (fun b ↦ ∃ a, allowed a ∧ ReflTransGen (Visits result t₀) a b) (view s)
      (view (slots.foldl f s)) ∧
    ∀ a, namesAt t₀ slots a → allowed a → (view (slots.foldl f s)).stateOf a ≠ some .registered := by
  induction slots generalizing s with
  | nil => exact ⟨h, .refl _ _, fun a ⟨i, hi, _⟩ ↦ by simp at hi⟩
  | cons i slots ih =>
    obtain ⟨m, hm⟩ : ∃ m, (view s).live[i]? = some m := by
      have hi := hslots i (by simp)
      have hlen := congrArg List.length h.infos
      simp only [Table.infos, length_map] at hlen
      exact ⟨_, getElem?_eq_getElem (by rw [hlen]; exact hi)⟩
    have hname : t₀.names[i]? = some m.info.name := by
      rw [← h.names]
      simp [Table.names, Table.infos, hm]
    obtain ⟨hinv, hext, hreg⟩ := hround s i m h hidle hm
    obtain ⟨hinv', hext', hreg'⟩ := ih (fun j hj ↦ hslots j (mem_cons_of_mem _ hj)) _ hinv
      fun b hb ↦ hidle b (hext.loading b hb)
    rw [foldl_cons]
    refine ⟨hinv', Ext.trans (hext.mono fun b hb ↦ ⟨_, hb⟩) hext', ?_⟩
    rintro c ⟨j, hj, hc⟩ hallowed hcr
    rcases mem_cons.mp hj with rfl | hj
    · obtain rfl := Option.some.inj (hname.symm.trans hc)
      exact hreg hallowed (hext'.registered hcr (hinv'.names.trans hinv.names.symm))
    · exact hreg' c ⟨j, hj, hc⟩ hallowed hcr

theorem namesAt_range (ha : a ∈ t.names) : namesAt t (List.range t.registered) a := by
  obtain ⟨i, hi⟩ := mem_iff_getElem?.mp ha
  have hlt := (List.getElem?_eq_some_iff.mp hi).1
  refine ⟨i, mem_range.mpr ?_, hi⟩
  simpa [Table.names, Table.infos, Table.registered] using hlt

/-- The name `b` is in the dependency list of the module called `a`. -/
def Lists (t : Table) (a b : CString) : Prop := ∃ m ∈ t.live, m.info.name = a ∧ b ∈ m.info.deps

/-- Every name reached is in the table, no cycle is reached and every `init` reached
returns zero. -/
def Loadable (result : ModuleInfo → ℤ) (t : Table) (a : CString) : Prop :=
  (∀ b, ReflTransGen (Lists t) a b → b ∈ t.names) ∧ (∀ b, ReflTransGen (Lists t) a b → ¬ TransGen (Lists t) b b) ∧
  ∀ m ∈ t.live, ReflTransGen (Lists t) a m.info.name → initValue result m.info = 0

theorem dependsOn_eq_lists (hn : t.names.Nodup) (hreg : ∀ m ∈ t.live, m.state = .registered) :
    DependsOn t = Lists t := by
  funext a b
  apply propext
  constructor
  · rintro ⟨m, hm, -, hb⟩
    exact ⟨m, lookup_mem hm, lookup_name hm, hb⟩
  · rintro ⟨m, hm, rfl, hb⟩
    exact ⟨m, Table.lookup_of_mem hn hm, hreg m hm, hb⟩

theorem comesUp_iff_loadable (hn : t.names.Nodup) (hreg : ∀ m ∈ t.live, m.state = .registered)
    (a : CString) : ComesUp result t a ↔ Loadable result t a := by
  have hstart : ∀ b, Startable result t b ↔
      b ∈ t.names ∧ ∀ m ∈ t.live, m.info.name = b → initValue result m.info = 0 := by
    intro b
    constructor
    · rintro ⟨m, hm, hs⟩
      have hs' : initValue result m.info = 0 := by
        simpa [hreg m (lookup_mem hm)] using hs
      refine ⟨?_, ?_⟩
      · by_contra hb
        rw [← lookup_eq_none, hm] at hb
        cases hb
      · rintro m' hm' rfl
        rw [Table.lookup_of_mem hn hm'] at hm
        cases hm
        exact hs'
    · rintro ⟨hb, hi⟩
      cases hm : t.lookup b with
      | none => exact absurd hb (lookup_eq_none.mp hm)
      | some m =>
        exact ⟨m, hm, .inr ⟨hreg m (lookup_mem hm), hi m (lookup_mem hm) (lookup_name hm)⟩⟩
  have hfin : {b | Startable result t b}.Finite :=
    t.names.finite_toSet.subset fun b hb ↦ ((hstart b).mp hb).1
  rw [ComesUp, grounded_iff hfin, dependsOn_eq_lists hn hreg]
  constructor
  · rintro ⟨hs, hc⟩
    exact ⟨fun b hb ↦ ((hstart b).mp (hs b hb)).1, hc, fun m hm hb ↦ ((hstart _).mp (hs _ hb)).2 m hm rfl⟩
  · rintro ⟨hnames, hc, hinit⟩
    refine ⟨fun b hb ↦ (hstart b).mpr ⟨hnames b hb, ?_⟩, hc⟩
    rintro m hm rfl
    exact hinit m hm hb

theorem stateOf_loadRegistered (result : ModuleInfo → ℤ) (hn : t.names.Nodup) (hreg : ∀ m ∈ t.live, m.state = .registered) :
    Inv result t (loadRegistered (fixed result) t) ∧
    ∀ a ∈ t.names, (ComesUp result t a → (loadRegistered (fixed result) t).stateOf a = some .ready) ∧
      (¬ ComesUp result t a → (loadRegistered (fixed result) t).stateOf a = some .failed) := by
  have hst : ∀ a s, t.stateOf a = some s → s = .registered := by
    intro a s ha
    obtain ⟨m, hm, rfl⟩ := Option.map_eq_some_iff.mp ha
    exact hreg m (lookup_mem hm)
  have hidle : ∀ a, t.stateOf a ≠ some .loading := fun a ha ↦ by simpa using hst a _ ha
  obtain ⟨hinv, hext, hdone⟩ := slots_spec id
    (fun t i ↦ (loadLocked (fixed result) (maxModules + 1) t i).1) (fun _ ↦ True)
    (fun u i m h hi hm ↦ by
      obtain ⟨hinv, hext, -, -, hne⟩ := loadLocked_spec hn hidle (maxModules + 1) u i m h hm
        (Nat.lt_succ_of_le (pending_le u)) fun b hb ↦ absurd hb (hi b)
      exact ⟨hinv, hext.mono fun b hb ↦ ⟨trivial, hb⟩, fun _ ↦ hne⟩)
    (List.range t.registered) (by simp) t (.refl fun m hm hf ↦ by simp [hreg m hm] at hf) hidle
  simp only [id_eq] at hinv hext hdone
  refine ⟨hinv, fun a ha ↦ ?_⟩
  have hstate := hinv.settled_of_ne ha (hdone a (namesAt_range ha) trivial)
    fun h ↦ hidle a (hext.loading a h)
  refine ⟨fun hc ↦ hstate.resolve_right fun hf ↦ ?_, fun hc ↦ hstate.resolve_left fun hr ↦ ?_⟩
  · obtain ⟨m, hm, hs⟩ := Option.map_eq_some_iff.mp hf
    exact (hinv.failed a m.error (by simp [Table.status, hm, hs])).2 hc
  · exact hc (hinv.ready a hr)

theorem lookup_perm {u : Table} (hn : t.names.Nodup) (hp : u.live.Perm t.live) (a : CString) :
    u.lookup a = t.lookup a := by
  have hnames : u.names.Perm t.names := (hp.map _).map _
  cases hm : t.lookup a with
  | none => exact lookup_eq_none.mpr fun h ↦ lookup_eq_none.mp hm (hnames.mem_iff.mp h)
  | some m =>
    rw [← lookup_name hm]
    exact Table.lookup_of_mem (hnames.nodup_iff.mpr hn) (hp.mem_iff.mpr (lookup_mem hm))

theorem comesUp_perm {u : Table} (hn : t.names.Nodup) (hp : u.live.Perm t.live) :
    ComesUp result u = ComesUp result t := by
  have hl := funext (lookup_perm hn hp)
  unfold ComesUp DependsOn Startable
  rw [hl]

/-- The loading loop of `module_init_builtin`, for any table of registered modules with
distinct names and any results of their inits. -/
theorem loadRegistered_correct (result : ModuleInfo → ℤ) (t : Table) (hn : t.names.Nodup)
    (hreg : ∀ m ∈ t.live, m.state = .registered) :
    (loadRegistered (fixed result) t).infos = t.infos ∧
    (∀ m ∈ (loadRegistered (fixed result) t).live, m.state = .ready ∨ m.state = .failed) ∧
    (∀ m ∈ (loadRegistered (fixed result) t).live, m.state = .ready ↔ Loadable result t m.info.name) ∧
    (∀ u : Table, u.live.Perm t.live → ∀ a,
      (loadRegistered (fixed result) u).stateOf a = (loadRegistered (fixed result) t).stateOf a) ∧
    ∃ new, (loadRegistered (fixed result) t).log = t.log ++ new ∧ (∀ a, .chainTooDeep a ∉ new) ∧
      ∀ before a r after, new = before ++ .initReturned a r :: after → (∀ r', .initReturned a r' ∉ before) ∧
        ∀ m ∈ t.live, m.info.name = a → ∀ d ∈ m.info.deps, ∃ m' ∈ t.live, m'.info.name = d ∧
          (m'.info.init ≠ none → .initReturned d 0 ∈ before) := by
  obtain ⟨hinv, hstate⟩ := stateOf_loadRegistered result hn hreg
  have hself : ∀ m ∈ (loadRegistered (fixed result) t).live, m.info.name ∈ t.names ∧
      (loadRegistered (fixed result) t).stateOf m.info.name = some m.state := by
    intro m hm
    obtain ⟨i, hi⟩ := mem_iff_getElem?.mp hm
    rw [← hinv.names]
    exact ⟨mem_map_of_mem (mem_map_of_mem hm), stateOf_of_getElem? (hinv.names ▸ hn) hi⟩
  refine ⟨hinv.infos, fun m hm ↦ ?_, fun m hm ↦ ?_, fun u hu a ↦ ?_, ?_⟩
  · obtain ⟨ha, hs⟩ := hself m hm
    by_cases hc : ComesUp result t m.info.name
    · exact .inl (Option.some.inj (hs.symm.trans ((hstate _ ha).1 hc)))
    · exact .inr (Option.some.inj (hs.symm.trans ((hstate _ ha).2 hc)))
  · obtain ⟨ha, hs⟩ := hself m hm
    rw [← comesUp_iff_loadable hn hreg]
    constructor
    · intro hr
      exact hinv.ready _ (hr ▸ hs)
    · intro hc
      exact Option.some.inj (hs.symm.trans ((hstate _ ha).1 hc))
  · have hnu := ((hu.map _).map _).nodup_iff.mpr hn
    obtain ⟨hinvu, hstateu⟩ := stateOf_loadRegistered result hnu
      fun m hm ↦ hreg m (hu.mem_iff.mp hm)
    have hmem : a ∈ u.names ↔ a ∈ t.names := ((hu.map _).map _).mem_iff
    rw [comesUp_perm hn hu] at hstateu
    by_cases ha : a ∈ t.names
    · by_cases hc : ComesUp result t a
      · rw [(hstateu a (hmem.mpr ha)).1 hc, (hstate a ha).1 hc]
      · rw [(hstateu a (hmem.mpr ha)).2 hc, (hstate a ha).2 hc]
    · have ht : a ∉ (loadRegistered (fixed result) t).names := by rwa [hinv.names]
      have hu' : a ∉ (loadRegistered (fixed result) u).names := by rwa [hinvu.names, hmem]
      rw [stateOf_eq_none.mpr ht, stateOf_eq_none.mpr hu']
  · obtain ⟨new, hnew, hlegal⟩ := hinv.log
    refine ⟨new, hnew, hlegal.shallow, fun before a r after hl ↦ ?_⟩
    obtain ⟨honce, hdeps⟩ := hlegal.ordered before a r after hl
    refine ⟨honce, ?_⟩
    rintro m hm rfl d hd
    obtain ⟨m', hm', hinit⟩ := hdeps m (Table.lookup_of_mem hn hm) d hd
    exact ⟨m', lookup_mem hm', lookup_name hm', hinit (hreg m' (lookup_mem hm'))⟩

/-- A diamond, a module that depends on itself and one that names nothing in the table. -/
def diamond : Table :=
  [plainInfo "a" ["b", "c", "b"], plainInfo "b" ["d"], plainInfo "c" ["d"], plainInfo "d" [],
    plainInfo "e" ["e"], plainInfo "f" ["g"]].foldl registerBuiltin Table.empty

theorem loadRegistered_correct_diamond :
    (diamond.names.Nodup ∧ ∀ m ∈ diamond.live, m.state = .registered) ∧
    (∀ m ∈ (loadRegistered (fixed fun _ ↦ 0) diamond).live, m.state = .ready ∨ m.state = .failed) ∧
    ∀ m ∈ (loadRegistered (fixed fun _ ↦ 0) diamond).live,
      m.state = .ready ↔ Loadable (fun _ ↦ 0) diamond m.info.name := by
  have h := loadRegistered_correct (fun _ ↦ 0) diamond (by decide) (by decide)
  exact ⟨⟨by decide, by decide⟩, h.2.1, h.2.2.1⟩

end Eris.Modules.Loading
