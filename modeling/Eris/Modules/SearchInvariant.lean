import Eris.Library.Grounding
import Eris.Modules.Lookup

namespace Eris.Modules.Loading

open Relation Library.Grounding List Table

/-- Every `init` has one result, whenever it is called. -/
def fixed (result : ModuleInfo → ℤ) : InitResult := fun _ info ↦ result info

/-- The value of `info->init != nullptr ? info->init() : 0`. -/
def initValue (result : ModuleInfo → ℤ) (info : ModuleInfo) : ℤ :=
  if info.init = none then 0 else result info

variable (result : ModuleInfo → ℤ) (t₀ : Table)

def DependsOn (a b : CString) : Prop :=
  ∃ m, t₀.lookup a = some m ∧ m.state = .registered ∧ b ∈ m.info.deps

def Startable (a : CString) : Prop :=
  ∃ m, t₀.lookup a = some m ∧ (m.state = .ready ∨ m.state = .registered ∧ initValue result m.info = 0)

def ComesUp : CString → Prop := Grounded (DependsOn t₀) (Startable result t₀)

/-- The search goes from `a` to the dependency `b` only when those listed before come up. -/
def Visits (a b : CString) : Prop :=
  ∃ m before after, t₀.lookup a = some m ∧ m.state = .registered ∧
    m.info.deps = before ++ b :: after ∧ ∀ d ∈ before, ComesUp result t₀ d

def Settled (t : Table) (a : CString) : Prop :=
  t.stateOf a = some .ready ∨ t.stateOf a = some .failed

/-- No `init` runs twice, nor before the inits of its dependencies have returned zero. -/
def Ordered (log : List Event) : Prop :=
  ∀ l₁ a r l₂, log = l₁ ++ .initReturned a r :: l₂ → (∀ r', .initReturned a r' ∉ l₁) ∧
    ∀ m, t₀.lookup a = some m → ∀ d ∈ m.info.deps, ∃ m', t₀.lookup d = some m' ∧
      (m'.state = .registered → m'.info.init ≠ none → .initReturned d 0 ∈ l₁)

structure Legal (t : Table) (new : List Event) : Prop where
  shallow : ∀ a, .chainTooDeep a ∉ new
  settled : ∀ a r, .initReturned a r ∈ new → Settled t a
  started : ∀ a m, t₀.lookup a = some m → m.state = .registered → m.info.init ≠ none →
    t.stateOf a = some .ready → .initReturned a 0 ∈ new
  ordered : Ordered t₀ new

/-- What holds of the table at any point of the search that started from `t₀`. -/
structure Inv (t : Table) : Prop where
  infos : t.infos = t₀.infos
  kept : ∀ a s, t₀.stateOf a = some s → s ≠ .registered → t.stateOf a = some s
  ready : ∀ a, t.stateOf a = some .ready → ComesUp result t₀ a
  failed : ∀ a e, t.status a = some (.failed, e) → e ≠ 0 ∧ ¬ ComesUp result t₀ a
  closed : ∀ a b, Settled t a → Visits result t₀ a b → t.stateOf b ≠ some .registered
  log : ∃ new, t.log = t₀.log ++ new ∧ Legal t₀ t new

/-- What a call may change: it settles modules among `touched` and leaves the rest. -/
structure Ext (touched : CString → Prop) (t t' : Table) : Prop where
  kept : ∀ a s, t.stateOf a = some s → s ≠ .registered → t'.stateOf a = some s
  loading : ∀ a, t'.stateOf a = some .loading → t.stateOf a = some .loading
  touched : ∀ a, t.stateOf a = some .registered → t'.stateOf a ≠ some .registered → touched a

def pending (t : Table) : ℕ := (t.names.toFinset.filter fun a ↦ t.stateOf a = some .registered).card

variable {result t₀} {t t' t'' : Table} {i : ℕ} {m : Module} {a b : CString}
  {p q : CString → Prop}

theorem Ext.refl (p : CString → Prop) (t : Table) : Ext p t t :=
  ⟨fun _ _ h _ ↦ h, fun _ h ↦ h, fun _ h h' ↦ absurd h h'⟩

theorem Ext.print (p : CString → Prop) (t : Table) (e : Event) : Ext p t (t.print e) :=
  ⟨fun _ _ h _ ↦ h, fun _ h ↦ h, fun _ h h' ↦ absurd h h'⟩

theorem Ext.trans (h : Ext p t t') (h' : Ext p t' t'') : Ext p t t'' := by
  refine ⟨fun a s ha hs ↦ h'.kept a s (h.kept a s ha hs) hs,
    fun a ha ↦ h.loading a (h'.loading a ha), fun a ha ha' ↦ ?_⟩
  by_cases hr : t'.stateOf a = some .registered
  · exact h'.touched a hr ha'
  · exact h.touched a ha hr

theorem Ext.mono (h : Ext p t t') (hpq : ∀ a, p a → q a) : Ext q t t' :=
  ⟨h.kept, h.loading, fun a ha ha' ↦ hpq a (h.touched a ha ha')⟩

theorem Ext.registered (h : Ext p t t') (ha : t'.stateOf a = some .registered)
    (hn : t'.names = t.names) : t.stateOf a = some .registered := by
  cases hs : t.stateOf a with
  | none =>
    rw [stateOf_eq_none, ← hn, ← stateOf_eq_none, ha] at hs
    cases hs
  | some s =>
    by_contra hne
    have hk := h.kept a s hs (fun h ↦ hne (by rw [h]))
    rw [ha] at hk
    exact hne hk.symm

theorem Ext.pending_le (h : Ext p t t') (hn : t'.names = t.names) : pending t' ≤ pending t := by
  apply Finset.card_le_card
  intro a ha
  simp only [Finset.mem_filter, hn] at ha ⊢
  exact ⟨ha.1, h.registered ha.2 hn⟩

theorem Ordered.snoc {log : List Event} {e : Event} (h : Ordered t₀ log)
    (he : ∀ a r, e = .initReturned a r → (∀ r', .initReturned a r' ∉ log) ∧
      ∀ m, t₀.lookup a = some m → ∀ d ∈ m.info.deps, ∃ m', t₀.lookup d = some m' ∧
        (m'.state = .registered → m'.info.init ≠ none → .initReturned d 0 ∈ log)) :
    Ordered t₀ (log ++ [e]) := by
  intro l₁ a r l₂ hl
  rcases eq_nil_or_concat l₂ with rfl | ⟨l₂, z, rfl⟩
  · obtain ⟨rfl, hz⟩ := append_inj' hl rfl
    exact he a r (singleton_inj.mp hz)
  · have hl' : log ++ [e] = (l₁ ++ .initReturned a r :: l₂) ++ [z] := by simpa using hl
    obtain ⟨hlog, -⟩ := append_inj' hl' rfl
    exact h l₁ a r l₂ hlog

section

variable (h : Inv result t₀ t)

include h

theorem Inv.names : t.names = t₀.names := by
  rw [Table.names, h.infos, Table.names]

theorem Inv.lookup_of_stateOf {s : ModuleState} (ha : t.stateOf a = some s) : ∃ m, t₀.lookup a = some m := by
  cases hm : t₀.lookup a with
  | none =>
    rw [lookup_eq_none, ← h.names, ← stateOf_eq_none, ha] at hm
    cases hm
  | some m => exact ⟨m, rfl⟩

theorem Inv.settled_of_ne (ha : a ∈ t₀.names) (hr : t.stateOf a ≠ some .registered) (hl : t.stateOf a ≠ some .loading) :
    Settled t a := by
  cases hs : t.stateOf a with
  | none => exact absurd (h.names ▸ ha) (stateOf_eq_none.mp hs)
  | some s =>
    cases s with
    | registered => exact absurd hs hr
    | loading => exact absurd hs hl
    | ready => exact .inl hs
    | failed => exact .inr hs

theorem Inv.of_status (hi : t'.infos = t.infos) (hs : ∀ a, t'.status a = t.status a) (hl : t'.log = t.log) :
    Inv result t₀ t' := by
  have hst : ∀ a, t'.stateOf a = t.stateOf a := fun a ↦ by
    rw [stateOf_eq, stateOf_eq, hs]
  obtain ⟨new, hnew, hlegal⟩ := h.log
  refine ⟨hi.trans h.infos, ?_, ?_, ?_, ?_, new, hl.trans hnew, ?_⟩
  · simpa only [hst] using h.kept
  · simpa only [hst] using h.ready
  · simpa only [hs] using h.failed
  · simpa only [Settled, hst] using h.closed
  · refine ⟨hlegal.shallow, ?_, ?_, hlegal.ordered⟩
    · simpa only [Settled, hst] using hlegal.settled
    · simpa only [hst] using hlegal.started

theorem Inv.print {e : Event} (hd : ∀ a, e ≠ .chainTooDeep a) (he : ∀ a r, e ≠ .initReturned a r) :
    Inv result t₀ (t.print e) := by
  obtain ⟨new, hnew, hlegal⟩ := h.log
  refine ⟨h.infos, h.kept, h.ready, h.failed, h.closed, new ++ [e], by simp [hnew], ?_, ?_, ?_, ?_⟩
  · intro a ha
    rcases mem_append.mp ha with ha | ha
    · exact hlegal.shallow a ha
    · exact hd a (mem_singleton.mp ha).symm
  · intro a r ha
    rcases mem_append.mp ha with ha | ha
    · exact hlegal.settled a r ha
    · exact absurd (mem_singleton.mp ha).symm (he a r)
  · intro a m hm hr hi ha
    exact mem_append_left _ (hlegal.started a m hm hr hi ha)
  · exact hlegal.ordered.snoc fun a r h ↦ absurd h (he a r)

theorem Inv.registered (hload : ∀ a, t₀.stateOf a ≠ some .loading)
    (ha : t.stateOf a = some .registered ∨ t.stateOf a = some .loading) : t₀.stateOf a = some .registered := by
  cases hs : t₀.stateOf a with
  | none =>
    rw [stateOf_eq_none, ← h.names, ← stateOf_eq_none] at hs
    simp [hs] at ha
  | some s =>
    by_contra hne
    have hk := h.kept a s hs fun h ↦ hne (by rw [h])
    rcases ha with ha | ha
    · exact hne (hk ▸ ha)
    · exact hload a (hs.trans (hk.symm.trans ha))

theorem Inv.enter (hn : t₀.names.Nodup) (hm : t.live[i]? = some m) (hr : m.state = .registered) :
    Inv result t₀ (t.modify i (Module.setState .loading)) := by
  have hnt := h.names ▸ hn
  have hf : ∀ m : Module, (m.setState .loading).info = m.info := fun _ ↦ rfl
  have ha : t.stateOf m.info.name = some .registered := by
    rw [stateOf_of_getElem? hnt hm, hr]
  have hst (b : CString) : (t.modify i (Module.setState .loading)).stateOf b =
      if b = m.info.name then some .loading else t.stateOf b := stateOf_modify hnt hm hf
  have hstatus (b : CString) : (t.modify i (Module.setState .loading)).status b =
      if b = m.info.name then some (.loading, m.error) else t.status b := status_modify hnt hm hf
  have hset : ∀ b, Settled (t.modify i (Module.setState .loading)) b ↔ Settled t b := by grind [Settled]
  have ⟨hinfos, hkept, hready, hfailed, hclosed, new, hnew, hlegal⟩ := h
  refine ⟨(infos_modify hf).trans hinfos, ?_, ?_, ?_, fun b c hb hc ↦ ?_, new, hnew, hlegal.shallow,
    fun b r hb ↦ (hset b).mpr (hlegal.settled b r hb), ?_, hlegal.ordered⟩
  · grind
  · grind
  · grind
  · have hnot := hclosed b c ((hset b).mp hb) hc
    grind
  · have hstarted := hlegal.started
    grind

/-- A module leaves the search. Its `init` may have been called just before, and then all its
dependencies were ready. -/
theorem Inv.settle {s : ModuleState} {e : ℤ} {events : List Event} (ha : t.stateOf a = some .loading)
    (hi : t'.infos = t.infos) (hs : ∀ b, t'.status b = if b = a then some (s, e) else t.status b)
    (hl : t'.log = t.log ++ events)
    (hup : s = .ready ∧ ComesUp result t₀ a ∨ s = .failed ∧ e ≠ 0 ∧ ¬ ComesUp result t₀ a)
    (hclosed : ∀ b, Visits result t₀ a b → t.stateOf b ≠ some .registered)
    (hevents : events = [] ∧ (s = .ready → ∀ m, t₀.lookup a = some m → m.info.init = none) ∨ ∃ r, events = [.initReturned a r] ∧ (s = .ready → r = 0) ∧ ∀ m, t₀.lookup a = some m → ∀ d ∈ m.info.deps, t.stateOf d = some .ready)
    (hreg : t₀.stateOf a = some .registered) : Inv result t₀ t' := by
  have hst : ∀ b, t'.stateOf b = if b = a then some s else t.stateOf b := by
    intro b
    rw [stateOf_eq, hs, stateOf_eq]
    split <;> rfl
  have hset : Settled t' a := by
    rw [Settled, hst, if_pos rfl]
    rcases hup with ⟨rfl, -⟩ | ⟨rfl, -⟩ <;> simp
  have hsub : ∀ b, Settled t b → Settled t' b := by
    intro b hb
    by_cases hba : b = a
    · exact hba ▸ hset
    · rwa [Settled, hst, if_neg hba]
  have ⟨hinfos, hkept, hready, hfailed, hvisited, new, hnew, hlegal⟩ := h
  refine ⟨hi.trans hinfos, ?_, ?_, ?_, fun b c hb hc ↦ ?_, new ++ events, by simp [hl, hnew], fun b hb ↦ ?_, fun b r hb ↦ ?_,
    fun b m hm hr hinit hb ↦ ?_, ?_⟩
  · grind
  · grind
  · grind
  · have hnot := hvisited b c
    grind [Settled]
  · rcases mem_append.mp hb with hb | hb
    · exact hlegal.shallow b hb
    · rcases hevents with ⟨rfl, -⟩ | ⟨r, rfl, -⟩ <;> simp at hb
  · rcases mem_append.mp hb with hb | hb
    · exact hsub b (hlegal.settled b r hb)
    · rcases hevents with ⟨rfl, -⟩ | ⟨r', rfl, -⟩
      · simp at hb
      · cases mem_singleton.mp hb
        exact hset
  · have hstarted := hlegal.started b m hm hr hinit
    grind
  · rcases hevents with ⟨rfl, -⟩ | ⟨r, rfl, -, hdeps⟩
    · simpa using hlegal.ordered
    · refine hlegal.ordered.snoc fun b r' hb ↦ ?_
      cases hb
      refine ⟨fun r' hr' ↦ ?_, fun m hm d hd ↦ ?_⟩
      · have := hlegal.settled a r' hr'
        simp [Settled, ha] at this
      · have hd' := hdeps m hm d hd
        obtain ⟨m', hm'⟩ := h.lookup_of_stateOf hd'
        exact ⟨m', hm', fun hr' hi' ↦ hlegal.started d m' hm' hr' hi' hd'⟩

end

end Eris.Modules.Loading
