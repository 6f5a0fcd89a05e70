import Eris.Boot.Cmdline
import Eris.Loader.Lifecycle
import Eris.Modules.LoadOrder

namespace Eris.Boot

open Relation Library.Outcome Loader Modules Modules.Loading Table

/-- A file of the archive. -/
structure File where
  name : CString
  data : Image

def loadFile (code : Code) (k : Kernel) (file : File) : Except Fault Kernel :=
  if file.data = [] ∨ ¬ (cstring "modules/").isPrefixOf file.name then .ok k
  else do
    let (k, _) ← moduleLoadImage code file.data k
    return k

def loadFiles (code : Code) (files : List File) (k : Kernel) : Except Fault Kernel :=
  files.foldlM (loadFile code) k

def startSlot (drivers : Drivers) (line : CString) (k : Kernel) (i : ℕ) : Kernel :=
  match k.modules.live[i]? with
  | none => k
  | some m =>
    if m.state ≠ .registered then k
    else if blacklisted line m.info.name then
      { k with modules := k.modules.print (.blacklisted m.info.name) }
    else (k.moduleLoad drivers m.info.name).1

def startModules (drivers : Drivers) (line : CString) (k : Kernel) : Kernel :=
  (List.range k.modules.registered).foldl (startSlot drivers line) k

def loadInitrdModules (code : Code) (drivers : Drivers) (line : CString) (files : Option (List File))
    (k : Kernel) : Except Fault Kernel :=
  match files with
  | none => .ok k
  | some files =>
    if cmdlineHas (cstring "modules.noload") line then .ok k
    else do
      let k ← loadFiles code files k
      return startModules drivers line k

variable {result : ModuleInfo → ℤ} {drivers : Drivers} {line : CString} {t₀ : Table} {k : Kernel}
  {i : ℕ} {m : Module} {a b : CString}

def Allowed (line : CString) (t : Table) (a : CString) : Prop :=
  t.stateOf a = some .registered ∧ blacklisted line a = false

theorem startSlot_spec (hr : drivers.result = fixed result) (hn : t₀.names.Nodup)
    (hload : ∀ a, t₀.stateOf a ≠ some .loading) (h : Inv result t₀ k.modules)
    (hidle : ∀ a, k.modules.stateOf a ≠ some .loading) (hm : k.modules.live[i]? = some m) :
    Inv result t₀ (startSlot drivers line k i).modules ∧
      Ext (fun b ↦ Allowed line t₀ m.info.name ∧ ReflTransGen (Visits result t₀) m.info.name b)
        k.modules (startSlot drivers line k i).modules ∧ (Allowed line t₀ m.info.name →
        (startSlot drivers line k i).modules.stateOf m.info.name ≠ some .registered) := by
  have hnk := h.names ▸ hn
  have hst := stateOf_of_getElem? hnk hm
  unfold startSlot
  simp only [hm]
  split
  · rename_i hs
    refine ⟨h, .refl _ _, fun _ hreg ↦ hs ?_⟩
    exact Option.some.inj (hst.symm.trans hreg)
  · rename_i hs
    rw [not_not] at hs
    rw [hs] at hst
    split
    · rename_i hb
      refine ⟨h.print nofun nofun, .print _ _ _, fun ⟨_, hnot⟩ ↦ ?_⟩
      rw [hb] at hnot
      cases hnot
    · rename_i hb
      have hallowed : Allowed line t₀ m.info.name := ⟨h.registered hload (.inl hst), by simpa using hb⟩
      have hrun : (k.moduleLoad drivers m.info.name).1.modules =
          (loadLocked (fixed result) (maxModules + 1) k.modules i).1 := by
        simp only [Kernel.moduleLoad, moduleLoad, find_of_getElem? hnk hm, hr]
      obtain ⟨hinv, hext, -, -, hreg⟩ := loadLocked_spec hn hload (maxModules + 1) k.modules i m h hm
        (Nat.lt_succ_of_le (pending_le k.modules)) fun b hb ↦ absurd hb (hidle b)
      rw [hrun]
      exact ⟨hinv, hext.mono fun b hv ↦ ⟨hallowed, hv⟩, fun _ ↦ hreg⟩

def Spares (line : CString) (t t' : Table) : Prop :=
  ∀ b, t.stateOf b = some .registered → Blacklists line b →
    t'.stateOf b = some .registered ∧ ∀ r, .initReturned b r ∉ t'.log.drop t.log.length

def Drags (result : ModuleInfo → ℤ) (line : CString) (t : Table) : Prop :=
  ∃ a b, Allowed line t a ∧ t.stateOf b = some .registered ∧ Blacklists line b ∧ ReflTransGen (Visits result t) a b

theorem startModules_spec (line : CString) (hr : drivers.result = fixed result) (hn : k.modules.names.Nodup)
    (hload : ∀ a, k.modules.stateOf a ≠ some .loading)
    (hfail : ∀ m ∈ k.modules.live, m.state = .failed → m.error ≠ 0) :
    Inv result k.modules (startModules drivers line k).modules ∧
      Ext (fun b ↦ ∃ a, Allowed line k.modules a ∧ ReflTransGen (Visits result k.modules) a b)
        k.modules (startModules drivers line k).modules ∧ ∀ a, Allowed line k.modules a →
        (startModules drivers line k).modules.stateOf a ≠ some .registered := by
  obtain ⟨hinv, hext, hdone⟩ := slots_spec Kernel.modules (startSlot drivers line)
    (Allowed line k.modules) (fun k' i m ↦ startSlot_spec hr hn hload)
    (List.range k.modules.registered) (by simp) k (.refl hfail) hload
  refine ⟨hinv, hext, fun a ha ↦ hdone a (namesAt_range ?_) ha⟩
  exact of_not_not fun hnot ↦ by simp [Allowed, stateOf_eq_none.mpr hnot] at ha

theorem not_registered_of_visits {t : Table} (h : Inv result t₀ t)
    (hidle : ∀ a, t.stateOf a ≠ some .loading) (ha : t.stateOf a ≠ some .registered)
    (hab : ReflTransGen (Visits result t₀) a b) : t.stateOf b ≠ some .registered := by
  induction hab with
  | refl => exact ha
  | @tail c d hac hcd ih =>
    have hc : c ∈ t₀.names := by
      obtain ⟨m, -, -, hm, -⟩ := hcd
      exact of_not_not fun hnot ↦ by simp [lookup_eq_none.mpr hnot] at hm
    exact h.closed c d (h.settled_of_ne hc ih (hidle c)) hcd

theorem startModules_spares_iff (line : CString) (hr : drivers.result = fixed result)
    (hn : k.modules.names.Nodup) (hload : ∀ a, k.modules.stateOf a ≠ some .loading)
    (hfail : ∀ m ∈ k.modules.live, m.state = .failed → m.error ≠ 0) :
    Spares line k.modules (startModules drivers line k).modules ↔ ¬ Drags result line k.modules := by
  obtain ⟨hinv, hext, hdone⟩ := startModules_spec line hr hn hload hfail
  constructor
  · rintro hspares ⟨a, b, ha, hb, hlist, hab⟩
    refine not_registered_of_visits hinv (fun c hc ↦ hload c (hext.loading c hc)) (hdone a ha) hab ?_
    exact (hspares b hb hlist).1
  · intro hdrags b hb hlist
    have hstill : (startModules drivers line k).modules.stateOf b = some .registered := by
      by_contra hne
      obtain ⟨a, ha, hab⟩ := hext.touched b hb hne
      exact hdrags ⟨a, b, ha, hb, hlist, hab⟩
    refine ⟨hstill, fun r hmem ↦ ?_⟩
    obtain ⟨new, hnew, hlegal⟩ := hinv.log
    rw [hnew, List.drop_left] at hmem
    rcases hlegal.settled b r hmem with h | h <;> simp [hstill] at h

/-- Whatever the files left in the table, a module on the list is spared unless one that is
not on it needs it. -/
theorem loadInitrdModules_spares_iff {code : Code} {files : List File} {k₁ : Kernel}
    (hfiles : loadFiles code files k = .ok k₁)
    (hline : cmdlineHas (cstring "modules.noload") line = false)
    (hr : drivers.result = fixed result) (hn : k₁.modules.names.Nodup)
    (hload : ∀ a, k₁.modules.stateOf a ≠ some .loading)
    (hfail : ∀ m ∈ k₁.modules.live, m.state = .failed → m.error ≠ 0) :
    (∃ k', loadInitrdModules code drivers line (some files) k = .ok k' ∧ Spares line k₁.modules k'.modules) ↔
      ¬ Drags result line k₁.modules := by
  have hrun : loadInitrdModules code drivers line (some files) k = .ok (startModules drivers line k₁) := by
    simp only [loadInitrdModules, hline, hfiles]
    rfl
  rw [hrun, ← startModules_spares_iff line hr hn hload hfail]
  constructor
  · rintro ⟨k', hk', hspares⟩
    cases hk'
    exact hspares
  · exact fun hspares ↦ ⟨_, rfl, hspares⟩

def twoModules : Kernel :=
  { blankKernel (· < 2) [] with
    modules := [plainInfo "alpha" [], plainInfo "beta" []].foldl registerBuiltin Table.empty }

theorem not_drags_twoModules : ¬ Drags (fun _ ↦ 0) (cstring "modules.blacklist=beta") twoModules.modules := by
  rintro ⟨a, b, ha, -, hb, hab⟩
  have hnot := (blacklisted_iff hb.1).mpr hb
  cases hab.cases_head with
  | inl h =>
    rw [← h, ha.2] at hnot
    cases hnot
  | inr h =>
    obtain ⟨c, ⟨m, before, after, hm, -, hdeps, -⟩, -⟩ := h
    have hnone : ∀ m ∈ twoModules.modules.live, m.info.deps = [] := by decide
    simp [hnone m (lookup_mem hm)] at hdeps

theorem loadInitrdModules_spares_iff_twoModules :
    ∃ k', loadInitrdModules .idle .idle (cstring "modules.blacklist=beta") (some []) twoModules = .ok k' ∧
      Spares (cstring "modules.blacklist=beta") twoModules.modules k'.modules := by
  have hstates : ∀ m ∈ twoModules.modules.live, m.state = .registered := by decide
  have hr : Drivers.idle.result = fixed fun _ ↦ 0 := rfl
  have hfiles : loadFiles .idle [] twoModules = .ok twoModules := rfl
  refine (loadInitrdModules_spares_iff hfiles (by decide) hr (by decide) ?_ ?_).mpr
    not_drags_twoModules
  · intro a ha
    obtain ⟨m, hm, hs⟩ := Option.map_eq_some_iff.mp ha
    rw [hstates m (lookup_mem hm)] at hs
    cases hs
  · intro m hm hs
    rw [hstates m hm] at hs
    cases hs

def dragFiles : List File :=
  [⟨cstring "modules/alpha", object (moduleSections "alpha" ["beta"] [] [])⟩,
    ⟨cstring "modules/beta", object (moduleSections "beta" [] [] [])⟩]

/-- The `init` of `beta` runs although the list names it. -/
theorem loadInitrdModules_not_spares :
    ∃ k₁ k', loadFiles .idle dragFiles (blankKernel (· < 2) []) = .ok k₁ ∧
      loadInitrdModules .idle .idle (cstring "modules.blacklist=beta") (some dragFiles)
        (blankKernel (· < 2) []) = .ok k' ∧ .initReturned (cstring "beta") 0 ∈ k'.modules.log ∧
      ¬ Spares (cstring "modules.blacklist=beta") k₁.modules k'.modules := by
  have hrun : okWith (fun k₁ : Kernel ↦ k₁.modules.stateOf (cstring "beta") = some .registered ∧
      .initReturned (cstring "beta") 0 ∈ (startModules .idle (cstring "modules.blacklist=beta") k₁).modules.log ∧
      (startModules .idle (cstring "modules.blacklist=beta") k₁).modules.stateOf (cstring "beta") =
        some .ready) (loadFiles .idle dragFiles (blankKernel (· < 2) [])) = true := by
    decide +kernel
  obtain ⟨k₁, hfiles, h⟩ := of_okWith hrun
  simp only [decide_eq_true_eq] at h
  obtain ⟨hreg, hran, hready⟩ := h
  refine ⟨k₁, _, hfiles, ?_, hran, fun hspares ↦ ?_⟩
  · have hline : cmdlineHas (cstring "modules.noload") (cstring "modules.blacklist=beta") = false := by
      decide
    simp only [loadInitrdModules, hline, hfiles]
    rfl
  · have hlist : Blacklists (cstring "modules.blacklist=beta") (cstring "beta") :=
      (blacklisted_iff (by decide)).mp (by decide)
    have hstill := (hspares (cstring "beta") hreg hlist).1
    exact absurd (hstill.symm.trans hready) (by simp)

end Eris.Boot
