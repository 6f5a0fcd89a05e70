import Eris.Mm.Rights

/-!
The kernel's address space and those of the processes in one memory. A process shares the tables
behind the kernel's first top level entry and has the others for itself.
-/

namespace Eris.Mm.Memory

open Library.Radix

variable {m m' : Memory} {ps : List ℕ} {r r' a d p f : ℕ}

def Table (m : Memory) (ps : List ℕ) (f : ℕ) : Prop := m.IsTable f ∨ ∃ r ∈ ps, m.Private r f

def Data (m : Memory) (ps : List ℕ) (f : ℕ) : Prop := m.frames.bitmap f = true ∧ ¬ m.Table ps f

structure Spaces (m : Memory) (ps : List ℕ) : Prop where
  wf : m.Wf
  gate : (m.entry m.root 0).link ∧ (m.entry m.root 0).user = false
  view : ∀ r ∈ ps, (m.under r).Wf
  shared : ∀ r ∈ ps, m.entry r 0 = m.entry m.root 0
  own : ∀ r ∈ ps, ∀ f, m.Private r f → ¬ m.IsTable f
  apart : ∀ r ∈ ps, ∀ r' ∈ ps, r ≠ r' → ∀ f, m.Private r f → ¬ m.Private r' f
  small : ∀ r ∈ ps, ∀ a, indexOf a 3 ≠ 0 → ¬ (m.under r).InHuge a
  data : ∀ r ∈ ps, ∀ a, indexOf a 3 ≠ 0 → ((m.under r).leaf a).present = true → m.Data ps ((m.under r).leaf a).frame

section

variable (h : ∀ f, m.Private r f → ∀ i, m'.entry f i = m.entry f i)

include h

theorem tableAt_of_private (hd : d ≤ 3) (hp : Outer d p) : (m'.under r).tableAt d p = (m.under r).tableAt d p := by
  induction d generalizing p with
  | zero => rfl
  | succ d ih =>
    have hprev : Outer d (p / entriesPerTable) := by
      cases d with
      | zero => exact .inl rfl
      | succ d =>
        refine .inr ?_
        rcases hp with hp | hp
        · cases hp
        · rw [Nat.le_div_iff_mul_le (by decide), ← Nat.pow_succ]
          exact hp
    rw [tableAt, node, ← tableAt, ih (by omega) hprev]
    conv_rhs => rw [tableAt, node, ← tableAt]
    cases hf : (m.under r).tableAt d (p / entriesPerTable) with
    | none => rfl
    | some f =>
      have hchild : m'.child f = m.child f := by
        funext i
        simp only [child, h f ⟨d, by omega, _, hf, hprev⟩]
      simp only [Option.bind_some, under_child, hchild]

theorem private_of_private : m'.Private r f ↔ m.Private r f :=
  exists_congr fun _ ↦ and_congr_right fun hd ↦ exists_congr fun _ ↦
    ⟨fun ⟨ht, hp⟩ ↦ ⟨(tableAt_of_private h hd hp).symm.trans ht, hp⟩,
      fun ⟨ht, hp⟩ ↦ ⟨(tableAt_of_private h hd hp).trans ht, hp⟩⟩

theorem onPath_of_private (hd : d ≤ 3) (ha : indexOf a 3 ≠ 0) : (m'.under r).onPath d a = (m.under r).onPath d a := by
  have hp := outer_pathTo ha (show d ≤ 4 by omega)
  unfold onPath
  rw [tableAt_of_private h hd hp]
  cases hf : (m.under r).tableAt d (pathTo a d) with
  | none => rfl
  | some f => exact h f ⟨d, hd, _, hf, hp⟩ _

end

theorem Spaces.taken (h : Spaces m ps) (hf : m.Table ps f) : m.frames.bitmap f = true := by
  rcases hf with hf | ⟨r, hr, hf⟩
  · exact (h.wf.taken f hf).2
  · exact ((h.view r hr).taken f hf.isTable).2

theorem Spaces.congr (h : Spaces m ps) (hroot : m'.root = m.root) (hlow : m'.frames.bitmap 0 = true)
    (hentry : ∀ f, m.Table ps f → ∀ i, m'.entry f i = m.entry f i)
    (htable : ∀ f, m.Table ps f → m'.frames.bitmap f = true)
    (hdata : ∀ r ∈ ps, ∀ a, indexOf a 3 ≠ 0 → ((m.under r).leaf a).present = true →
      m'.frames.bitmap ((m.under r).leaf a).frame = true) :
    Spaces m' ps ∧ (∀ r ∈ m.root :: ps, Kept (m.under r) (m'.under r)) ∧ ∀ f, m'.Table ps f → m.Table ps f := by
  have hkept : Kept m m' := ⟨hroot, fun f hf ↦ hentry f (.inl hf)⟩
  have hprivate : ∀ r ∈ ps, ∀ f, m.Private r f → ∀ i, m'.entry f i = m.entry f i := fun r hr f hf ↦
    hentry f (.inr ⟨r, hr, hf⟩)
  have hview : ∀ r ∈ ps, Kept (m.under r) (m'.under r) := fun r hr ↦
    ⟨rfl, fun f hf ↦ hentry f (hf.private_or (h.shared r hr) |>.elim (fun hf ↦ .inr ⟨r, hr, hf⟩) .inl)⟩
  have htables : ∀ f, m'.Table ps f → m.Table ps f := fun f hf ↦ hf.imp hkept.isTable.mp
    fun ⟨r, hr, hf⟩ ↦ ⟨r, hr, (private_of_private (hprivate r hr)).mp hf⟩
  have hzero : m'.entry m'.root 0 = m.entry m.root 0 := by
    rw [hroot]
    exact hentry m.root (.inl ⟨0, by omega, 0, tableAt_zero_eq_some.mpr ⟨rfl, rfl⟩⟩) 0
  refine ⟨⟨hkept.wf h.wf hlow fun f hf ↦ htable f (.inl hf), by rw [hzero]; exact h.gate, fun r hr ↦ ?_,
    fun r hr ↦ ?_, fun r hr f hf hk ↦ ?_, fun r hr r' hr' hne f hf hf' ↦ ?_, fun r hr a ha ↦ ?_,
    fun r hr a ha hpres ↦ ?_⟩, ?_, htables⟩
  · refine (hview r hr).wf (h.view r hr) hlow fun f hf ↦ ?_
    exact htable f (hf.private_or (h.shared r hr) |>.elim (fun hf ↦ .inr ⟨r, hr, hf⟩) .inl)
  · have hr0 := hentry r (.inr ⟨r, hr, 0, by omega, 0, tableAt_zero_eq_some.mpr ⟨rfl, rfl⟩, .inl rfl⟩) 0
    rw [hr0, hzero]
    exact h.shared r hr
  · exact h.own r hr f ((private_of_private (hprivate r hr)).mp hf) (hkept.isTable.mp hk)
  · exact h.apart r hr r' hr' hne f ((private_of_private (hprivate r hr)).mp hf)
      ((private_of_private (hprivate r' hr')).mp hf')
  · rw [InHuge, (hview r hr).onPath (by omega)]
    exact h.small r hr a ha
  · rw [(hview r hr).leaf] at hpres ⊢
    exact ⟨hdata r hr a ha hpres, fun hf ↦ (h.data r hr a ha hpres).2 (htables _ hf)⟩
  · intro r hr
    rcases List.mem_cons.mp hr with rfl | hr
    · exact ⟨rfl, fun f hf ↦ hentry f (.inl hf)⟩
    · exact hview r hr

theorem root_isTable (m : Memory) : m.IsTable m.root := ⟨0, by omega, 0, tableAt_zero_eq_some.mpr ⟨rfl, rfl⟩⟩

theorem root_private (m : Memory) (r : ℕ) : m.Private r r :=
  ⟨0, by omega, 0, tableAt_zero_eq_some.mpr ⟨rfl, rfl⟩, .inl rfl⟩

variable {S W : Set ℕ} {user : Bool}

theorem Spaces.kernel (h : Spaces m ps) (he : Edit m m' S W false) : Spaces m' ps := by
  have hzero : m'.entry m'.root 0 = m.entry m.root 0 := by
    have hlink := he.links 0 (by omega) 0
    exact (hlink h.gate.1).resolve_right fun hu ↦ by cases hu.1
  have hprivate : ∀ r ∈ ps, ∀ f, m.Private r f → ∀ i, m'.entry f i = m.entry f i := by
    intro r hr f hf i
    refine (he.touched f (h.taken (.inr ⟨r, hr, hf⟩)) i).resolve_right ?_
    rintro ⟨c, hc, d, hd, hcf, -⟩
    exact h.own r hr f hf ⟨d, hd, _, hcf⟩
  have hiff : ∀ r ∈ ps, ∀ f, m'.Private r f ↔ m.Private r f := fun r hr f ↦ private_of_private (hprivate r hr)
  have hshared : ∀ r ∈ ps, m'.entry r 0 = m'.entry m'.root 0 := fun r hr ↦ by
    rw [hprivate r hr r (m.root_private r) 0, hzero]
    exact h.shared r hr
  have hnew : ∀ f, m.frames.bitmap f = true → m'.IsTable f → m.IsTable f := fun f hf ht ↦
    (he.grow.fresh f ht).resolve_right fun hfree ↦ by rw [hf] at hfree; cases hfree
  have hown : ∀ r ∈ ps, ∀ f, m.Private r f → ¬ m'.IsTable f := fun r hr f hf ht ↦
    h.own r hr f hf (hnew f (h.taken (.inr ⟨r, hr, hf⟩)) ht)
  -- a table of a process is one of its own, as before, or a table of the kernel
  have hcases : ∀ r ∈ ps, ∀ d ≤ 3, ∀ p f, (m'.under r).tableAt d p = some f →
      (m.Private r f ∧ (m.under r).tableAt d p = some f) ∨ m'.tableAt d p = some f := by
    intro r hr d hd p f hf
    by_cases hp : Outer d p
    · have hold := (tableAt_of_private (hprivate r hr) hd hp).symm.trans hf
      exact .inl ⟨⟨d, hd, p, hold, hp⟩, hold⟩
    · cases d with
      | zero => exact absurd (.inl rfl) hp
      | succ d =>
        have hlt := Nat.lt_of_not_le fun hle ↦ hp (.inr hle)
        exact .inr ((tableAt_under_zero (hshared r hr) hlt).symm.trans hf)
  refine ⟨he.grow.wf, by rw [hzero]; exact h.gate, fun r hr ↦ ⟨fun d p d' p' f hd hd' hf hf' ↦ ?_, ?_,
    he.grow.wf.low, fun d hd p f i hf ↦ ?_⟩, hshared, fun r hr f hf ↦ hown r hr f ((hiff r hr f).mp hf),
    fun r hr r' hr' hne f hf hf' ↦ h.apart r hr r' hr' hne f ((hiff r hr f).mp hf) ((hiff r' hr' f).mp hf'),
    fun r hr a ha ↦ ?_, fun r hr a ha hpres ↦ ?_⟩
  · rcases hcases r hr d hd p f hf with ⟨hpriv, hold⟩ | hk
    · rcases hcases r hr d' hd' p' f hf' with ⟨-, hold'⟩ | hk'
      · exact (h.view r hr).separated hd hd' hold hold'
      · exact absurd ⟨d', hd', p', hk'⟩ (hown r hr f hpriv)
    · rcases hcases r hr d' hd' p' f hf' with ⟨hpriv, -⟩ | hk'
      · exact absurd ⟨d, hd, p, hk⟩ (hown r hr f hpriv)
      · exact he.grow.wf.separated hd hd' hk hk'
  · rintro f ⟨d, hd, p, hf⟩
    rcases hcases r hr d hd p f hf with ⟨hpriv, hold⟩ | hk
    · obtain ⟨hlt, hused⟩ := (h.view r hr).taken f ⟨d, hd, p, hold⟩
      exact ⟨hlt, he.grow.used f hused⟩
    · exact he.grow.wf.taken f ⟨d, hd, p, hk⟩
  · rcases hcases r hr d (by omega) p f hf with ⟨hpriv, hold⟩ | hk
    · rw [under_entry, hprivate r hr f hpriv]
      exact (h.view r hr).flat d hd p f i hold
    · exact he.grow.wf.flat d hd p f i hk
  · rw [InHuge, onPath_of_private (hprivate r hr) (by omega) ha]
    exact h.small r hr a ha
  · have hleaf := leaf_eq_of_onPath (onPath_of_private (hprivate r hr) (by omega) ha)
        (onPath_of_private (hprivate r hr) le_rfl ha)
    rw [hleaf] at hpres ⊢
    obtain ⟨hused, hnot⟩ := h.data r hr a ha hpres
    refine ⟨he.grow.used _ hused, fun ht ↦ hnot ?_⟩
    rcases ht with ht | ⟨r', hr', hf⟩
    · exact .inl (hnew _ hused ht)
    · exact .inr ⟨r', hr', (hiff r' hr' _).mp hf⟩

theorem Spaces.process (h : Spaces m ps) (hr : r ∈ ps) (he : Edit (m.under r) m' S W user)
    (hS : ∀ c ∈ S, indexOf c 3 ≠ 0)
    (hdata : ∀ a, indexOf a 3 ≠ 0 → (m'.leaf a).present = true → m.Data ps (m'.leaf a).frame) :
    Spaces (m'.under m.root) ps ∧ Kept m (m'.under m.root) ∧ ∀ r' ∈ ps, r' ≠ r → Kept (m.under r') (m'.under r') := by
  have hroot : m'.root = r := he.grow.root
  have hself : m'.under r = m' := by rw [← hroot]; rfl
  have htouched : ∀ f, m.frames.bitmap f = true → ¬ m.Private r f → ∀ i, m'.entry f i = m.entry f i := by
    intro f hused hnot i
    refine (he.touched f hused i).resolve_right ?_
    rintro ⟨c, hc, d, hd, hcf, -⟩
    exact hnot ⟨d, hd, _, hcf, outer_pathTo (hS c hc) (by omega)⟩
  have hkernel : Kept m (m'.under m.root) := ⟨rfl, fun f hf ↦
    htouched f (h.wf.taken f hf).2 fun hpriv ↦ h.own r hr f hpriv hf⟩
  have hothers : ∀ r' ∈ ps, r' ≠ r → ∀ f, m.Private r' f → ∀ i, m'.entry f i = m.entry f i :=
    fun r' hr' hne f hf ↦ htouched f (h.taken (.inr ⟨r', hr', hf⟩)) fun hpriv ↦ h.apart r' hr' r hr hne f hf hpriv
  have hview : ∀ r' ∈ ps, r' ≠ r → Kept (m.under r') (m'.under r') := fun r' hr' hne ↦
    ⟨rfl, fun f hf ↦ (hf.private_or (h.shared r' hr')).elim (hothers r' hr' hne f) (hkernel.entries f)⟩
  have hprivate : ∀ r' ∈ ps, ∀ f, m'.Private r' f → m.Private r' f ∨ r' = r ∧ m.frames.bitmap f = false := by
    intro r' hr' f hf
    by_cases hne : r' = r
    · subst hne
      obtain ⟨d, hd, p, hf, hp⟩ := hf
      rw [hself] at hf
      cases hused : m.frames.bitmap f with
      | false => exact .inr ⟨rfl, rfl⟩
      | true => exact .inl ⟨d, hd, p, he.grow.tableAt_of_used hd hused hf, hp⟩
    · exact .inl ((private_of_private (hothers r' hr' hne)).mp hf)
  have hfree : ∀ f, m.Table ps f → m.frames.bitmap f ≠ false := fun f hf hfree ↦ by
    rw [h.taken hf] at hfree
    cases hfree
  have htable : ∀ f, m.frames.bitmap f = true → (m'.under m.root).Table ps f → m.Table ps f := by
    rintro f hused (hf | ⟨r', hr', hf⟩)
    · exact .inl (hkernel.isTable.mp hf)
    · exact .inr ⟨r', hr', (hprivate r' hr' f hf).resolve_right (by simp [hused])⟩
  have hzero : m'.entry m.root 0 = m.entry m.root 0 := hkernel.entries m.root m.root_isTable 0
  have hstay : ∀ f, m.Data ps f → (m'.under m.root).Data ps f := fun f hf ↦
    ⟨he.grow.used f hf.1, fun ht ↦ hf.2 (htable f hf.1 ht)⟩
  refine ⟨⟨hkernel.wf h.wf he.grow.wf.low fun f hf ↦ he.grow.used f (h.wf.taken f hf).2, ?_, fun r' hr' ↦ ?_,
    fun r' hr' ↦ ?_, fun r' hr' f hf hk ↦ ?_, fun r₁ hr₁ r₂ hr₂ hne f hf₁ hf₂ ↦ ?_, fun r' hr' a ha ↦ ?_,
    fun r' hr' a ha hpres ↦ ?_⟩, hkernel, hview⟩
  · rw [under_root, under_entry, hzero]
    exact h.gate
  · by_cases hne : r' = r
    · subst hne
      rw [under_under, hself]
      exact he.grow.wf
    · refine (hview r' hr' hne).wf (h.view r' hr') he.grow.wf.low fun f hf ↦ he.grow.used f ?_
      exact ((h.view r' hr').taken f hf).2
  · rw [under_entry, under_root, under_entry, hzero, ← h.shared r' hr']
    by_cases hne : r' = r
    · subst hne
      refine (he.touched r' ((h.view r' hr').taken r' (m.root_private r').isTable).2 0).resolve_right ?_
      rintro ⟨c, hc, d, hd, hcf, hi⟩
      have hd0 := ((h.view r' hr').separated hd (by omega) hcf (tableAt_zero _ 0)).1
      subst hd0
      exact hS c hc hi.symm
    · exact hothers r' hr' hne r' (m.root_private r') 0
  · rw [hkernel.isTable] at hk
    rcases hprivate r' hr' f hf with hf | ⟨-, hnone⟩
    · exact h.own r' hr' f hf hk
    · exact hfree f (.inl hk) hnone
  · rcases hprivate r₁ hr₁ f hf₁ with hf₁ | ⟨rfl, hnone⟩
    · rcases hprivate r₂ hr₂ f hf₂ with hf₂ | ⟨-, hnone⟩
      · exact h.apart r₁ hr₁ r₂ hr₂ hne f hf₁ hf₂
      · exact hfree f (.inr ⟨r₁, hr₁, hf₁⟩) hnone
    · rcases hprivate r₂ hr₂ f hf₂ with hf₂ | ⟨hsame, -⟩
      · exact hfree f (.inr ⟨r₂, hr₂, hf₂⟩) hnone
      · exact hne hsame.symm
  · rw [under_under]
    by_cases hne : r' = r
    · subst hne
      rw [hself]
      exact fun hh ↦ h.small r' hr' a ha (he.huge a hh)
    · rw [InHuge, (hview r' hr' hne).onPath (by omega)]
      exact h.small r' hr' a ha
  · rw [under_under] at hpres ⊢
    by_cases hne : r' = r
    · subst hne
      rw [hself] at hpres ⊢
      exact hstay _ (hdata a ha hpres)
    · rw [(hview r' hr' hne).leaf] at hpres ⊢
      exact hstay _ (h.data r' hr' a ha hpres)

end Eris.Mm.Memory
