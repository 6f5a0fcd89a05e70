import Eris.Mm.Translation

namespace Eris.Mm

structure Rights where
  write : Bool
  user : Bool
  noExecute : Bool
  deriving DecidableEq

def Rights.through (r : Rights) (e : Entry) : Rights :=
  ⟨r.write && e.write, r.user && e.user, r.noExecute || e.noExecute⟩

def Entry.rights (e : Entry) : Rights := ⟨e.write, e.user, e.noExecute⟩

def PageFlags.rights (flags : PageFlags) : Rights := ⟨flags.write, flags.user, flags.noExecute⟩

namespace Memory

def rightsFrom (address : ℕ) (m : Memory) : ℕ → ℕ → Rights → Option Rights
  | 0, table, r =>
    let e := m.entry table (indexOf address 0)
    if e.present then some (r.through e) else none
  | level + 1, table, r =>
    let e := m.entry table (indexOf address (level + 1))
    if e.present then
      if e.huge then some (r.through e) else rightsFrom address m level e.frame (r.through e)
    else none

def rights (address : ℕ) (m : Memory) : Option Rights := m.rightsFrom address 3 m.root ⟨true, true, false⟩

/-- The way to a page that the user may reach is open to the user, and no 2 MiB mapping is. -/
def Sealed (m : Memory) : Prop :=
  ∀ a, (m.leaf a).present = true → (m.leaf a).user = true → ¬ m.InHuge a ∧ ∀ d < 3, (m.onPath d a).user = true

def Careful (m : Memory) (c : Call) : Prop := c.user = true → ∀ a ∈ c.span, ¬ m.InHuge a

variable {m m' : Memory} {a b d f : ℕ} {c : Call}

theorem rightsFrom_eq (hm : m.Wf) (hp : m.Plain) (a : ℕ) {level : ℕ} (hd : d + level = 3)
    (hf : m.tableAt d (pathTo a d) = some f) (r : Rights)
    (hopen : (m.leaf a).present = true → (m.leaf a).user = true → ∀ d' < 3, d ≤ d' → (m.onPath d' a).user = true) :
    m.rightsFrom a level f r = if (m.leaf a).present then some (r.through (m.leaf a)) else none := by
  induction level generalizing d f r with
  | zero =>
    obtain rfl : d = 3 := by omega
    rw [rightsFrom, leaf, hf]
  | succ level ih =>
    obtain ⟨hentry, ⟨hpres, hleaf⟩ | ⟨hpres, hhuge, -, hleaf⟩ | ⟨hlink, hnext⟩⟩ := onPath_cases hm hd hf
    · rw [rightsFrom, hentry, hpres, hleaf]
      rfl
    · rw [rightsFrom, hentry, if_pos hpres, if_pos hhuge, hleaf]
      exact (if_pos hpres).symm
    · obtain ⟨hw, hx⟩ := hp d (by omega) a hlink
      rw [rightsFrom, hentry, if_pos hlink.1, if_neg hlink.2, ih (by omega) hnext _ fun hl hu d' hd' hle ↦
        hopen hl hu d' hd' (by omega)]
      split
      · rename_i hl
        have hu : ((m.onPath d a).user && (m.leaf a).user) = (m.leaf a).user := by
          cases hleaf : (m.leaf a).user with
          | false => rw [Bool.and_false]
          | true => rw [hopen hl hleaf d (by omega) le_rfl, Bool.and_true]
        simp only [Rights.through, hw, hx, Bool.and_true, Bool.or_false, Bool.and_assoc, hu]
      · rfl

theorem rightsFrom_through (hm : m.Wf) (a : ℕ) {level : ℕ} (hd : d + level = 3)
    (hf : m.tableAt d (pathTo a d) = some f) {r x : Rights} (h : m.rightsFrom a level f r = some x) :
    (m.leaf a).present = true ∧ ∃ y : Rights, x = y.through (m.leaf a) := by
  induction level generalizing d f r with
  | zero =>
    obtain rfl : d = 3 := by omega
    rw [rightsFrom] at h
    rw [leaf, hf]
    split at h
    · rename_i hpres
      cases h
      exact ⟨hpres, r, rfl⟩
    · cases h
  | succ level ih =>
    obtain ⟨hentry, ⟨hpres, -⟩ | ⟨hpres, hhuge, -, hleaf⟩ | ⟨hlink, hnext⟩⟩ := onPath_cases hm hd hf
    · rw [rightsFrom, hentry, hpres] at h
      cases h
    · rw [rightsFrom, hentry, if_pos hpres, if_pos hhuge] at h
      cases h
      rw [hleaf]
      exact ⟨hpres, r, rfl⟩
    · rw [rightsFrom, hentry, if_pos hlink.1, if_neg hlink.2] at h
      exact ih (by omega) hnext h

theorem rights_through (hm : m.Wf) {x : Rights} (h : m.rights a = some x) :
    (m.leaf a).present = true ∧ ∃ y : Rights, x = y.through (m.leaf a) :=
  rightsFrom_through hm a rfl (m.tableAt_zero a) h

theorem rightsFrom_user {level : ℕ} {r x : Rights} (h : m.rightsFrom a level f r = some x) (hr : r.user = false) :
    x.user = false := by
  induction level generalizing f r with
  | zero =>
    rw [rightsFrom] at h
    split at h
    · cases h
      simp [Rights.through, hr]
    · cases h
  | succ level ih =>
    rw [rightsFrom] at h
    split at h
    · split at h
      · cases h
        simp [Rights.through, hr]
      · exact ih h (by simp [Rights.through, hr])
    · cases h

theorem Kept.rightsFrom (h : Kept m m') {level : ℕ} (hd : d + level = 3) (hf : m.tableAt d (pathTo a d) = some f)
    (r : Rights) : m'.rightsFrom a level f r = m.rightsFrom a level f r := by
  induction level generalizing d f r with
  | zero => rw [Memory.rightsFrom, Memory.rightsFrom, h.entries f ⟨d, by omega, _, hf⟩]
  | succ level ih =>
    obtain ⟨hsame, hnext⟩ := h.step hd hf
    rw [Memory.rightsFrom, Memory.rightsFrom, hsame]
    split
    · rename_i hp
      split
      · rfl
      · rename_i hh
        exact ih (by omega) (hnext ⟨hp, hh⟩) _
    · rfl

theorem Kept.rights (h : Kept m m') (a : ℕ) : m'.rights a = m.rights a := by
  unfold Memory.rights
  rw [h.root]
  exact h.rightsFrom rfl (m.tableAt_zero a) _

theorem rights_under_congr {r r' : ℕ} (h : m.entry r (indexOf a 3) = m.entry r' (indexOf a 3)) :
    (m.under r).rights a = (m.under r').rights a := by
  have hfrom : ∀ r level f x, rightsFrom a (m.under r) level f x = rightsFrom a m level f x := by
    intro r level
    induction level with
    | zero => exact fun _ _ ↦ rfl
    | succ level ih =>
      intro f x
      rw [rightsFrom, rightsFrom, ih]
      rfl
  simp only [Memory.rights, hfrom, under_root]
  rw [rightsFrom, h]
  rfl

theorem rights_eq (hm : m.Wf) (hp : m.Plain) (hs : m.Sealed) (a : ℕ) :
    m.rights a = if (m.leaf a).present then some (m.leaf a).rights else none := by
  rw [rights, rightsFrom_eq hm hp a rfl (m.tableAt_zero a) _ fun hl hu d' hd' _ ↦ (hs a hl hu).2 d' hd']
  simp [Rights.through, Entry.rights]

theorem rights_congr (hm : m.Wf) (hp : m.Plain) (hs : m.Sealed) (hm' : m'.Wf) (hp' : m'.Plain) (hs' : m'.Sealed)
    (h : m'.leaf a = m.leaf a) : m'.rights a = m.rights a := by
  rw [rights_eq hm' hp' hs', rights_eq hm hp hs, h]

theorem onPath_eq_of_pageOf (h : pageOf b = pageOf a) (hd : d ≤ 3) : m.onPath d b = m.onPath d a := by
  have hpath : ∀ n ≤ 3, pathTo b (3 - n + 1) = pathTo a (3 - n + 1) := by
    intro n
    induction n with
    | zero => exact fun _ ↦ h
    | succ n ih =>
      intro hn
      have hprev := ih (by omega)
      rw [show 3 - (n + 1) + 1 = 3 - n by omega]
      exact ((pathTo_succ_iff (by omega)).mp hprev).1
  have hd' := hpath (3 - d) (by omega)
  rw [show 3 - (3 - d) = d by omega] at hd'
  exact onPath_congr (by omega) hd'

theorem link_of_leaf (h : (m.leaf a).present = true) (hh : ¬ m.InHuge a) (hd : d < 3) : (m.onPath d a).link := by
  rw [leaf_eq, if_neg hh] at h
  cases ht : m.tableAt 3 (pathTo a 3) with
  | none =>
    rw [onPath_of_none ht] at h
    cases h
  | some t => exact onPath_link_of_tableAt hd ht

theorem Careful.leaf_cases (hm : m.Wf) (hc : Careful m c) :
    ∃ done, done ≤ pagesOf c.length ∧ ((c.run m).2 = true → done = pagesOf c.length) ∧
      m.Edit (c.run m).1 c.span (Set.image pageOf (span c.address done)) c.user ∧ ∀ b,
      (pageOf b ∉ Set.image pageOf (span c.address done) ∧ (c.run m).1.leaf b = m.leaf b) ∨
      (pageOf b ∈ Set.image pageOf (span c.address done) ∧
        (∃ k e, c.new k e = some ((c.run m).1.leaf b)) ∧ ¬ (c.run m).1.InHuge b ∧
          (c.user = true → ∀ d < 3, ((c.run m).1.onPath d b).user = true)) := by
  obtain ⟨done, h⟩ := c.run_spec hm
  refine ⟨done, h.le, h.finished, h.edit, fun b ↦ ?_⟩
  by_cases hb : pageOf b ∈ Set.image pageOf (span c.address done)
  · obtain ⟨k, hk, hpage, e, he⟩ := h.written b hb
    refine .inr ⟨hb, ⟨k, e, he⟩, fun hh ↦ ?_, fun hu d hd ↦ ?_⟩
    · obtain ⟨t, ht⟩ := h.tables k hk
      rw [InHuge, onPath_eq_of_pageOf hpage (by omega)] at hh
      exact (onPath_link_of_tableAt (by omega) ht).2 hh.2
    · rw [onPath_eq_of_pageOf hpage (by omega)]
      exact h.opened hu (hc hu) k hk d hd
  · refine .inl ⟨hb, (h.edit.leaf b hb).resolve_right ?_⟩
    rintro ⟨hu, ⟨a, ha, hh, -⟩, -⟩
    exact hc hu a ha hh

theorem Careful.sealed (hm : m.Wf) (hs : m.Sealed) (hc : Careful m c) : (c.run m).1.Sealed := by
  obtain ⟨done, -, -, hedit, hcases⟩ := hc.leaf_cases hm
  intro b hpres huser
  rcases hcases b with ⟨-, hleaf⟩ | ⟨-, ⟨k, e, he⟩, hh, hopen⟩
  · rw [hleaf] at hpres huser
    obtain ⟨hh, hopen⟩ := hs b hpres huser
    exact ⟨fun h ↦ hh (hedit.huge b h), fun d hd ↦ hedit.user_of_user hd (link_of_leaf hpres hh hd) (hopen d hd)⟩
  · refine ⟨hh, hopen ?_⟩
    rcases Call.new_spec he with ⟨-, hnone⟩ | ⟨flags, frame, hflags, hsome⟩
    · rw [hnone] at hpres
      cases hpres
    · rw [hsome] at huser
      simpa [Call.user, hflags, encode] using huser

theorem Kept.sealed (h : Kept m m') (hs : m.Sealed) : m'.Sealed := by
  intro a hpres huser
  rw [h.leaf] at hpres huser
  rw [InHuge, h.onPath (by omega)]
  refine ⟨(hs a hpres huser).1, fun d hd ↦ ?_⟩
  rw [h.onPath (by omega)]
  exact (hs a hpres huser).2 d hd

theorem Kept.plain (h : Kept m m') (hp : m.Plain) : m'.Plain := by
  intro d hd a
  rw [h.onPath (by omega)]
  exact hp d hd a

theorem sharedRoot_cases {r : ℕ} (hm : m.Wf) (hlt : r < managedPages) (hused : m.frames.bitmap r = true)
    (hr : ¬ m.IsTable r) (a : ℕ) :
    (∀ d ≤ 3, (m.sharedRoot r).onPath d a = m.onPath d a) ∨ ∀ d ≤ 3, (m.sharedRoot r).onPath d a = {} := by
  obtain ⟨-, hzero, hrest⟩ := sharedRoot_spec hm hlt hused hr
  by_cases ha : indexOf a 3 = 0
  · exact .inl fun d hd ↦ hzero d hd a ha
  · exact .inr fun d hd ↦ hrest d hd a ha

theorem Plain.of_cases (hp : m.Plain)
    (h : ∀ a, (∀ d ≤ 3, m'.onPath d a = m.onPath d a) ∨ ∀ d ≤ 3, m'.onPath d a = {}) : m'.Plain := by
  intro d hd a hlink
  rcases h a with hsame | hnone
  · rw [hsame d (by omega)] at hlink ⊢
    exact hp d hd a hlink
  · rw [hnone d (by omega)] at hlink
    cases hlink.1

theorem Sealed.of_cases (hs : m.Sealed)
    (h : ∀ a, (∀ d ≤ 3, m'.onPath d a = m.onPath d a) ∨ ∀ d ≤ 3, m'.onPath d a = {}) : m'.Sealed := by
  intro a hpres huser
  rcases h a with hsame | hnone
  · rw [leaf_eq_of_onPath (hsame 2 (by omega)) (hsame 3 le_rfl)] at hpres huser
    rw [InHuge, hsame 2 (by omega)]
    refine ⟨(hs a hpres huser).1, fun d hd ↦ ?_⟩
    rw [hsame d (by omega)]
    exact (hs a hpres huser).2 d hd
  · rw [leaf_eq, if_neg, hnone 3 le_rfl] at hpres
    · cases hpres
    · rw [InHuge, hnone 2 (by omega)]
      exact fun h ↦ by cases h.1

theorem Built.plain_sealed (h : Built Careful m) : m.Plain ∧ m.Sealed := by
  induction h with
  | init hlow hinit =>
    refine (pagingInit_induction (P := fun m ↦ m.Wf ∧ m.Plain ∧ m.Sealed) hlow hinit (fun m pdpt directory hd ↦
      ⟨hd.wf, hd.plain, fun a _ huser ↦ ?_⟩) fun m c hm hc _ ↦ ?_).2
    · rw [hd.leaf] at huser
      split at huser
      · cases huser
      · cases huser
    · have hcareful : Careful m c := fun hu ↦ by rw [hc.user_eq] at hu; cases hu
      obtain ⟨done, hdone⟩ := c.run_spec hm.1
      exact ⟨hdone.edit.grow.wf, hdone.edit.plain hm.2.1, hcareful.sealed hm.1 hm.2.2⟩
  | call c hbuilt hc ih =>
    obtain ⟨done, hdone⟩ := c.run_spec hbuilt.wf
    exact ⟨hdone.edit.plain ih.1, hc.sealed hbuilt.wf ih.2⟩
  | @elsewhere m frames vmalloc bytes _ _ _ ih =>
    exact ⟨Kept.plain ⟨rfl, fun _ _ _ ↦ rfl⟩ ih.1, Kept.sealed ⟨rfl, fun _ _ _ ↦ rfl⟩ ih.2⟩
  | share hbuilt hlt hused hr ih =>
    have hcases := sharedRoot_cases hbuilt.wf hlt hused hr
    exact ⟨ih.1.of_cases hcases, ih.2.of_cases hcases⟩

/-- A call grants what it was asked for on its pages, and changes nothing elsewhere. -/
theorem rights_of_call (h : Built Careful m) (hc : Careful m c) {flags : PageFlags} (hflags : c.flags = some flags)
    (hok : (c.run m).2 = true) (b : ℕ) :
    (pageOf b ∈ Set.image pageOf c.span → (c.run m).1.rights b = some flags.rights) ∧
      (pageOf b ∉ Set.image pageOf c.span → (c.run m).1.rights b = m.rights b) := by
  obtain ⟨hp, hs⟩ := h.plain_sealed
  obtain ⟨hp', hs'⟩ := (h.call c hc).plain_sealed
  have hm' := (h.call c hc).wf
  obtain ⟨done, -, hdone, -, hcases⟩ := hc.leaf_cases h.wf
  rw [hdone hok] at hcases
  rcases hcases b with ⟨hb, hleaf⟩ | ⟨hb, ⟨k, e, he⟩, -, -⟩
  · exact ⟨fun hb' ↦ absurd hb' hb, fun _ ↦ rights_congr h.wf hp hs hm' hp' hs' hleaf⟩
  · refine ⟨fun _ ↦ ?_, fun hb' ↦ absurd hb hb'⟩
    rcases Call.new_spec he with ⟨hnone, -⟩ | ⟨flags', frame, hflags', hsome⟩
    · rw [hflags] at hnone
      cases hnone
    · rw [hflags] at hflags'
      cases hflags'
      rw [rights_eq hm' hp' hs', hsome]
      rfl

theorem rights_of_call_booted :
    (booted.protect 0x101000 4096 { write := true }).2 = true ∧
      (booted.protect 0x101000 4096 { write := true }).1.rights 0x101abc = some ⟨true, false, false⟩ ∧
      (booted.protect 0x101000 4096 { write := true }).1.rights 0x200000 = some ⟨true, false, true⟩ := by
  have hok : (booted.protect 0x101000 4096 { write := true }).2 = true := by decide +kernel
  have h := rights_of_call (c := .protect 0x101000 4096 { write := true }) (built_booted _) nofun rfl hok
  refine ⟨hok, (h 0x101abc).1 ⟨0x101000, ⟨0, by decide, rfl⟩, by decide⟩, ((h 0x200000).2 ?_).trans (by decide +kernel)⟩
  rintro ⟨_, ⟨k, hk, rfl⟩, hpage⟩
  obtain rfl := Nat.lt_one_iff.mp hk
  revert hpage
  decide

/-- A page for the user inside the direct map: the call does not grant what it was asked for, and a
second call opens the neighbours of the first page. -/
theorem map_not_rights :
    Built Careful booted ∧ (booted.map 0x200000 0 4096 { user := true }).2 = true ∧
      (booted.map 0x200000 0 4096 { user := true }).1.rights 0x200000 = some ⟨false, false, false⟩ ∧
      let m := (booted.map 0x200000 0 4096 { user := true }).1
      (m.map 0x202000 0 4096 { user := true }).2 = true ∧ m.rights 0x201000 = some ⟨true, false, true⟩ ∧
        (m.map 0x202000 0 4096 { user := true }).1.rights 0x201000 = some ⟨true, true, true⟩ :=
  ⟨built_booted _, by decide +kernel, by decide +kernel, by decide +kernel, by decide +kernel, by decide +kernel⟩

end Memory

end Eris.Mm
