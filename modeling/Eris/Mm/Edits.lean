import Eris.Mm.Growth

namespace Eris.Mm.Memory

variable {m m' m'' : Memory} {a b d f g : ℕ} {e : Entry} {user : Bool} {S S' W W' : Set ℕ}

def Plain (m : Memory) : Prop :=
  ∀ d < 3, ∀ a, (m.onPath d a).link → (m.onPath d a).write = true ∧ (m.onPath d a).noExecute = false

/-- What the operations may do to a memory. The walks are for the addresses of `S`, the pages in
`W` are written, and `user` says whether the entries on the way are opened to the user. -/
structure Edit (m m' : Memory) (S W : Set ℕ) (user : Bool) : Prop where
  grow : Grow m m'
  links : ∀ d < 3, ∀ b, (m.onPath d b).link → m'.onPath d b = m.onPath d b ∨
    user = true ∧ (∃ c ∈ S, pathTo c (d + 1) = pathTo b (d + 1)) ∧ m'.onPath d b = { m.onPath d b with user := true }
  leaf : ∀ b, pageOf b ∉ W → m'.leaf b = m.leaf b ∨ user = true ∧ (∃ c ∈ S, m.InHuge c ∧ pathTo c 3 = pathTo b 3) ∧
      m'.leaf b = { m.leaf b with user := true }
  huge : ∀ b, m'.InHuge b → m.InHuge b
  plain : m.Plain → m'.Plain
  touched : ∀ f, m.frames.bitmap f = true → ∀ j, m'.entry f j = m.entry f j ∨
    ∃ c ∈ S, ∃ d ≤ 3, m.tableAt d (pathTo c d) = some f ∧ j = indexOf c (3 - d)

namespace Edit

theorem refl (hm : m.Wf) : Edit m m S W user :=
  ⟨.refl hm, fun _ _ _ _ ↦ .inl rfl, fun _ _ ↦ .inl rfl, fun _ ↦ id, id, fun _ _ _ ↦ .inl rfl⟩

theorem mono (h : Edit m m' S W user) (hS : S ⊆ S') (hW : W ⊆ W') : Edit m m' S' W' user where
  grow := h.grow
  links d hd b hl := (h.links d hd b hl).imp_right fun ⟨hu, ⟨c, hc, hcb⟩, he⟩ ↦ ⟨hu, ⟨c, hS hc, hcb⟩, he⟩
  leaf b hb := (h.leaf b fun hw ↦ hb (hW hw)).imp_right fun ⟨hu, ⟨c, hc, hcb⟩, he⟩ ↦
    ⟨hu, ⟨c, hS hc, hcb⟩, he⟩
  huge := h.huge
  plain := h.plain
  touched f hf j := (h.touched f hf j).imp_right fun ⟨c, hc, hcf⟩ ↦ ⟨c, hS hc, hcf⟩

theorem link (h : Edit m m' S W user) (hd : d < 3) (hl : (m.onPath d b).link) : (m'.onPath d b).link := by
  rcases h.links d hd b hl with he | ⟨-, -, he⟩
  · rw [he]
    exact hl
  · rw [he]
    exact hl

theorem user_of_user (h : Edit m m' S W user) (hd : d < 3) (hl : (m.onPath d b).link)
    (hu : (m.onPath d b).user = true) : (m'.onPath d b).user = true := by
  rcases h.links d hd b hl with he | ⟨-, -, he⟩
  · rw [he]
    exact hu
  · rw [he]

end Edit

theorem Edit.trans (h : Edit m m' S W user) (h' : Edit m' m'' S W user) : Edit m m'' S W user where
  grow := h.grow.trans h'.grow
  links d hd b hl := by
    rcases h'.links d hd b (h.link hd hl) with he' | ⟨hu, hc, he'⟩
    · rw [he']
      exact h.links d hd b hl
    · refine .inr ⟨hu, hc, ?_⟩
      rcases h.links d hd b hl with he | ⟨-, -, he⟩
      · rw [he', he]
      · rw [he', he]
  leaf b hb := by
    rcases h'.leaf b hb with he' | ⟨hu, ⟨c, hc, hch, hcb⟩, he'⟩
    · rw [he']
      exact h.leaf b hb
    · refine .inr ⟨hu, ⟨c, hc, h.huge c hch, hcb⟩, ?_⟩
      rcases h.leaf b hb with he | ⟨-, -, he⟩
      · rw [he', he]
      · rw [he', he]
  huge b hb := h.huge b (h'.huge b hb)
  plain hp := h'.plain (h.plain hp)
  touched f hf j := by
    rcases h'.touched f (h.grow.used f hf) j with he' | ⟨c, hc, d, hd, hcf, hj⟩
    · rw [he']
      exact h.touched f hf j
    · exact .inr ⟨c, hc, d, hd, h.grow.tableAt_of_used hd hf hcf, hj⟩

theorem Grafted.edit (hm : m.Wf) (h : Grafted m m' f (indexOf a (3 - d)) g) (hd : d < 3)
    (hf : m.tableAt d (pathTo a d) = some f) (hl : ¬ (m.onPath d a).link)
    (hempty : d < 2 → ∀ j, m'.entry g j = {})
    (hsame : d = 2 → ∀ b, pathTo b 3 = pathTo a 3 → m'.entry g (indexOf b 0) = m.leaf b) :
    Edit m m' {a} ∅ user := by
  have hchild := (tableAt_succ a hd hf).symm.trans (tableAt_succ_of_not_link hd hl)
  have hpath := fun (d' : ℕ) (hd' : d' ≤ 3) b ↦ h.onPath hm hd hf hl hempty hd' b
  refine ⟨h.grow hm hd (indexOf_lt a _) hf hchild hempty, fun d' hd' b hlink ↦ .inl ?_,
    fun b _ ↦ .inl (h.leaf hm hd hf hl hempty hsame b), fun b hb ↦ ?_, fun hp d' hd' b hlink ↦ ?_, fun f' hf' j ↦ ?_⟩
  · rw [hpath d' (by omega)]
    split
    · rename_i hb
      have hdd : d' ≠ d := by
        rintro rfl
        rw [onPath_congr (by omega) hb] at hlink
        exact hl hlink
      have hdd' : d' ≠ d + 1 := by
        rintro rfl
        rw [onPath_succ_of_not_link hd hl hb] at hlink
        cases hlink.1
      rw [if_neg hdd, if_neg hdd']
    · rfl
  · have h2 := hpath 2 (by omega) b
    split at h2
    · split at h2
      · rw [InHuge, h2] at hb
        cases hb.2
      · split at h2
        · rename_i hd2
          rw [InHuge, h2, hempty (by omega)] at hb
          cases hb.1
        · rwa [InHuge, h2] at hb
    · rwa [InHuge, h2] at hb
  · have h' := hpath d' (by omega) b
    split at h'
    · split at h'
      · rw [h']
        exact ⟨rfl, rfl⟩
      · split at h'
        · rename_i hdd
          rw [h', hempty (by omega)] at hlink
          cases hlink.1
        · rw [h'] at hlink ⊢
          exact hp d' hd' b hlink
    · rw [h'] at hlink ⊢
      exact hp d' hd' b hlink
  · by_cases hhere : f' = f ∧ j = indexOf a (3 - d)
    · exact .inr ⟨a, rfl, d, by omega, hhere.1 ▸ hf, hhere.2⟩
    · have hfg : f' ≠ g := by
        rintro rfl
        rw [h.free] at hf'
        cases hf'
      exact .inl (h.old f' hfg j fun hff hji ↦ hhere ⟨hff, hji⟩)

theorem touched_setEntry (hd : d ≤ 3) (hf : m.tableAt d (pathTo a d) = some f) (f' j : ℕ) :
    (m.setEntry f (indexOf a (3 - d)) e).entry f' j = m.entry f' j ∨
      ∃ c ∈ ({a} : Set ℕ), ∃ d ≤ 3, m.tableAt d (pathTo c d) = some f' ∧ j = indexOf c (3 - d) := by
  rw [entry_setEntry]
  split
  · rename_i hhere
    exact .inr ⟨a, rfl, d, hd, hhere.1 ▸ hf, hhere.2⟩
  · exact .inl rfl

theorem setEntry_edit (user : Bool) {t : ℕ} (hm : m.Wf) (ht : m.tableAt 3 (pathTo a 3) = some t) (e : Entry) :
    Edit m (m.setEntry t (indexOf a 0) e) {a} {pageOf a} user ∧
      ∀ b, (m.setEntry t (indexOf a 0) e).leaf b = if pageOf b = pageOf a then e else m.leaf b := by
  obtain ⟨hgrow, hpath⟩ := setEntry_at hm le_rfl ht (fun h ↦ absurd h (by omega))
  have hlow : ∀ d < 3, ∀ b, (m.setEntry t (indexOf a 0) e).onPath d b = m.onPath d b := fun d hd b ↦ by
    rw [hpath d (by omega), if_neg fun h ↦ by omega]
  have hhuge : ∀ b, (m.setEntry t (indexOf a 0) e).InHuge b ↔ m.InHuge b := fun b ↦ by
    rw [InHuge, InHuge, hlow 2 (by omega)]
  have hleaf : ∀ b, (m.setEntry t (indexOf a 0) e).leaf b = if pageOf b = pageOf a then e else m.leaf b := by
    intro b
    split
    · rename_i hb
      have hnot : ¬ m.InHuge b := by
        intro hb'
        have hnone := tableAt_succ_of_not_link (by omega) hb'.not_link
        rw [(pageOf_eq_iff.mp hb).1, ht] at hnone
        cases hnone
      rw [leaf_eq, if_neg fun h ↦ hnot ((hhuge b).mp h), hpath 3 le_rfl, if_pos ⟨rfl, hb⟩]
    · rename_i hb
      exact leaf_eq_of_onPath (hlow 2 (by omega) b) (by rw [hpath 3 le_rfl, if_neg fun h ↦ hb h.2])
  refine ⟨⟨hgrow, fun d hd b _ ↦ .inl (hlow d hd b), fun b hb ↦ .inl ?_, fun b ↦ (hhuge b).mp,
    fun hp d hd b ↦ ?_, fun f _ j ↦ touched_setEntry le_rfl ht f j⟩, hleaf⟩
  · rw [hleaf, if_neg (show ¬ pageOf b = pageOf a from hb)]
  · rw [hlow d hd]
    exact hp d hd b

theorem allowUser_spec (hm : m.Wf) (hd : d < 3) (hf : m.tableAt d (pathTo a d) = some f) (user : Bool) :
    Edit m (m.allowUser user f (indexOf a (3 - d))) {a} ∅ user ∧ (m.allowUser user f (indexOf a (3 - d))).onPath d a =
        { m.onPath d a with user := (m.onPath d a).user || user } := by
  cases user with
  | false => exact ⟨.refl hm, by simp [allowUser]⟩
  | true =>
    obtain ⟨hgrow, hpath⟩ := setEntry_at (e := { m.onPath d a with user := true }) hm (by omega) hf
      fun _ ↦ ⟨rfl, rfl, rfl⟩
    have hset : m.allowUser true f (indexOf a (3 - d)) =
        m.setEntry f (indexOf a (3 - d)) { m.onPath d a with user := true } := by
      rw [onPath_of_tableAt hf]
      rfl
    rw [hset]
    have hcases : ∀ d' ≤ 3, ∀ b,
        (m.setEntry f (indexOf a (3 - d)) { m.onPath d a with user := true }).onPath d' b = m.onPath d' b ∨
        d' = d ∧ pathTo a (d' + 1) = pathTo b (d' + 1) ∧
          (m.setEntry f (indexOf a (3 - d)) { m.onPath d a with user := true }).onPath d' b =
            { m.onPath d' b with user := true } := by
      intro d' hd' b
      rw [hpath d' hd']
      split
      · rename_i hb
        obtain ⟨rfl, hb⟩ := hb
        rw [onPath_congr (by omega) hb]
        exact .inr ⟨rfl, hb.symm, rfl⟩
      · exact .inl rfl
    refine ⟨⟨hgrow, fun d' hd' b _ ↦ ?_, fun b _ ↦ ?_, fun b hb ↦ ?_, fun hp d' hd' b hlink ↦ ?_,
      fun f' _ j ↦ touched_setEntry (by omega) hf f' j⟩, ?_⟩
    · rcases hcases d' (by omega) b with he | ⟨-, hab, he⟩
      · exact .inl he
      · exact .inr ⟨rfl, ⟨a, rfl, hab⟩, he⟩
    · have h3 : (m.setEntry f (indexOf a (3 - d)) { m.onPath d a with user := true }).onPath 3 b = m.onPath 3 b := by
        rw [hpath 3 le_rfl, if_neg fun h ↦ by omega]
      rcases hcases 2 (by omega) b with he | ⟨-, hab, he⟩
      · exact .inl (leaf_eq_of_onPath he h3)
      · by_cases hhuge : m.InHuge b
        · have hhuge' : (m.setEntry f (indexOf a (3 - d)) { m.onPath d a with user := true }).InHuge b := by
            rw [InHuge, he]
            exact hhuge
          have hhugea : m.InHuge a := by
            rw [InHuge, onPath_congr (by omega) hab]
            exact hhuge
          refine .inr ⟨rfl, ⟨a, rfl, hhugea, hab⟩, ?_⟩
          rw [leaf_eq, if_pos hhuge', he, leaf_eq, if_pos hhuge]
          rfl
        · have hhuge' : ¬ (m.setEntry f (indexOf a (3 - d)) { m.onPath d a with user := true }).InHuge b := by
            rw [InHuge, he]
            exact hhuge
          rw [leaf_eq, if_neg hhuge', leaf_eq m, if_neg hhuge]
          exact .inl h3
    · rcases hcases 2 (by omega) b with he | ⟨-, -, he⟩
      · rwa [InHuge, he] at hb
      · rwa [InHuge, he] at hb
    · rcases hcases d' (by omega) b with he | ⟨-, -, he⟩
      · rw [he] at hlink ⊢
        exact hp d' hd' b hlink
      · rw [he] at hlink ⊢
        exact hp d' hd' b hlink
    · rw [hpath d (by omega), if_pos ⟨rfl, rfl⟩, Bool.or_true]

theorem enterTable_edit (user : Bool) (hm : m.Wf) (hd : d < 3) (hf : m.tableAt d (pathTo a d) = some f) :
    ∃ m' ok, m.enterTable true f (indexOf a (3 - d)) = (m', ok) ∧ Edit m m' {a} ∅ user ∧
      (ok = true → (m'.onPath d a).present = true) ∧ (ok = false → ∀ g < managedPages, m'.frames.bitmap g = true) := by
  unfold enterTable
  rw [← onPath_of_tableAt hf]
  by_cases hp : (m.onPath d a).present = true
  · exact ⟨m, true, if_pos hp, .refl hm, fun _ ↦ hp, nofun⟩
  · have hl : ¬ (m.onPath d a).link := fun h ↦ hp h.1
    rw [if_neg hp, if_pos rfl]
    rcases allocateTable_cases hm.low with ⟨hnone, hall⟩ | ⟨g, hg, hfree, hsome⟩
    · exact ⟨m, false, by rw [hnone], .refl hm, nofun, fun _ ↦ hall⟩
    · have hne := hm.ne_of_free (by omega) hf hfree
      have hgr := grafted_setEntry hg hfree f (indexOf a (3 - d)) fun _ ↦ {}
      have hempty : ∀ j, ({ m with
          frames := m.frames.markUsed g
          tables := Function.update m.tables g fun _ ↦ {} }.setEntry f (indexOf a (3 - d)) (.table g)).entry g j
            = {} := by
        intro j
        rw [entry_setEntry, if_neg fun h ↦ hne h.1.symm]
        simp [entry]
      refine ⟨_, true, by rw [hsome], hgr.edit hm hd hf hl (fun _ ↦ hempty) fun hd2 b hb ↦ ?_, fun _ ↦ ?_,
        nofun⟩
      · subst hd2
        have hb2 : m.onPath 2 b = m.onPath 2 a := onPath_congr (by omega) hb
        rw [hempty, leaf_eq, if_neg (by rw [InHuge, hb2]; exact fun h ↦ hp h.1),
          onPath_succ_of_not_link (by omega) hl hb]
      · rw [hgr.onPath hm hd hf hl (fun _ ↦ hempty) (by omega), if_pos rfl, if_pos rfl]
        rfl

theorem splitHugePage_edit (user : Bool) (hm : m.Wf) (hf : m.tableAt 2 (pathTo a 2) = some f) (hh : m.InHuge a) :
    ∃ m' ok, m.splitHugePage f (indexOf a 1) = (m', ok) ∧ Edit m m' {a} ∅ user ∧ (ok = true → (m'.onPath 2 a).link) ∧
      (ok = false → ∀ g < managedPages, m'.frames.bitmap g = true) := by
  unfold splitHugePage
  rcases allocateTable_cases hm.low with ⟨hnone, hall⟩ | ⟨g, hg, hfree, hsome⟩
  · exact ⟨m, false, by rw [hnone], .refl hm, by simp, fun _ ↦ hall⟩
  · have hne := hm.ne_of_free (by omega) hf hfree
    have hgr := grafted_setEntry hg hfree f (indexOf a (3 - 2)) (m.entry f (indexOf a 1)).part
    refine ⟨_, true, by rw [hsome]; simp only [Function.update_idem],
      hgr.edit hm (by omega) hf hh.not_link (by omega) fun _ b hb ↦ ?_, fun _ ↦ ?_, by simp⟩
    · have hb2 : m.onPath 2 b = m.onPath 2 a := onPath_congr (by omega) hb
      rw [entry_setEntry, if_neg fun h ↦ hne h.1.symm, leaf_eq, if_pos (by rw [InHuge, hb2]; exact hh), hb2,
        onPath_of_tableAt hf]
      simp [entry]
    · have h2 := hgr.onPath hm (by omega) hf hh.not_link (by omega) (show 2 ≤ 3 by omega) a
      rw [if_pos rfl, if_pos rfl] at h2
      rw [h2]
      exact ⟨rfl, Bool.false_ne_true⟩

theorem tableFor_edit (a : ℕ) (user : Bool) {level : ℕ} (hm : m.Wf) (hd : d + level = 3)
    (hf : m.tableAt d (pathTo a d) = some f) :
    ∃ m' r, m.tableFor a true user level f = (m', r) ∧ Edit m m' {a} ∅ user ∧
      (∀ t, r = some t → m'.tableAt 3 (pathTo a 3) = some t ∧
        (user = true → ¬ m.InHuge a → ∀ d', d ≤ d' → d' < 3 → (m'.onPath d' a).user = true)) ∧
      (r = none → ∀ g < managedPages, m'.frames.bitmap g = true) := by
  induction level generalizing d f m with
  | zero =>
    obtain rfl : d = 3 := by omega
    refine ⟨m, some f, rfl, .refl hm, fun t ht ↦ ⟨?_, fun _ _ d' h3 hlt ↦ by omega⟩, nofun⟩
    rw [hf, ht]
  | succ level ih =>
    have hlevel : 3 - d = level + 1 := by omega
    obtain ⟨m₁, ok, he, hedit, hpres, hfull⟩ := enterTable_edit user hm (by omega) hf
    rw [hlevel] at he
    rw [tableFor]
    simp only [he]
    cases ok with
    | false => exact ⟨m₁, none, rfl, hedit, nofun, fun _ ↦ hfull rfl⟩
    | true =>
      have hf₁ := hedit.grow.tables d (by omega) _ _ hf
      obtain ⟨hedit₂, hon₂⟩ := allowUser_spec hedit.grow.wf (by omega) hf₁ user
      rw [hlevel] at hedit₂ hon₂
      set m₂ := m₁.allowUser user f (indexOf a (level + 1)) with hm₂
      have hf₂ := hedit₂.grow.tables d (by omega) _ _ hf₁
      have hentry : ∀ m₃ : Memory, m₃.tableAt d (pathTo a d) = some f →
          m₃.entry f (indexOf a (level + 1)) = m₃.onPath d a := by
        intro m₃ hf₃
        rw [onPath_of_tableAt hf₃, hlevel]
      have hpres₂ : (m₂.onPath d a).present = true := by
        rw [hon₂]
        exact hpres rfl
      have h₁₂ := hedit.trans hedit₂
      simp only [← hm₂, hentry m₂ hf₂]
      by_cases hhuge : level = 0 ∧ (m₂.onPath d a).huge = true
      · obtain ⟨rfl, hh⟩ := hhuge
        obtain rfl : d = 2 := by omega
        have hin : m₂.InHuge a := ⟨hpres₂, hh⟩
        obtain ⟨m₃, ok, hs, hedit₃, hlink, hfull₃⟩ :=
          splitHugePage_edit user hedit₂.grow.wf hf₂ hin
        simp only [hh, hs, and_self, if_true]
        cases ok with
        | false => exact ⟨m₃, none, rfl, h₁₂.trans hedit₃, nofun, fun _ ↦ hfull₃ rfl⟩
        | true =>
          refine ⟨m₃, _, rfl, h₁₂.trans hedit₃, fun t ht ↦ ⟨?_, fun _ hnot ↦ absurd (h₁₂.huge a hin) hnot⟩, nofun⟩
          have hf₃ := hedit₃.grow.tables 2 (by omega) _ _ hf₂
          rw [tableAt_succ_of_link (by omega) (hlink rfl), ← hentry m₃ hf₃]
          exact ht
      · have hlink : (m₂.onPath d a).link := by
          refine ⟨hpres₂, fun hh ↦ ?_⟩
          by_cases hd2 : d < 2
          · rw [onPath_of_tableAt hf₂, hedit₂.grow.wf.flat d hd2 _ f _ hf₂] at hh
            cases hh
          · exact hhuge ⟨by omega, hh⟩
        have hnext := tableAt_succ_of_link (by omega) hlink
        obtain ⟨m₃, r, ht, hedit₃, hsome, hfull₃⟩ := ih hedit₂.grow.wf (by omega) hnext
        rw [if_neg hhuge, ht]
        refine ⟨m₃, r, rfl, h₁₂.trans hedit₃, fun t hr ↦ ⟨(hsome t hr).1, fun hu hnot d' hle hlt ↦ ?_⟩, hfull₃⟩
        rcases Nat.eq_or_lt_of_le hle with rfl | hlt'
        · refine hedit₃.user_of_user hlt hlink ?_
          rw [hon₂, hu, Bool.or_true]
        · exact (hsome t hr).2 hu (fun h ↦ hnot (h₁₂.huge a h)) d' hlt' hlt

theorem tableFor_of_tableAt {t : ℕ} (a : ℕ) {level : ℕ} (hd : d + level = 3)
    (hf : m.tableAt d (pathTo a d) = some f) (ht : m.tableAt 3 (pathTo a 3) = some t) :
    m.tableFor a true false level f = (m, some t) := by
  induction level generalizing d f with
  | zero =>
    obtain rfl : d = 3 := by omega
    rw [tableFor, ← ht, hf]
  | succ level ih =>
    have hlevel : 3 - d = level + 1 := by omega
    have hl : (m.onPath d a).link := onPath_link_of_tableAt (by omega) ht
    have hnext := tableAt_succ_of_link (by omega) hl
    rw [onPath_of_tableAt hf, hlevel] at hl hnext
    obtain ⟨hp, hh⟩ := hl
    simp only [tableFor, enterTable, hp, if_true, allowUser, Bool.false_eq_true, if_false, hh, and_false]
    exact ih (by omega) hnext

end Eris.Mm.Memory
