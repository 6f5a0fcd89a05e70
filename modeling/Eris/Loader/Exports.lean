import Eris.Loader.Hosting

namespace Eris.Loader

open Library.Outcome Library.Slots Mm Mm.Memory Modules List

variable {m m' : Memory} {name name' : CString} {t : RegisteredTable} {ts ts' : List RegisteredTable}
  {exports exports' : Symbols} {a count entry owner : ℕ}

section Reading

variable (h : ∀ a, m'.read a = m.read a)

include h

theorem readBytes_congr (n a : ℕ) : m'.readBytes n a = m.readBytes n a := by
  induction n generalizing a with
  | zero => rfl
  | succ n ih => rw [readBytes, readBytes, h, ih]

theorem readWord_congr (n a : ℕ) : m'.readWord n a = m.readWord n a := by
  rw [readWord, readWord, readBytes_congr h]

theorem matchesAt_congr (name : CString) (a : ℕ) : m'.matchesAt name a = m.matchesAt name a := by
  induction name generalizing a with
  | nil => rw [Memory.matchesAt, Memory.matchesAt, h]
  | cons c cs ih => simp only [Memory.matchesAt, h, ih]

theorem lookupIn_congr (name : CString) (count entry : ℕ) :
    Symbols.lookupIn m' name count entry = Symbols.lookupIn m name count entry := by
  induction count generalizing entry with
  | zero => rfl
  | succ count ih =>
    simp only [Symbols.lookupIn, readWord_congr h, matchesAt_congr h, ih]

theorem lookupTables_congr (name : CString) (ts : List RegisteredTable) :
    Symbols.lookupTables m' name ts = Symbols.lookupTables m name ts := by
  induction ts with
  | nil => rfl
  | cons t ts ih => simp only [Symbols.lookupTables, lookupIn_congr h, ih]

theorem lookup_congr (exports : Symbols) (name : CString) :
    exports.lookup m' name = exports.lookup m name := by
  simp only [Symbols.lookup, lookupTables_congr h]

end Reading

section Unexported

theorem matchesAt_unique (h : m.matchesAt name a = .ok true) (h' : m.matchesAt name' a = .ok true)
    (h0 : 0 ∉ name) (h0' : 0 ∉ name') : name = name' := by
  induction name generalizing name' a with
  | nil =>
    cases name' with
    | nil => rfl
    | cons c cs =>
      obtain ⟨b, hb, h⟩ := bind_eq_ok.mp h
      obtain ⟨b', hb', h'⟩ := bind_eq_ok.mp h'
      obtain rfl := Except.ok.inj (hb.symm.trans hb')
      obtain rfl : b = 0 := by simpa using Except.ok.inj h
      split at h'
      · rename_i hc
        exact absurd (hc ▸ mem_cons_self) h0'
      · cases h'
  | cons c cs ih =>
    obtain ⟨b, hb, h⟩ := bind_eq_ok.mp h
    cases name' with
    | nil =>
      obtain ⟨b', hb', h'⟩ := bind_eq_ok.mp h'
      obtain rfl : b = b' := Except.ok.inj (hb.symm.trans hb')
      obtain rfl : b = 0 := by simpa using Except.ok.inj h'
      split at h
      · rename_i hc
        exact absurd (hc ▸ mem_cons_self) h0
      · cases h
    | cons c' cs' =>
      obtain ⟨b', hb', h'⟩ := bind_eq_ok.mp h'
      obtain rfl : b = b' := Except.ok.inj (hb.symm.trans hb')
      split at h
      · split at h'
        · rename_i hc hc'
          rw [ih h h' (fun hm ↦ h0 (mem_cons_of_mem c hm)) fun hm ↦ h0' (mem_cons_of_mem c' hm), ← hc, ← hc']
        · cases h'
      · cases h

theorem finite_lookupIn (m : Memory) (count entry : ℕ) :
    {name : CString | 0 ∉ name ∧ ∃ a, Symbols.lookupIn m name count entry = .ok (some a)}.Finite := by
  induction count generalizing entry with
  | zero => simp [Symbols.lookupIn]
  | succ count ih =>
    rcases hs : m.readWord 8 entry with e | s
    · simp [Symbols.lookupIn, hs, bind, Except.bind]
    · have hone : {name : CString | 0 ∉ name ∧ m.matchesAt name s = .ok true}.Finite :=
        Set.Subsingleton.finite fun x hx y hy ↦ matchesAt_unique hx.2 hy.2 hx.1 hy.1
      refine (hone.union (ih (entry + exportedSymbolSize))).subset ?_
      rintro name ⟨h0, a, ha⟩
      rw [Symbols.lookupIn, hs] at ha
      simp only [bind, Except.bind] at ha
      split at ha
      · rcases hmatch : m.matchesAt name s with e | b
        · rw [hmatch] at ha
          cases ha
        · cases b with
          | true => exact .inl ⟨h0, hmatch⟩
          | false =>
            rw [hmatch] at ha
            exact .inr ⟨h0, a, ha⟩
      · exact .inr ⟨h0, a, ha⟩

theorem lookupTables_append (h : ∀ t ∈ ts, Symbols.lookupIn m name t.count t.table = .ok none) :
    Symbols.lookupTables m name (ts ++ ts') = Symbols.lookupTables m name ts' := by
  induction ts with
  | nil => rfl
  | cons t ts ih =>
    rw [cons_append, Symbols.lookupTables, h t mem_cons_self]
    exact ih fun u hu ↦ h u (mem_cons_of_mem t hu)

theorem exists_unexported (h : ∀ name, 0 ∉ name → ∃ a, exports.lookup m name = .ok a) :
    ∃ name, 0 ∉ name ∧ exports.symtab.find? (fun symbol ↦ symbol.1 == name) = none ∧
      ∀ t ∈ exports.tables, Symbols.lookupIn m name t.count t.table = .ok none := by
  have hkernel : {name | ∃ symbol ∈ exports.symtab, symbol.1 = name}.Finite :=
    exports.symtab.finite_toSet.image Prod.fst |>.subset fun name ⟨s, hs, hn⟩ ↦ ⟨s, hs, hn⟩
  have htables := Set.Finite.biUnion exports.tables.finite_toSet fun t _ ↦ finite_lookupIn m t.count t.table
  have hinf : (Set.range fun n ↦ List.replicate n (1 : UInt8)).Infinite :=
    Set.infinite_range_of_injective (replicate_left_injective 1)
  obtain ⟨name, ⟨n, rfl⟩, hnot⟩ := hinf.exists_notMem_finite (hkernel.union htables)
  have h0 : (0 : UInt8) ∉ List.replicate n 1 := by
    intro hmem
    exact absurd (eq_of_mem_replicate hmem) (by decide)
  simp only [Set.mem_union, Set.mem_ofPred_eq, Set.mem_iUnion, not_or, not_exists, not_and] at hnot
  have hfind : exports.symtab.find? (fun symbol ↦ symbol.1 == List.replicate n 1) = none := by
    rw [find?_eq_none]
    intro symbol hs heq
    exact hnot.1 symbol hs (by simpa using heq)
  refine ⟨_, h0, hfind, fun t ht ↦ ?_⟩
  obtain ⟨a, ha⟩ := h _ h0
  rw [Symbols.lookup, hfind] at ha
  simp only at ha
  have hnone : ∀ t ∈ exports.tables, ∀ b, Symbols.lookupIn m (List.replicate n 1) t.count t.table ≠ .ok (some b) :=
    fun t ht b ↦ hnot.2 t ht h0 b
  generalize exports.tables = ts at ha ht hnone
  induction ts with
  | nil => cases ht
  | cons u ts ih =>
    obtain ⟨found, hfound, ha⟩ := bind_eq_ok.mp ha
    cases found with
    | some b => exact absurd hfound (hnone u mem_cons_self b)
    | none =>
      rcases mem_cons.mp ht with rfl | ht
      · exact hfound
      · exact ih ha ht fun v hv ↦ hnone v (mem_cons_of_mem u hv)

end Unexported

section Tables

theorem filter_owner_of_le {i : ℕ} (h : ∀ j < i, ∀ t, ts[j]? = some t → t.owner ≠ owner)
    (hle : ts.length ≤ i) : ts.filter (fun t ↦ t.owner ≠ owner) = ts := by
  rw [filter_eq_self]
  intro t ht
  obtain ⟨j, hj⟩ := mem_iff_getElem?.mp ht
  have hjlt := (List.getElem?_eq_some_iff.mp hj).1
  simpa using h j (by omega) t hj

theorem perm_dropOwner {left i : ℕ} (h : ∀ j < i, ∀ t, ts[j]? = some t → t.owner ≠ owner)
    (hlen : ts.length ≤ i + left) :
    (Symbols.dropOwner owner left i ts).Perm (ts.filter fun t ↦ t.owner ≠ owner) := by
  induction left generalizing i ts with
  | zero => rw [Symbols.dropOwner, filter_owner_of_le h (by omega)]
  | succ left ih =>
    rw [Symbols.dropOwner]
    split
    · rename_i hnone
      rw [filter_owner_of_le h (List.getElem?_eq_none_iff.mp hnone)]
    · rename_i t hsome
      obtain ⟨hi, hti⟩ := List.getElem?_eq_some_iff.mp hsome
      split
      · rename_i howner
        have hkeep : ∀ j < i, ∀ u, (swapRemove ts i)[j]? = some u → u.owner ≠ owner := by
          intro j hj u hu
          rw [getElem?_swapRemove_of_lt hi hj] at hu
          exact h j hj u hu
        have hperm := (perm_cons_swapRemove ts hi).filter fun t ↦ t.owner ≠ owner
        rw [filter_cons_of_neg (by simp [hti, howner])] at hperm
        exact (ih hkeep (by rw [length_swapRemove]; omega)).trans hperm
      · rename_i howner
        refine ih (fun j hj u hu ↦ ?_) (by omega)
        rcases Nat.lt_succ_iff_lt_or_eq.mp hj with hj | rfl
        · exact h j hj u hu
        · rw [hsome] at hu
          exact Option.some.inj hu ▸ howner

theorem perm_unregisterOwner (exports : Symbols) (owner : ℕ) :
    (exports.unregisterOwner owner).tables.Perm
      (exports.tables.filter fun t ↦ t.owner ≠ owner) :=
  perm_dropOwner (fun _ h ↦ absurd h (Nat.not_lt_zero _)) (by omega)

def Sections.ExportsAt (s : Sections) (i : ℕ) : Prop :=
  s.named i (cstring ".eris_symtab") = .ok true ∧ ∃ size, s.toPlace i = .ok (some size) ∧ exportedSymbolSize ≤ size

theorem size_of_toPlace {s : Sections} {i size : ℕ} (h : s.toPlace i = .ok (some size)) :
    s.size i = .ok size ∧ size ≠ 0 := by
  obtain ⟨allocated, -, h⟩ := bind_eq_ok.mp h
  split at h
  · obtain ⟨n, hn, h⟩ := bind_eq_ok.mp h
    split at h
    · cases h
    · rename_i h0
      cases h
      exact ⟨hn, h0⟩
  · cases h

theorem registerTable_cases (exports : Symbols) (table count owner : ℕ) :
    (table = 0 ∨ count = 0) ∧ exports.registerTable table count owner = (exports, false) ∨ table ≠ 0 ∧ count ≠ 0 ∧
      (exports.tables.length = maxTables ∧ exports.registerTable table count owner = (exports, false) ∨
      exports.tables.length < maxTables ∧ (exports.registerTable table count owner).1.symtab = exports.symtab ∧
        (exports.registerTable table count owner).1.tables = exports.tables ++ [⟨table, count, owner⟩]) := by
  unfold Symbols.registerTable
  split
  · rename_i h
    exact .inl ⟨h, rfl⟩
  · rename_i h
    push Not at h
    refine .inr ⟨h.1, h.2, ?_⟩
    split
    · rename_i hlt
      exact .inr ⟨hlt, rfl, rfl⟩
    · rename_i hge
      have hfits := exports.fits
      exact .inl ⟨by omega, rfl⟩

def Joined (s : Sections) (loaded : LoadedImage) (exports : Symbols) (done : List ℕ) (e : Symbols) :
    Prop :=
  e.symtab = exports.symtab ∧ ∃ new, e.tables = exports.tables ++ new ∧
    (∀ t ∈ new, t.owner = loaded.base ∧ t.count ≠ 0 ∧ t.table ≠ 0 ∧
      ∃ i < s.count, t.table = (loaded.placement i).address) ∧
    (new = [] ↔ exports.tables.length = maxTables ∨ ∀ i ∈ done, ¬ s.ExportsAt i)

section

variable {s : Sections} {loaded : LoadedImage} {i : ℕ} {done : List ℕ}

theorem Joined.skip (h : Joined s loaded exports done exports') (hno : ¬ s.ExportsAt i) :
    Joined s loaded exports (done ++ [i]) exports' := by
  obtain ⟨hsym, new, hnew, hall, hnil⟩ := h
  exact ⟨hsym, new, hnew, hall, by simp [hnil, or_imp, forall_and, hno]⟩

theorem exportSection_spec {e : Symbols} (hi : i < s.count)
    (hplaced : (loaded.placement i).address ≠ 0 ↔ ∃ size, s.toPlace i = .ok (some size))
    (h : Joined s loaded exports done e) (hstep : exportSection s loaded e i = .ok exports') :
    Joined s loaded exports (done ++ [i]) exports' := by
  obtain ⟨named, hnamed, hstep⟩ := bind_eq_ok.mp hstep
  cases named with
  | false =>
    cases hstep
    refine h.skip fun ⟨htrue, _⟩ ↦ ?_
    rw [hnamed] at htrue
    cases htrue
  | true =>
    obtain ⟨size, hsize, hstep⟩ := bind_eq_ok.mp hstep
    obtain rfl := Except.ok.inj hstep
    rcases registerTable_cases e (loaded.placement i).address (size / exportedSymbolSize) loaded.base
      with ⟨hzero, heq⟩ | ⟨ht, hc, hcases⟩
    · rw [heq]
      refine h.skip fun ⟨_, size', hto, hle⟩ ↦ ?_
      obtain rfl := Except.ok.inj (hsize.symm.trans (size_of_toPlace hto).1)
      have hpos := Nat.div_pos hle (by decide)
      exact hzero.elim (hplaced.mpr ⟨_, hto⟩) (by omega)
    · obtain ⟨hsym, new, hnew, hall, hnil⟩ := h
      rcases hcases with ⟨hfull, heq⟩ | ⟨hroom, hsym', htables⟩
      · rw [heq]
        refine ⟨hsym, new, hnew, hall, fun hn ↦ .inl ?_, fun hor ↦ hnil.mpr (hor.imp_right ?_)⟩
        · rw [← hfull, hnew, hn, List.append_nil]
        · exact fun hno j hj ↦ hno j (mem_append_left _ hj)
      · obtain ⟨size', hto⟩ := hplaced.mp ht
        obtain rfl := Except.ok.inj (hsize.symm.trans (size_of_toPlace hto).1)
        have hexp : s.ExportsAt i := by
          refine ⟨hnamed, size, hto, ?_⟩
          by_contra hlt
          exact hc (Nat.div_eq_of_lt (by omega))
        rw [hnew, append_assoc] at htables
        rw [hnew, length_append] at hroom
        refine ⟨hsym'.trans hsym, _, htables, ?_, ?_⟩
        · refine forall_mem_append.mpr ⟨hall, ?_⟩
          exact forall_mem_singleton.mpr ⟨rfl, hc, ht, i, hi, rfl⟩
        · refine ⟨fun hn ↦ absurd hn (by simp), ?_⟩
          rintro (hfull | hno)
          · omega
          · exact absurd hexp (hno i (mem_append_right _ mem_cons_self))

theorem registerExports_spec
    (hplaced : ∀ i < s.count, (loaded.placement i).address ≠ 0 ↔ ∃ size, s.toPlace i = .ok (some size))
    (h : registerExports s loaded exports = .ok exports') :
    Joined s loaded exports (List.range s.count) exports' :=
  foldlM_induction (Joined s loaded exports)
    (fun _ _ i hi _ hst hstep ↦
      exportSection_spec (mem_range.mp hi) (hplaced i (mem_range.mp hi)) hst hstep)
    ⟨rfl, [], (List.append_nil _).symm, nofun, by simp⟩ h

end

end Tables

def Symbols.Held (exports : Symbols) (m : Memory) : Prop :=
  ∀ bytes : ℕ → UInt8, (∀ p, (p / pageSize < managedPages → m.frames.bitmap (p / pageSize) = true) →
      bytes p = m.bytes p) → ∀ name, 0 ∉ name → exports.lookup { m with bytes := bytes } name = exports.lookup m name

/-- A kernel in which nothing is left over from images that are gone. -/
structure Kernel.Settled (k : Kernel) : Prop where
  memory : k.memory.Orderly
  lookups : ∀ name, 0 ∉ name → ∃ address, k.symbolLookup name = .ok address
  held : k.symbols.Held k.memory

end Eris.Loader
