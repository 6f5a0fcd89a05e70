import Eris.Loader.Rollback
import Eris.Modules.RoundTrip

namespace Eris.Loader

open Library.Outcome Library.Words Mm Mm.Memory Modules List

/-- What the `init` and `exit` functions do: the results, and the contents of memory when they
have run. They leave the allocators and the tables of the kernel alone. -/
structure Drivers where
  result : InitResult
  afterInit : CString → Memory → ℕ → UInt8
  afterExit : CString → Memory → ℕ → UInt8

namespace Kernel

variable (drivers : Drivers) (name : CString) (k : Kernel)

def moduleLoad : Kernel × ℤ :=
  let out := Modules.moduleLoad drivers.result name k.modules
  ({ k with
    memory := { k.memory with bytes := drivers.afterInit name k.memory }
    modules := out.1 }, out.2)

def moduleUnload : Except Panic (Kernel × ℤ) := do
  let (modules, result, image) ← Modules.moduleUnload name k.modules
  let memory := { k.memory with bytes := drivers.afterExit name k.memory }
  match image with
  | none => return (⟨memory, k.symbols, modules⟩, result)
  | some (base, pages) =>
    return (⟨releaseImage base pages memory, k.symbols.unregisterOwner base, modules⟩, result)

end Kernel

variable {code : Code} {drivers : Drivers} {image : Image} {loaded : Loaded} {x : Module}
  {k k₁ k₂ k₃ : Kernel}

theorem moduleLoadImage_ok (hm : k.memory.Orderly)
    (h : moduleLoadImage code image k = .ok (k₁, .ok loaded)) :
    ∃ l v gs, l.base = loaded.base ∧ l.pages = loaded.pages ∧ Hosts k.memory k₁.memory l v gs ∧
      Brought l k.modules k₁.modules loaded.descriptors ∧
      ∃ new, k₁.symbols.tables = k.symbols.tables ++ new ∧ ∀ t ∈ new, t.owner = loaded.base := by
  rcases moduleLoadImage_cases h with ⟨-, e, he, -⟩ | ⟨header, total, -, -, -, -, hrest⟩
  · cases he
  · rcases hrest with ⟨m, -, -, he⟩ | ⟨m, l, halloc, hbuild⟩
    · cases he
    · obtain ⟨⟨v, gs, hh⟩, hempty⟩ := allocateImage_some hm halloc
      rcases buildImage_cases hh hempty hbuild with
        ⟨e, m', -, he, -⟩ | ⟨l', m', symbols, modules, n, hp, hh', hj, hdesc, hend⟩
      · cases he
      · rcases hend with ⟨-, he, -⟩ | ⟨-, hr, rfl⟩
        · cases he
        · cases hr
          obtain ⟨-, new, hnew, hall, -⟩ := hj
          obtain ⟨mods, hmods, hlen, hin, hn⟩ := registerDescriptors_spec hdesc
          rw [hp.base, hp.pages] at hin
          refine ⟨l, v, gs, rfl, rfl, hh', ⟨mods, hmods, hlen, hin, hn⟩, new, hnew, fun t ht ↦ ?_⟩
          rw [(hall t ht).1, hp.base]

/-- The resources are the same, but for frames that are now page tables. -/
structure SameResources (k k' : Kernel) : Prop where
  frames : ∀ f, k'.memory.frames.bitmap f = true ↔ k.memory.frames.bitmap f = true ∨ k'.memory.IsTable f
  window : ∀ a, k'.memory.vmalloc.Free a ↔ k.memory.vmalloc.Free a
  modules : k'.modules.live.Perm k.modules.live
  exports : k'.symbols.tables.Perm k.symbols.tables

theorem perm_filter_owner_iff {ts new : List RegisteredTable} {owner : ℕ}
    (h : ∀ t ∈ new, t.owner = owner) :
    ((ts ++ new).filter fun t ↦ t.owner ≠ owner).Perm ts ↔ ∀ t ∈ ts, t.owner ≠ owner := by
  have hnew : new.filter (fun t ↦ t.owner ≠ owner) = [] := by
    rw [filter_eq_nil_iff]
    intro t ht
    simp [h t ht]
  rw [filter_append, hnew, List.append_nil]
  constructor
  · intro hp t ht
    simpa using (mem_filter.mp (hp.mem_iff.mpr ht)).2
  · intro hall
    rw [filter_eq_self.mpr fun t ht ↦ by simpa using hall t ht]

/-- Loading an image, starting its module and unloading it again is the identity on the
resources exactly when no export table was registered under the base of its window before. -/
theorem load_unload_identity_iff (hm : k.memory.Orderly) (hn : k.modules.names.Nodup)
    (himage : moduleLoadImage code image k = .ok (k₁, .ok loaded))
    (hx : k₁.modules.live = k.modules.live ++ [x])
    (hdeps : ∀ d ∈ x.info.deps, k.modules.stateOf d = some .ready)
    (hload : k₁.moduleLoad drivers x.info.name = (k₂, 0))
    (hunload : k₂.moduleUnload drivers x.info.name = .ok (k₃, 0)) :
    SameResources k k₃ ↔ ∀ t ∈ k.symbols.tables, t.owner ≠ loaded.base := by
  obtain ⟨l, v, gs, hbase, hpages, hh, ⟨mods, hmods, -, hin, hnodup⟩, new, hnew, howner⟩ :=
    moduleLoadImage_ok hm himage
  obtain rfl := append_cancel_left (hmods.symm.trans hx)
  obtain ⟨hstate, hxb, hxp⟩ := forall_mem_singleton.mp hin
  obtain ⟨rfl, h2⟩ := Prod.mk.inj hload
  obtain ⟨⟨modules, result, released⟩, hmod, hunload⟩ := bind_eq_ok.mp hunload
  have hlow := hh.low
  have hbase0 : x.imageBase ≠ 0 := by
    have : 0 < vmallocBase := by decide
    omega
  have hresult : result = 0 := by
    simp only at hunload
    split at hunload
    · exact congrArg Prod.snd (Except.ok.inj hunload)
    · exact congrArg Prod.snd (Except.ok.inj hunload)
  subst hresult
  obtain ⟨hperm, rfl⟩ := moduleUnload_fresh hx (hnodup hn) hstate hbase0 hdeps
    (Prod.ext rfl h2) hmod
  obtain rfl := congrArg Prod.fst (Except.ok.inj hunload)
  have hret := fun b ↦ (hh.bytes b).release (hm.bytes b)
  have hexports := perm_unregisterOwner k₁.symbols l.base
  rw [hnew] at hexports
  rw [hxb, hxp]
  rw [← hbase] at howner ⊢
  rw [← perm_filter_owner_iff howner]
  constructor
  · exact fun hsame ↦ hexports.symm.trans hsame.exports
  · exact fun h ↦ ⟨(hret _).frames, (hret _).free, hperm, hexports.trans h⟩

def loadedWith (t : Kernel → Loaded → Bool) : Except Fault (Kernel × Except Refusal Loaded) → Bool
  | .ok (k, .ok loaded) => t k loaded
  | _ => false

theorem of_loadedWith {t : Kernel → Loaded → Bool} {r : Except Fault (Kernel × Except Refusal Loaded)}
    (h : loadedWith t r = true) : ∃ k loaded, r = .ok (k, .ok loaded) ∧ t k loaded = true := by
  match r with
  | .ok (k, .ok loaded) => exact ⟨k, loaded, rfl, h⟩
  | .ok (k, .error _) => cases h
  | .error _ => cases h

def unloadedWith (t : Kernel → Bool) : Except Panic (Kernel × ℤ) → Bool
  | .ok (k, 0) => t k
  | _ => false

theorem of_unloadedWith {t : Kernel → Bool} {r : Except Panic (Kernel × ℤ)}
    (h : unloadedWith t r = true) : ∃ k, r = .ok (k, 0) ∧ t k = true := by
  unfold unloadedWith at h
  split at h
  · exact ⟨_, rfl, h⟩
  · cases h

/-- Every `init` succeeds, and none of the functions touches memory. -/
def Drivers.idle : Drivers := ⟨fun _ _ ↦ 0, fun _ m ↦ m.bytes, fun _ m ↦ m.bytes⟩

/-- Whether an image with the module `alpha` can be loaded, started and unloaded, with a test
for what is left. -/
def comesAndGoes (t : Kernel → Bool) (k : Kernel) : Bool :=
  loadedWith (fun k₁ _ ↦ k₁.modules.live = k.modules.live ++ [k₁.modules.live.getLastD Module.zero] ∧
    (k₁.modules.live.getLastD Module.zero).info.name = cstring "alpha" ∧
    (k₁.modules.live.getLastD Module.zero).info.deps = [] ∧ (k₁.moduleLoad .idle (cstring "alpha")).2 = 0 ∧
    unloadedWith t ((k₁.moduleLoad .idle (cstring "alpha")).1.moduleUnload .idle (cstring "alpha")))
    (moduleLoadImage .idle plainImage k)

theorem of_comesAndGoes {t : Kernel → Bool} (h : comesAndGoes t k = true) :
    ∃ k₁ loaded k₂ k₃ x, moduleLoadImage .idle plainImage k = .ok (k₁, .ok loaded) ∧
      k₁.modules.live = k.modules.live ++ [x] ∧ (∀ d ∈ x.info.deps, k.modules.stateOf d = some .ready) ∧
      k₁.moduleLoad .idle x.info.name = (k₂, 0) ∧ k₂.moduleUnload .idle x.info.name = .ok (k₃, 0) ∧ t k₃ = true := by
  obtain ⟨k₁, loaded, himage, h⟩ := of_loadedWith h
  simp only [decide_eq_true_eq] at h
  obtain ⟨hx, hname, hdeps, hload, h⟩ := h
  obtain ⟨k₃, hunload, ht⟩ := of_unloadedWith h
  refine ⟨k₁, loaded, _, k₃, _, himage, hx, ?_, Prod.ext rfl (hname ▸ hload), hname ▸ hunload, ht⟩
  rw [hdeps]
  exact nofun

theorem load_unload_identity_iff_blank :
    ∃ k₁ loaded k₂ k₃ x, moduleLoadImage .idle plainImage (blankKernel (· < 2) []) = .ok (k₁, .ok loaded) ∧
      k₁.modules.live = [x] ∧ k₁.moduleLoad .idle x.info.name = (k₂, 0) ∧
      k₂.moduleUnload .idle x.info.name = .ok (k₃, 0) ∧ SameResources (blankKernel (· < 2) []) k₃ := by
  obtain ⟨k₁, loaded, k₂, k₃, x, himage, hx, hdeps, hload, hunload, -⟩ :=
    of_comesAndGoes (k := blankKernel (· < 2) []) (t := fun _ ↦ true) (by decide +kernel)
  have hn : (blankKernel (· < 2) []).modules.names.Nodup := nodup_nil
  have hiff := load_unload_identity_iff (blank_orderly rfl rfl) hn himage hx hdeps hload hunload
  exact ⟨k₁, loaded, k₂, k₃, x, himage, hx, hload, hunload, hiff.mpr nofun⟩

/-- A refused image leaves its export table behind, the next one gets the same window, and
unloading it removes both tables. -/
theorem load_unload_not_identity :
    ∃ k, moduleLoadImage .idle exportsOnlyImage (blankKernel (· < 2) []) = .ok (k, .error .noDescriptor) ∧
      ∃ k₁ loaded k₂ k₃ x, moduleLoadImage .idle plainImage k = .ok (k₁, .ok loaded) ∧
        k₁.modules.live = k.modules.live ++ [x] ∧ (∀ d ∈ x.info.deps, k.modules.stateOf d = some .ready) ∧
        k₁.moduleLoad .idle x.info.name = (k₂, 0) ∧ k₂.moduleUnload .idle x.info.name = .ok (k₃, 0) ∧
        ¬ SameResources k k₃ := by
  obtain ⟨k, hk, h⟩ := of_refusalWith (e := .noDescriptor)
    (t := fun k ↦ k.symbols.tables.length = 1 ∧ comesAndGoes (fun k₃ ↦ k₃.symbols.tables = []) k)
    (x := moduleLoadImage .idle exportsOnlyImage (blankKernel (· < 2) [])) (by decide +kernel)
  simp only [decide_eq_true_eq] at h
  obtain ⟨k₁, loaded, k₂, k₃, x, himage, hx, hdeps, hload, hunload, ht⟩ := of_comesAndGoes h.2
  refine ⟨k, hk, k₁, loaded, k₂, k₃, x, himage, hx, hdeps, hload, hunload, fun hsame ↦ ?_⟩
  have hlen := hsame.exports.length_eq
  rw [of_decide_eq_true ht, h.1] at hlen
  cases hlen

end Eris.Loader
