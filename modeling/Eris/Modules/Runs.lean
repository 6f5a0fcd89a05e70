import Eris.Modules.Unloading

namespace Eris.Modules

open List Option Table

inductive Op
  | register (info : ModuleInfo) (base pages : ℕ)
  | load (name : CString)
  | unload (name : CString)
  | get (name : CString)
  | put (name : CString)

def step (init : InitResult) (t : Table) : Op → Except Panic (Table × Bool)
  | .register info base pages =>
    let out := moduleRegisterLoaded info base pages t
    .ok (out.1, out.2 == 0)
  | .load name =>
    let out := moduleLoad init name t
    .ok (out.1, out.2 == 0)
  | .unload name => do
    let out ← moduleUnload name t
    return (out.1, out.2.1 == 0)
  | .get name => .ok (moduleGet name t)
  | .put name => do
    let t' ← modulePut name t
    return (t', true)

/-- The calls made so far with their results, the last one first. -/
abbrev History := List (Op × Bool)

/-- Every state a boot and the calls after it lead to, when each call meets a condition. -/
inductive Reachable (init : InitResult) (builtins : List ModuleInfo) (ok : Op → Table → Prop) :
    Table → History → Prop
  | boot : Reachable init builtins ok (moduleInitBuiltin init builtins .empty) []
  | step {t t' : Table} {h : History} {r : Bool} (op : Op) :
      Reachable init builtins ok t h → ok op t → step init t op = .ok (t', r) →
      Reachable init builtins ok t' ((op, r) :: h)

/-- The successful `module_get` calls on a name that no `module_put` has matched, since a
module of that name was last registered. -/
def outstanding (a : CString) : History → ℤ
  | [] => 0
  | (.register info _ _, true) :: h => if info.name = a then 0 else outstanding a h
  | (.get name, true) :: h => if name = a then outstanding a h + 1 else outstanding a h
  | (.put name, true) :: h => if name = a then outstanding a h - 1 else outstanding a h
  | _ :: h => outstanding a h

/-- What a call must meet for the counts to stay exact: an accepted registration takes a slot
whose counts are zero, and no `module_get` finds the user count at its limit. -/
def Clean : Op → Table → Prop
  | .register info _ _, t => info.abi = moduleAbiVersion → info.name ∉ t.names →
      ∀ slot ∈ t.spare.head?, slot.dependents = 0 ∧ slot.users = 0
  | .get name, t => ∀ m, t.lookup name = some m → m.state = .ready → m.users.toNat + 1 < 2 ^ 32
  | _, _ => True

def CountsExact (t : Table) (h : History) : Prop :=
  ∀ m ∈ t.live, (m.users.toNat : ℤ) = outstanding m.info.name h ∧ m.dependents = t.uses m.info.name

instance (t : Table) (h : History) : Decidable (CountsExact t h) :=
  inferInstanceAs (Decidable (∀ m ∈ t.live, _ ∧ _))

def run (init : InitResult) : List Op → Table × History → Except Panic (Table × History)
  | [], s => .ok s
  | op :: ops, s => do
    let out ← step init s.1 op
    run init ops (out.1, (op, out.2) :: s.2)

def bootAndRun (init : InitResult) (builtins : List ModuleInfo) (ops : List Op) :
    Except Panic (Table × History) :=
  run init ops (moduleInitBuiltin init builtins .empty, [])

namespace Counting

open Loading Library.Outcome

variable {extra : CString → ℕ} {t t' : Table} {h : History} {a : CString} {init : InitResult}

structure Exact (t : Table) (h : History) : Prop where
  sound : Sound (fun _ ↦ 0) t
  users : ∀ a m, t.lookup a = some m → (m.users.toNat : ℤ) = outstanding a h

theorem moduleRegisterLoaded_spec (info : ModuleInfo) (base pages : ℕ) (t : Table) :
    (moduleRegisterLoaded info base pages t).2 = -1 ∧ (∃ e, (moduleRegisterLoaded info base pages t).1 = t.print e) ∧
      (info.abi = moduleAbiVersion → info.name ∉ t.names → t.spare.head? = none) ∨
    (moduleRegisterLoaded info base pages t).2 = 0 ∧ info.abi = moduleAbiVersion ∧
      info.name ∉ t.names ∧ ∃ slot ∈ t.spare.head?, (moduleRegisterLoaded info base pages t).1.live =
          t.live ++ [slot.assign info base pages] := by
  have hfree : (t.find info.name).isSome = false ↔ info.name ∉ t.names := by
    rw [Option.isSome_eq_false_iff, Option.isNone_iff_eq_none, find_eq_none, lookup_eq_none]
  unfold moduleRegisterLoaded
  split
  · exact .inl ⟨rfl, ⟨_, rfl⟩, fun habi ↦ absurd habi ‹_›⟩
  · rename_i habi
    split
    · rename_i hfind
      exact .inl ⟨rfl, ⟨_, rfl⟩, fun _ hnew ↦ absurd (hfree.mpr hnew) (by simp [hfind])⟩
    · rename_i hfind
      have hnew := hfree.mp (Bool.not_eq_true _ ▸ hfind)
      split
      · rename_i hpush
        refine .inl ⟨rfl, ⟨_, rfl⟩, fun _ _ ↦ ?_⟩
        unfold Table.push at hpush
        grind
      · rename_i t' hpush
        obtain ⟨slot, spare, hs, hl, -⟩ := push_some hpush
        exact .inr ⟨rfl, not_not.mp habi, hnew, slot, by simp [hs], hl⟩

theorem Sound.register (hs : Sound extra t) (info : ModuleInfo) (base pages : ℕ) :
    ∃ extra', Sound extra' (moduleRegisterLoaded info base pages t).1 := by
  rcases moduleRegisterLoaded_spec info base pages t with ⟨-, ⟨e, he⟩, -⟩ | ⟨-, -, hnew, slot, -, hl⟩
  · exact ⟨extra, he ▸ hs.print e⟩
  · exact ⟨_, hs.push hl rfl hnew⟩

theorem Exact.push (he : Exact t h) {info : ModuleInfo} {base pages : ℕ} {slot : Module} (hnew : info.name ∉ t.names)
    (hl : t'.live = t.live ++ [slot.assign info base pages]) (hzero : slot.dependents = 0 ∧ slot.users = 0) :
    Sound (fun _ ↦ 0) t' ∧ ∀ a m, t'.lookup a = some m →
      (m.users.toNat : ℤ) = if info.name = a then 0 else outstanding a h := by
  refine ⟨(he.sound.push hl rfl hnew).congr fun a _ ↦ ?_, fun a m hm ↦ ?_⟩
  · rw [Function.update_apply]
    split
    · exact hzero.1.symm
    · rfl
  · rw [lookup_append hl] at hm
    by_cases ha : info.name = a
    · subst ha
      have hm' : slot.assign info base pages = m := by
        simpa [lookup_eq_none.mpr hnew, Module.assign] using hm
      rw [if_pos rfl, ← hm']
      simp [Module.assign, hzero.2]
    · rw [if_neg ha]
      have hm' : t.lookup a = some m := by simpa [Module.assign, ha] using hm
      exact he.users a m hm'

theorem Exact.register (he : Exact t h) (info : ModuleInfo) (base pages : ℕ)
    (hc : Clean (.register info base pages) t) :
    Exact (moduleRegisterLoaded info base pages t).1
      ((.register info base pages, (moduleRegisterLoaded info base pages t).2 == 0) :: h) := by
  rcases moduleRegisterLoaded_spec info base pages t with
    ⟨hr, ⟨e, ht⟩, -⟩ | ⟨hr, habi, hnew, slot, hslot, hl⟩
  · rw [hr, ht]
    exact ⟨he.sound.print e, he.users⟩
  · obtain ⟨hsound, husers⟩ := he.push hnew hl (hc habi hnew slot hslot)
    rw [hr]
    exact ⟨hsound, husers⟩

theorem Sound.load (hs : Sound extra t) (init : InitResult) (name : CString) :
    Sound extra (moduleLoad init name t).1 := by
  unfold moduleLoad
  split
  · exact hs
  · rename_i i hf
    obtain ⟨m, hm, -⟩ := find_some hf
    exact (loadLocked_sound init (maxModules + 1) t i m hs hm).1

theorem users_iff (he : ∀ a m, t.lookup a = some m → (m.users.toNat : ℤ) = outstanding a h)
    (hu : ∀ a, Table.usersOf t' a = Table.usersOf t a) (a : CString) (m : Module)
    (hm : t'.lookup a = some m) : (m.users.toNat : ℤ) = outstanding a h := by
  have hum := hu a
  simp only [Table.usersOf, hm, map_some] at hum
  obtain ⟨m₀, hm₀, hmu⟩ := map_eq_some_iff.mp hum.symm
  rw [← hmu]
  exact he a m₀ hm₀

theorem Exact.load (he : Exact t h) (init : InitResult) (name : CString) (r : Bool) :
    Exact (moduleLoad init name t).1 ((.load name, r) :: h) := by
  refine ⟨he.sound.load init name, users_iff he.users fun a ↦ ?_⟩
  unfold moduleLoad
  split
  · rfl
  · exact loadLocked_users init (maxModules + 1) t _ a

theorem Sound.unload (hs : Sound extra t) {name : CString} {out : Table × ℤ × Option (ℕ × ℕ)}
    (hout : moduleUnload name t = .ok out) :
    Sound extra out.1 ∧ ∀ a m', out.1.lookup a = some m' →
      ∃ m₀, t.lookup a = some m₀ ∧ m₀.info = m'.info ∧ m₀.users = m'.users := by
  rcases moduleUnload_spec hs name with ⟨-, ho⟩ | ⟨m, -, ⟨-, ho⟩ | ⟨-, -, ho⟩ | ⟨-, -, -, t', i, ho, hs', hu⟩⟩
  all_goals
    rw [ho] at hout
    cases hout
  · exact ⟨hs, fun a m' hm' ↦ ⟨m', hm', rfl, rfl⟩⟩
  · exact ⟨hs, fun a m' hm' ↦ ⟨m', hm', rfl, rfl⟩⟩
  · exact ⟨hs.print _, fun a m' hm' ↦ ⟨m', hm', rfl, rfl⟩⟩
  · exact ⟨hs', hu⟩

theorem Exact.unload (he : Exact t h) {name : CString} {out : Table × ℤ × Option (ℕ × ℕ)}
    (hout : moduleUnload name t = .ok out) (r : Bool) :
    Exact out.1 ((.unload name, r) :: h) := by
  obtain ⟨hs, hu⟩ := he.sound.unload hout
  refine ⟨hs, fun a m hm ↦ ?_⟩
  obtain ⟨m₀, hm₀, -, hmu⟩ := hu a m hm
  rw [← hmu]
  exact he.users a m₀ hm₀

theorem Sound.modify_users (hs : Sound extra t) {i : ℕ} {m : Module} (hm : t.live[i]? = some m)
    {f : Module → Module} (hf : ∀ m, ∃ u, f m = { m with users := u }) :
    Sound extra (t.modify i f) := by
  have hi : ∀ m, (f m).info = m.info := fun m ↦ by obtain ⟨u, hu⟩ := hf m; rw [hu]
  obtain ⟨u, hu⟩ := hf m
  have huses : ∀ b, (t.modify i f).uses b = t.uses b := by
    intro b
    have hlist : (f m).listed b = m.listed b := by rw [hu]; rfl
    have := uses_modify (f := f) b hm
    omega
  have hst : ∀ b, (t.modify i f).stateOf b = t.stateOf b := by
    intro b
    rw [stateOf_modify hs.names hm hi]
    split
    · rename_i hbm
      rw [hbm, hu, stateOf_of_getElem? hs.names hm]
    · rfl
  refine .of_each (by rw [names_modify hi]; exact hs.names) fun b m' hb ↦ ?_
  simp only [huses, hst]
  rw [lookup_modify hs.names hm hi] at hb
  split at hb
  · rename_i hbm
    cases hb
    have hl := hbm ▸ lookup_of_getElem? hs.names hm
    rw [hu]
    exact ⟨hs.count b m hl, hs.ready b m hl, hs.error b m hl⟩
  · exact ⟨hs.count b m' hb, hs.ready b m' hb, hs.error b m' hb⟩

theorem Sound.get (hs : Sound extra t) (name : CString) : Sound extra (moduleGet name t).1 := by
  unfold moduleGet
  split
  · exact hs
  · rename_i i hf
    obtain ⟨m, hm, -⟩ := find_some hf
    split
    · exact hs
    · exact hs.modify_users hm fun m ↦ ⟨_, rfl⟩

theorem Sound.put (hs : Sound extra t) {name : CString} (hp : modulePut name t = .ok t') :
    Sound extra t' := by
  unfold modulePut at hp
  split at hp
  · cases hp
  · rename_i i hf
    obtain ⟨m, hm, -⟩ := find_some hf
    split at hp
    · cases hp
    · cases hp
      exact hs.modify_users hm fun m ↦ ⟨_, rfl⟩

theorem Exact.recount (he : Exact t h) {i : ℕ} {m : Module} (hm : t.live[i]? = some m) {f : Module → Module}
    (hf : ∀ m, (f m).info = m.info) {n : ℤ} (hn : ((f m).users.toNat : ℤ) = n) :
    ∀ a m', (t.modify i f).lookup a = some m' →
      (m'.users.toNat : ℤ) = if m.info.name = a then n else outstanding a h := by
  intro a m' hm'
  rw [lookup_modify he.sound.names hm hf] at hm'
  split at hm'
  · rename_i ha
    cases hm'
    rw [if_pos ha.symm, hn]
  · rename_i ha
    rw [if_neg (Ne.symm ha)]
    exact he.users a m' hm'

theorem Exact.get (he : Exact t h) (name : CString) (hc : Clean (.get name) t) :
    Exact (moduleGet name t).1 ((.get name, (moduleGet name t).2) :: h) := by
  refine ⟨he.sound.get name, ?_⟩
  unfold moduleGet
  split
  · exact he.users
  · rename_i i hf
    obtain ⟨m, hm, hl, rfl⟩ := find_some hf
    rw [hm, getD_some]
    split
    · exact he.users
    · rename_i hready
      have hlim := hc m hl (not_not.mp hready)
      have hu := he.users _ m hl
      have hnew : (m.takeUser.users.toNat : ℤ) = outstanding m.info.name h + 1 := by
        rw [← hu, Module.takeUser, UInt32.toNat_add, UInt32.toNat_one, Nat.mod_eq_of_lt hlim]
        rfl
      intro a m' hm'
      rw [he.recount (f := Module.takeUser) hm (fun _ ↦ rfl) hnew a m' hm']
      grind [outstanding]

theorem Exact.put (he : Exact t h) {name : CString} (hp : modulePut name t = .ok t') :
    Exact t' ((.put name, true) :: h) := by
  refine ⟨he.sound.put hp, ?_⟩
  unfold modulePut at hp
  split at hp
  · cases hp
  · rename_i i hf
    obtain ⟨m, hm, hl, rfl⟩ := find_some hf
    rw [hm, getD_some] at hp
    split at hp
    · cases hp
    · rename_i hne
      cases hp
      have hu := he.users _ m hl
      have hpos : 1 ≤ m.users.toNat := by
        by_contra hlt
        exact hne (UInt32.toNat.inj (by simpa using hlt))
      have hnew : (m.dropUser.users.toNat : ℤ) = outstanding m.info.name h - 1 := by
        have hle : (1 : UInt32) ≤ m.users := UInt32.le_iff_toNat_le.mpr (by simpa using hpos)
        rw [← hu, Module.dropUser, UInt32.toNat_sub_of_le _ _ hle, UInt32.toNat_one]
        omega
      intro a m' hm'
      rw [he.recount (f := Module.dropUser) hm (fun _ ↦ rfl) hnew a m' hm']
      grind [outstanding]

theorem registerBuiltin_exact (builtins : List ModuleInfo) (t : Table) (he : Exact t [])
    (hz : ∀ slot ∈ t.spare, slot.dependents = 0 ∧ slot.users = 0)
    (hn : (builtins.map ModuleInfo.name).Nodup)
    (hd : ∀ info ∈ builtins, info.name ∉ t.names) :
    Exact (builtins.foldl registerBuiltin t) [] := by
  induction builtins generalizing t with
  | nil => exact he
  | cons info builtins ih =>
    rw [map_cons, nodup_cons] at hn
    have hnew := hd info (by simp)
    have hd' := fun i hi ↦ hd i (mem_cons_of_mem _ hi)
    rw [foldl_cons]
    unfold registerBuiltin
    split
    · exact ih _ ⟨he.sound.print _, he.users⟩ hz hn.2 hd'
    · rename_i t' hpush
      split
      · exact ih _ ⟨he.sound.print _, he.users⟩ hz hn.2 hd'
      · obtain ⟨slot, spare, hs, hl, hsp⟩ := push_some hpush
        obtain ⟨hsound, husers⟩ := he.push hnew hl (hz slot (by simp [hs]))
        refine ih t' ⟨hsound, fun a m hm ↦ (husers a m hm).trans (ite_self _)⟩ ?_ hn.2 ?_
        · intro s hs'
          exact hz s (by rw [hs]; exact mem_cons_of_mem _ (hsp ▸ hs'))
        · intro i hi hmem
          have hnames : t'.names = t.names ++ [info.name] := by
            simp [Table.names, Table.infos, hl, Module.assign]
          rw [hnames] at hmem
          rcases mem_append.mp hmem with hmem | hmem
          · exact hd' i hi hmem
          · exact hn.1 (mem_singleton.mp hmem ▸ List.mem_map_of_mem hi)

theorem loadSlots_exact (init : InitResult) (slots : List ℕ) (t : Table) (he : Exact t h)
    (hslots : ∀ i ∈ slots, i < t.registered) :
    Exact (slots.foldl (fun t i ↦ (loadLocked init (maxModules + 1) t i).1) t) h := by
  induction slots generalizing t with
  | nil => exact he
  | cons i slots ih =>
    obtain ⟨m, hm⟩ : ∃ m, t.live[i]? = some m := ⟨_, getElem?_eq_getElem (hslots i (by simp))⟩
    obtain ⟨hs, hinfos, -⟩ := loadLocked_sound init (maxModules + 1) t i m he.sound hm
    refine ih _ ⟨hs, users_iff he.users fun a ↦ loadLocked_users init (maxModules + 1) t i a⟩
      fun j hj ↦ ?_
    have hlen := congrArg List.length hinfos
    simp only [Table.infos, length_map] at hlen
    rw [Table.registered, hlen]
    exact hslots j (mem_cons_of_mem _ hj)

theorem boot_exact (init : InitResult) (builtins : List ModuleInfo)
    (hb : (builtins.map ModuleInfo.name).Nodup) :
    Exact (moduleInitBuiltin init builtins .empty) [] := by
  have hempty : Exact .empty [] := by
    refine ⟨⟨?_, ?_, ?_, ?_⟩, ?_⟩ <;> simp [Table.names, Table.infos, Table.lookup, Table.empty]
  have hreg := registerBuiltin_exact builtins .empty hempty
    (by simp [Table.empty, Module.zero]) hb (by simp [Table.names, Table.infos, Table.empty])
  exact loadSlots_exact init _ _ ⟨hreg.sound.print _, hreg.users⟩ (by simp)

theorem step_unload {name : CString} {r : Bool} (hstep : step init t (.unload name) = .ok (t', r)) :
    ∃ out, moduleUnload name t = .ok out ∧ t' = out.1 := by
  obtain ⟨out, hout, heq⟩ := bind_eq_ok.mp hstep
  cases heq
  exact ⟨out, hout, rfl⟩

theorem step_put {name : CString} {r : Bool} (hstep : step init t (.put name) = .ok (t', r)) :
    modulePut name t = .ok t' ∧ r = true := by
  obtain ⟨u, hu, heq⟩ := bind_eq_ok.mp hstep
  cases heq
  exact ⟨hu, rfl⟩

theorem Sound.step (hs : Sound extra t) {op : Op} {r : Bool}
    (hstep : step init t op = .ok (t', r)) : ∃ extra', Sound extra' t' := by
  cases op with
  | register info base pages =>
    cases hstep
    exact hs.register info base pages
  | load name =>
    cases hstep
    exact ⟨extra, hs.load init name⟩
  | unload name =>
    obtain ⟨out, hout, rfl⟩ := step_unload hstep
    exact ⟨extra, (hs.unload hout).1⟩
  | get name =>
    obtain rfl := congrArg Prod.fst (Except.ok.inj hstep)
    exact ⟨extra, hs.get name⟩
  | put name => exact ⟨extra, hs.put (step_put hstep).1⟩

theorem Exact.step (he : Exact t h) {op : Op} {r : Bool} (hc : Clean op t)
    (hstep : step init t op = .ok (t', r)) : Exact t' ((op, r) :: h) := by
  cases op with
  | register info base pages =>
    cases hstep
    exact he.register info base pages hc
  | load name =>
    cases hstep
    exact he.load init name _
  | unload name =>
    obtain ⟨out, hout, rfl⟩ := step_unload hstep
    exact he.unload hout r
  | get name =>
    have heq := Except.ok.inj hstep
    obtain rfl := congrArg Prod.fst heq
    obtain rfl := congrArg Prod.snd heq
    exact he.get name hc
  | put name =>
    obtain ⟨hput, rfl⟩ := step_put hstep
    exact he.put hput

variable {builtins : List ModuleInfo} {ok : Op → Table → Prop}

theorem sound_of_reachable (hb : (builtins.map ModuleInfo.name).Nodup)
    (hr : Reachable init builtins ok t h) : ∃ extra, Sound extra t := by
  induction hr with
  | boot => exact ⟨_, (boot_exact init builtins hb).sound⟩
  | step op _ _ hstep ih =>
    obtain ⟨extra, hs⟩ := ih
    exact hs.step hstep

theorem exact_of_reachable (hb : (builtins.map ModuleInfo.name).Nodup)
    (hr : Reachable init builtins Clean t h) : Exact t h := by
  induction hr with
  | boot => exact boot_exact init builtins hb
  | step op _ hc hstep ih => exact ih.step hc hstep

theorem reachable_run {ops : List Op} {s s' : Table × History}
    (hr : Reachable init builtins (fun _ _ ↦ True) s.1 s.2) (hs : run init ops s = .ok s') :
    Reachable init builtins (fun _ _ ↦ True) s'.1 s'.2 := by
  induction ops generalizing s with
  | nil =>
    cases hs
    exact hr
  | cons op ops ih =>
    obtain ⟨out, hout, hs⟩ := bind_eq_ok.mp hs
    exact ih (.step op hr trivial hout) hs

theorem Exact.countsExact (he : Exact t h) : CountsExact t h := by
  intro m hm
  have hl := Table.lookup_of_mem he.sound.names hm
  have hc := he.sound.count _ m hl
  exact ⟨he.users _ m hl, by omega⟩

theorem Exact.clean_of_countsExact (he : Exact t h) {op : Op} {r : Bool}
    (hstep : Modules.step init t op = .ok (t', r)) (hex : CountsExact t' ((op, r) :: h)) :
    Clean op t := by
  cases op with
  | register info base pages =>
    intro habi hnew slot hslot
    obtain ⟨hr, hl⟩ : (moduleRegisterLoaded info base pages t).2 = 0 ∧
        (moduleRegisterLoaded info base pages t).1.live = t.live ++ [slot.assign info base pages] := by
      rcases moduleRegisterLoaded_spec info base pages t with ⟨-, -, hnone⟩ | ⟨hr, -, -, slot', hslot', hl⟩
      · exact absurd (hnone habi hnew ▸ hslot) nofun
      · exact ⟨hr, Option.mem_unique hslot hslot' ▸ hl⟩
    cases hstep
    obtain ⟨hu, hd⟩ := hex (slot.assign info base pages) (by simp [hl])
    rw [uses_append hl rfl] at hd
    have huses := he.sound.uses_absent hnew
    have hu0 : (slot.users.toNat : ℤ) = 0 := by
      simpa [hr, outstanding, Module.assign] using hu
    refine ⟨hd.trans huses, UInt32.toNat.inj ?_⟩
    simpa using hu0
  | get name =>
    intro m hl hready
    obtain ⟨i, hf, hm⟩ := find_of_lookup hl
    obtain rfl := lookup_name hl
    have hget : moduleGet m.info.name t = (t.modify i Module.takeUser, true) := by
      simp [moduleGet, hf, hm, hready]
    have hstep' := Except.ok.inj hstep
    rw [hget, Prod.mk.injEq] at hstep'
    obtain ⟨rfl, rfl⟩ := hstep'
    have hmem : m.takeUser ∈ (t.modify i Module.takeUser).live :=
      mem_of_getElem? (i := i) (by simp [hm])
    have hu := (hex _ hmem).1
    have hold := he.users _ m hl
    simp only [outstanding, Module.takeUser, if_true, UInt32.toNat_add, UInt32.toNat_one] at hu
    omega
  | load name => trivial
  | unload name => trivial
  | put name => trivial

def stacked : List Op :=
  [.register (plainInfo "a" []) 1 1, .register (plainInfo "b" []) 2 1,
    .register (plainInfo "c" ["b"]) 3 1, .load (cstring "a"), .load (cstring "c"),
    .unload (cstring "b"), .unload (cstring "a")]

theorem Sound.unload_refused_iff (hs : Sound extra t) {m : Module} (hm : m ∈ t.live) (hready : m.state = .ready) :
    (∃ t', moduleUnload m.info.name t = .ok (t', -1, none)) ↔ m.dependents ≠ 0 ∨ m.users ≠ 0 := by
  have hl := Table.lookup_of_mem hs.names hm
  rcases moduleUnload_spec hs m.info.name with ⟨hnone, -⟩ | ⟨m', hl', hcases⟩
  · rw [hl] at hnone
    cases hnone
  · obtain rfl := Option.some.inj (hl.symm.trans hl')
    rcases hcases with ⟨hn, -⟩ | ⟨-, hheld, ho⟩ | ⟨-, hd0, hu0, t', image, ho, -⟩
    · exact absurd hready hn
    · exact ⟨fun _ ↦ hheld, fun _ ↦ ⟨_, ho⟩⟩
    · rw [ho]
      simp [hd0, hu0]

/-- The slot `b` moved out of still holds the reference to `b` when `c` is put there. -/
def reusedSlot : List Op :=
  [.register (plainInfo "a" []) 1 1, .register (plainInfo "b" []) 2 1, .load (cstring "a"),
    .load (cstring "b"), .get (cstring "b"), .unload (cstring "a"),
    .register (plainInfo "c" []) 3 1, .load (cstring "c")]

end Counting

end Eris.Modules
