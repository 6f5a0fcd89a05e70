import Eris.Proc.Loading

namespace Eris.Proc

open Mm Mm.Memory

/-- The memory and the roots of the processes, from `paging_init` on. The kernel edits its own half
and `load` is given programs that are `allowed`. In between others use memory that is neither a table
nor a page of a process. -/
inductive Reachable (allowed : Program → Memory → Prop) : Memory → List ℕ → Prop
  | boot {m m' : Memory} {image : KernelImage} :
      m.frames.bitmap 0 = true → m.pagingInit image = some m' → Reachable allowed m' []
  | kernel {m : Memory} {ps : List ℕ} (c : Call) : Reachable allowed m ps → c.user = false →
      c.address + c.length ≤ userBase → Reachable allowed (c.run m).1 ps
  | load {m : Memory} {ps : List ℕ} {program : Program} : Reachable allowed m ps → allowed program m →
      Reachable allowed (load program m {}).1
        (if (load program m {}).2.1.root = 0 then ps else (load program m {}).2.1.root :: ps)
  | stack {m : Memory} {ps : List ℕ} (process : Process) : Reachable allowed m ps → process.root ∈ ps →
      Reachable allowed (mapStack m process).1 ps
  | elsewhere {m m' : Memory} {ps : List ℕ} : Reachable allowed m ps → m'.root = m.root →
      m'.frames.bitmap 0 = true → (∀ f, m.Table ps f → ∀ i, m'.entry f i = m.entry f i) →
      (∀ f, m.Table ps f → m'.frames.bitmap f = true) →
      (∀ r ∈ ps, ∀ a, indexOf a 3 ≠ 0 → ((m.under r).leaf a).present = true →
        m'.frames.bitmap ((m.under r).leaf a).frame = true) → Reachable allowed m' ps

def Program.Inside (program : Program) : Prop :=
  ∀ i < program.programHeaderCount, (program.programHeader i).loads = true →
    userBase ≤ (program.programHeader i).virtualAddress ∧
      (program.programHeader i).virtualAddress + (program.programHeader i).memorySize ≤ 2 ^ 47

variable {m m' : Memory} {ps : List ℕ} {r a : ℕ} {allowed : Program → Memory → Prop} {program : Program}

theorem Program.Inside.confined (h : program.Inside) (m : Memory) : program.Confined m := by
  intro i hi hl _
  obtain ⟨hbase, htop⟩ := h i hi hl
  refine ⟨fun k hk _ ↦ ?_, .inr fun j _ hj ↦ ?_⟩
  · unfold ProgramHeader.pages ProgramHeader.start at hk
    unfold ProgramHeader.start
    unfold pageSize userBase at *
    omega
  · unfold userBase at *
    omega

theorem spaces_of_directMap {pdpt directory : ℕ} (h : DirectMap m pdpt directory) : Spaces m [] := by
  have hzero := h.pml4 0
  refine ⟨h.wf, ?_, nofun, nofun, nofun, nofun, nofun, nofun⟩
  rw [hzero]
  exact ⟨⟨rfl, nofun⟩, rfl⟩

theorem Spaces.call (h : Spaces m ps) (c : Call) (hc : c.user = false) : Spaces (c.run m).1 ps := by
  obtain ⟨done, hdone⟩ := c.run_spec h.wf
  have hedit := hdone.edit
  rw [hc] at hedit
  exact h.kernel hedit

theorem Reachable.spaces (h : Reachable allowed m ps) (hallowed : ∀ program m, allowed program m → program.Confined m) :
    Spaces m ps := by
  induction h with
  | boot hlow hinit =>
    exact pagingInit_induction hlow hinit (fun _ _ _ hd ↦ spaces_of_directMap hd) fun m c hm hc _ ↦
      Spaces.call hm c hc.user_eq
  | kernel c _ huser _ ih => exact Spaces.call ih c huser
  | @load m ps program _ hp ih =>
    obtain ⟨m', process', ok, hrun, -, -, hcase⟩ := load_spec ih (hallowed program m hp)
    rw [hrun]
    rcases hcase with ⟨hroot, hspaces⟩ | ⟨hroot, hspaces⟩
    · rwa [if_pos hroot]
    · rwa [if_neg hroot]
  | stack process _ hr ih =>
    obtain ⟨m₁, process₁, ok, hrun, hspaces, -⟩ := mapFresh_spec ih hr
      { write := true, user := true, noExecute := true } userStackPages (userStackTop - userStackPages * pageSize)
      fun k hk _ ↦ indexOf_three_ne_zero_iff.mpr (by
        unfold userStackPages userStackTop userBase pageSize at *
        omega)
    rw [mapStack, hrun]
    exact hspaces
  | elsewhere _ hroot hlow hentry htable hdata ih => exact (ih.congr hroot hlow hentry htable hdata).1

theorem indexOf_three_of_lt (ha : a < userBase) : indexOf a 3 = 0 := by
  unfold indexOf entriesPerTable userBase at *
  omega

theorem Spaces.agree (h : Spaces m ps) (hr : r ∈ ps) (ha : a < userBase) :
    (m.under r).translate a = m.translate a ∧ (m.under r).rights a = m.rights a := by
  have hshared : m.entry r (indexOf a 3) = m.entry m.root (indexOf a 3) := by
    rw [indexOf_three_of_lt ha]
    exact h.shared r hr
  exact ⟨translate_under_congr hshared, rights_under_congr hshared⟩

theorem Spaces.not_user (h : Spaces m ps) (ha : a < userBase) {x : Rights} (hx : m.rights a = some x) :
    x.user = false := by
  rw [rights, rightsFrom] at hx
  simp only [indexOf_three_of_lt ha] at hx
  have huser := h.gate.2
  split at hx
  · split at hx
    · cases hx
      exact huser
    · exact rightsFrom_user hx huser
  · cases hx

/-- Every process sees the kernel's half as the kernel does, and the user does not get there. -/
theorem reachable_agrees (h : Reachable (fun program _ ↦ program.Inside) m ps) (hr : r ∈ ps) (ha : a < userBase) :
    (m.under r).translate a = m.translate a ∧ (m.under r).rights a = m.rights a ∧
      ∀ x, (m.under r).rights a = some x → x.user = false := by
  have hs := h.spaces fun program m hp ↦ hp.confined m
  obtain ⟨htranslate, hrights⟩ := Spaces.agree hs hr ha
  exact ⟨htranslate, hrights, fun x hx ↦ Spaces.not_user hs ha (hrights ▸ hx)⟩

def smallProgram : Program :=
  .ofSegments [{ type := 1, flags := 5, offset := 0, virtualAddress := userBase + 0x1000, fileSize := 3, memorySize := 3 }]

theorem smallProgram_inside : smallProgram.Inside := by
  unfold Program.Inside
  decide +kernel

theorem reachable_agrees_smallProgram :
    (load smallProgram booted {}).2.2 = true ∧
      ((load smallProgram booted {}).1.under (load smallProgram booted {}).2.1.root).translate 0x101234 =
        (load smallProgram booted {}).1.translate 0x101234 := by
  have hroot : (load smallProgram booted {}).2.1.root ≠ 0 := by decide +kernel
  have hboot : Reachable (fun program _ ↦ program.Inside) booted [] := .boot rfl pagingInit_bareMemory
  have h := hboot.load smallProgram_inside
  rw [if_neg hroot] at h
  exact ⟨by decide +kernel, (reachable_agrees h List.mem_cons_self (by decide)).1⟩

/-- What a program reaches in user mode is allocated, and no page table of the kernel or of a process. -/
theorem reachable_user_data (h : Reachable (fun program _ ↦ program.Inside) m ps) (hr : r ∈ ps) (ha : a < 2 ^ 48)
    {x : Rights} (hx : (m.under r).rights a = some x) (huser : x.user = true) :
    m.Data ps ((m.under r).translate a / pageSize) := by
  have hs := h.spaces fun program m hp ↦ hp.confined m
  have hpresent := (rights_through (hs.view r hr) hx).1
  have hindex : indexOf a 3 ≠ 0 := by
    rw [indexOf_three_ne_zero_iff]
    by_contra hlow
    have hbase : a < userBase := by omega
    rw [(Spaces.agree hs hr hbase).2] at hx
    exact Bool.false_ne_true ((Spaces.not_user hs hbase hx).symm.trans huser)
  rw [translate_eq (hs.view r hr), if_pos hpresent, Nat.add_comm, Nat.add_mul_div_right _ _ (by decide),
    Nat.div_eq_of_lt (Nat.mod_lt _ (by decide)), Nat.zero_add]
  exact hs.data r hr a hindex hpresent

theorem reachable_user_data_smallProgram :
    ∃ f, (load smallProgram booted {}).1.Data [(load smallProgram booted {}).2.1.root] f := by
  have hroot : (load smallProgram booted {}).2.1.root ≠ 0 := by decide +kernel
  have hboot : Reachable (fun program _ ↦ program.Inside) booted [] := .boot rfl pagingInit_bareMemory
  have h := hboot.load smallProgram_inside
  rw [if_neg hroot] at h
  exact ⟨_, reachable_user_data (a := 0x8000001002) (x := ⟨false, true, false⟩) h List.mem_cons_self (by decide)
    (by decide +kernel) rfl⟩

def aliasProgram : Program :=
  .ofSegments [{ type := 1, flags := 6, offset := 0, virtualAddress := 2 ^ 48 + 0x200000, fileSize := 0, memorySize := 8192 }]

end Eris.Proc
