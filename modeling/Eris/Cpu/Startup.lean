import Eris.Cpu.Smp

namespace Eris.Cpu

open Library Mm Sched Function

def Apart (stack stack' : ℕ) : Prop :=
  stack + apStackPages * pageSize ≤ stack' ∨ stack' + apStackPages * pageSize ≤ stack

def Taken (frames : Frames) (stack : ℕ) : Prop :=
  ∃ f, stack = (f + apStackPages) * pageSize ∧ ∀ g, f ≤ g → g < f + apStackPages → frames.bitmap g = true

theorem Taken.mono {frames frames' : Frames} {stack : ℕ} (h : Taken frames stack)
    (hle : ∀ f, frames.bitmap f = true → frames'.bitmap f = true) : Taken frames' stack := by
  obtain ⟨f, hf, hused⟩ := h
  exact ⟨f, hf, fun g hg hg' ↦ hle g (hused g hg hg')⟩

namespace State

variable {p : Platform} {s s' : State} {a b : UInt32} {c : Core}

/-- The core reads its slots before `smp_init` begins to write those of another core. -/
def Timely (s : State) : Action → Prop
  | .core a =>
    (s.cores a).stage = .rooted ∨ (s.cores a).stage = .called ∨ (s.cores a).stage = .indexed ∨
      (s.cores a).stage = .placed → s.owner = some a
  | _ => True

/-- Where `smp_init` is and what the slots hold. -/
structure Writing (p : Platform) (s : State) : Prop where
  pos : 1 ≤ s.boot.i
  inside : 1 ≤ s.boot.phase.rank → s.boot.phase.rank ≤ 12 → s.boot.i < p.apicIds.length ∧ s.boot.i < maxCpus
  visited : ∀ a q, s.prepared a = some q → 1 ≤ q.index ∧ q.index < maxCpus ∧ p.apicIds[q.index]? = some a ∧
    (q.index < s.boot.i ∨ q.index = s.boot.i ∧ 3 ≤ s.boot.phase.rank ∧ s.boot.phase.rank ≤ 12)
  current : 3 ≤ s.boot.phase.rank → s.boot.phase.rank ≤ 12 → s.prepared (s.current p) = some ⟨s.boot.i, s.boot.stack⟩
  fresh : 3 ≤ s.boot.phase.rank → s.boot.phase.rank ≤ 8 → (s.cores (s.current p)).stage = .off ∧
    s.owner = some (s.current p) ∧ s.slots.stack = s.boot.stack ∧ (6 ≤ s.boot.phase.rank → s.slots.index = s.boot.i) ∧
    (7 ≤ s.boot.phase.rank → s.slots.apicId = (s.current p).toNat)
  slots : ∀ a q, s.owner = some a → s.prepared a = some q → (s.cores a).stage ≠ .off →
    s.slots.stack = q.stack ∧ s.slots.index = q.index ∧ s.slots.apicId = a.toNat

/-- What the cores have read and written. -/
structure Identities (s : State) : Prop where
  known : ∀ a, (s.cores a).stage ≠ .off → s.prepared a ≠ none
  rsp : ∀ a q, s.prepared a = some q → 4 ≤ (s.cores a).stage.rank → (s.cores a).rsp = q.stack
  index : ∀ a q, s.prepared a = some q → 7 ≤ (s.cores a).stage.rank → (s.cores a).index = q.index
  apicId : ∀ a q, s.prepared a = some q → 8 ≤ (s.cores a).stage.rank → (s.cores a).apicId = a
  block : ∀ a q, s.prepared a = some q → 10 ≤ (s.cores a).stage.rank → (s.blocks q.index).index = q.index ∧
    (s.blocks q.index).apicId = a ∧ (s.blocks q.index).online = true
  top : ∀ a q, s.prepared a = some q → 11 ≤ (s.cores a).stage.rank → (s.blocks q.index).kernelStackTop = q.stack

structure StacksApart (s : State) : Prop where
  low : s.frames.bitmap 0 = true
  taken : ∀ stack, s.Lives stack → Taken s.frames stack
  apart : ∀ a b q q', a ≠ b → s.prepared a = some q → s.prepared b = some q' → Apart q.stack q'.stack
  next : s.boot.phase = .stack → ∀ a q, s.prepared a = some q → Apart s.boot.stack q.stack

structure Sound (p : Platform) (s : State) : Prop where
  writing : Writing p s
  identities : Identities s
  reserved : StacksApart s

section Writing

theorem Writing.injective (h : Writing p s) {q q' : Prepared} (ha : s.prepared a = some q) (hb : s.prepared b = some q')
    (heq : q.index = q'.index) : a = b := by
  have ha' := (h.visited a q ha).2.2.1
  rw [heq, (h.visited b q' hb).2.2.1] at ha'
  exact (Option.some.inj ha').symm

theorem getElem?_current (h : s.boot.i < p.apicIds.length) : p.apicIds[s.boot.i]? = some (s.current p) := by
  rw [current, Platform.cpuApicId, List.getD_eq_getElem?_getD, List.getElem?_eq_getElem h]
  rfl

theorem Writing.unprepared (h : Writing p s) (hlow : 1 ≤ s.boot.phase.rank) (hhigh : s.boot.phase.rank ≤ 2) :
    s.prepared (s.current p) = none := by
  obtain ⟨hi, -⟩ := h.inside hlow (by omega)
  cases hq : s.prepared (s.current p) with
  | none => rfl
  | some q =>
    obtain ⟨-, -, hmem, hlt⟩ := h.visited _ q hq
    have heq := (List.getElem?_inj hi p.nodup).mp ((getElem?_current hi).trans hmem.symm)
    omega

theorem Writing.core (h : Writing p s) {cores : UInt32 → Core} {slots : Slots} (hstack : slots.stack = s.slots.stack)
    (hindex : slots.index = s.slots.index) (hapicId : slots.apicId = s.slots.apicId)
    (hcores : ∀ b, (cores b).stage = .off ↔ (s.cores b).stage = .off) :
    Writing p { s with cores := cores, slots := slots } := by
  refine { h with fresh := ?_, slots := fun b q ↦ ?_ }
  · dsimp only
    rw [hstack, hindex, hapicId, hcores]
    exact h.fresh
  · dsimp only
    rw [hstack, hindex, hapicId, ne_eq, hcores]
    exact h.slots b q

theorem Writing.move (h : Writing p s) {phase : Phase} {slots : Slots} (hlow : 3 ≤ s.boot.phase.rank)
    (hle : s.boot.phase.rank < phase.rank) (hhigh : phase.rank ≤ 12) (hstack : slots.stack = s.slots.stack)
    (hindex : 6 ≤ phase.rank → phase.rank ≤ 8 → slots.index = s.boot.i)
    (hapicId : 7 ≤ phase.rank → phase.rank ≤ 8 → slots.apicId = (s.current p).toNat)
    (hslots : 9 ≤ s.boot.phase.rank → slots = s.slots) : Writing p { s.goto phase with slots := slots } := by
  have hcurrent : State.current p { s.goto phase with slots := slots } = s.current p := rfl
  unfold goto at hcurrent ⊢
  have ⟨_, _, hvisited, _, _, _⟩ := h
  exact { h with
    inside := by grind, visited := by grind, current := by grind, fresh := by grind, slots := by grind }

theorem Writing.leave (h : Writing p s) {boot : Boot} (hi : s.boot.i ≤ boot.i)
    (hgap : 3 ≤ s.boot.phase.rank → s.boot.phase.rank ≤ 12 → s.boot.i < boot.i)
    (hrank : boot.phase.rank ≤ 2 ∨ 13 ≤ boot.phase.rank)
    (hinside : 1 ≤ boot.phase.rank → boot.phase.rank ≤ 2 → boot.i < p.apicIds.length ∧ boot.i < maxCpus) :
    Writing p { s with boot := boot } := by
  have ⟨_, _, hvisited, _, _, _⟩ := h
  exact { h with
    pos := Nat.le_trans h.pos hi, inside := by grind, visited := by grind, current := by grind, fresh := by grind }

theorem Writing.stack (h : Writing p s) (hknown : ∀ a, (s.cores a).stage ≠ .off → s.prepared a ≠ none)
    (hold : s.boot.phase.rank = 2) :
    Writing p { s.goto .entry with
      slots := { s.slots with stack := s.boot.stack }
      owner := some (s.current p)
      prepared := update s.prepared (s.current p) (some ⟨s.boot.i, s.boot.stack⟩) } := by
  have hoff : (s.cores (s.current p)).stage = .off := by
    by_contra hon
    exact hknown _ hon (h.unprepared (by omega) (by omega))
  obtain ⟨hlen, hmax⟩ := h.inside (by omega) (by omega)
  have hget := getElem?_current hlen
  have hprepared := update_apply s.prepared (s.current p) (some ⟨s.boot.i, s.boot.stack⟩)
  generalize hcurrent : s.current p = a at *
  generalize update s.prepared a _ = prepared at hprepared
  have hphase : Phase.entry.rank = 3 := rfl
  have ⟨hpos, _, hvisited, _, _, _⟩ := h
  have hcurrent' : ∀ slots, State.current p { s.goto .entry with slots := slots, owner := some a, prepared := prepared } = a :=
    fun _ ↦ hcurrent
  unfold goto at hcurrent' ⊢
  exact ⟨hpos, by grind, by grind, by grind, by grind, by grind⟩

theorem Writing.init (h : Writing p s) (hold : s.boot.phase.rank = 8) {cores : UInt32 → Core} :
    Writing p { s.goto .startup with cores := cores } := by
  have hcurrent : State.current p { s.goto .startup with cores := cores } = s.current p := rfl
  have hphase : Phase.startup.rank = 9 := rfl
  obtain ⟨-, ho, hs, hx, hy⟩ := h.fresh (by omega) (by omega)
  unfold goto at hcurrent ⊢
  have ⟨_, _, hvisited, _, _, _⟩ := h
  exact { h with
    inside := by grind, visited := by grind, current := by grind, fresh := by grind, slots := by grind }

end Writing

section Identities

theorem Identities.prepare (h : Identities s) (hoff : (s.cores a).stage = .off) {q : Prepared} :
    Identities { s with prepared := update s.prepared a (some q) } := by
  have hzero : (s.cores a).stage.rank = 0 := by rw [hoff]; rfl
  have hprepared := update_apply s.prepared a (some q)
  generalize update s.prepared a _ = prepared at hprepared
  obtain ⟨h₁, h₂, h₃, h₄, h₅, h₆⟩ := h
  exact ⟨by grind, by grind, by grind, by grind, by grind, by grind⟩

/-- By its stage a core has got what was set aside for it. -/
def Endowed (c : Core) (a : UInt32) (q : Prepared) (block : PerCpu) : Prop :=
  (4 ≤ c.stage.rank → c.rsp = q.stack) ∧ (7 ≤ c.stage.rank → c.index = q.index) ∧ (8 ≤ c.stage.rank → c.apicId = a) ∧
    (10 ≤ c.stage.rank → block.index = q.index ∧ block.apicId = a ∧ block.online = true) ∧
    (11 ≤ c.stage.rank → block.kernelStackTop = q.stack)

theorem Identities.put (h : Identities s) {blocks : ℕ → PerCpu} {q : Prepared} (hq : s.prepared a = some q)
    (hblocks : ∀ b q, b ≠ a → s.prepared b = some q → blocks q.index = s.blocks q.index)
    (hself : Endowed c a q (blocks q.index)) : Identities { s.put a c with blocks := blocks } := by
  have hcores := update_apply s.cores a c
  unfold State.put
  generalize update s.cores a c = cores at hcores
  refine ⟨?_, ?_, ?_, ?_, ?_, ?_⟩
  · have := h.known
    grind
  · have := h.rsp
    have := hself.1
    grind
  · have := h.index
    have := hself.2.1
    grind
  · have := h.apicId
    have := hself.2.2.1
    grind
  · have := h.block
    have := hself.2.2.2.1
    grind
  · have := h.top
    have := hself.2.2.2.2
    grind

end Identities

section StacksApart

theorem StacksApart.keep (h : StacksApart s) {b : Boot} (hphase : b.phase = .stack → b = s.boot) :
    StacksApart { s with boot := b } := by
  refine { h with taken := fun stack hl ↦ h.taken stack ?_, next := fun hstack ↦ ?_ }
  · rcases hl with ⟨hstack, heq⟩ | hl
    · obtain rfl := hphase hstack
      exact .inl ⟨hstack, heq⟩
    · exact .inr hl
  · obtain rfl := hphase hstack
    exact h.next hstack

theorem Taken.apart {frames : Frames} {stack first : ℕ} (h : Taken frames stack)
    (hfree : ∀ g, first ≤ g → g < first + apStackPages → frames.bitmap g = false) :
    Apart (first * pageSize + apStackPages * pageSize) stack := by
  obtain ⟨f, rfl, hused⟩ := h
  have hfree' : ¬ (f < first + apStackPages ∧ first < f + apStackPages) := by
    rintro ⟨hlt, hlt'⟩
    have hu := hused (max f first) (Nat.le_max_left _ _) (by omega)
    rw [hfree (max f first) (Nat.le_max_right _ _) (by omega)] at hu
    cases hu
  unfold Apart
  have hle : first + apStackPages ≤ f ∨ f + apStackPages ≤ first := by omega
  rw [← Nat.add_mul, ← Nat.add_mul, ← Nat.add_mul]
  rcases hle with hle | hle
  · exact .inl (Nat.mul_le_mul_right _ (by omega))
  · exact .inr (Nat.mul_le_mul_right _ (by omega))

theorem StacksApart.allocate (h : StacksApart s) {first : ℕ} (hrun : s.frames.FreeRun managedPages first apStackPages) :
    StacksApart { s with
      frames := s.frames.markAll apStackPages first
      boot := { s.boot with phase := .stack, stack := first * pageSize + apStackPages * pageSize } } := by
  have hbit := Frames.bitmap_markAll s.frames hrun.1
  have hmono : ∀ f, s.frames.bitmap f = true → (s.frames.markAll apStackPages first).bitmap f = true := by
    intro f hf
    rw [hbit, hf, Bool.true_or]
  refine ⟨hmono 0 h.low, fun stack hl ↦ ?_, h.apart, fun _ a q hq ↦ ?_⟩
  · rcases hl with ⟨-, heq⟩ | hl
    · refine ⟨first, by rw [← heq, Nat.add_mul], fun g hg hg' ↦ ?_⟩
      rw [hbit, decide_eq_true ⟨hg, hg'⟩, Bool.or_true]
    · exact (h.taken stack (.inr hl)).mono hmono
  · exact Taken.apart (h.taken q.stack (.inr ⟨a, q, hq, rfl⟩)) hrun.2

theorem StacksApart.prepare (h : StacksApart s) (hold : s.boot.phase = .stack) {i : ℕ} :
    StacksApart { s.goto .entry with prepared := update s.prepared a (some ⟨i, s.boot.stack⟩) } := by
  have hnext := h.next hold
  have happart := h.apart
  have hprepared := update_apply s.prepared a (some ⟨i, s.boot.stack⟩)
  generalize update s.prepared a _ = prepared at hprepared
  refine ⟨h.low, fun stack hl ↦ h.taken stack ?_, ?_, nofun⟩
  · rcases hl with ⟨hstack, -⟩ | ⟨b, q, hq, heq⟩
    · cases hstack
    · grind [Lives]
  · grind [Apart]

end StacksApart

section

variable (h : Sound p s)

include h

theorem Sound.core {slots : Slots} {blocks : ℕ → PerCpu} {n : ℕ} {q : Prepared} (hq : s.prepared a = some q)
    (hold : (s.cores a).stage ≠ .off) (hnew : c.stage ≠ .off) (hstack : slots.stack = s.slots.stack)
    (hindex : slots.index = s.slots.index) (hapicId : slots.apicId = s.slots.apicId)
    (hblocks : ∀ b q, b ≠ a → s.prepared b = some q → blocks q.index = s.blocks q.index)
    (hself : Endowed c a q (blocks q.index)) :
    Sound p { s.put a c with slots := slots, blocks := blocks, cpusOnline := n } := by
  have hwriting : Writing p { s.put a c with slots := slots } := by
    refine h.writing.core hstack hindex hapicId fun b ↦ ?_
    simp only [State.put, update_apply]
    split
    · rename_i hb
      rw [hb]
      exact iff_of_false hnew hold
    · rfl
  have hidentities := h.identities.put hq hblocks hself
  exact ⟨{ hwriting with }, { hidentities with }, { h.reserved with }⟩

theorem Sound.startup (a : UInt32) : Sound p (s.lapicSendStartup a) := by
  unfold lapicSendStartup
  split
  · rename_i hwaiting
    have hon : (s.cores a).stage ≠ .off := by
      rw [hwaiting]
      decide
    obtain ⟨q, hq⟩ := Option.ne_none_iff_exists'.mp (h.identities.known a hon)
    exact h.core hq hon nofun rfl rfl rfl (fun _ _ _ _ ↦ rfl) ⟨nofun, nofun, nofun, nofun, nofun⟩
  · exact h

theorem Sound.boot {boot : Boot} (hwriting : Writing p { s with boot := boot })
    (hphase : boot.phase = .stack → boot = s.boot) : Sound p { s with boot := boot } :=
  ⟨hwriting, { h.identities with }, h.reserved.keep hphase⟩

theorem Sound.next {started : ℕ} :
    Sound p { s.next with boot := { s.next.boot with started := started } } := by
  refine h.boot (h.writing.leave (Nat.le_succ _) (fun _ _ ↦ Nat.lt_succ_self _) (.inl (Nat.zero_le _)) ?_) nofun
  exact fun hr ↦ by cases hr

theorem Sound.settle (hrank : s.boot.phase.rank ≤ 2 ∨ 13 ≤ s.boot.phase.rank) {phase : Phase}
    (hphase : 13 ≤ phase.rank) : Sound p (s.goto phase) := by
  refine h.boot (h.writing.leave (Nat.le_refl _) (fun _ _ ↦ by omega) (.inr hphase) ?_) fun heq ↦ ?_
  · exact fun _ (hr : phase.rank ≤ 2) ↦ by omega
  · rw [show phase = .stack from heq] at hphase
    exact absurd hphase (by decide)

theorem Sound.allocate (hphase : s.boot.phase = .allocate) (hs : s.smpInit p = some s') : Sound p s' := by
  have hrank : s.boot.phase.rank = 1 := by rw [hphase]; rfl
  simp only [smpInit, hphase] at hs
  rcases s.frames.allocPages_cases (show 0 < apStackPages by decide) with ⟨hnone, -⟩ | ⟨first, hsome, hrun, -⟩
  · rw [hnone, if_pos rfl] at hs
    cases hs
    exact h.settle (by omega) (by decide)
  · have hpos : first * pageSize ≠ 0 := by
      intro hzero
      have hfree := hrun.2 first (Nat.le_refl first) (by simp [apStackPages])
      rw [(Nat.mul_eq_zero.mp hzero).resolve_right (by decide), h.reserved.low] at hfree
      cases hfree
    rw [hsome, if_neg hpos] at hs
    cases hs
    have hwriting (stack : ℕ) : Writing p { s with boot := { s.boot with phase := .stack, stack := stack } } :=
      h.writing.leave (Nat.le_refl _) (fun _ _ ↦ by omega) (.inl (Nat.le_refl 2)) fun _ _ ↦
        h.writing.inside (by omega) (by omega)
    exact ⟨{ hwriting _ with }, { h.identities with }, h.reserved.allocate hrun⟩

theorem Sound.stack (hphase : s.boot.phase = .stack) :
    Sound p { s.goto .entry with
      slots := { s.slots with stack := s.boot.stack }
      owner := some (s.current p)
      prepared := update s.prepared (s.current p) (some ⟨s.boot.i, s.boot.stack⟩) } := by
  have hrank : s.boot.phase.rank = 2 := by rw [hphase]; rfl
  have hoff : (s.cores (s.current p)).stage = .off := by
    by_contra hon
    exact h.identities.known _ hon (h.writing.unprepared (by omega) (by omega))
  exact ⟨h.writing.stack h.identities.known hrank, { h.identities.prepare hoff with }, { h.reserved.prepare hphase with }⟩

theorem Sound.slot {slots : Slots} {old phase : Phase} (hphase : s.boot.phase = old) (hlow : 3 ≤ old.rank)
    (hle : old.rank < phase.rank) (hhigh : phase.rank ≤ 12) (hstack : slots.stack = s.slots.stack)
    (hindex : 6 ≤ phase.rank → phase.rank ≤ 8 → slots.index = s.boot.i)
    (hapicId : 7 ≤ phase.rank → phase.rank ≤ 8 → slots.apicId = (s.current p).toNat)
    (hslots : 9 ≤ old.rank → slots = s.slots) : Sound p { s.goto phase with slots := slots } := by
  subst hphase
  refine ⟨h.writing.move hlow hle hhigh hstack hindex hapicId hslots, { h.identities with }, ?_⟩
  refine { h.reserved.keep fun heq ↦ ?_ with }
  rw [show phase = .stack from heq] at hle
  have hlt : s.boot.phase.rank < 2 := hle
  omega

theorem Sound.read {old phase : Phase} (hphase : s.boot.phase = old) (hlow : 9 ≤ old.rank) (hle : old.rank < phase.rank)
    (hhigh : phase.rank ≤ 12) : Sound p (s.goto phase) :=
  h.slot hphase (by omega) hle hhigh rfl (fun _ _ ↦ by omega) (fun _ _ ↦ by omega) fun _ ↦ rfl

theorem Sound.smpInit (hs : s.smpInit p = some s') : Sound p s' := by
  cases hphase : s.boot.phase with
  | allocate => exact h.allocate hphase hs
  | _ => ?_
  all_goals simp only [State.smpInit, hphase] at hs
  case head =>
    have hrank : s.boot.phase.rank = 0 := by rw [hphase]; rfl
    split at hs
    · rename_i hin
      split at hs
      · cases hs
        exact h.next
      · cases hs
        exact h.boot (h.writing.leave (Nat.le_refl _) (fun _ _ ↦ by omega) (.inl (show 1 ≤ 2 by decide)) fun _ _ ↦ hin) nofun
    · cases hs
      exact h.settle (by omega) (by decide)
  case wait =>
    split at hs
    · cases hs
      exact h
    · cases hs
      exact h.next
  case settle =>
    split at hs
    · cases hs
      exact h
    · cases hs
      exact h.settle (.inr (by rw [hphase]; decide)) (by decide)
  all_goals cases hs
  case stack => exact h.stack hphase
  case entry => exact h.slot hphase (by decide) (by decide) (by decide) rfl nofun nofun nofun
  case ready => exact h.slot hphase (by decide) (by decide) (by decide) rfl nofun nofun nofun
  case index => exact h.slot hphase (by decide) (by decide) (by decide) rfl (fun _ _ ↦ rfl) nofun nofun
  case apicId =>
    obtain ⟨-, -, -, hindex, -⟩ := h.writing.fresh (by rw [hphase]; decide) (by rw [hphase]; decide)
    exact h.slot hphase (by decide) (by decide) (by decide) rfl (fun _ _ ↦ hindex (by rw [hphase]; decide)) (fun _ _ ↦ rfl) nofun
  case consumed =>
    obtain ⟨-, -, -, hindex, hapicId⟩ := h.writing.fresh (by rw [hphase]; decide) (by rw [hphase]; decide)
    exact h.slot hphase (by decide) (by decide) (by decide) rfl (fun _ _ ↦ hindex (by rw [hphase]; decide))
      (fun _ _ ↦ hapicId (by rw [hphase]; decide)) nofun
  case init =>
    have hq := h.writing.current (by rw [hphase]; decide) (by rw [hphase]; decide)
    have hidentities := h.identities.put (c := ⟨.waiting, 0, 0, 0, 0, 0⟩) hq (fun _ _ _ _ ↦ rfl)
      ⟨nofun, nofun, nofun, nofun, nofun⟩
    have hreserved := h.reserved.keep (b := { s.boot with phase := .startup }) nofun
    exact ⟨h.writing.init (by rw [hphase]; rfl), { hidentities with }, { hreserved with }⟩
  case startup => exact (h.read hphase (by decide) (by decide) (by decide)).startup _
  case check => split <;> exact h.read hphase (by decide) (by decide) (by decide)
  case again => exact (h.read hphase (by decide) (by decide) (by decide)).startup _

theorem Sound.deadline (hs : s.deadline = some s') : Sound p s' := by
  unfold State.deadline at hs
  cases hphase : s.boot.phase <;> simp only [hphase] at hs
  case wait =>
    split at hs
    · cases hs
      exact h.next
    · cases hs
  case settle =>
    cases hs
    exact h.settle (.inr (by rw [hphase]; decide)) (by decide)
  all_goals cases hs

theorem Sound.others {frames : Frames} (hon : s.Enabled (.others frames)) : Sound p { s with frames := frames } := by
  obtain ⟨hlow, hkeep⟩ := hon
  refine ⟨{ h.writing with }, { h.identities with }, hlow, fun stack hl ↦ ?_, h.reserved.apart, h.reserved.next⟩
  obtain ⟨f, hf, -⟩ := h.reserved.taken stack hl
  refine ⟨f, hf, fun g hg hg' ↦ hkeep stack hl g ?_ ?_⟩
  · rw [hf]
    exact Nat.mul_lt_mul_of_pos_right hg' (by decide)
  · rw [hf]
    exact Nat.mul_le_mul_right _ (by omega)

theorem Sound.slots_of_owner (howner : s.owner = some a) (hon : (s.cores a).stage ≠ .off) {q : Prepared}
    (hq : s.prepared a = some q) :
    s.slots.stack = q.stack ∧ s.slots.index % 2 ^ 32 = q.index ∧ UInt32.ofNat s.slots.apicId = a := by
  obtain ⟨hstack, hindex, hapicId⟩ := h.writing.slots a q howner hq hon
  have hlt : q.index < 8 := (h.writing.visited a q hq).2.1
  refine ⟨hstack, ?_, ?_⟩
  · rw [hindex]
    exact Nat.mod_eq_of_lt (by omega)
  · rw [hapicId, UInt32.ofNat_toNat]

theorem Sound.blocks_of_ne {q : Prepared} (hq : s.prepared a = some q) (blk : PerCpu) (b : UInt32) (q' : Prepared)
    (hb : b ≠ a) (hq' : s.prepared b = some q') :
    Function.update s.blocks q.index blk q'.index = s.blocks q'.index := by
  rw [update_of_ne]
  intro heq
  exact hb (h.writing.injective hq' hq heq)

theorem Sound.run (htimely : s.Timely (.core a)) (hs : s.run p a = some s') : Sound p s' := by
  have hon : (s.cores a).stage ≠ .off := by
    intro hoff
    simp only [State.run, hoff] at hs
    cases hs
  obtain ⟨q, hq⟩ := Option.ne_none_iff_exists'.mp (h.identities.known a hon)
  have hslots := fun howner ↦ h.slots_of_owner howner hon hq
  obtain ⟨-, hrsp, hindex, hapicId, hblock, htop⟩ := h.identities
  specialize hrsp a q hq
  specialize hindex a q hq
  specialize hapicId a q hq
  specialize hblock a q hq
  specialize htop a q hq
  cases hstage : (s.cores a).stage <;> simp only [hstage, Stage.rank] at hrsp hindex hapicId hblock htop <;>
    simp only [State.run, hstage] at hs
  case off => cases hs
  case waiting => cases hs
  case running => cases hs
  case rooted =>
    split at hs
    · cases hs
    · cases hs
      exact h.core hq hon nofun rfl rfl rfl (fun _ _ _ _ ↦ rfl)
        ⟨fun _ ↦ (hslots (htimely (.inl hstage))).1, nofun, nofun, nofun, nofun⟩
  case stacked =>
    split at hs
    · cases hs
    · cases hs
      exact h.core hq hon nofun rfl rfl rfl (fun _ _ _ _ ↦ rfl) ⟨fun _ ↦ hrsp (by decide), nofun, nofun, nofun, nofun⟩
  case entered =>
    split at hs
    · cases hs
    · cases hs
      exact h.core hq hon nofun rfl rfl rfl (fun _ _ _ _ ↦ rfl) ⟨fun _ ↦ hrsp (by decide), nofun, nofun, nofun, nofun⟩
  case called =>
    split at hs
    · cases hs
      exact h.core hq hon nofun rfl rfl rfl (fun _ _ _ _ ↦ rfl)
        ⟨fun _ ↦ hrsp (by decide), fun _ ↦ (hslots (htimely (.inr (.inl hstage)))).2.1, nofun, nofun, nofun⟩
    · cases hs
  case released =>
    split at hs
    · cases hs
      rw [hindex (by decide), hapicId (by decide)]
      refine h.core hq hon nofun rfl rfl rfl (h.blocks_of_ne hq _) ?_
      rw [update_self]
      exact ⟨fun _ ↦ hrsp (by decide), fun _ ↦ rfl, fun _ ↦ rfl, fun _ ↦ ⟨rfl, rfl, rfl⟩, nofun⟩
    · cases hs
  all_goals cases hs
  case started =>
    exact h.core hq hon nofun rfl rfl rfl (fun _ _ _ _ ↦ rfl) ⟨nofun, nofun, nofun, nofun, nofun⟩
  case indexed =>
    exact h.core hq hon nofun rfl rfl rfl (fun _ _ _ _ ↦ rfl) ⟨fun _ ↦ hrsp (by decide), fun _ ↦ hindex (by decide),
      fun _ ↦ (hslots (htimely (.inr (.inr (.inl hstage))))).2.2, nofun, nofun⟩
  case identified =>
    exact h.core hq hon nofun rfl rfl rfl (fun _ _ _ _ ↦ rfl)
      ⟨fun _ ↦ hrsp (by decide), fun _ ↦ hindex (by decide), fun _ ↦ hapicId (by decide), nofun, nofun⟩
  case placed =>
    rw [hindex (by decide)]
    refine h.core hq hon nofun rfl rfl rfl (h.blocks_of_ne hq _) ?_
    rw [update_self]
    exact ⟨fun _ ↦ hrsp (by decide), fun _ ↦ rfl, fun _ ↦ hapicId (by decide), fun _ ↦ hblock (by decide),
      fun _ ↦ (hslots (htimely (.inr (.inr (.inr hstage))))).1⟩
  case topped =>
    rw [hindex (by decide)]
    refine h.core hq hon nofun rfl rfl rfl (h.blocks_of_ne hq _) ?_
    rw [update_self]
    obtain ⟨hi, ha, -⟩ := hblock (by decide)
    exact ⟨fun _ ↦ hrsp (by decide), fun _ ↦ rfl, fun _ ↦ hapicId (by decide), fun _ ↦ ⟨hi, ha, rfl⟩,
      fun _ ↦ htop (by decide)⟩

end

theorem Sound.start {frames : Frames} (h : frames.bitmap 0 = true) : Sound p (start p frames) := by
  have hrank : (Cpu.start p frames).boot.phase.rank = 0 ∨ (Cpu.start p frames).boot.phase.rank = 14 := by
    simp only [Cpu.start]
    split
    · exact .inr rfl
    · exact .inl rfl
  have hphase : (Cpu.start p frames).boot.phase ≠ .stack := by
    intro heq
    rw [heq] at hrank
    exact absurd hrank (by decide)
  refine ⟨⟨Nat.le_refl 1, fun _ _ ↦ by omega, nofun, fun _ _ ↦ by omega, fun _ _ ↦ by omega, nofun⟩,
    ⟨fun a hon ↦ absurd rfl hon, nofun, nofun, nofun, nofun, nofun⟩, h, fun stack hl ↦ ?_, nofun, fun heq ↦ absurd heq hphase⟩
  rcases hl with ⟨heq, -⟩ | ⟨a, q, hq, -⟩
  · exact absurd heq hphase
  · cases hq

theorem Sound.step (h : Sound p s) {act : Action} (hon : s.Enabled act) (htimely : s.Timely act)
    (hs : s.step p act = some s') : Sound p s' := by
  cases act with
  | boot => exact h.smpInit hs
  | deadline => exact h.deadline hs
  | core a => exact h.run htimely hs
  | others frames =>
    cases hs
    exact h.others hon

end State

open State

variable {p : Platform} {s : State}

theorem reached_sound (h : (system p).Reached State.Timely s) : s.Sound p := by
  refine h.invariant ?_ ?_
  · rintro s ⟨frames, hlow, rfl⟩
    exact Sound.start hlow
  · intro s s' act hsound hon hok hs
    exact hsound.step hon hok hs

def State.Indexed (s : State) (a : UInt32) : Prop := 7 ≤ (s.cores a).stage.rank

def State.Stacked (s : State) (a : UInt32) : Prop := 4 ≤ (s.cores a).stage.rank

/-- As long as every core reads its slots before they are written for the next one, each core gets what was set aside
for it, and no two share an index or a stack. -/
theorem reached_identity (h : (system p).Reached State.Timely s) :
    (∀ a, (s.cores a).stage = .running → ∃ q, s.prepared a = some q ∧ (s.cores a).index = q.index ∧
      s.blocks (s.cores a).index = ⟨q.index, a, q.stack, true⟩) ∧
    (∀ a, s.Indexed a → (s.cores a).index ≠ 0 ∧ ∀ b, s.Indexed b → a ≠ b → (s.cores a).index ≠ (s.cores b).index) ∧
    ∀ a b, s.Stacked a → s.Stacked b → a ≠ b → Apart (s.cores a).rsp (s.cores b).rsp := by
  have hsound := reached_sound h
  have hprepared : ∀ a, 1 ≤ (s.cores a).stage.rank → ∃ q, s.prepared a = some q := by
    intro a ha
    refine Option.ne_none_iff_exists'.mp (hsound.identities.known a fun hoff ↦ ?_)
    rw [hoff] at ha
    exact absurd ha (by decide)
  refine ⟨fun a ha ↦ ?_, fun a ha ↦ ?_, fun a b ha hb hne ↦ ?_⟩
  · have hrank : (s.cores a).stage.rank = 12 := by rw [ha]; rfl
    obtain ⟨q, hq⟩ := hprepared a (by omega)
    have hindex := hsound.identities.index a q hq (by omega)
    obtain ⟨hi, hapic, honline⟩ := hsound.identities.block a q hq (by omega)
    have htop := hsound.identities.top a q hq (by omega)
    refine ⟨q, hq, hindex, ?_⟩
    rw [hindex]
    generalize s.blocks q.index = blk at hi hapic honline htop
    cases blk
    cases hi
    cases hapic
    cases honline
    cases htop
    rfl
  · have hrank : 7 ≤ (s.cores a).stage.rank := ha
    obtain ⟨q, hq⟩ := hprepared a (by omega)
    have hindex := hsound.identities.index a q hq ha
    refine ⟨?_, fun b hb hne heq ↦ hne ?_⟩
    · have := (hsound.writing.visited a q hq).1
      omega
    · have hrank' : 7 ≤ (s.cores b).stage.rank := hb
      obtain ⟨q', hq'⟩ := hprepared b (by omega)
      rw [hindex, hsound.identities.index b q' hq' hb] at heq
      exact hsound.writing.injective hq hq' heq
  · have hrank : 4 ≤ (s.cores a).stage.rank := ha
    have hrank' : 4 ≤ (s.cores b).stage.rank := hb
    obtain ⟨q, hq⟩ := hprepared a (by omega)
    obtain ⟨q', hq'⟩ := hprepared b (by omega)
    rw [hsound.identities.rsp a q hq ha, hsound.identities.rsp b q' hq' hb]
    exact hsound.reserved.apart a b q q' hne hq hq'

def threeCpus : Platform where
  apicIds := [0, 1, 2]
  nodup := by decide
  lapicId := 0
  lapicPresent := true
  root := 4096
  apEntry := 1048576

def State.checked (s : State) : Action → Bool
  | .core a => (s.cores a).stage = .rooted ∨ (s.cores a).stage = .called ∨ (s.cores a).stage = .indexed ∨
      (s.cores a).stage = .placed → s.owner = some a
  | .others _ => false
  | _ => true

theorem checked_spec {act : Action} (h : s.checked act = true) : s.Enabled act ∧ s.Timely act := by
  cases act with
  | core a =>
    have htimely := of_decide_eq_true h
    exact ⟨trivial, htimely⟩
  | others => cases h
  | _ => exact ⟨trivial, trivial⟩

theorem reached_identity_two : ∃ s : State, (system threeCpus).Reached State.Timely s ∧
    (s.cores 1).stage = .running ∧ (s.cores 2).stage = .running ∧ (s.cores 1).index ≠ (s.cores 2).index := by
  have hstart : (system threeCpus).Reached State.Timely (start threeCpus ⟨fun f ↦ f == 0, 1⟩) := .init ⟨_, rfl, rfl⟩
  obtain ⟨s, hs, hone, htwo⟩ := hstart.exists_of_replay (fun s act ↦ checked_spec)
    (l := List.replicate 12 .boot ++ List.replicate 10 (.core 1) ++ List.replicate 13 .boot ++ List.replicate 10 (.core 2))
    (P := fun s ↦ (s.cores 1).stage = .running ∧ (s.cores 2).stage = .running) (by decide +kernel)
  have hrank : ∀ a, (s.cores a).stage = .running → s.Indexed a := by
    intro a ha
    rw [State.Indexed, ha]
    decide
  exact ⟨s, hs, hone, htwo, ((reached_identity hs).2.1 1 (hrank 1 hone)).2 2 (hrank 2 htwo) (by decide)⟩

def ofKernel (_ : State) : Action → Bool
  | .others _ => false
  | _ => true

/-- The next core gets its stack before the first one has stored its own. And a core that answers after `smp_init` has
given up on it takes the index and the stack of the next one. -/
theorem cores_mistaken :
    (∃ s : State, (system threeCpus).Reached (fun _ _ ↦ True) s ∧ (s.cores 1).stage = .running ∧
      s.prepared 1 = some ⟨1, 36864⟩ ∧ (s.blocks (s.cores 1).index).kernelStackTop = 69632) ∧
    ∃ s : State, (system threeCpus).Reached (fun _ _ ↦ True) s ∧ (s.cores 1).stage = .running ∧
      (s.cores 2).stage = .running ∧ (s.cores 1).index = (s.cores 2).index ∧ (s.cores 1).rsp = (s.cores 2).rsp := by
  have hstart : (system threeCpus).Reached (fun _ _ ↦ True) (start threeCpus ⟨fun f ↦ f == 0, 1⟩) := .init ⟨_, rfl, rfl⟩
  have hcheck : ∀ s act, ofKernel s act = true → (system threeCpus).enabled s act ∧ True := by
    intro s act hact
    cases act with
    | others => cases hact
    | _ => exact ⟨trivial, trivial⟩
  refine ⟨?_, ?_⟩
  · exact hstart.exists_of_replay hcheck
      (l := List.replicate 12 .boot ++ List.replicate 7 (.core 1) ++ List.replicate 4 .boot ++ List.replicate 3 (.core 1))
      (by decide +kernel)
  · exact hstart.exists_of_replay hcheck
      (l := List.replicate 12 .boot ++ [.deadline] ++ List.replicate 12 .boot ++ List.replicate 10 (.core 1) ++
        List.replicate 10 (.core 2)) (by decide +kernel)

end Eris.Cpu
