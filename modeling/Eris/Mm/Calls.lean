import Eris.Mm.Boot

namespace Eris.Mm

open Library.Radix

/-- A call that edits an address space. -/
inductive Call
  | map (address frame length : ℕ) (flags : PageFlags)
  | unmap (address length : ℕ)
  | protect (address length : ℕ) (flags : PageFlags)
  deriving DecidableEq

namespace Call

def run : Call → Memory → Memory × Bool
  | map address frame length flags, m => m.map address frame length flags
  | unmap address length, m => m.unmap address length
  | protect address length flags, m => m.protect address length flags

def address : Call → ℕ
  | map address _ _ _ => address
  | unmap address _ => address
  | protect address _ _ => address

def length : Call → ℕ
  | map _ _ length _ => length
  | unmap _ length => length
  | protect _ length _ => length

def flags : Call → Option PageFlags
  | map _ _ _ flags => some flags
  | unmap _ _ => none
  | protect _ _ flags => some flags

def user (c : Call) : Bool := c.flags.any PageFlags.user

/-- What a call makes of the entry of its page `k`. -/
def new : Call → ℕ → Entry → Option Entry
  | map _ frame _ flags, k, _ => some (encode flags ((frame + k * pageSize) / pageSize % 2 ^ 40))
  | unmap _ _, _, _ => some {}
  | protect _ _ flags, _, e => if e.present then some (encode flags e.frame) else none

def span (c : Call) : Set ℕ := Memory.span c.address (Memory.pagesOf c.length)

theorem run_eq (c : Call) (m : Memory) :
    c.run m = m.rewritePages c.user c.new (Memory.pagesOf c.length) c.address := by
  cases c with
  | map address frame length flags => exact m.mapPages_eq flags _ address frame
  | unmap address length => exact m.unmapPages_eq _ address
  | protect address length flags => exact m.protectPages_eq flags _ address

theorem new_spec {c : Call} {k : ℕ} {e e' : Entry} (h : c.new k e = some e') :
    (c.flags = none ∧ e' = {}) ∨ ∃ flags frame, c.flags = some flags ∧ e' = encode flags frame := by
  cases c with
  | map address frame length flags =>
    cases h
    exact .inr ⟨flags, _, rfl, rfl⟩
  | unmap address length =>
    cases h
    exact .inl ⟨rfl, rfl⟩
  | protect address length flags =>
    simp only [new] at h
    split at h
    · cases h
      exact .inr ⟨flags, _, rfl, rfl⟩
    · cases h

theorem run_spec {m : Memory} (hm : m.Wf) (c : Call) :
    ∃ done, m.Rewritten c.user c.new (Memory.pagesOf c.length) c.address (c.run m).1 (c.run m).2 done := by
  obtain ⟨m', ok, done, heq, h⟩ := Memory.rewritePages_spec hm c.user c.new
      (Memory.pagesOf c.length) c.address fun hu k e e' he ↦ by
    rcases new_spec he with ⟨hf, -⟩ | ⟨flags, frame, hf, rfl⟩
    · simp [user, hf] at hu
    · simpa [user, hf, encode] using hu
  refine ⟨done, ?_⟩
  rw [run_eq, heq]
  exact h

/-- A call as the kernel makes them for itself: not for the user, and what can be written cannot
be executed. -/
def Guarded (c : Call) : Prop :=
  ∀ flags ∈ c.flags, flags.user = false ∧ (flags.write = true → flags.noExecute = true)

theorem Guarded.user_eq {c : Call} (h : c.Guarded) : c.user = false := by
  unfold user
  cases hf : c.flags with
  | none => rfl
  | some flags => exact (h flags hf).1

/-- `paging_init` maps the parts of the kernel and unmaps pages again. -/
def Within (image : KernelImage) : Call → Prop
  | map address _ length _ => (address, length) ∈ image.segments
  | unmap _ _ => True
  | protect _ _ _ => False

end Call

namespace Memory

variable {m m' : Memory} {image : KernelImage}

theorem pagingInit_induction {P : Memory → Prop} (hlow : m.frames.bitmap 0 = true)
    (h : m.pagingInit image = some m')
    (hdirect : ∀ m pdpt directory, DirectMap m pdpt directory → P m)
    (hcall : ∀ m (c : Call), P m → c.Guarded → c.Within image → P (c.run m).1) : P m' := by
  obtain ⟨m₁, hm₁, rfl⟩ := Option.map_eq_some_iff.mp h
  obtain ⟨pdpt, directory, hd⟩ := pagingTables_spec hlow hm₁
  have hmap : ∀ m address frame length flags, P m → flags.user = false →
      (flags.write = true → flags.noExecute = true) → (address, length) ∈ image.segments →
      P (m.map address frame length flags).1 :=
    fun m address frame length flags hP hu hw hin ↦ hcall m (.map address frame length flags) hP
      (fun _ hf ↦ by cases hf; exact ⟨hu, hw⟩) hin
  have hkernel : P (m₁.mapKernel image) := by
    refine hmap _ _ _ _ _ (hmap _ _ _ _ _ (hmap _ _ _ _ _ (hmap _ _ _ _ _ (hdirect m₁ _ _ hd) ?_ ?_ ?_) ?_ ?_ ?_)
      ?_ ?_ ?_) ?_ ?_ ?_ <;> simp [KernelImage.segments]
  have hguards : ∀ (guards : List ℕ) m, P m → P (guards.foldl (fun m guard ↦ (m.unmap guard pageSize).1) m) := by
    intro guards
    induction guards with
    | nil => exact fun _ ↦ id
    | cons guard guards ih => exact fun m hP ↦ ih _ (hcall m (.unmap guard pageSize) hP nofun trivial)
  exact hguards image.stackGuards _ hkernel

end Memory

end Eris.Mm
