import Eris.Mm.Vmalloc

namespace Eris.Machine.Backtrace

open Mm List

def imageStart : ℕ := 2 ^ 20

def mappedLimit : ℕ := 2 ^ 30

def maxFrames : ℕ := 24

def PlausibleText (kernelEnd address : ℕ) : Prop := imageStart ≤ address ∧ address < kernelEnd

def PlausibleFrame (address : ℕ) : Prop :=
  imageStart ≤ address ∧ (address + 16) % 2 ^ 64 < mappedLimit ∧ address % 8 = 0

instance (kernelEnd address : ℕ) : Decidable (PlausibleText kernelEnd address) := inferInstanceAs (Decidable (_ ∧ _))

instance (address : ℕ) : Decidable (PlausibleFrame address) := inferInstanceAs (Decidable (_ ∧ _))

variable (kernelEnd : ℕ) (memory : ℕ → ℕ)

/-- The loop of `backtrace_from`: the return addresses it prints and the frames it dereferences. -/
def walk : ℕ → ℕ → List ℕ × List ℕ
  | 0, _ => ([], [])
  | depth + 1, frame =>
    if PlausibleFrame frame then
      if PlausibleText kernelEnd (memory (frame + 8)) then
        let rest := if memory frame ≤ frame then ([], []) else walk depth (memory frame)
        (memory (frame + 8) :: rest.1, frame :: rest.2)
      else ([], [frame])
    else ([], [])

def backtraceFrom (rip rbp : ℕ) : List ℕ × List ℕ :=
  let trace := walk kernelEnd memory maxFrames rbp
  (if PlausibleText kernelEnd rip then rip :: trace.1 else trace.1, trace.2)

/-- A chain of saved frames, each at a multiple of eight and above the one before it, up to a pointer that leads back. -/
def Linked : ℕ → ℕ → List ℕ → Prop
  | below, frame, [] => frame ≤ below
  | below, frame, next :: rest => frame = next ∧ below < frame ∧ frame % 8 = 0 ∧
      PlausibleText kernelEnd (memory (frame + 8)) ∧ Linked frame (memory frame) rest

variable {kernelEnd memory} {depth frame below rip : ℕ} {frames : List ℕ}

theorem walk_eq_iff (depth : ℕ) (h : Linked kernelEnd memory below frame frames) (hnil : frames = [] → frame = 0) :
    (walk kernelEnd memory depth frame).1.length ≤ (frames.take depth).length ∧
      ((walk kernelEnd memory depth frame).1 = (frames.take depth).map (fun frame ↦ memory (frame + 8)) ↔
        ∀ frame ∈ frames.take depth, PlausibleFrame frame) := by
  induction depth generalizing below frame frames with
  | zero => simp [walk]
  | succ depth ih =>
    cases frames with
    | nil => simp [walk, hnil rfl, PlausibleFrame, imageStart]
    | cons next rest =>
      obtain ⟨rfl, -, -, htext, hrest⟩ := h
      by_cases hframe : PlausibleFrame frame
      · have hstep : (walk kernelEnd memory (depth + 1) frame).1 = memory (frame + 8) ::
            (if memory frame ≤ frame then ([], []) else walk kernelEnd memory depth (memory frame)).1 := by
          rw [walk, if_pos hframe, if_pos htext]
        cases rest with
        | nil =>
          rw [hstep, if_pos (show memory frame ≤ frame from hrest)]
          simp [hframe]
        | cons next rest =>
          rw [hstep, if_neg (Nat.not_le.mpr hrest.2.1)]
          obtain ⟨hlength, heq⟩ := ih hrest nofun
          refine ⟨Nat.succ_le_succ hlength, ?_⟩
          rw [take_succ_cons, map_cons, cons.injEq, forall_mem_cons, heq]
          exact and_congr_left' (iff_of_true rfl hframe)
      · simp [walk, hframe]

theorem walk_mapped {Mapped : ℕ → Prop} (h : ∀ frame, PlausibleFrame frame → Mapped frame) :
    ∀ visited ∈ (walk kernelEnd memory depth frame).2, Mapped visited := by
  induction depth generalizing frame with
  | zero => nofun
  | succ depth ih =>
    rw [walk]
    split
    case isTrue hframe =>
      split
      · refine forall_mem_cons.mpr ⟨h frame hframe, ?_⟩
        split
        · nofun
        · exact ih
      · exact forall_mem_singleton.mpr (h frame hframe)
    case isFalse => nofun

/-- A word on the stack of a thread that `Thread::spawn` has made. -/
def threadStack (address : ℕ) : ℕ := if address = vmallocBase + 8184 then 2 ^ 20 else 0

end Eris.Machine.Backtrace
