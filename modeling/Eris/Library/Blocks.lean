import Mathlib

/-!
Blocks that lie end to end, each behind a header that names its neighbours. No block lies at zero.
-/

namespace Eris.Library.Blocks

open List

structure Header where
  size : ℕ
  free : Bool
  next : ℕ
  prev : ℕ

/-- A block without its place. -/
structure Block where
  size : ℕ
  free : Bool
  deriving DecidableEq

variable {w : ℕ} {headers headers' : ℕ → Header} {next next' prev prev' a x : ℕ} {b : Block} {bs cs pre post : List Block}

/-- What the blocks take with headers of `w` bytes. -/
def span (w : ℕ) (bs : List Block) : ℕ := (bs.map fun b ↦ w + b.size).sum

@[simp]
theorem span_nil : span w [] = 0 := rfl

@[simp]
theorem span_cons : span w (b :: bs) = w + b.size + span w bs := sum_cons

@[simp]
theorem span_append : span w (bs ++ cs) = span w bs + span w cs := by simp [span]

/-- Where the last of the blocks from `a` on lies, or `prev` when there is none. -/
def last (w : ℕ) : ℕ → ℕ → List Block → ℕ
  | prev, _, [] => prev
  | _, a, b :: bs => last w a (a + (w + b.size)) bs

/-- The link to the blocks at `a`, or `next` when there are none. -/
def link (next a : ℕ) : List Block → ℕ
  | [] => next
  | _ :: _ => a

/-- The blocks lie from `a` on, between a neighbour `prev` and a neighbour `next`. -/
def Laid (w : ℕ) (headers : ℕ → Header) (next : ℕ) : ℕ → ℕ → List Block → Prop
  | _, _, [] => True
  | prev, a, b :: bs =>
    headers a = ⟨b.size, b.free, link next (a + (w + b.size)) bs, prev⟩ ∧ Laid w headers next a (a + (w + b.size)) bs

def inUse (w : ℕ) : ℕ → List Block → List (ℕ × ℕ)
  | _, [] => []
  | a, b :: bs => if b.free then inUse w (a + (w + b.size)) bs else (a, b.size) :: inUse w (a + (w + b.size)) bs

theorem last_append : last w prev a (bs ++ cs) = last w (last w prev a bs) (a + span w bs) cs := by
  induction bs generalizing prev a with
  | nil => rfl
  | cons b bs ih => rw [cons_append, last, last, ih, span_cons, Nat.add_assoc a]

theorem last_concat : last w prev a (bs ++ [b]) = a + span w bs := by rw [last_append, last, last]

theorem link_append : link next a (bs ++ cs) = link (link next a cs) a bs := by
  cases bs with
  | nil => rfl
  | cons b bs => rfl

theorem laid_append :
    Laid w headers next prev a (bs ++ cs) ↔ Laid w headers (link next (a + span w bs) cs) prev a bs ∧
      Laid w headers next (last w prev a bs) (a + span w bs) cs := by
  induction bs generalizing prev a with
  | nil => exact (true_and _).symm.to_iff
  | cons b bs ih =>
    rw [cons_append, Laid, Laid, ih, last, span_cons, ← Nat.add_assoc a (w + b.size), and_assoc]
    refine and_congr_left fun _ ↦ ?_
    cases bs with
    | nil => rfl
    | cons c bs => rfl

theorem laid_middle :
    Laid w headers next prev a (pre ++ b :: post) ↔ Laid w headers (a + span w pre) prev a pre ∧
      headers (a + span w pre) = ⟨b.size, b.free, link next (a + span w pre + (w + b.size)) post, last w prev a pre⟩ ∧
      Laid w headers next (a + span w pre) (a + span w pre + (w + b.size)) post := by
  rw [laid_append, Laid]
  rfl

theorem Laid.congr (hw : 0 < w) (h : Laid w headers next prev a bs)
    (heq : ∀ x, a ≤ x → x < a + span w bs → headers' x = headers x) : Laid w headers' next prev a bs := by
  induction bs generalizing prev a with
  | nil => trivial
  | cons b bs ih =>
    rw [span_cons] at heq
    refine ⟨(heq a (Nat.le_refl a) (by omega)).trans h.1, ih h.2 fun x hlo hhi ↦ heq x (by omega) (by omega)⟩

theorem Laid.setPrev (hw : 0 < w) (h : Laid w headers next prev a bs) (hbs : bs ≠ [])
    (hfirst : headers' a = { headers a with prev := prev' })
    (heq : ∀ x, a < x → x < a + span w bs → headers' x = headers x) : Laid w headers' next prev' a bs := by
  cases bs with
  | nil => exact absurd rfl hbs
  | cons b bs =>
    rw [span_cons] at heq
    refine ⟨?_, h.2.congr hw fun x hlo hhi ↦ heq x (by omega) (by omega)⟩
    rw [hfirst, h.1]

theorem last_lt (prev a : ℕ) (hw : 0 < w) (hbs : bs ≠ []) : a ≤ last w prev a bs ∧ last w prev a bs < a + span w bs := by
  obtain ⟨cs, b, rfl⟩ := (eq_nil_or_concat' bs).resolve_left hbs
  rw [last_concat, span_append, span_cons, span_nil]
  omega

theorem Laid.setNext (hw : 0 < w) (h : Laid w headers next prev a bs) (hbs : bs ≠ [])
    (hlast : headers' (last w prev a bs) = { headers (last w prev a bs) with next := next' })
    (heq : ∀ x, a ≤ x → x < last w prev a bs → headers' x = headers x) : Laid w headers' next' prev a bs := by
  obtain ⟨cs, b, rfl⟩ := (eq_nil_or_concat' bs).resolve_left hbs
  rw [last_concat] at hlast heq
  obtain ⟨hcs, hb, -⟩ := laid_middle.mp h
  refine laid_middle.mpr ⟨hcs.congr hw heq, ?_, trivial⟩
  rw [hlast, hb]
  rfl

theorem inUse_append : inUse w a (bs ++ cs) = inUse w a bs ++ inUse w (a + span w bs) cs := by
  induction bs generalizing a with
  | nil => rfl
  | cons b bs ih =>
    rw [cons_append, inUse, inUse, ih, span_cons, ← Nat.add_assoc a (w + b.size)]
    split
    · rfl
    · rfl

theorem inUse_free (h : b.free = true) : inUse w a (b :: bs) = inUse w (a + (w + b.size)) bs := if_pos h

theorem inUse_taken (h : b.free = false) : inUse w a (b :: bs) = (a, b.size) :: inUse w (a + (w + b.size)) bs :=
  if_neg (by simp [h])

theorem inUse_join {c : Block} (hb : b.free = true) (hc : c.free = true) :
    inUse w a (⟨b.size + (w + c.size), b.free⟩ :: bs) = inUse w a (b :: c :: bs) := by
  have hjoined : inUse w a (⟨b.size + (w + c.size), b.free⟩ :: bs) = inUse w (a + (w + (b.size + (w + c.size)))) bs :=
    inUse_free hb
  rw [hjoined, inUse_free hb, inUse_free hc]
  simp only [Nat.add_assoc]

theorem mem_inUse {s : ℕ} :
    (x, s) ∈ inUse w a bs ↔ ∃ pre post, bs = pre ++ ⟨s, false⟩ :: post ∧ x = a + span w pre := by
  constructor
  · intro h
    induction bs generalizing a with
    | nil => cases h
    | cons b bs ih =>
      obtain ⟨size, free⟩ := b
      cases free with
      | true =>
        obtain ⟨pre, post, hbs, hx⟩ := ih h
        refine ⟨⟨size, true⟩ :: pre, post, by rw [hbs]; rfl, ?_⟩
        rw [hx, span_cons, Nat.add_assoc]
      | false =>
        rcases mem_cons.mp h with h | h
        · cases h
          exact ⟨[], bs, rfl, rfl⟩
        · obtain ⟨pre, post, hbs, hx⟩ := ih h
          refine ⟨⟨size, false⟩ :: pre, post, by rw [hbs]; rfl, ?_⟩
          rw [hx, span_cons, Nat.add_assoc]
  · intro ⟨pre, post, hbs, hx⟩
    rw [hbs, inUse_append, inUse_taken rfl, hx]
    exact mem_append_right _ mem_cons_self

theorem inUse_sorted : (inUse w a bs).Pairwise fun x y ↦ x.1 + (w + x.2) ≤ y.1 := by
  induction bs generalizing a with
  | nil => exact .nil
  | cons b bs ih =>
    rw [inUse]
    split
    · exact ih
    · refine pairwise_cons.mpr ⟨fun ⟨y, s⟩ hy ↦ ?_, ih⟩
      obtain ⟨pre, post, -, hyx⟩ := mem_inUse.mp hy
      simp only
      omega

end Eris.Library.Blocks
