import Eris.Loader.Load

namespace Eris.Mm.Memory

open List

variable {m : Memory} {a p : ℕ} {bytes : ℕ → UInt8}

theorem translateFrom_bytes (a level table : ℕ) :
    { m with bytes := bytes }.translateFrom a level table = m.translateFrom a level table := by
  induction level generalizing table with
  | zero => rfl
  | succ level ih =>
    rw [translateFrom, translateFrom]
    simp only [ih]
    rfl

@[simp] theorem translate_bytes (a : ℕ) : { m with bytes := bytes }.translate a = m.translate a :=
  translateFrom_bytes a 3 m.root

/-- No two addresses from `a` on share a byte. -/
def Apart (m : Memory) (a length : ℕ) : Prop :=
  ∀ c d, a ≤ c → c < a + length → a ≤ d → d < a + length → m.translate c = m.translate d → c = d

theorem Apart.mono {length b n : ℕ} (h : m.Apart a length) (hb : a ≤ b)
    (hn : b + n ≤ a + length) : m.Apart b n :=
  fun c d hc hc' hd hd' ↦ h c d (by omega) (by omega) (by omega) (by omega)

theorem write_eq (data : List UInt8) (a : ℕ) (m : Memory) :
    m.write data a = { m with bytes := (m.write data a).bytes } := by
  induction data generalizing a m with
  | nil => rfl
  | cons b data ih => rw [write, ih]; rfl

@[simp] theorem translate_write (data : List UInt8) (a c : ℕ) (m : Memory) :
    (m.write data a).translate c = m.translate c := by
  rw [write_eq, translate_bytes]

theorem bytes_write_of_ne (data : List UInt8)
    (h : ∀ c, a ≤ c → c < a + data.length → m.translate c ≠ p) :
    (m.write data a).bytes p = m.bytes p := by
  induction data generalizing a m with
  | nil => rfl
  | cons b data ih =>
    rw [length_cons] at h
    rw [write, ih fun c hc hlt ↦ ?_]
    · exact Function.update_of_ne (h a le_rfl (by omega)).symm b m.bytes
    · rw [setByte, translate_bytes]
      exact h c (by omega) (by omega)

theorem bytes_write (data : List UInt8) (h : m.Apart a data.length) {j : ℕ} {b : UInt8}
    (hj : data[j]? = some b) : (m.write data a).bytes (m.translate (a + j)) = b := by
  induction data generalizing a m j with
  | nil => simp at hj
  | cons c data ih =>
    rw [length_cons] at h
    cases j with
    | zero =>
      rw [getElem?_cons_zero, Option.some.injEq] at hj
      rw [write, bytes_write_of_ne data fun d hd hlt ↦ ?_, ← hj]
      · exact Function.update_self ..
      · rw [setByte, translate_bytes]
        intro heq
        have := h d a (by omega) (by omega) (by omega) (by omega) heq
        omega
    | succ j =>
      have hrest : (m.setByte (m.translate a) c).Apart (a + 1) data.length := by
        intro d e hd hd' he he' heq
        exact h d e (by omega) (by omega) (by omega) (by omega) heq
      have hread := ih hrest hj
      rwa [setByte, translate_bytes, Nat.add_assoc, Nat.add_comm 1 j] at hread

theorem read_of_mapped (h : m.translate a ≠ 0) : m.read a = .ok (m.bytes (m.translate a)) := by
  simp [read, mapped, h]

theorem readBytes_of_mapped {n : ℕ} (h : ∀ c, a ≤ c → c < a + n → m.translate c ≠ 0) :
    m.readBytes n a = .ok ((List.range n).map fun j ↦ m.bytes (m.translate (a + j))) := by
  induction n generalizing a with
  | zero => rfl
  | succ n ih =>
    have hrest := ih (a := a + 1) fun c hc hlt ↦ h c (by omega) (by omega)
    rw [readBytes, read_of_mapped (h a le_rfl (by omega)), hrest, range_succ_eq_map]
    simp only [bind, Except.bind, pure, Except.pure, map_cons, map_map, Nat.add_zero,
      Function.comp_def, Nat.succ_eq_add_one, Nat.add_assoc, Nat.add_comm 1]

end Eris.Mm.Memory
