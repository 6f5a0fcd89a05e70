import Mathlib

namespace Eris.Library.Words

def fromBytes : List UInt8 → ℕ
  | [] => 0
  | b :: bs => b.toNat + 256 * fromBytes bs

def field (raw : List UInt8) (offset width : ℕ) : ℕ := fromBytes ((raw.drop offset).take width)

def toBytes : ℕ → ℕ → List UInt8
  | 0, _ => []
  | width + 1, n => (n % 256).toUInt8 :: toBytes width (n / 256)

def signed (width n : ℕ) : ℤ := if n < 2 ^ (width - 1) then n else n - 2 ^ width

theorem length_toBytes (width n : ℕ) : (toBytes width n).length = width := by
  induction width generalizing n with
  | zero => rfl
  | succ width ih => rw [toBytes, List.length_cons, ih]

theorem fromBytes_toBytes (width n : ℕ) : fromBytes (toBytes width n) = n % 256 ^ width := by
  induction width generalizing n with
  | zero => rw [toBytes, fromBytes, Nat.pow_zero, Nat.mod_one]
  | succ width ih =>
    have hbyte : (n % 256).toUInt8.toNat = n % 256 := by
      rw [Nat.toUInt8_eq, UInt8.toNat_ofNat']
      exact Nat.mod_eq_of_lt (Nat.mod_lt n (by decide))
    rw [toBytes, fromBytes, ih, hbyte, Nat.pow_succ, Nat.mul_comm (256 ^ width), Nat.mod_mul]

theorem fromBytes_lt (bs : List UInt8) : fromBytes bs < 256 ^ bs.length := by
  induction bs with
  | nil => exact Nat.one_pos
  | cons b bs ih =>
    have hb := b.toNat_lt
    rw [fromBytes, List.length_cons, Nat.pow_succ]
    omega

theorem field_lt (raw : List UInt8) (offset width : ℕ) : field raw offset width < 256 ^ width :=
  (fromBytes_lt _).trans_le (Nat.pow_le_pow_right (by decide) (List.length_take_le ..))

theorem fromBytes_inj {bs cs : List UInt8} (hlen : bs.length = cs.length)
    (h : fromBytes bs = fromBytes cs) : bs = cs := by
  induction bs generalizing cs with
  | nil => exact (List.length_eq_zero_iff.mp hlen.symm).symm
  | cons b bs ih =>
    cases cs with
    | nil => cases hlen
    | cons c cs =>
      have hb := b.toNat_lt
      have hc := c.toNat_lt
      rw [fromBytes, fromBytes] at h
      have hbc : b = c := UInt8.toNat.inj (by omega)
      rw [hbc, ih (Nat.succ.inj hlen) (by omega)]

end Eris.Library.Words
