import Mathlib.Algebra.Group.Nat.Even
import MeasuredBoot.Bytes

/-!
# Little-endian numbers

What reading a little-endian number gives: the number that was written, modulo the range of its width,
and so the number itself if it fits. Every byte string is the little-endian number that it reads as.
-/
namespace MeasuredBoot.Bytes

theorem toNatLE_ofNatLE (width n : Nat) : toNatLE (ofNatLE width n) = n % 256 ^ width := by
  induction width generalizing n with
  | zero => simp [ofNatLE, toNatLE, Nat.mod_one]
  | succ w ih =>
    have h : (UInt8.ofNat (n % 256)).toNat = n % 256 := by
      simp [UInt8.toNat_ofNat']
    rw [ofNatLE_succ, toNatLE, ih, h, Nat.pow_succ, Nat.mul_comm (256 ^ w) 256, Nat.mod_mul]

theorem toNatLE_ofNatLE_of_lt {width n : Nat} (h : n < 256 ^ width) :
    toNatLE (ofNatLE width n) = n := by
  rw [toNatLE_ofNatLE, Nat.mod_eq_of_lt h]

theorem toNatLE_lt (b : Bytes) : b.toNatLE < 256 ^ b.length := by
  induction b with
  | nil => simp [toNatLE]
  | cons x rest ih =>
    have hx := x.toNat_lt
    rw [toNatLE, List.length_cons, Nat.pow_succ]
    omega

theorem ofNatLE_toNatLE (b : Bytes) : ofNatLE b.length b.toNatLE = b := by
  induction b with
  | nil => rfl
  | cons x rest ih =>
    have hx := x.toNat_lt
    have hmod : (x.toNat + 256 * toNatLE rest) % 256 = x.toNat := by omega
    have hdiv : (x.toNat + 256 * toNatLE rest) / 256 = toNatLE rest := by omega
    rw [List.length_cons, ofNatLE_succ, toNatLE, hmod, hdiv, ih, UInt8.ofNat_toNat]

end MeasuredBoot.Bytes
