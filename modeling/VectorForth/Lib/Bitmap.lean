import Mathlib.Data.BitVec
import Mathlib.Logic.Function.Basic
import Mathlib.Tactic.Common

/-!
# Bitmaps in bytes

One bit a number, eight to a byte, lowest bit first: bit `k % 8` of byte `k / 8`.
The C idioms for testing, setting and clearing it are characterised by `bitAt`.
-/

namespace Bitmap

variable {bytes : Nat → BitVec 8} {b : BitVec 8} {bit k q : Nat}

def bitAt (bytes : Nat → BitVec 8) (k : Nat) : Bool := (bytes (k / 8)).getLsbD (k % 8)

theorem bitAt_byte (hbit : bit < 8) (i : Nat) : bitAt bytes (i * 8 + bit) = (bytes i).getLsbD bit := by
  have hdiv : (i * 8 + bit) / 8 = i := by omega
  have hmod : (i * 8 + bit) % 8 = bit := by omega
  rw [bitAt, hdiv, hmod]

/-- `b & (1 << bit)` tests the bit. -/
theorem and_mask_ne_zero (hbit : bit < 8) : ((b &&& (1#8 <<< bit)) != 0#8) = b.getLsbD bit := by
  rw [← BitVec.twoPow_eq, BitVec.and_twoPow]
  cases hb : b.getLsbD bit with
  | false => simp
  | true =>
      have hne : BitVec.twoPow 8 bit ≠ 0#8 := by
        intro h
        have hget := congrArg (BitVec.getLsbD · bit) h
        simp [hbit] at hget
      simpa using hne

/-- Two numbers share a byte and a bit position only when they are equal. -/
theorem eq_of_div_mod (hdiv : k / 8 = q / 8) (hmod : k % 8 = q % 8) : k = q := by
  omega

/-- `bytes[q / 8] |= 1 << (q % 8)`. -/
theorem bitAt_set (bytes : Nat → BitVec 8) (q k : Nat) :
    bitAt (Function.update bytes (q / 8) (bytes (q / 8) ||| (1#8 <<< (q % 8)))) k =
      (decide (k = q) || bitAt bytes k) := by
  have hk : k % 8 < 8 := Nat.mod_lt _ (by decide)
  unfold bitAt
  by_cases hbyte : k / 8 = q / 8
  · rw [hbyte, Function.update_self, BitVec.getLsbD_or, ← BitVec.twoPow_eq, BitVec.getLsbD_twoPow,
      Bool.or_comm]
    congr 1
    by_cases hkq : k = q
    · simp [hkq, Nat.mod_lt]
    · have hbit : q % 8 ≠ k % 8 := fun h => hkq (eq_of_div_mod hbyte h.symm)
      simp [hkq, hbit]
  · have hkq : k ≠ q := fun h => hbyte (by rw [h])
    simp [Function.update_of_ne hbyte, hkq]

/-- `bytes[q / 8] &= ~(1 << (q % 8))`. -/
theorem bitAt_clear (bytes : Nat → BitVec 8) (q k : Nat) :
    bitAt (Function.update bytes (q / 8) (bytes (q / 8) &&& ~~~(1#8 <<< (q % 8)))) k =
      (!decide (k = q) && bitAt bytes k) := by
  have hk : k % 8 < 8 := Nat.mod_lt _ (by decide)
  unfold bitAt
  by_cases hbyte : k / 8 = q / 8
  · rw [hbyte, Function.update_self, BitVec.getLsbD_and, BitVec.getLsbD_not, ← BitVec.twoPow_eq,
      BitVec.getLsbD_twoPow, Bool.and_comm]
    congr 1
    by_cases hkq : k = q
    · simp [hkq, Nat.mod_lt]
    · have hbit : q % 8 ≠ k % 8 := fun h => hkq (eq_of_div_mod hbyte h.symm)
      simp [hkq, hk, hbit]
  · have hkq : k ≠ q := fun h => hbyte (by rw [h])
    simp [Function.update_of_ne hbyte, hkq]

/-- A byte of ones has every bit set. -/
theorem getLsbD_full (hbit : bit < 8) : (0xFF#8).getLsbD bit = true := by
  have hones : 0xFF#8 = BitVec.allOnes 8 := rfl
  rw [hones, BitVec.getLsbD_allOnes]
  simpa using hbit

end Bitmap
