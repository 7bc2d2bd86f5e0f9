import Mathlib.Data.BitVec
import Mathlib.Tactic.Common

/-!
# Low-bit masks

`x & (2^k - 1)` and `x & ~(2^k - 1)` are remainder and rounding down, for words
of any width. C code aligns addresses and splits them into fields this way.
-/

namespace Masks

variable {w k : Nat}

theorem and_not_and_and (x mask : BitVec w) : (x &&& ~~~mask) &&& (x &&& mask) = 0#w := by
  ext i hi
  simp only [BitVec.getElem_and, BitVec.getElem_not, BitVec.getElem_zero]
  cases x[i] <;> cases mask[i] <;> rfl

theorem and_not_add_and (x mask : BitVec w) : (x &&& ~~~mask) + (x &&& mask) = x := by
  rw [BitVec.add_eq_or_of_and_eq_zero _ _ (and_not_and_and x mask)]
  ext i hi
  simp only [BitVec.getElem_or, BitVec.getElem_and, BitVec.getElem_not]
  cases x[i] <;> cases mask[i] <;> rfl

theorem toNat_and_mask (x : BitVec w) (hk : k ≤ w) :
    (x &&& BitVec.ofNat w (2 ^ k - 1)).toNat = x.toNat % 2 ^ k := by
  have hpow : 2 ^ k ≤ 2 ^ w := Nat.pow_le_pow_right (by decide) hk
  have hpos : 0 < 2 ^ k := Nat.two_pow_pos k
  rw [BitVec.toNat_and, BitVec.toNat_ofNat, Nat.mod_eq_of_lt (by omega),
    Nat.and_two_pow_sub_one_eq_mod]

theorem toNat_and_not_mask (x : BitVec w) (hk : k ≤ w) :
    (x &&& ~~~BitVec.ofNat w (2 ^ k - 1)).toNat = x.toNat / 2 ^ k * 2 ^ k := by
  have hsum := congrArg BitVec.toNat (and_not_add_and x (BitVec.ofNat w (2 ^ k - 1)))
  rw [BitVec.toNat_add_of_and_eq_zero (and_not_and_and _ _), toNat_and_mask x hk] at hsum
  have hdiv := Nat.div_add_mod' x.toNat (2 ^ k)
  omega

/-- `(x + (2^k - 1)) & ~(2^k - 1)` rounds up. -/
theorem toNat_round_up (x : BitVec w) (hk : k ≤ w) (hx : x.toNat + (2 ^ k - 1) < 2 ^ w) :
    ((x + BitVec.ofNat w (2 ^ k - 1)) &&& ~~~BitVec.ofNat w (2 ^ k - 1)).toNat =
      (x.toNat + (2 ^ k - 1)) / 2 ^ k * 2 ^ k := by
  rw [toNat_and_not_mask _ hk, BitVec.toNat_add, BitVec.toNat_ofNat,
    Nat.mod_eq_of_lt (show 2 ^ k - 1 < 2 ^ w by omega), Nat.mod_eq_of_lt hx]

end Masks
