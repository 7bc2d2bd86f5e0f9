import Mathlib.Data.BitVec
import Mathlib.Data.List.GetD
import Mathlib.Logic.Function.Iterate

/-!
# Cyclic redundancy checks

A feedback register of any width, fed with one bit at a time, low bits first. A
shift is linear over exclusive or, and injective when the polynomial has its top
bit set: what two messages leave in the register differs by what their
difference leaves. A nonzero difference that fits into the register is a nonzero
register, and the shifts that follow keep it so.
-/

namespace Crc

variable {w : Nat}

/-- One shift of the register. -/
def shift (poly r : BitVec w) : BitVec w := (r >>> 1) ^^^ if r.getLsbD 0 then poly else 0#w

/-- A bit as a register. -/
def bit (b : Bool) : BitVec w := if b then 1#w else 0#w

/-- The register after the bits. -/
def feed (poly : BitVec w) (r : BitVec w) (bits : List Bool) : BitVec w :=
  bits.foldl (fun r b => shift poly (r ^^^ bit b)) r

/-- The register that holds the bits. -/
def word : List Bool → BitVec w
  | [] => 0#w
  | b :: bits => bit b ^^^ (word bits <<< 1)

section Shift

variable {poly r s : BitVec w}

theorem shift_xor (poly r s : BitVec w) : shift poly (r ^^^ s) = shift poly r ^^^ shift poly s := by
  have hmask : ∀ p q : Bool, (if p ^^ q then poly else 0#w) =
      (if p then poly else 0#w) ^^^ (if q then poly else 0#w) := by
    intro p q
    cases p <;> cases q <;> simp
  rw [shift, shift, shift, BitVec.ushiftRight_xor_distrib, BitVec.getLsbD_xor, hmask]
  ac_rfl

@[simp] theorem shift_zero (poly : BitVec w) : shift poly 0#w = 0#w := by simp [shift]

/-- The top bit of the polynomial tells that a one was shifted out. -/
theorem shift_eq_zero (hpoly : poly.msb = true) (h : shift poly r = 0#w) : r = 0#w := by
  have hw : 0 < w := by
    by_contra hw
    obtain rfl : w = 0 := by omega
    simp [BitVec.of_length_zero] at hpoly
  have htop : (r >>> 1).msb = false := by
    rw [BitVec.msb_eq_getLsbD_last, BitVec.getLsbD_ushiftRight]
    exact BitVec.getLsbD_of_ge _ _ (by omega)
  have hlow : r.getLsbD 0 = false := by
    by_contra hone
    rw [shift, if_pos (by simpa using hone)] at h
    have hmsb := congrArg BitVec.msb h
    rw [BitVec.msb_xor, htop, hpoly] at hmsb
    simp at hmsb
  rw [shift, hlow] at h
  have hhigh : r >>> 1 = 0#w := by simpa using h
  apply BitVec.eq_of_getLsbD_eq
  intro i hi
  cases i with
  | zero => rw [hlow, BitVec.getLsbD_zero]
  | succ i =>
      have hbit := congrArg (fun v => BitVec.getLsbD v i) hhigh
      simpa [Nat.add_comm] using hbit

theorem shift_injective (hpoly : poly.msb = true) : Function.Injective (shift poly) := by
  intro r s h
  have hzero : shift poly (r ^^^ s) = 0#w := by rw [shift_xor, h, BitVec.xor_self]
  exact BitVec.xor_eq_zero_iff.mp (shift_eq_zero hpoly hzero)

/-- What is shifted down without a carry. -/
theorem shift_shiftLeft (h : r.msb = false) : shift poly (r <<< 1) = r := by
  have hlow : (r <<< 1).getLsbD 0 = false := by simp
  rw [shift, hlow]
  simp only [Bool.false_eq_true, if_false, BitVec.xor_zero]
  apply BitVec.eq_of_getLsbD_eq
  intro i hi
  rw [BitVec.getLsbD_ushiftRight, BitVec.getLsbD_shiftLeft]
  by_cases hlast : i + 1 < w
  · simp [Nat.add_comm 1 i, hlast]
  · have hmsb : r.getLsbD i = false := by
      rw [BitVec.msb_eq_getLsbD_last] at h
      rwa [show w - 1 = i by omega] at h
    simp [Nat.add_comm 1 i, hlast, hmsb]

end Shift

/-! ## Feeding bits -/

section Feed

variable {poly r s : BitVec w} {xs ys : List Bool}

theorem feed_append (poly r : BitVec w) (xs ys : List Bool) :
    feed poly r (xs ++ ys) = feed poly (feed poly r xs) ys := List.foldl_append

/-- **The registers of two messages differ by that of their difference.** -/
theorem feed_xor (hlen : xs.length = ys.length) :
    feed poly r xs ^^^ feed poly s ys = feed poly (r ^^^ s) (List.zipWith (· ^^ ·) xs ys) := by
  induction xs generalizing ys r s with
  | nil =>
      obtain rfl := List.length_eq_zero_iff.mp hlen.symm
      rfl
  | cons x xs ih =>
      cases ys with
      | nil => cases hlen
      | cons y ys =>
          have hstep : shift poly (r ^^^ bit x) ^^^ shift poly (s ^^^ bit y) =
              shift poly (r ^^^ s ^^^ bit (x ^^ y)) := by
            have hbit : (bit (x ^^ y) : BitVec w) = bit x ^^^ bit y := by
              cases x <;> cases y <;> simp [bit]
            rw [← shift_xor, hbit]
            congr 1
            ac_rfl
          show feed poly (shift poly (r ^^^ bit x)) xs ^^^ feed poly (shift poly (s ^^^ bit y)) ys = _
          rw [ih (Nat.succ.inj hlen), hstep]
          rfl

theorem feed_zeros (poly : BitVec w) (n : Nat) : feed poly 0#w (List.replicate n false) = 0#w := by
  induction n with
  | zero => rfl
  | succ n ih =>
      have hstep : shift poly (0#w ^^^ bit false) = 0#w := by simp [bit]
      rw [List.replicate_succ, feed, List.foldl_cons, hstep]
      exact ih

/-- Zeros do not clear a register. -/
theorem feed_zeros_ne (hpoly : poly.msb = true) (hr : r ≠ 0#w) (n : Nat) :
    feed poly r (List.replicate n false) ≠ 0#w := by
  induction n generalizing r with
  | zero => exact hr
  | succ n ih =>
      have hstep : shift poly (r ^^^ bit false) ≠ 0#w := by
        intro h
        have hzero := shift_eq_zero hpoly h
        rw [bit, if_neg (by decide), BitVec.xor_zero] at hzero
        exact hr hzero
      rw [List.replicate_succ, feed, List.foldl_cons]
      exact ih hstep

theorem getLsbD_word {i : Nat} (hi : i < w) (bits : List Bool) :
    (word bits : BitVec w).getLsbD i = bits.getD i false := by
  induction bits generalizing i with
  | nil => simp [word]
  | cons b bits ih =>
      rw [word, BitVec.getLsbD_xor, BitVec.getLsbD_shiftLeft]
      cases i with
      | zero => cases b <;> simp [bit, hi]
      | succ i =>
          have hbit : (bit b : BitVec w).getLsbD (i + 1) = false := by
            cases b <;> simp [bit]
          rw [hbit, List.getD_cons_succ, ← ih (by omega)]
          simp [hi]

theorem msb_word (h : xs.length < w) : (word xs : BitVec w).msb = false := by
  rw [BitVec.msb_eq_getLsbD_last, getLsbD_word (by omega), List.getD_eq_default _ _ (by omega)]

/-- **Bits that fit into the register are shifts of the register that holds them.** -/
theorem feed_eq_iterate (hlen : xs.length ≤ w) :
    feed poly r xs = (shift poly)^[xs.length] (r ^^^ word xs) := by
  induction xs generalizing r with
  | nil => simp [feed, word]
  | cons x xs ih =>
      rw [List.length_cons] at hlen
      have hstep : shift poly (r ^^^ bit x) ^^^ word xs = shift poly (r ^^^ word (x :: xs)) := by
        have hdown : shift poly (word xs <<< 1) = word xs := shift_shiftLeft (msb_word hlen)
        rw [word, ← BitVec.xor_assoc, shift_xor poly (r ^^^ bit x), hdown]
      rw [feed, List.foldl_cons, List.length_cons, Function.iterate_succ_apply, ← hstep]
      exact ih (Nat.le_of_succ_le hlen)

theorem iterate_shift_ne (hpoly : poly.msb = true) (hr : r ≠ 0#w) (n : Nat) :
    (shift poly)^[n] r ≠ 0#w := by
  intro h
  have hzero : (shift poly)^[n] 0#w = 0#w := Function.iterate_fixed (shift_zero poly) n
  exact hr ((shift_injective hpoly).iterate n (h.trans hzero.symm))

/-- A burst that fits into the register leaves a trace. -/
theorem feed_burst_ne (hpoly : poly.msb = true) (hlen : xs.length ≤ w) (hone : true ∈ xs) (a b : Nat) :
    feed poly 0#w (List.replicate a false ++ xs ++ List.replicate b false) ≠ 0#w := by
  rw [feed_append, feed_append, feed_zeros, feed_eq_iterate hlen, BitVec.zero_xor]
  have hword : (word xs : BitVec w) ≠ 0#w := by
    obtain ⟨i, hi, hbit⟩ := List.getElem_of_mem hone
    intro h
    have hget := congrArg (fun v => BitVec.getLsbD v i) h
    rw [getLsbD_word (by omega), List.getD_eq_getElem _ _ hi, hbit] at hget
    simp at hget
  exact feed_zeros_ne hpoly (iterate_shift_ne hpoly hword _) b

/-- A difference that is zero outside the `w` places from `s` on. -/
theorem eq_padded {zs : List Bool} {s : Nat}
    (hout : ∀ k b, zs[k]? = some b → (k < s ∨ s + w ≤ k) → b = false) :
    zs = List.replicate (zs.take s).length false ++ (zs.drop s).take w ++
      List.replicate (zs.drop (s + w)).length false := by
  have hfront : zs.take s = List.replicate (zs.take s).length false := by
    rw [List.eq_replicate_iff]
    refine ⟨rfl, fun b hb => ?_⟩
    obtain ⟨k, hk⟩ := List.mem_iff_getElem?.mp hb
    rw [List.getElem?_take] at hk
    split at hk
    · exact hout k b hk (Or.inl ‹_›)
    · cases hk
  have hback : zs.drop (s + w) = List.replicate (zs.drop (s + w)).length false := by
    rw [List.eq_replicate_iff]
    refine ⟨rfl, fun b hb => ?_⟩
    obtain ⟨k, hk⟩ := List.mem_iff_getElem?.mp hb
    rw [List.getElem?_drop] at hk
    exact hout _ b hk (Or.inr (by omega))
  rw [← hfront, ← hback, ← List.drop_drop, List.append_assoc, List.take_append_drop,
    List.take_append_drop]

/-- **Two messages of one length that differ within a burst leave different
registers.** -/
theorem feed_ne (hpoly : poly.msb = true) (hlen : xs.length = ys.length) (hne : xs ≠ ys) (s : Nat)
    (hburst : ∀ k, k < xs.length → xs[k]? ≠ ys[k]? → s ≤ k ∧ k < s + w) :
    feed poly r xs ≠ feed poly r ys := by
  generalize hz : List.zipWith (· ^^ ·) xs ys = zs
  have hget : ∀ k, k < xs.length → ∃ x y, xs[k]? = some x ∧ ys[k]? = some y ∧
      zs[k]? = some (x ^^ y) := by
    intro k hx
    have hy : k < ys.length := by omega
    refine ⟨xs[k], ys[k], List.getElem?_eq_getElem hx, List.getElem?_eq_getElem hy, ?_⟩
    rw [← hz, List.getElem?_zipWith, List.getElem?_eq_getElem hx, List.getElem?_eq_getElem hy]
  have hzlen : zs.length = xs.length := by
    rw [← hz, List.length_zipWith, ← hlen, Nat.min_self]
  have hpadded := @eq_padded w zs s fun k b hk hout => by
    obtain ⟨x, y, hx, hy, hxy⟩ := hget k (hzlen ▸ (List.getElem?_eq_some_iff.mp hk).1)
    obtain rfl := Option.some.inj (hk.symm.trans hxy)
    have hsame : xs[k]? = ys[k]? := by
      by_contra hdiff
      have := hburst k (hzlen ▸ (List.getElem?_eq_some_iff.mp hk).1) hdiff
      omega
    rw [hx, hy] at hsame
    obtain rfl := Option.some.inj hsame
    exact Bool.xor_self x
  have hone : true ∈ (zs.drop s).take w := by
    obtain ⟨k, hk⟩ : ∃ k, xs[k]? ≠ ys[k]? := by
      by_contra hall
      rw [not_exists] at hall
      exact hne (List.ext_getElem? fun k => not_not.mp (hall k))
    have hlt : k < xs.length := by
      by_contra hge
      rw [List.getElem?_eq_none (by omega), List.getElem?_eq_none (by omega)] at hk
      exact hk rfl
    obtain ⟨x, y, hx, hy, hxy⟩ := hget k hlt
    have hbit : (x ^^ y) = true := by
      rw [hx, hy] at hk
      cases x <;> cases y <;> simp at hk ⊢
    obtain ⟨hlow, hhigh⟩ := hburst k hlt hk
    refine List.mem_iff_getElem?.mpr ⟨k - s, ?_⟩
    rw [List.getElem?_take, if_pos (by omega), List.getElem?_drop, Nat.add_sub_cancel' hlow, hxy, hbit]
  have hxor : feed poly r xs ^^^ feed poly r ys = feed poly 0#w zs := by
    rw [feed_xor hlen, BitVec.xor_self, hz]
  intro heq
  rw [heq, BitVec.xor_self, hpadded] at hxor
  exact feed_burst_ne hpoly (List.length_take_le ..) hone _ _ hxor.symm

end Feed

end Crc
