import VectorForth.Lib.ByteMemory

/-!
# Copies between runs that overlap

A copy that goes up reads what it should if it writes below, or beyond, what it
reads; a copy that goes down, if it writes above. Each is then the simultaneous
copy `store m dst n fun i => m (src + i)`. A copy that goes up into its own source
reads what it has written before.
-/

namespace ByteMemory

/-- Copy the `n` bytes below `src` to below `dst`, highest address first. -/
def copyDown (m : Mem) (dst src : Nat) : Nat → Mem
  | 0 => m
  | n + 1 => copyDown (write8 m (dst - 1) (m (src - 1))) (dst - 1) (src - 1) n

section Overlap

variable {m : Mem} {dst src n i : Nat}

/-- The bytes still to be read lie above those written. -/
theorem copy_below (h : dst ≤ src) : copy m dst src n = store m dst n fun i => m (src + i) := by
  induction n generalizing m dst src with
  | zero =>
      funext x
      rw [store_outside (by omega)]
      rfl
  | succ n ih =>
      rw [copy, ih (by omega)]
      funext x
      by_cases hin : dst + 1 ≤ x ∧ x < dst + 1 + n
      · -- a byte of the rest, not yet written when it is read
        obtain ⟨k, rfl⟩ := Nat.exists_eq_add_of_le hin.1
        rw [store_inside (by omega), Nat.add_assoc dst, store_inside (by omega),
          write8_outside (by omega), Nat.add_assoc src]
      · rw [store_outside (by omega)]
        by_cases hx : x = dst
        · subst hx
          have hfirst := store_inside (m := m) (a := x) (n := n + 1) (f := fun i => m (src + i))
            (show 0 < n + 1 by omega)
          rw [write8_same]
          exact hfirst.symm
        · rw [write8_outside hx, store_outside (by omega)]

/-- The simultaneous copy. -/
theorem copy_eq_store (h : dst ≤ src ∨ src + n ≤ dst) :
    copy m dst src n = store m dst n fun i => m (src + i) := by
  rcases h with hbelow | hbeyond
  · exact copy_below hbelow
  · funext x
    by_cases hin : dst ≤ x ∧ x < dst + n
    · obtain ⟨k, rfl⟩ := Nat.exists_eq_add_of_le hin.1
      rw [copy_inside (Or.inl hbeyond) (by omega), store_inside (by omega)]
    · rw [copy_outside (by omega), store_outside (by omega)]

/-- The bytes still to be read lie below those written. -/
theorem copyDown_eq_store (h : src ≤ dst) :
    copyDown m (dst + n) (src + n) n = store m dst n fun i => m (src + i) := by
  induction n generalizing m with
  | zero =>
      funext x
      rw [store_outside (by omega)]
      rfl
  | succ n ih =>
      have hdst : dst + (n + 1) - 1 = dst + n := rfl
      have hsrc : src + (n + 1) - 1 = src + n := rfl
      rw [copyDown, hdst, hsrc, ih]
      funext x
      by_cases hin : dst ≤ x ∧ x < dst + n
      · obtain ⟨k, rfl⟩ := Nat.exists_eq_add_of_le hin.1
        rw [store_inside (by omega), store_inside (by omega), write8_outside (by omega)]
      · rw [store_outside (by omega)]
        by_cases hx : x = dst + n
        · subst hx
          rw [write8_same, store_inside (by omega)]
        · rw [write8_outside hx, store_outside (by omega)]

/-- A copy that goes up into its own source leaves, at `dst + i`, what it has put
at `src + i`. -/
theorem copy_follows (h : src < dst) (hi : i < n) :
    copy m dst src n (dst + i) = copy m dst src n (src + i) := by
  induction n generalizing m dst src i with
  | zero => omega
  | succ n ih =>
      rw [copy]
      cases i with
      | zero =>
          show copy (write8 m dst (m src)) (dst + 1) (src + 1) n dst =
            copy (write8 m dst (m src)) (dst + 1) (src + 1) n src
          rw [copy_outside (by omega), copy_outside (by omega), write8_same,
            write8_outside (by omega)]
      | succ i =>
          have hstep : copy (write8 m dst (m src)) (dst + 1) (src + 1) n (dst + 1 + i) =
              copy (write8 m dst (m src)) (dst + 1) (src + 1) n (src + 1 + i) :=
            ih (by omega) (by omega)
          rw [show dst + (i + 1) = dst + 1 + i by omega, hstep,
            show src + (i + 1) = src + 1 + i by omega]

/-- Every byte that such a copy writes comes from below `dst`. -/
theorem copy_repeats {P : Byte → Prop} (h : src < dst)
    (hP : ∀ k < n, src + k < dst → P (m (src + k))) (hi : i < n) :
    P (copy m dst src n (dst + i)) := by
  induction i using Nat.strongRecOn with
  | ind i ih =>
      rw [copy_follows h hi]
      by_cases hlow : src + i < dst
      · rw [copy_outside (Or.inl hlow)]
        exact hP i hi hlow
      · -- written before, `dst - src` places further down
        have hback : src + i = dst + (i - (dst - src)) := by omega
        rw [hback]
        exact ih _ (by omega) (by omega)

/-- It is the simultaneous copy exactly when the source repeats itself at that distance. -/
theorem copy_eq_iff (h : src < dst) :
    (∀ i < n, copy m dst src n (dst + i) = m (src + i)) ↔
      ∀ i, dst + i < src + n → m (dst + i) = m (src + i) := by
  constructor
  · intro hcopy i hi
    have hlater := hcopy (dst - src + i) (by omega)
    rw [copy_follows h (by omega), show src + (dst - src + i) = dst + i by omega,
      hcopy i (by omega)] at hlater
    exact hlater.symm
  · intro hperiod i
    induction i using Nat.strongRecOn with
    | ind i ih =>
        intro hi
        rw [copy_follows h hi]
        by_cases hlow : src + i < dst
        · exact copy_outside (Or.inl hlow)
        · have hback : src + i = dst + (i - (dst - src)) := by omega
          rw [hback, ih _ (by omega) (by omega)]
          exact (hperiod _ (by omega)).symm

end Overlap

end ByteMemory
