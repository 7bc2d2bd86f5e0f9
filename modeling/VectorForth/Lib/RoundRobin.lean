import Mathlib.Tactic.Common

/-!
# Going round a ring

Places `0 … n - 1` in a circle. `FirstAfter p n c j` says that a search which
starts behind `c` and stops at the first place with the property `p`, or back
at `c`, ends at `j`. The search itself is a loop over `next`; `Scanned` is its
invariant and `stepsLeft` the bound on its length.
-/

namespace RoundRobin

/-- Going round from `c`, the place `i` comes before `j`, and is not `c`. -/
def Between (c i j : Nat) : Prop := if c < j then c < i ∧ i < j else c < i ∨ i < j

instance (c i j : Nat) : Decidable (Between c i j) := by
  unfold Between
  infer_instance

/-- The first place after `c` where `p` holds; `c` itself if there is none. -/
def FirstAfter (p : Nat → Prop) (n c j : Nat) : Prop :=
  j < n ∧ (j ≠ c → p j) ∧ ∀ i, i < n → Between c i j → ¬ p i

theorem FirstAfter.unique {p : Nat → Prop} {n c j j' : Nat} (h : FirstAfter p n c j)
    (h' : FirstAfter p n c j') : j = j' := by
  obtain ⟨hj, hpj, hnone⟩ := h
  obtain ⟨hj', hpj', hnone'⟩ := h'
  by_contra hne
  have horder : (Between c j j' ∧ j ≠ c) ∨ (Between c j' j ∧ j' ≠ c) := by
    unfold Between
    split_ifs <;> omega
  rcases horder with ⟨hbetween, hjc⟩ | ⟨hbetween, hjc⟩
  · exact hnone' j hj hbetween (hpj hjc)
  · exact hnone j' hj' hbetween (hpj' hjc)

/-- Nothing is found exactly when `p` holds nowhere else. -/
theorem FirstAfter.self_iff {p : Nat → Prop} {n c j : Nat} (h : FirstAfter p n c j) :
    j = c ↔ ∀ i, i < n → i ≠ c → ¬ p i := by
  obtain ⟨hj, hpj, hnone⟩ := h
  constructor
  · rintro rfl i hi hne
    apply hnone i hi
    unfold Between
    split <;> omega
  · intro hall
    by_contra hne
    exact hall j hj hne (hpj hne)

/-! ## The search loop -/

/-- The places between `c` and `i` have been looked at. -/
def Scanned (p : Nat → Prop) (n c i : Nat) : Prop :=
  ∀ k, k < n → Between c k i → ¬ p k

/-- The places from `i` on before the search is back at `c`. -/
def stepsLeft (n c i : Nat) : Nat := if i ≤ c then c - i else c + n - i

section Loop

variable {p : Nat → Prop} {n c i : Nat}

theorem succ_mod (hi : i < n) : (i + 1) % n = if i + 1 = n then 0 else i + 1 := by
  split
  · rename_i h
    rw [h, Nat.mod_self]
  · exact Nat.mod_eq_of_lt (by omega)

theorem succ_mod_lt (hi : i < n) : (i + 1) % n < n := Nat.mod_lt _ (by omega)

theorem scanned_start (hc : c < n) : Scanned p n c ((c + 1) % n) := by
  intro k hk hbetween
  rw [succ_mod hc] at hbetween
  unfold Between at hbetween
  split at hbetween <;> split at hbetween <;> omega

theorem Scanned.next (h : Scanned p n c i) (hi : i < n) (hp : ¬ p i) :
    Scanned p n c ((i + 1) % n) := by
  intro k hk hbetween
  by_cases hki : k = i
  · rw [hki]
    exact hp
  · apply h k hk
    rw [succ_mod hi] at hbetween
    unfold Between at hbetween ⊢
    split at hbetween <;> split at hbetween <;> split <;> omega

theorem Scanned.firstAfter (h : Scanned p n c i) (hi : i < n) (hp : i ≠ c → p i) :
    FirstAfter p n c i := ⟨hi, hp, h⟩

theorem stepsLeft_next (hc : c < n) (hi : i < n) (hne : i ≠ c) :
    stepsLeft n c ((i + 1) % n) + 1 = stepsLeft n c i := by
  rw [succ_mod hi]
  unfold stepsLeft
  split <;> split <;> split <;> omega

theorem stepsLeft_lt (hc : c < n) (hi : i < n) : stepsLeft n c i < n := by
  unfold stepsLeft
  split <;> omega

end Loop

/-! ## One round -/

/-- In a round that starts behind `t`, the place `u` is reached no later than `c`. -/
def Reached (t u c : Nat) : Prop := if t < u then u ≤ c ∨ c < t else u ≤ c ∧ c < t

/-- Moving on from `c` to `j` without passing `t` reaches what lies between. -/
theorem Reached.move {t u c j : Nat} (hpass : ¬ Between c t j) (h : Reached t u j) :
    Reached t u c ∨ u = j ∨ Between c u j := by
  unfold Reached Between at *
  split_ifs at h hpass ⊢ <;> omega

/-- What the first move of the round jumps over is all it has reached. -/
theorem reached_of_first {t u j : Nat} (h : Reached t u j) :
    u = j ∨ Between t u j := by
  unfold Reached Between at *
  split_ifs at h ⊢ <;> omega

/-- A move to `t` itself completes the round. -/
theorem reached_or_between {t u c : Nat} (hu : u ≠ t) (hc : c ≠ t) :
    Reached t u c ∨ Between c u t := by
  unfold Reached Between
  split_ifs <;> omega

end RoundRobin
