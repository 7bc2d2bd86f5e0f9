import Mathlib.Data.Finset.Card
import Mathlib.Tactic.Common

/-!
# Taking the least element first

A pool of numbers from which the least one is taken each time. How many of those
taken lie below a bound depends on the pool only.
-/

namespace LowestFirst

/-- `xs` are taken from `F` one after the other, each the least there is then; `F'`
is left. -/
inductive Takes : Finset ℕ → List ℕ → Finset ℕ → Prop
  | nil (F : Finset ℕ) : Takes F [] F
  | cons {F F' : Finset ℕ} {x : ℕ} {xs : List ℕ} : x ∈ F → (∀ y ∈ F, x ≤ y) →
      Takes (F.erase x) xs F' → Takes F (x :: xs) F'

/-- The numbers of the pool below `b`. -/
def under (F : Finset ℕ) (b : ℕ) : Finset ℕ := F.filter (· < b)

section Takes

variable {F F' F'' : Finset ℕ} {x b : ℕ} {xs ys : List ℕ}

theorem Takes.single (hx : x ∈ F) (hmin : ∀ y ∈ F, x ≤ y) : Takes F [x] (F.erase x) :=
  .cons hx hmin (.nil _)

theorem Takes.one (h : Takes F [x] F') : x ∈ F ∧ F' = F.erase x := by
  cases h with
  | cons hx _ hrest =>
      cases hrest
      exact ⟨hx, rfl⟩

theorem Takes.mem (h : Takes F xs F') (hx : x ∈ xs) : x ∈ F := by
  induction h with
  | nil => cases hx
  | cons hmem _ _ ih =>
      rcases List.mem_cons.mp hx with rfl | hx
      · exact hmem
      · exact Finset.mem_of_mem_erase (ih hx)

theorem Takes.append (h : Takes F xs F') (h' : Takes F' ys F'') : Takes F (xs ++ ys) F'' := by
  induction h with
  | nil => exact h'
  | cons hx hmin _ ih => exact .cons hx hmin (ih h')

theorem Takes.card (h : Takes F xs F') : F'.card + xs.length = F.card := by
  induction h with
  | nil => rfl
  | cons hx _ _ ih =>
      rw [List.length_cons, ← Finset.card_erase_add_one hx]
      omega

theorem under_erase (F : Finset ℕ) (x b : ℕ) : under (F.erase x) b = (under F b).erase x :=
  Finset.filter_erase ..

/-- If the least number is not below the bound, none is. -/
theorem under_eq_empty (hmin : ∀ y ∈ F, x ≤ y) (hx : b ≤ x) : under F b = ∅ := by
  rw [under, Finset.filter_eq_empty_iff]
  intro y hy
  have := hmin y hy
  omega

theorem card_under_erase (hx : x ∈ F) (hmin : ∀ y ∈ F, x ≤ y) :
    (under (F.erase x) b).card = (under F b).card - 1 := by
  rw [under_erase]
  rcases Nat.lt_or_ge x b with hlt | hge
  · exact Finset.card_erase_of_mem (Finset.mem_filter.mpr ⟨hx, hlt⟩)
  · rw [under_eq_empty hmin hge, Finset.erase_empty]
    rfl

theorem Takes.left_under (h : Takes F xs F') :
    (under F' b).card = (under F b).card - xs.length := by
  induction h with
  | nil => rfl
  | cons hx hmin _ ih =>
      rw [ih, card_under_erase hx hmin, List.length_cons]
      omega

/-- **All numbers taken lie below the bound** exactly when no more are taken than
lie below it. -/
theorem Takes.lt_iff (h : Takes F xs F') : (∀ x ∈ xs, x < b) ↔ xs.length ≤ (under F b).card := by
  induction h with
  | nil => simp
  | @cons F F' x xs hx hmin _ ih =>
      rw [List.forall_mem_cons, ih, card_under_erase hx hmin, List.length_cons]
      constructor
      · rintro ⟨hlt, hle⟩
        have hmem : x ∈ under F b := Finset.mem_filter.mpr ⟨hx, hlt⟩
        have hpos := Finset.card_pos.mpr ⟨x, hmem⟩
        omega
      · intro hle
        refine ⟨?_, by omega⟩
        by_contra hge
        rw [under_eq_empty hmin (by omega), Finset.card_empty] at hle
        omega

end Takes

end LowestFirst
