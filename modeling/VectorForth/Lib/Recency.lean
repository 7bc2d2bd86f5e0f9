import Mathlib.Data.Finset.Max
import Mathlib.Data.Fintype.Basic
import Mathlib.Data.List.Basic
import Mathlib.Logic.Function.Basic
import Mathlib.Tactic.Common

/-!
# Recency by time stamps

Items are used one at a time, under a clock that never goes back but may stand
still. `age uses a` counts the uses since the last one of `a`; the oldest item
is the least recently used. Who keeps only the time of each last use sees the
order of the uses up to ties: `Stamped` is what such stamps say, and
`Stamped.oldest_iff` when the first of the smallest stamps belongs to the oldest
item.
-/

namespace Recency

variable {α τ : Type*} [DecidableEq α] {uses : List α} {a b : α}

/-- The number of uses since the last use of `a`, newest use first. -/
def age (uses : List α) (a : α) : Nat := uses.idxOf a

theorem age_use_self : age (a :: uses) a = 0 := List.idxOf_cons_self

theorem age_use_of_ne (h : b ≠ a) : age (a :: uses) b = age uses b + 1 :=
  List.idxOf_cons_ne uses h.symm

theorem age_inj (ha : a ∈ uses) (h : age uses a = age uses b) : a = b := (List.idxOf_inj ha).mp h

/-- `a` has been used less recently than anything else. -/
def Oldest (uses : List α) (a : α) : Prop := ∀ b, b ≠ a → age uses b < age uses a

theorem Oldest.unique (ha : Oldest uses a) (hb : Oldest uses b) : a = b := by
  by_contra hne
  have hlt := ha b (Ne.symm hne)
  have hlt' := hb a hne
  omega

/-- What has just been used is not the oldest, if there is anything else. -/
theorem not_oldest_of_used (hne : b ≠ a) : ¬ Oldest (a :: uses) a := by
  intro h
  have hlt := h b hne
  rw [age_use_self] at hlt
  exact Nat.not_lt_zero _ hlt

theorem exists_oldest [Fintype α] [Nonempty α] (hall : ∀ a, a ∈ uses) : ∃ a, Oldest uses a := by
  obtain ⟨a, -, hmax⟩ := Finset.exists_max_image Finset.univ (age uses) Finset.univ_nonempty
  refine ⟨a, fun b hne => ?_⟩
  refine lt_of_le_of_ne (hmax b (Finset.mem_univ b)) ?_
  intro heq
  exact hne (age_inj (hall b) heq)

/-! ## Time stamps -/

section Stamps

variable [LinearOrder τ] {stamp : α → τ} {now : τ}

/-- `stamp` is the time of the last use. -/
structure Stamped (uses : List α) (stamp : α → τ) (now : τ) : Prop where
  order : ∀ a b, a ∈ uses → age uses b ≤ age uses a → stamp a ≤ stamp b
  past : ∀ a, a ∈ uses → stamp a ≤ now

theorem Stamped.nil : Stamped ([] : List α) stamp now where
  order _ _ ha := absurd ha List.not_mem_nil
  past _ ha := absurd ha List.not_mem_nil

theorem Stamped.tick (h : Stamped uses stamp now) {later : τ} (hle : now ≤ later) :
    Stamped uses stamp later :=
  ⟨h.order, fun a ha => (h.past a ha).trans hle⟩

/-- A use at the present time. -/
theorem Stamped.use (h : Stamped uses stamp now) (c : α) :
    Stamped (c :: uses) (Function.update stamp c now) now := by
  constructor
  case order =>
    intro a b ha hage
    rcases eq_or_ne b c with rfl | hb
    · rw [Function.update_self]
      rcases eq_or_ne a b with rfl | ha'
      · rw [Function.update_self]
      · rw [Function.update_of_ne ha']
        exact h.past a ((List.mem_cons.mp ha).resolve_left ha')
    · rcases eq_or_ne a c with rfl | ha'
      · rw [age_use_self, age_use_of_ne hb] at hage
        omega
      · rw [Function.update_of_ne hb, Function.update_of_ne ha']
        rw [age_use_of_ne hb, age_use_of_ne ha'] at hage
        exact h.order a b ((List.mem_cons.mp ha).resolve_left ha') (by omega)
  case past =>
    intro a ha
    rcases eq_or_ne a c with rfl | ha'
    · rw [Function.update_self]
    · rw [Function.update_of_ne ha']
      exact h.past a ((List.mem_cons.mp ha).resolve_left ha')

/-- Of the items with the smallest stamp, `v` comes first. -/
structure FirstSmallest [LinearOrder α] (stamp : α → τ) (v : α) : Prop where
  least : ∀ b, stamp v ≤ stamp b
  first : ∀ b, b < v → stamp v < stamp b

/-- **The first of the smallest stamps belongs to the oldest item exactly when no
item before the oldest has the same stamp.** -/
theorem Stamped.oldest_iff [LinearOrder α] [Fintype α] [Nonempty α] (h : Stamped uses stamp now)
    (hall : ∀ a, a ∈ uses) {v : α} (hv : FirstSmallest stamp v) :
    Oldest uses v ↔ ∀ a, Oldest uses a → ∀ b, b < a → stamp b ≠ stamp a := by
  constructor
  · intro hold a ha b hb
    obtain rfl := hold.unique ha
    exact (hv.first b hb).ne'
  · intro huntied
    obtain ⟨a, ha⟩ := exists_oldest hall
    have hle : stamp a ≤ stamp v := by
      rcases eq_or_ne v a with rfl | hne
      · exact le_refl _
      · exact h.order a v (hall a) (ha v hne).le
    have heq : stamp v = stamp a := le_antisymm (hv.least a) hle
    rcases lt_trichotomy v a with hlt | rfl | hgt
    · exact absurd heq (huntied a ha v hlt)
    · exact ha
    · exact absurd heq (hv.first a hgt).ne

end Stamps

end Recency
