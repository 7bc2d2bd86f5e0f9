import Mathlib.Data.List.Basic
import Mathlib.Data.List.Infix

/-!
# What code does to the top of a bounded stack

Code *uses* the stack as `u` says if it takes `u.takes` items off the top and puts
`u.gives` in their place, without looking at what lies below, and needs room for
`u.peak` items on the way. With less room it says so in its log. Uses compose, and
code composed of such code is a function on the top of the stack again.
-/

namespace StackUse

/-- `takes` items become `gives` items, with at most `peak` on the way. -/
structure Use where
  takes : Nat
  gives : Nat
  peak : Nat
  takes_le : takes ≤ peak
  gives_le : gives ≤ peak

/-- `takes` items for `gives` items, in their place. -/
def Use.exchange (takes gives : Nat) : Use :=
  ⟨takes, gives, max takes gives, Nat.le_max_left _ _, Nat.le_max_right _ _⟩

/-- Items that `u` takes off, or finds below what it takes, for what comes later. -/
def Use.before (u v : Use) : Nat := v.takes - u.gives

/-- Items that `u` leaves and `v` does not take. -/
def Use.under (u v : Use) : Nat := u.gives - v.takes

/-- First `u`, then `v`. -/
def Use.comp (u v : Use) : Use where
  takes := u.takes + u.before v
  gives := v.gives + u.under v
  peak := max (u.peak + u.before v) (v.peak + u.under v)
  takes_le := (Nat.add_le_add_right u.takes_le _).trans (Nat.le_max_left _ _)
  gives_le := (Nat.add_le_add_right v.gives_le _).trans (Nat.le_max_right _ _)

theorem Use.before_under (u v : Use) : u.gives + u.before v = v.takes + u.under v := by
  unfold Use.before Use.under
  omega

/-- States with a stack and a log. -/
structure Machine (σ α β : Type) where
  stack : σ → List α
  log : σ → List β
  put : σ → List α → σ
  stack_put : ∀ s l, stack (put s l) = l
  log_put : ∀ s l, log (put s l) = log s
  put_put : ∀ s l l', put (put s l) l' = put s l'
  put_stack : ∀ s, put s (stack s) = s

variable {σ α β : Type} {M : Machine σ α β} {cap : Nat} {I : σ → Prop} {u v : Use}
  {g h : List α → List α} {F G : σ → Option σ}

/-- In the states `I`, the code `F` uses the stack of at most `cap` items as `u`
says, and computes `g` on what it takes. -/
structure Uses (M : Machine σ α β) (cap : Nat) (I : σ → Prop) (u : Use) (g : List α → List α)
    (F : σ → Option σ) : Prop where
  returns : ∀ s, I s → ∃ t, F s = some t ∧ I t ∧ M.log s <+: M.log t
  fits : ∀ s top base, I s → M.stack s = top ++ base → top.length = u.takes →
    base.length + u.peak ≤ cap → (g top).length = u.gives ∧ F s = some (M.put s (g top ++ base))
  tells : ∀ s t top base, I s → M.stack s = top ++ base → top.length = u.takes →
    (M.stack s).length ≤ cap → cap < base.length + u.peak → F s = some t → M.log t ≠ M.log s

/-- What comes after a message in the log keeps it. -/
theorem ne_of_prefix {a b c : List β} (hab : a <+: b) (hbc : b <+: c) (hne : b ≠ a ∨ c ≠ b) :
    c ≠ a := by
  rintro rfl
  have heq : c = b := hab.eq_of_length (Nat.le_antisymm hab.length_le hbc.length_le)
  rcases hne with h | h
  · exact h heq.symm
  · exact h heq

theorem uses_nothing : Uses M cap I (.exchange 0 0) id some where
  returns s hs := ⟨s, rfl, hs, List.prefix_refl _⟩
  fits s top base _ hstack hlen _ := by
    refine ⟨hlen, ?_⟩
    rw [id_eq, ← hstack, M.put_stack]
  tells s t top base _ hstack hlen hcap hover _ := by
    have hnil : top = [] := List.length_eq_zero_iff.mp hlen
    rw [hstack, hnil, List.nil_append] at hcap
    exact absurd hover (Nat.not_lt.mpr hcap)

/-- The function of two pieces of code, one after the other. -/
def after (u v : Use) (g h : List α → List α) (top : List α) : List α :=
  let mid := g (top.take u.takes) ++ top.drop u.takes
  h (mid.take v.takes) ++ mid.drop v.takes

/-- **Uses compose.** -/
theorem Uses.comp (hF : Uses M cap I u g F) (hG : Uses M cap I v h G) :
    Uses M cap I (u.comp v) (after u v g h) fun s => (F s).bind G := by
  have hitems := u.before_under v
  -- the top of the stack and what the first piece leaves of it
  have hfirst : ∀ s top base, I s → M.stack s = top ++ base → top.length = (u.comp v).takes →
      base.length + (u.peak + u.before v) ≤ cap → ∃ low high, top = low ++ high ∧
        low.length = u.takes ∧ high.length = u.before v ∧ (g low).length = u.gives ∧
          F s = some (M.put s (g low ++ (high ++ base))) := by
    intro s top base hs hstack hlen hroom
    have hle : u.takes ≤ top.length := hlen ▸ Nat.le_add_right _ _
    have hlow : (top.take u.takes).length = u.takes := List.length_take_of_le hle
    have hhigh : (top.drop u.takes).length = u.before v := by
      rw [List.length_drop, hlen]
      exact Nat.add_sub_cancel_left _ _
    rw [← List.take_append_drop u.takes top, List.append_assoc] at hstack
    obtain ⟨hgives, hrun⟩ := hF.fits s _ _ hs hstack hlow (by
      rw [List.length_append, hhigh]
      omega)
    exact ⟨_, _, (List.take_append_drop _ _).symm, hlow, hhigh, hgives, hrun⟩
  constructor
  case returns =>
    intro s hs
    obtain ⟨t, ht, hIt, hlog⟩ := hF.returns s hs
    obtain ⟨t', ht', hIt', hlog'⟩ := hG.returns t hIt
    exact ⟨t', by rw [ht, Option.bind_some, ht'], hIt', hlog.trans hlog'⟩
  case fits =>
    intro s top base hs hstack hlen hroom
    obtain ⟨hroom₁, hroom₂⟩ : base.length + (u.peak + u.before v) ≤ cap ∧
        base.length + (v.peak + u.under v) ≤ cap := by
      rw [Use.comp] at hroom
      dsimp only at hroom
      omega
    obtain ⟨low, high, rfl, hlow, hhigh, hgives, hrun⟩ := hfirst s top base hs hstack hlen hroom₁
    obtain ⟨t, ht, hIt, -⟩ := hF.returns s hs
    rw [hrun] at ht
    obtain rfl := Option.some.inj ht
    generalize hmid : g low ++ high = mid
    have hlength : mid.length = v.takes + u.under v := by
      rw [← hmid, List.length_append, hgives, hhigh, hitems]
    have htake : (mid.take v.takes).length = v.takes :=
      List.length_take_of_le (hlength ▸ Nat.le_add_right _ _)
    have hdrop : (mid.drop v.takes).length = u.under v := by
      rw [List.length_drop, hlength]
      exact Nat.add_sub_cancel_left _ _
    have hstack' : M.stack (M.put s (g low ++ (high ++ base))) =
        mid.take v.takes ++ (mid.drop v.takes ++ base) := by
      rw [M.stack_put, ← List.append_assoc, ← List.append_assoc, List.take_append_drop, hmid]
    obtain ⟨hgives', hrun'⟩ := hG.fits _ _ _ hIt hstack' htake (by
      rw [List.length_append, hdrop]
      omega)
    have hafter : after u v g h (low ++ high) = h (mid.take v.takes) ++ mid.drop v.takes := by
      rw [after, ← hlow, List.take_left, List.drop_left, hmid]
    constructor
    · rw [hafter, List.length_append, hgives', hdrop]
      rfl
    · rw [hrun, Option.bind_some, hrun', M.put_put, hafter, List.append_assoc]
  case tells =>
    intro s t top base hs hstack hlen hcap hover ht
    obtain ⟨t₁, ht₁, hI₁, hlog₁⟩ := hF.returns s hs
    obtain ⟨t₂, ht₂, -, hlog₂⟩ := hG.returns t₁ hI₁
    rw [ht₁, Option.bind_some, ht₂] at ht
    obtain rfl := Option.some.inj ht
    refine ne_of_prefix hlog₁ hlog₂ ?_
    by_cases hroom : base.length + (u.peak + u.before v) ≤ cap
    · -- the first piece has room, so it is the second that has not
      right
      obtain ⟨low, high, rfl, hlow, hhigh, hgives, hrun⟩ := hfirst s top base hs hstack hlen hroom
      rw [hrun] at ht₁
      obtain rfl := Option.some.inj ht₁
      have hpeak := u.gives_le
      generalize hmid : g low ++ high = mid
      have hlength : mid.length = v.takes + u.under v := by
        rw [← hmid, List.length_append, hgives, hhigh, hitems]
      refine hG.tells _ t₂ (mid.take v.takes) (mid.drop v.takes ++ base) hI₁ ?_ ?_ ?_ ?_ ht₂
      · rw [M.stack_put, ← List.append_assoc, ← List.append_assoc, List.take_append_drop, hmid]
      · exact List.length_take_of_le (hlength ▸ Nat.le_add_right _ _)
      · rw [M.stack_put, List.length_append, List.length_append, hgives, hhigh]
        omega
      · rw [List.length_append, List.length_drop, hlength]
        rw [Use.comp] at hover
        dsimp only at hover
        omega
    · left
      have hle : u.takes ≤ top.length := hlen ▸ Nat.le_add_right _ _
      have hsplit := hstack
      rw [← List.take_append_drop u.takes top, List.append_assoc] at hsplit
      refine hF.tells s t₁ _ _ hs hsplit (List.length_take_of_le hle) hcap ?_ ht₁
      rw [List.length_append, List.length_drop, hlen, Use.comp]
      dsimp only
      omega

end StackUse
