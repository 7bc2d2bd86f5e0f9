import Mathlib.Logic.Basic
import Mathlib.Data.Nat.Init

/-!
# Runs of a labelled step relation

`Run step s ops t` replays a list of labels. An inductive property of single
steps is packaged once here (`Run.invariant`), so that a component supplies
only its step lemma. `Nat.fold` plays the counted `for` loop; `fold_induction`
is its loop-invariant rule; a loop that returns early is `List.findSome?`.
`Via step Q` is a run of a step function inside a region `Q`; the state where
such a run leaves its region is determined.
-/

namespace LabelledRun

variable {σ ι : Type*} {step : σ → ι → σ → Prop}

/-- `Run step s ops t`: the labels `ops`, taken in order, lead from `s` to `t`. -/
inductive Run (step : σ → ι → σ → Prop) : σ → List ι → σ → Prop
  | nil (s : σ) : Run step s [] s
  | cons {s t u : σ} {a : ι} {ops : List ι} :
      step s a t → Run step t ops u → Run step s (a :: ops) u

/-- A property kept by every step holds at the end of every run. -/
theorem Run.invariant {I : σ → Prop} (hstep : ∀ s a t, I s → step s a t → I t)
    {s t : σ} {ops : List ι} (hrun : Run step s ops t) (hs : I s) : I t := by
  induction hrun with
  | nil s => exact hs
  | cons h _ ih => exact ih (hstep _ _ _ hs h)

theorem Run.snoc {s t u : σ} {a : ι} {ops : List ι} (hrun : Run step s ops t)
    (h : step t a u) : Run step s (ops ++ [a]) u := by
  induction hrun with
  | nil s => exact .cons h (.nil _)
  | cons h' _ ih => exact .cons h' (ih h)

theorem Run.append {s t u : σ} {ops ops' : List ι} (hrun : Run step s ops t)
    (hrun' : Run step t ops' u) : Run step s (ops ++ ops') u := by
  induction hrun with
  | nil s => exact hrun'
  | cons h _ ih => exact .cons h (ih hrun')

/-- Loop-invariant rule for a counted loop. -/
theorem fold_induction {α : Type*} {n : Nat} {f : (i : Nat) → i < n → α → α} {init : α}
    (P : Nat → α → Prop) (hinit : P 0 init)
    (hbody : ∀ i (hi : i < n) a, P i a → P (i + 1) (f i hi a)) :
    P n (n.fold f init) := by
  induction n with
  | zero => exact hinit
  | succ n ih =>
      rw [Nat.fold_succ]
      exact hbody n _ _ (ih fun i hi a hP => hbody i (by omega) a hP)

/-- An early-return scan over `0 .. n - 1` stops at the first hit. -/
theorem findSome?_range {α : Type*} {n : Nat} {f : Nat → Option α} {b : α}
    (h : (List.range n).findSome? f = some b) :
    ∃ i < n, f i = some b ∧ ∀ j < i, f j = none := by
  induction n with
  | zero => simp at h
  | succ n ih =>
      rw [List.range_succ, List.findSome?_append] at h
      cases hpre : (List.range n).findSome? f with
      | some c =>
          rw [hpre] at h
          obtain ⟨i, hi, hfi, hlt⟩ := ih (hpre.trans (by simpa using h))
          exact ⟨i, by omega, hfi, hlt⟩
      | none =>
          rw [hpre] at h
          refine ⟨n, by omega, by simpa using h, ?_⟩
          intro j hj
          exact List.findSome?_eq_none_iff.mp hpre j (List.mem_range.mpr hj)

theorem findSome?_range_none {α : Type*} {n : Nat} {f : Nat → Option α}
    (h : (List.range n).findSome? f = none) : ∀ j < n, f j = none :=
  fun j hj => List.findSome?_eq_none_iff.mp h j (List.mem_range.mpr hj)

/-! ## Runs of a step function inside a region -/

section Function

variable {f : σ → Option σ} {Q Q' : σ → Prop} {s t u : σ}

/-- The steps of `f` lead from `s` to `t`, each taken from a state in `Q`. -/
inductive Via (f : σ → Option σ) (Q : σ → Prop) : σ → σ → Prop
  | refl (s : σ) : Via f Q s s
  | head {s t u : σ} : Q s → f s = some t → Via f Q t u → Via f Q s u

theorem Via.single (hs : Q s) (h : f s = some t) : Via f Q s t :=
  .head hs h (.refl t)

theorem Via.trans (h : Via f Q s t) (h' : Via f Q t u) : Via f Q s u := by
  induction h with
  | refl s => exact h'
  | head hs hstep _ ih => exact .head hs hstep (ih h')

theorem Via.mono (hQ : ∀ x, Q x → Q' x) (h : Via f Q s t) : Via f Q' s t := by
  induction h with
  | refl s => exact .refl s
  | head hs hstep _ ih => exact .head (hQ _ hs) hstep ih

/-- Two runs that have left the region have left it in the same state. -/
theorem Via.exit_unique (h : Via f Q s t) (h' : Via f Q s u) (ht : ¬ Q t) (hu : ¬ Q u) : t = u := by
  induction h with
  | refl s =>
      cases h' with
      | refl => rfl
      | head hs _ _ => exact absurd hs ht
  | head hs hstep _ ih =>
      cases h' with
      | refl => exact absurd hs hu
      | head _ hstep' hrest =>
          rw [hstep] at hstep'
          obtain rfl := Option.some.inj hstep'
          exact ih hrest ht

end Function

end LabelledRun
