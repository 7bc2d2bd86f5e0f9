import Mathlib.Data.List.TakeWhile

/-!
# Segments

The maximal runs of a list that contain no separator, in order, and how the
first of them is read off the front of the list.
-/

namespace Segments

variable {α : Type*} {sep : α → Bool} {c : α} {t w : List α}

/-- The maximal runs of elements of `t` that are no separators. -/
def segments (sep : α → Bool) (t : List α) : List (List α) :=
  (t.splitOnP sep).filter fun w => !w.isEmpty

@[simp] theorem segments_nil : segments sep ([] : List α) = [] := rfl

theorem segments_sep (hc : sep c = true) : segments sep (c :: t) = segments sep t := by
  unfold segments
  rw [List.splitOnP_cons_eq_if_modifyHead, if_pos hc]
  rfl

/-- Separators at the front do not matter. -/
theorem segments_dropWhile (t : List α) : segments sep (t.dropWhile sep) = segments sep t := by
  induction t with
  | nil => rfl
  | cons c t ih =>
      rcases hc : sep c with _ | _
      · rw [List.dropWhile_cons_of_neg (by simp [hc])]
      · rw [List.dropWhile_cons_of_pos hc, ih, segments_sep hc]

/-- A run that a separator or the end closes is the first segment. -/
theorem segments_append (hw : w ≠ []) (hrun : ∀ c ∈ w, sep c = false)
    (ht : ∀ c ∈ t.head?, sep c = true) : segments sep (w ++ t) = w :: segments sep t := by
  have hkeep : ∀ l : List (List α),
      (w :: l).filter (fun w => !w.isEmpty) = w :: l.filter fun w => !w.isEmpty := by
    intro l
    cases w with
    | nil => exact absurd rfl hw
    | cons => rfl
  unfold segments
  cases t with
  | nil =>
      rw [List.append_nil, List.splitOnP_eq_singleton hrun, hkeep]
      rfl
  | cons c t =>
      have hc : sep c = true := ht c rfl
      rw [List.splitOnP_append_cons_of_forall_mem hrun c hc, hkeep,
        List.splitOnP_cons_eq_if_modifyHead, if_pos hc]
      rfl

theorem head_dropWhile_not (t : List α) :
    ∀ c ∈ (t.dropWhile fun c => !sep c).head?, sep c = true := by
  induction t with
  | nil =>
      intro c hc
      cases hc
  | cons c t ih =>
      rcases hc : sep c with _ | _
      · rw [List.dropWhile_cons_of_pos (by simp [hc])]
        exact ih
      · rw [List.dropWhile_cons_of_neg (by simp [hc])]
        rintro _ ⟨⟩
        exact hc

/-- Reading the first segment off a list that does not begin with a separator. -/
theorem segments_takeWhile (ht : (t.takeWhile fun c => !sep c) ≠ []) :
    segments sep t =
      (t.takeWhile fun c => !sep c) :: segments sep (t.dropWhile fun c => !sep c) := by
  have hrun : ∀ c ∈ t.takeWhile fun c => !sep c, sep c = false := by
    intro c hc
    simpa using List.mem_takeWhile_imp hc
  calc segments sep t
      = segments sep ((t.takeWhile fun c => !sep c) ++ t.dropWhile fun c => !sep c) := by
        rw [List.takeWhile_append_dropWhile]
    _ = _ := segments_append ht hrun (head_dropWhile_not t)

theorem segments_eq_nil (ht : ∀ c ∈ t, sep c = true) : segments sep t = [] := by
  rw [← segments_dropWhile, List.dropWhile_eq_nil_iff.mpr ht, segments_nil]

end Segments
