import Mathlib.Data.Option.Defs
import VectorForth.Lib.Run

/-!
# Two runs of the same code

Code that may fail is run from two states that a relation `R` connects. It is
*blind* to what `R` leaves open if it has the same result in both, or fails in
both, and the states afterwards are related again. Blindness is closed under
composition, so that it is proved once for each operation. A step function that
is blind inside a region moves in lock step there (`Via.lockstep`).
-/

namespace TwoRuns

open LabelledRun

variable {σ α β γ : Type} {R : σ → σ → Prop}

/-- The same result in both, or a failure in both. -/
def Agrees (R : σ → σ → Prop) : Option (α × σ) → Option (α × σ) → Prop :=
  Option.Rel fun r r' => r'.1 = r.1 ∧ R r.2 r'.2

/-- `w` does the same in all states that are related to `d`. -/
def BlindAt (R : σ → σ → Prop) (w : StateT σ Option α) (d : σ) : Prop :=
  ∀ e, R d e → Agrees R (w d) (w e)

def Blind (R : σ → σ → Prop) (w : StateT σ Option α) : Prop := ∀ d, BlindAt R w d

theorem blindAt_bind {w : StateT σ Option α} {g : α → StateT σ Option β} {d : σ}
    (hw : BlindAt R w d) (hg : ∀ a d', w d = some (a, d') → BlindAt R (g a) d') :
    BlindAt R (w >>= g) d := by
  intro e he
  have hrun : (w >>= g) d = (w d).bind fun r => g r.1 r.2 := rfl
  have hrun' : (w >>= g) e = (w e).bind fun r => g r.1 r.2 := rfl
  have hfirst := hw e he
  rw [hrun, hrun']
  generalize hd : w d = r at hfirst
  generalize w e = r' at hfirst
  cases hfirst with
  | none => exact .none
  | @some a b hrel =>
      obtain ⟨x, d'⟩ := a
      obtain ⟨x', e'⟩ := b
      obtain ⟨rfl, hR⟩ := hrel
      exact hg _ d' hd e' hR

theorem blind_bind {w : StateT σ Option α} {g : α → StateT σ Option β} (hw : Blind R w)
    (hg : ∀ a, Blind R (g a)) : Blind R (w >>= g) :=
  fun d => blindAt_bind (hw d) fun a d' _ => hg a d'

@[simp] theorem blind_pure (a : α) : Blind R (pure a : StateT σ Option α) :=
  fun _ _ he => .some ⟨rfl, he⟩

@[simp] theorem blind_failure : Blind R (failure : StateT σ Option α) := fun _ _ _ => .none

theorem blind_ite {p : Prop} [Decidable p] {w w' : StateT σ Option α} (hw : Blind R w)
    (hw' : Blind R w') : Blind R (if p then w else w') := by
  split <;> assumption

theorem blind_modify {f : σ → σ} (h : ∀ d e, R d e → R (f d) (f e)) :
    Blind R (modify f : StateT σ Option Unit) := fun d e he => .some ⟨rfl, h d e he⟩

theorem blind_modifyGet {f : σ → α × σ}
    (h : ∀ d e, R d e → (f e).1 = (f d).1 ∧ R (f d).2 (f e).2) :
    Blind R (modifyGet f : StateT σ Option α) := by
  intro d e he
  have hd : (modifyGet f : StateT σ Option α) d = some ((f d).1, (f d).2) := rfl
  have he' : (modifyGet f : StateT σ Option α) e = some ((f e).1, (f e).2) := rfl
  rw [hd, he']
  exact .some (h d e he)

/-- Code that looks at the state it runs in, but does the same in related states. -/
theorem blindAt_get {g : σ → StateT σ Option α} {d : σ} (hg : BlindAt R (g d) d)
    (hsame : ∀ e, R d e → g e = g d) : BlindAt R (get >>= g) d := by
  intro e he
  have hd : (get >>= g) d = g d d := rfl
  have he' : (get >>= g) e = g e e := rfl
  rw [hd, he', hsame e he]
  exact hg e he

theorem blind_get {g : σ → StateT σ Option α} (hg : ∀ d, Blind R (g d))
    (hsame : ∀ d e, R d e → g e = g d) : Blind R (get >>= g) :=
  fun d => blindAt_get (hg d d) (hsame d)

/-- Code that looks at a part of the state that related states share. -/
theorem blind_peek {f : σ → β} {g : β → StateT σ Option α} (hf : ∀ d e, R d e → f e = f d)
    (hg : ∀ b, Blind R (g b)) : Blind R (get >>= fun d => g (f d)) :=
  blind_get (fun _ => hg _) fun d e he => by rw [hf d e he]

theorem blind_forM (l : List γ) {g : γ → StateT σ Option Unit} (hg : ∀ x, Blind R (g x)) :
    Blind R (l.forM g) := by
  induction l with
  | nil => exact blind_pure ()
  | cons x l ih => exact blind_bind (hg x) fun _ => ih

/-! ## Lock step -/

theorem rel_mono {R R' : σ → σ → Prop} (h : ∀ s t, R s t → R' s t) {a b : Option σ}
    (hab : Option.Rel R a b) : Option.Rel R' a b := by
  cases hab with
  | none => exact .none
  | some hst => exact .some (h _ _ hst)

section Lockstep

variable {f : σ → Option σ} {Q : σ → Prop} {s s' t : σ}

/-- **Two runs in lock step**: inside `Q` a step of one is a step of the other. -/
theorem lockstep (hstep : ∀ s t, Q s → R s t → Option.Rel R (f s) (f t)) (h : Via f Q s s')
    (hR : R s t) : ∃ t', Via f (fun t => ∃ s, Q s ∧ R s t) t t' ∧ R s' t' := by
  induction h generalizing t with
  | refl s => exact ⟨t, .refl t, hR⟩
  | @head s u s' hs hfs _ ih =>
      have hsim := hstep s t hs hR
      rw [hfs] at hsim
      generalize hft : f t = r at hsim
      cases hsim with
      | some hu =>
          obtain ⟨t', hvia, hend⟩ := ih hu
          exact ⟨t', .head ⟨s, hs, hR⟩ hft hvia, hend⟩

/-- Where one run is stuck, so is the other. -/
theorem stuck_iff (hstep : ∀ s t, Q s → R s t → Option.Rel R (f s) (f t)) (hs : Q s)
    (hR : R s t) : f s = none ↔ f t = none := by
  have hsim := hstep s t hs hR
  generalize f s = r at hsim ⊢
  generalize f t = r' at hsim ⊢
  cases hsim with
  | none => exact ⟨fun h => h, fun h => h⟩
  | some =>
      exact ⟨fun h => absurd h (Option.some_ne_none _), fun h => absurd h (Option.some_ne_none _)⟩

end Lockstep

end TwoRuns
