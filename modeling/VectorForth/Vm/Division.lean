import Mathlib.Data.Int.Order.Basic
import VectorForth.Vm.Effects

/-!
# The division words

`/`, `MOD` and `/MOD` guard against a zero divisor only. `idiv` has a second
trap: the quotient of the least cell by `-1` does not fit in a cell.
-/

namespace VectorForth.Forth

/-! ## Truncating division of cells -/

section Cells

variable {a b : Cell}

theorem sdiv_toInt (hfits : ¬ (a = BitVec.intMin 64 ∧ b = -1#64)) :
    (a.sdiv b).toInt = a.toInt.tdiv b.toInt :=
  BitVec.toInt_sdiv_of_ne_or_ne a b (Decidable.not_and_iff_not_or_not.mp hfits)

/-- Quotient and remainder make up the dividend. -/
theorem sdiv_mul_add_srem (hfits : ¬ (a = BitVec.intMin 64 ∧ b = -1#64)) :
    a = a.sdiv b * b + a.srem b := by
  have hint : a.toInt = (a.sdiv b).toInt * b.toInt + (a.srem b).toInt := by
    rw [sdiv_toInt hfits, BitVec.toInt_srem, Int.tdiv_mul_add_tmod]
  calc a = BitVec.ofInt 64 a.toInt := BitVec.ofInt_toInt.symm
    _ = BitVec.ofInt 64 ((a.sdiv b).toInt * b.toInt + (a.srem b).toInt) := by rw [← hint]
    _ = a.sdiv b * b + a.srem b := by
        rw [BitVec.ofInt_add, BitVec.ofInt_mul, BitVec.ofInt_toInt, BitVec.ofInt_toInt,
          BitVec.ofInt_toInt]

theorem srem_natAbs_lt (hb : b ≠ 0#64) : (a.srem b).toInt.natAbs < b.toInt.natAbs := by
  have hne : b.toInt ≠ 0 := fun h => hb (BitVec.eq_of_toInt_eq (by rw [h]; rfl))
  rw [BitVec.toInt_srem, Int.natAbs_tmod]
  exact Nat.mod_lt _ (Int.natAbs_pos.mpr hne)

/-- A remainder has the sign of the dividend. -/
theorem srem_sign : a.srem b = 0#64 ∨ ((a.srem b).toInt < 0 ↔ a.toInt < 0) := by
  rcases eq_or_ne (a.srem b) 0#64 with hzero | hne
  · exact Or.inl hzero
  · refine Or.inr ?_
    have hrem : (a.srem b).toInt ≠ 0 := fun h => hne (BitVec.eq_of_toInt_eq (by rw [h]; rfl))
    rw [BitVec.toInt_srem] at hrem ⊢
    rcases le_or_gt 0 a.toInt with ha | ha
    · have hnonneg := Int.tmod_nonneg b.toInt ha
      omega
    · have hneg : (-a.toInt).tmod b.toInt = -a.toInt.tmod b.toInt := Int.neg_tmod ..
      have hnonneg := Int.tmod_nonneg b.toInt (Int.neg_nonneg.mpr ha.le)
      omega

end Cells

/-! ## The words -/

/-- `b` on top of `a`: the three words return, with the quotient and the
remainder of `a` by `b` in place of the two operands and nothing else changed. -/
def DividesExactly (d : Data) (a b : Cell) (rest : List Cell) : Prop :=
  ∃ q r, wDiv.run d = some ((), { d with ds := q :: rest }) ∧
    wMod.run d = some ((), { d with ds := r :: rest }) ∧
    wDivmod.run d = some ((), { d with ds := q :: r :: rest }) ∧
    a = q * b + r ∧ r.toInt.natAbs < b.toInt.natAbs ∧ (r = 0#64 ∨ (r.toInt < 0 ↔ a.toInt < 0))

section Words

variable {d : Data} {a b : Cell} {rest : List Cell}

theorem dsPop_cons {v : Cell} {ds : List Cell} (h : d.ds = v :: ds) :
    d.dsPop = (v, { d with ds := ds }) := by
  unfold Data.dsPop
  rw [h]

theorem dsPush_room {v : Cell} (h : d.ds.length < dataStackSize) :
    d.dsPush v = { d with ds := v :: d.ds } := by
  unfold Data.dsPush
  rw [if_neg (Nat.not_le.mpr h)]

/-- A word that pops the divisor and, if it is not zero, the dividend. -/
theorem divide_run {g : Cell × Cell → NativeM Unit} {z : NativeM Unit} (hb : b ≠ 0#64)
    (hds : d.ds = b :: a :: rest) :
    (dsPop >>= fun b => if b = 0#64 then z else dsPop >>= fun a => idiv a b >>= g).run d =
      if a = BitVec.intMin 64 ∧ b = -1#64 then none
      else (g (a.sdiv b, a.srem b)).run { d with ds := rest } := by
  have hpop := dsPop_cons hds
  have hpop' : ({ d with ds := a :: rest } : Data).dsPop = (a, { d with ds := rest }) :=
    dsPop_cons rfl
  have hfirst : (dsPop >>= fun b => if b = 0#64 then z else dsPop >>= fun a => idiv a b >>= g).run d =
      (if d.dsPop.1 = 0#64 then z else dsPop >>= fun a => idiv a d.dsPop.1 >>= g).run d.dsPop.2 := rfl
  rw [hfirst, hpop, if_neg hb]
  have hsecond : (dsPop >>= fun a => idiv a b >>= g).run { d with ds := a :: rest } =
      (idiv (Data.dsPop { d with ds := a :: rest }).1 b >>= g).run
        (Data.dsPop { d with ds := a :: rest }).2 := rfl
  rw [hsecond, hpop']
  unfold idiv
  split <;> rfl

/-- **The division words are exact** unless the least cell is divided by `-1`. -/
theorem dividesExactly_iff (hds : d.ds = b :: a :: rest) (hlen : d.ds.length ≤ dataStackSize)
    (hb : b ≠ 0#64) :
    DividesExactly d a b rest ↔ ¬ (a = BitVec.intMin 64 ∧ b = -1#64) := by
  have hdiv : wDiv.run d = _ := divide_run (g := fun qr => dsPush qr.1) hb hds
  have hmod : wMod.run d = _ := divide_run (g := fun qr => dsPush qr.2) hb hds
  have hdivmod : wDivmod.run d = _ :=
    divide_run (g := fun qr => dsPush qr.2 >>= fun _ => dsPush qr.1) hb hds
  rw [hds, List.length_cons, List.length_cons] at hlen
  unfold DividesExactly
  rw [hdiv, hmod, hdivmod]
  constructor
  · rintro ⟨q, r, hq, -⟩ htrap
    rw [if_pos htrap] at hq
    cases hq
  · intro hfits
    have hpush : ∀ v, Data.dsPush { d with ds := rest } v = { d with ds := v :: rest } :=
      fun v => dsPush_room (d := { d with ds := rest }) (by dsimp only; omega)
    have hpush' : ∀ v w, Data.dsPush { d with ds := v :: rest } w = { d with ds := w :: v :: rest } :=
      fun v w => dsPush_room (d := { d with ds := v :: rest })
        (by dsimp only; rw [List.length_cons]; omega)
    rw [if_neg hfits, if_neg hfits, if_neg hfits]
    refine ⟨a.sdiv b, a.srem b, ?_, ?_, ?_, sdiv_mul_add_srem hfits, srem_natAbs_lt hb, srem_sign⟩
    · exact congrArg (fun d => some ((), d)) (hpush _)
    · exact congrArg (fun d => some ((), d)) (hpush _)
    · refine congrArg (fun d => some ((), d)) ?_
      show (Data.dsPush { d with ds := rest } _).dsPush _ = _
      rw [hpush, hpush']

/-- `-7 2`. -/
theorem dividesExactly_neg_seven :
    DividesExactly { blankData with ds := [2#64, -7#64] } (-7#64) 2#64 [] :=
  (dividesExactly_iff rfl (by decide) (by decide)).mpr (by decide)

/-- The least cell and `-1`: no division word returns. -/
theorem least_by_minus_one_traps : ¬ DividesExactly
    { blankData with ds := [-1#64, BitVec.intMin 64] } (BitVec.intMin 64) (-1#64) [] := by
  rintro ⟨q, r, hq, -⟩
  have hnone : wDiv.run { blankData with ds := [-1#64, BitVec.intMin 64] } = none := rfl
  rw [hnone] at hq
  cases hq

end Words

end VectorForth.Forth
