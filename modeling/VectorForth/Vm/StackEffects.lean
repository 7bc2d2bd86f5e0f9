import VectorForth.Vm.Division

/-!
# What the primitives do to the data stack

A primitive pops and pushes one cell at a time. A pop of an empty stack prints a
message and goes on with a zero, a push onto a full one prints a message and
drops the cell: a failure in the middle of a word leaves what was popped and
pushed so far.
-/

namespace VectorForth.Forth

/-! ## One pop, one push -/

/-- The stack after a push. -/
def afterPush (v : Cell) (ds : List Cell) : List Cell :=
  if ds.length ≥ dataStackSize then ds else v :: ds

theorem ds_dsPush (d : Data) (v : Cell) : (d.dsPush v).ds = afterPush v d.ds := by
  unfold Data.dsPush afterPush
  split <;> rfl

theorem ds_dsPop (d : Data) : d.dsPop.2.ds = d.ds.tail := (dsPop_headD d).2

theorem ds_dsPick (d : Data) (n : Nat) : (d.dsPick n).2.ds = d.ds := by
  unfold Data.dsPick
  split <;> rfl

theorem dsPick_value (d : Data) (n : Nat) : (d.dsPick n).1 = d.ds[n]?.getD 0#64 := by
  unfold Data.dsPick
  split <;> rename_i h <;> rw [h] <;> rfl

theorem afterPush_room {v : Cell} {ds : List Cell} (h : ds.length < dataStackSize) :
    afterPush v ds = v :: ds := if_neg (Nat.not_le.mpr h)

theorem afterPush_full {v : Cell} {ds : List Cell} (h : dataStackSize ≤ ds.length) :
    afterPush v ds = ds := if_pos h

/-! ## The stack after a word -/

def binaryOp : CFun → Option (Cell → Cell → Cell)
  | .wPlus => some (· + ·)
  | .wMinus => some (· - ·)
  | .wMul => some (· * ·)
  | .wMin => some fun a b => if a.slt b then a else b
  | .wMax => some fun a b => if b.slt a then a else b
  | .wAnd => some (· &&& ·)
  | .wOr => some (· ||| ·)
  | .wXor => some (· ^^^ ·)
  | .wLshift => some fun v n => v <<< (n.toNat % 64)
  | .wRshift => some fun v n => v >>> (n.toNat % 64)
  | .wEq => some fun a b => flag (a == b)
  | .wNeq => some fun a b => flag (a != b)
  | .wLt => some fun a b => flag (a.slt b)
  | .wGt => some fun a b => flag (b.slt a)
  | .wLe => some fun a b => flag (a.sle b)
  | .wGe => some fun a b => flag (b.sle a)
  | _ => none

def unaryOp : CFun → Option (Cell → Cell)
  | .wNegate => some (-·)
  | .wAbs => some fun v => if v.slt 0#64 then -v else v
  | .w1plus => some (· + 1#64)
  | .w1minus => some (· - 1#64)
  | .w2star => some (· <<< 1)
  | .w2slash => some (BitVec.sshiftRight · 1)
  | .wInvert => some (~~~ ·)
  | .w0eq => some fun v => flag (v == 0#64)
  | .w0lt => some fun v => flag (v.slt 0#64)
  | .w0gt => some fun v => flag (BitVec.slt 0#64 v)
  | _ => none

theorem dataWord_binary {img : Image} {f : CFun} {g : Cell → Cell → Cell} (h : binaryOp f = some g) :
    dataWord img f = some (binary g) := by
  cases f <;> cases h <;> rfl

theorem dataWord_unary {img : Image} {f : CFun} {g : Cell → Cell} (h : unaryOp f = some g) :
    dataWord img f = some (unary g) := by
  cases f <;> cases h <;> rfl

/-- What a word takes off the stack and what it puts back, top first. -/
structure Shape where
  inputs : Nat
  outputs : Nat
  result : List Cell → List Cell

/-- The effects of the stack, arithmetic, comparison and vector words. -/
def shape (f : CFun) : Option Shape :=
  match f with
  | .wDup => some ⟨1, 2, fun i => [i.getD 0 0#64, i.getD 0 0#64]⟩
  | .wDrop => some ⟨1, 0, fun _ => []⟩
  | .wSwap => some ⟨2, 2, fun i => [i.getD 1 0#64, i.getD 0 0#64]⟩
  | .wOver => some ⟨2, 3, fun i => [i.getD 1 0#64, i.getD 0 0#64, i.getD 1 0#64]⟩
  | .wRot => some ⟨3, 3, fun i => [i.getD 2 0#64, i.getD 0 0#64, i.getD 1 0#64]⟩
  | .wNip => some ⟨2, 1, fun i => [i.getD 0 0#64]⟩
  | .wTuck => some ⟨2, 3, fun i => [i.getD 0 0#64, i.getD 1 0#64, i.getD 0 0#64]⟩
  | .w2dup => some ⟨2, 4, fun i => [i.getD 0 0#64, i.getD 1 0#64, i.getD 0 0#64, i.getD 1 0#64]⟩
  | .w2drop => some ⟨2, 0, fun _ => []⟩
  | .w2swap => some ⟨4, 4, fun i => [i.getD 2 0#64, i.getD 3 0#64, i.getD 0 0#64, i.getD 1 0#64]⟩
  | .wVdup => some ⟨1, 2, fun i => [i.getD 0 0#64, i.getD 0 0#64]⟩
  | .wVplus => some ⟨4, 2, fun i => [i.getD 2 0#64 + i.getD 0 0#64, i.getD 3 0#64 + i.getD 1 0#64]⟩
  | .wDiv => some ⟨2, 1, fun i => [(i.getD 1 0#64).sdiv (i.getD 0 0#64)]⟩
  | .wMod => some ⟨2, 1, fun i => [(i.getD 1 0#64).srem (i.getD 0 0#64)]⟩
  | .wDivmod => some ⟨2, 2, fun i =>
      [(i.getD 1 0#64).sdiv (i.getD 0 0#64), (i.getD 1 0#64).srem (i.getD 0 0#64)]⟩
  | _ =>
      match binaryOp f, unaryOp f with
      | some g, _ => some ⟨2, 1, fun i => [g (i.getD 1 0#64) (i.getD 0 0#64)]⟩
      | none, some g => some ⟨1, 1, fun i => [g (i.getD 0 0#64)]⟩
      | none, none => none

/-- The division words test for a zero divisor. -/
def CFun.divides : CFun → Bool
  | .wDiv | .wMod | .wDivmod => true
  | _ => false

/-- Fewer items than the word consumes, a zero divisor, or no room for the results. -/
def Errs (f : CFun) (s : Shape) (ds : List Cell) : Prop :=
  ds.length < s.inputs ∨ (f.divides = true ∧ ds.head? = some 0#64) ∨
    dataStackSize < ds.length - s.inputs + s.outputs

instance (f : CFun) (s : Shape) (ds : List Cell) : Decidable (Errs f s ds) :=
  inferInstanceAs (Decidable (_ ∨ _ ∨ _))

/-- What the stack should be afterwards. -/
def expected (f : CFun) (s : Shape) (ds : List Cell) : List Cell :=
  if Errs f s ds then ds else s.result (ds.take s.inputs) ++ ds.drop s.inputs

/-- The word returns with that stack. -/
def LeavesStack (img : Image) (f : CFun) (s : Shape) (d : Data) : Prop :=
  ∃ w d', dataWord img f = some w ∧ w.run d = some ((), d') ∧ d'.ds = expected f s d.ds

/-! ## When it is -/

/-- The operation `f` on a zero from an empty stack and `b` happens to give `b`. -/
def CFun.absorbs (f : CFun) (b : Cell) : Prop :=
  match f with
  | .wPlus | .wOr | .wXor => True
  | .wMinus => b = 0#64 ∨ b = BitVec.intMin 64
  | .wMul | .wAnd | .wLshift | .wRshift | .wLt => b = 0#64
  | .wMin => b.toInt ≤ 0
  | .wMax => 0 ≤ b.toInt
  | .wNeq | .wGt => b = 0#64 ∨ b = -1#64
  | .wGe => b = -1#64
  | _ => False

/-- The quotient of the two topmost cells does not fit. -/
def QuotientTraps (ds : List Cell) : Prop := ds.take 2 = [-1#64, BitVec.intMin 64]

/-- The stacks on which a word fails cleanly or not at all. -/
def Clean (f : CFun) (ds : List Cell) : Prop :=
  match f with
  | .wDrop | .wVdup | .wVplus => True
  | .wDup | .wNip => ds ≠ []
  | .wSwap | .wOver => 2 ≤ ds.length
  | .wRot => 3 ≤ ds.length
  | .w2swap => 4 ≤ ds.length
  | .w2drop => ds.length ≠ 1
  | .wTuck => 2 ≤ ds.length ∧ (ds.length = dataStackSize → ds[0]? = ds[1]?)
  | .w2dup => 2 ≤ ds.length ∧ ds.length + 1 ≠ dataStackSize
  | .wDiv | .wMod => ds.head? = some 0#64 ∨ (2 ≤ ds.length ∧ ¬ QuotientTraps ds)
  | .wDivmod =>
      2 ≤ ds.length ∧ (ds.head? = some 0#64 → ds.length = dataStackSize) ∧ ¬ QuotientTraps ds
  | _ => 2 ≤ ds.length ∨ ((unaryOp f).isSome = true ∧ ds ≠ []) ∨ ∃ b, ds = [b] ∧ f.absorbs b

/-! ## The stack after a word -/

/-- The stack that `f` leaves, if it returns. -/
def stackAfter (f : CFun) (ds : List Cell) : Option (List Cell) :=
  let x := ds.headD 0#64
  let y := ds.tail.headD 0#64
  let ds₂ := ds.tail.tail
  match f with
  | .wDup => some (afterPush x ds)
  | .wDrop => some ds.tail
  | .wSwap => some (afterPush y (afterPush x ds₂))
  | .wOver => some (afterPush (ds[1]?.getD 0#64) ds)
  | .wRot => some (afterPush (ds₂.headD 0#64) (afterPush x (afterPush y ds₂.tail)))
  | .wNip => some (afterPush x ds₂)
  | .wTuck => some (afterPush x (afterPush y (afterPush x ds₂)))
  | .w2dup => some (afterPush x (afterPush (ds[1]?.getD 0#64) ds))
  | .w2drop => some ds₂
  | .w2swap => some (afterPush (ds₂.headD 0#64) (afterPush (ds₂.tail.headD 0#64)
      (afterPush x (afterPush y ds₂.tail.tail))))
  | .wVdup => if ds.length < 1 then some ds else some (afterPush x (afterPush x ds.tail))
  | .wVplus =>
      if ds.length < 4 then some ds
      else some (afterPush (ds₂.headD 0#64 + x) (afterPush (ds₂.tail.headD 0#64 + y) ds₂.tail.tail))
  | .wDiv =>
      if x = 0#64 then some (afterPush 0#64 ds.tail)
      else if y = BitVec.intMin 64 ∧ x = -1#64 then none else some (afterPush (y.sdiv x) ds₂)
  | .wMod =>
      if x = 0#64 then some (afterPush 0#64 ds.tail)
      else if y = BitVec.intMin 64 ∧ x = -1#64 then none else some (afterPush (y.srem x) ds₂)
  | .wDivmod =>
      if x = 0#64 then some (afterPush 0#64 (afterPush 0#64 ds.tail))
      else if y = BitVec.intMin 64 ∧ x = -1#64 then none
      else some (afterPush (y.sdiv x) (afterPush (y.srem x) ds₂))
  | _ =>
      match binaryOp f, unaryOp f with
      | some g, _ => some (afterPush (g y x) ds₂)
      | none, some g => some (afterPush (g x) ds.tail)
      | none, none => none

section Runs

variable {img : Image} {f : CFun} {s : Shape} {w : NativeM Unit} {d : Data}

theorem ds_puts (d : Data) (t : Text) : (d.puts t).ds = d.ds := rfl

/-- The stack that native code leaves. -/
def leaves (w : NativeM Unit) (d : Data) : Option (List Cell) := (w.run d).map fun r => r.2.ds

theorem leaves_pop (g : Cell → NativeM Unit) (d : Data) :
    leaves (dsPop >>= g) d = leaves (g (d.ds.headD 0#64)) d.dsPop.2 := by
  rw [← (dsPop_headD d).1]
  rfl

theorem leaves_push (v : Cell) (d : Data) : leaves (dsPush v) d = some (afterPush v d.ds) := by
  rw [← ds_dsPush]
  rfl

theorem leaves_push_bind (v : Cell) (g : Unit → NativeM Unit) (d : Data) :
    leaves (dsPush v >>= g) d = leaves (g ()) (d.dsPush v) := rfl

theorem leaves_puts_bind (t : Text) (g : Unit → NativeM Unit) (d : Data) :
    leaves (puts t >>= g) d = leaves (g ()) (d.puts t) := rfl

theorem leaves_pick (n : Nat) (g : Cell → NativeM Unit) (d : Data) :
    leaves (dsPick n >>= g) d = leaves (g (d.ds[n]?.getD 0#64)) (d.dsPick n).2 := by
  rw [← dsPick_value]
  rfl

theorem leaves_peek (g : Cell → NativeM Unit) (d : Data) :
    leaves (dsPeek >>= g) d = leaves (g (d.ds.headD 0#64)) d := rfl

theorem leaves_get (g : Data → NativeM Unit) (d : Data) :
    leaves (get >>= g) d = leaves (g d) d := rfl

theorem leaves_pure (d : Data) : leaves (pure ()) d = some d.ds := rfl

theorem leaves_puts (t : Text) (d : Data) : leaves (puts t) d = some d.ds := rfl

theorem leaves_idiv (g : Cell × Cell → NativeM Unit) (a b : Cell) (d : Data) :
    leaves (idiv a b >>= g) d =
      if a = BitVec.intMin 64 ∧ b = -1#64 then none else leaves (g (a.sdiv b, a.srem b)) d := by
  unfold idiv
  split <;> rfl

theorem leaves_ite {p : Prop} [Decidable p] (w w' : NativeM Unit) (d : Data) :
    leaves (if p then w else w') d = if p then leaves w d else leaves w' d := by
  split <;> rfl

theorem leaves_word (hf : dataWord img f = some w) (hs : shape f = some s) :
    leaves w d = stackAfter f d.ds := by
  cases f <;> cases hf <;> cases hs
  all_goals
    simp only [wDup, wDrop, wSwap, wOver, wRot, wNip, wTuck, w2dup, w2drop, w2swap, wVdup, wVplus,
      wPlus, wMinus, wMul, wDiv, wMod, wDivmod, wNegate, wAbs, wMin, wMax, w1plus, w1minus, w2star,
      w2slash, wAnd, wOr, wXor, wInvert, wLshift, wRshift, wEq, wNeq, wLt, wGt, wLe, wGe, w0eq,
      w0lt, w0gt, binary, unary, leaves_pop, leaves_push, leaves_push_bind, leaves_pick, leaves_peek,
      leaves_get, leaves_pure, leaves_puts, leaves_puts_bind, leaves_idiv, leaves_ite, ds_dsPush,
      ds_dsPop, ds_dsPick, ds_puts, stackAfter, binaryOp, unaryOp]

end Runs

/-! ## Clean failures -/

section Clean

variable {f : CFun} {s : Shape} {ds rest : List Cell} {x y b : Cell}

theorem expected_err (h : Errs f s ds) : expected f s ds = ds := if_pos h

theorem expected_ok (h : ¬ Errs f s ds) :
    expected f s ds = s.result (ds.take s.inputs) ++ ds.drop s.inputs := if_neg h

theorem flag_eq_iff (p : Bool) :
    flag p = b ↔ (p = true ∧ b = -1#64) ∨ (p = false ∧ b = 0#64) := by
  cases p
  · exact ⟨fun h => Or.inr ⟨rfl, h.symm⟩, fun h => by rcases h with ⟨⟨⟩, -⟩ | ⟨-, rfl⟩; rfl⟩
  · exact ⟨fun h => Or.inl ⟨rfl, h.symm⟩, fun h => by rcases h with ⟨-, rfl⟩ | ⟨⟨⟩, -⟩; rfl⟩

/-- The operations that give `b` back when their first operand is a zero. -/
theorem absorbs_iff {g : Cell → Cell → Cell} (hg : binaryOp f = some g) :
    g 0#64 b = b ↔ f.absorbs b := by
  have hsign : (0#64).toInt = 0 := rfl
  cases f <;> cases hg <;> simp only [CFun.absorbs]
  case wPlus => simp
  case wMinus => constructor <;> intro h <;> bv_omega
  case wMul =>
    rw [BitVec.zero_mul]
    exact eq_comm
  case wMin =>
    split <;> rename_i h <;> rw [BitVec.slt_iff_toInt_lt, hsign] at h
    · constructor
      · rintro rfl
        exact absurd h (by decide)
      · intro hle
        omega
    · exact ⟨fun _ => by omega, fun _ => rfl⟩
  case wMax =>
    split <;> rename_i h <;> rw [BitVec.slt_iff_toInt_lt, hsign] at h
    · constructor
      · rintro rfl
        exact absurd h (by decide)
      · intro hle
        omega
    · exact ⟨fun _ => by omega, fun _ => rfl⟩
  case wAnd =>
    rw [BitVec.zero_and]
    exact eq_comm
  case wOr => simp
  case wXor => simp
  case wLshift =>
    rw [BitVec.zero_shiftLeft]
    exact eq_comm
  case wRshift =>
    rw [BitVec.zero_ushiftRight]
    exact eq_comm
  -- a truth value is 0 or -1
  all_goals
    rw [flag_eq_iff]
    constructor
    · rintro (⟨h, rfl⟩ | ⟨h, rfl⟩) <;> revert h <;> decide
  case wNeq => rintro (rfl | rfl) <;> decide
  case wGt => rintro (rfl | rfl) <;> decide
  case wLt =>
    rintro rfl
    decide
  case wGe =>
    rintro rfl
    decide
  all_goals rintro ⟨⟩

/-- A binary operation on one cell takes a zero for the missing one. -/
theorem clean_binary {g : Cell → Cell → Cell} (hg : binaryOp f = some g) (hs : shape f = some s)
    (hlen : ds.length ≤ dataStackSize) :
    stackAfter f ds = some (expected f s ds) ↔ Clean f ds := by
  have hshape : s = ⟨2, 1, fun i => [g (i.getD 1 0#64) (i.getD 0 0#64)]⟩ := by
    cases f <;> cases hg <;> cases hs <;> rfl
  have hafter : stackAfter f ds =
      some (afterPush (g (ds.tail.headD 0#64) (ds.headD 0#64)) ds.tail.tail) := by
    cases f <;> cases hg <;> rfl
  have hdiv : f.divides = false := by cases f <;> cases hg <;> rfl
  have hclean : Clean f ds ↔ 2 ≤ ds.length ∨ ∃ b, ds = [b] ∧ f.absorbs b := by
    cases f <;> cases hg <;> simp [Clean, unaryOp]
  rw [hafter, hclean, hshape]
  rcases ds with _ | ⟨x, _ | ⟨y, rest⟩⟩
  · rw [expected_err (Or.inl (by simp))]
    simp [afterPush, dataStackSize]
  · rw [expected_err (Or.inl (by simp))]
    simp [afterPush, dataStackSize, absorbs_iff hg]
  · rw [List.length_cons, List.length_cons] at hlen
    rw [expected_ok (by simp [Errs, hdiv]; omega), afterPush_room (by simp; omega)]
    simp

theorem clean_unary {g : Cell → Cell} (hg : unaryOp f = some g) (hs : shape f = some s)
    (hlen : ds.length ≤ dataStackSize) :
    stackAfter f ds = some (expected f s ds) ↔ Clean f ds := by
  have hshape : s = ⟨1, 1, fun i => [g (i.getD 0 0#64)]⟩ := by
    cases f <;> cases hg <;> cases hs <;> rfl
  have hafter : stackAfter f ds = some (afterPush (g (ds.headD 0#64)) ds.tail) := by
    cases f <;> cases hg <;> rfl
  have hdiv : f.divides = false := by cases f <;> cases hg <;> rfl
  have hclean : Clean f ds ↔ ds ≠ [] := by
    have hcases : Clean f ds ↔ 2 ≤ ds.length ∨ ((unaryOp f).isSome = true ∧ ds ≠ []) ∨
        ∃ b, ds = [b] ∧ f.absorbs b := by
      cases f <;> cases hg <;> rfl
    rw [hcases, hg]
    constructor
    · rintro (h | ⟨-, h⟩ | ⟨b, rfl, -⟩)
      · rintro rfl
        cases h
      · exact h
      · exact List.cons_ne_nil b []
    · exact fun h => Or.inr (Or.inl ⟨rfl, h⟩)
  rw [hafter, hclean, hshape]
  rcases ds with _ | ⟨x, rest⟩
  · rw [expected_err (Or.inl (by simp))]
    simp [afterPush, dataStackSize]
  · rw [List.length_cons] at hlen
    rw [expected_ok (by simp [Errs, hdiv]; omega), afterPush_room (by simp; omega)]
    simp

theorem quotientTraps_iff : QuotientTraps (x :: y :: rest) ↔ y = BitVec.intMin 64 ∧ x = -1#64 := by
  simp [QuotientTraps, and_comm]

/-- `/` and `MOD` return early on a zero divisor, but not on a missing dividend. -/
theorem clean_quotient {g : Cell → Cell → Cell} (hg : ∀ x, g 0#64 x = 0#64)
    (hs : s = ⟨2, 1, fun i => [g (i.getD 1 0#64) (i.getD 0 0#64)]⟩) (hf : f.divides = true)
    (hafter : stackAfter f ds = if ds.headD 0#64 = 0#64 then some (afterPush 0#64 ds.tail)
      else if ds.tail.headD 0#64 = BitVec.intMin 64 ∧ ds.headD 0#64 = -1#64 then none
      else some (afterPush (g (ds.tail.headD 0#64) (ds.headD 0#64)) ds.tail.tail))
    (hlen : ds.length ≤ dataStackSize) :
    stackAfter f ds = some (expected f s ds) ↔
      ds.head? = some 0#64 ∨ (2 ≤ ds.length ∧ ¬ QuotientTraps ds) := by
  rw [hafter, hs]
  rcases ds with _ | ⟨x, rest⟩
  · rw [expected_err (Or.inl (by simp))]
    simp [afterPush, dataStackSize]
  · rw [List.length_cons] at hlen
    change (if x = 0#64 then some (afterPush 0#64 rest)
      else if rest.headD 0#64 = BitVec.intMin 64 ∧ x = -1#64 then none
      else some (afterPush (g (rest.headD 0#64) x) rest.tail)) = _ ↔ some x = some 0#64 ∨ _
    rcases eq_or_ne x 0#64 with rfl | hx
    · rw [expected_err (Or.inr (Or.inl ⟨hf, rfl⟩)), if_pos rfl, afterPush_room (by omega)]
      exact ⟨fun _ => Or.inl rfl, fun _ => rfl⟩
    · have hx' : some x ≠ some 0#64 := fun h => hx (Option.some.inj h)
      rw [if_neg hx, or_iff_right hx']
      rcases rest with _ | ⟨y, rest⟩
      · rw [expected_err (Or.inl (by simp)), if_neg (by rintro ⟨h, -⟩; cases h),
          afterPush_room (by simp [dataStackSize])]
        simp [hg, hx.symm]
      · have hok : ¬ Errs f ⟨2, 1, fun i => [g (i.getD 1 0#64) (i.getD 0 0#64)]⟩ (x :: y :: rest) := by
          rintro (h | ⟨-, h⟩ | h)
          · simp only [List.length_cons] at h
            omega
          · exact hx' h
          · simp only [List.length_cons] at h hlen
            omega
        rw [expected_ok hok, quotientTraps_iff]
        change (if y = BitVec.intMin 64 ∧ x = -1#64 then none else some (afterPush (g y x) rest)) = _ ↔ _
        rw [List.length_cons] at hlen
        split <;> rename_i h
        · exact ⟨nofun, fun hn => absurd h hn.2⟩
        · rw [afterPush_room (by omega)]
          exact ⟨fun _ => ⟨by simp, h⟩, fun _ => rfl⟩

theorem clean_divmod (hs : shape .wDivmod = some s) (hlen : ds.length ≤ dataStackSize) :
    stackAfter .wDivmod ds = some (expected .wDivmod s ds) ↔ Clean .wDivmod ds := by
  cases hs
  rcases ds with _ | ⟨x, rest⟩
  · rw [expected_err (Or.inl (by simp))]
    simp [stackAfter, Clean, afterPush, dataStackSize]
  · rw [List.length_cons] at hlen
    change (if x = 0#64 then some (afterPush 0#64 (afterPush 0#64 rest))
      else if rest.headD 0#64 = BitVec.intMin 64 ∧ x = -1#64 then none
      else some (afterPush ((rest.headD 0#64).sdiv x) (afterPush ((rest.headD 0#64).srem x) rest.tail))) =
        _ ↔ 2 ≤ rest.length + 1 ∧ (some x = some 0#64 → rest.length + 1 = dataStackSize) ∧ _
    rcases eq_or_ne x 0#64 with rfl | hx
    · rw [expected_err (Or.inr (Or.inl ⟨rfl, rfl⟩)), if_pos rfl,
        afterPush_room (show rest.length < dataStackSize by omega)]
      have hfits : ¬ QuotientTraps (0#64 :: rest) := by
        intro h
        cases (List.cons.inj (show 0#64 :: rest.take 1 = _ from h)).1
      rcases Nat.lt_or_ge (rest.length + 1) dataStackSize with hroom | hfull
      · rw [afterPush_room (by simpa using hroom)]
        constructor
        · intro h
          simp at h
        · rintro ⟨-, h, -⟩
          exact absurd (h rfl) (by omega)
      · rw [afterPush_full (by simpa using hfull)]
        refine ⟨fun _ => ⟨?_, fun _ => by omega, hfits⟩, fun _ => rfl⟩
        have : dataStackSize = 256 := rfl
        omega
    · have hx' : some x ≠ some 0#64 := fun h => hx (Option.some.inj h)
      rw [if_neg hx]
      rcases rest with _ | ⟨y, rest⟩
      · rw [expected_err (Or.inl (by simp)), if_neg (by rintro ⟨h, -⟩; cases h)]
        simp [afterPush, dataStackSize]
      · rw [List.length_cons] at hlen
        have hok : ¬ Errs .wDivmod ⟨2, 2, fun i =>
            [(i.getD 1 0#64).sdiv (i.getD 0 0#64), (i.getD 1 0#64).srem (i.getD 0 0#64)]⟩
            (x :: y :: rest) := by
          rintro (h | ⟨-, h⟩ | h)
          · simp only [List.length_cons] at h
            omega
          · exact hx' h
          · simp only [List.length_cons] at h
            omega
        rw [expected_ok hok, quotientTraps_iff]
        change (if y = BitVec.intMin 64 ∧ x = -1#64 then none
          else some (afterPush (y.sdiv x) (afterPush (y.srem x) rest))) = _ ↔ _
        split <;> rename_i h
        · exact ⟨nofun, fun hn => absurd h hn.2.2⟩
        · rw [afterPush_room (show rest.length < dataStackSize by omega), afterPush_room (by simp; omega)]
          exact ⟨fun _ => ⟨by simp, fun h0 => absurd h0 hx', h⟩, fun _ => rfl⟩

/-- The words that only move cells, and the vector words. -/
def CFun.shuffles : CFun → Bool
  | .wDup | .wDrop | .wSwap | .wOver | .wRot | .wNip | .wTuck | .w2dup | .w2drop | .w2swap
  | .wVdup | .wVplus => true
  | _ => false

/-- No shuffling word looks at more than four cells. -/
theorem clean_shuffle (hf : f.shuffles = true) (hs : shape f = some s)
    (hlen : ds.length ≤ dataStackSize) :
    stackAfter f ds = some (expected f s ds) ↔ Clean f ds := by
  rcases ds with _ | ⟨x, _ | ⟨y, _ | ⟨z, _ | ⟨t, rest⟩⟩⟩⟩
  all_goals
    cases f <;> cases hf <;> cases hs <;>
      simp [stackAfter, expected, Errs, afterPush, Clean, dataStackSize, CFun.divides] at hlen ⊢
    all_goals grind

theorem clean_division (hf : f.divides = true) (hs : shape f = some s)
    (hlen : ds.length ≤ dataStackSize) :
    stackAfter f ds = some (expected f s ds) ↔ Clean f ds := by
  cases f <;> cases hf <;> cases hs
  case wDiv => exact clean_quotient (fun _ => BitVec.zero_sdiv) rfl rfl rfl hlen
  case wMod => exact clean_quotient (fun _ => BitVec.zero_srem) rfl rfl rfl hlen
  case wDivmod => exact clean_divmod rfl hlen

/-- The four families of words with a shape. -/
theorem shape_cases (hs : shape f = some s) : (∃ g, binaryOp f = some g) ∨
    (∃ g, unaryOp f = some g) ∨ f.shuffles = true ∨ f.divides = true := by
  cases f <;> cases hs <;>
    simp only [binaryOp, unaryOp, CFun.shuffles, CFun.divides, Option.some.injEq, exists_eq', true_or,
      or_true]

end Clean

/-- **When a primitive leaves the data stack as it should**: its results in place
of its inputs, or the stack as it was if it errs. -/
theorem leavesStack_iff {img : Image} {f : CFun} {s : Shape} {d : Data} (hs : shape f = some s)
    (hlen : d.ds.length ≤ dataStackSize) : LeavesStack img f s d ↔ Clean f d.ds := by
  obtain ⟨w, hw⟩ : ∃ w, dataWord img f = some w := by
    cases f <;> cases hs <;> exact ⟨_, rfl⟩
  have hafter : LeavesStack img f s d ↔ stackAfter f d.ds = some (expected f s d.ds) := by
    rw [← leaves_word hw hs]
    constructor
    · rintro ⟨w', d', hw', hrun, hds⟩
      obtain rfl : w = w' := Option.some.inj (hw.symm.trans hw')
      rw [leaves, hrun]
      exact congrArg some hds
    · intro h
      obtain ⟨⟨⟨⟩, d'⟩, hrun, hds⟩ := Option.map_eq_some_iff.mp h
      exact ⟨w, d', hw, hrun, hds⟩
  rw [hafter]
  rcases shape_cases hs with ⟨g, hbinary⟩ | ⟨g, hunary⟩ | hshuffle | hdivides
  · exact clean_binary hbinary hs hlen
  · exact clean_unary hunary hs hlen
  · exact clean_shuffle hshuffle hs hlen
  · exact clean_division hdivides hs hlen

/-- `7 0 /` leaves the stack as it was. -/
theorem leavesStack_div_zero : LeavesStack linearImage .wDiv
    ⟨2, 1, fun i => [(i.getD 1 0#64).sdiv (i.getD 0 0#64)]⟩
    { blankData with ds := [0#64, 7#64] } :=
  (leavesStack_iff rfl (by decide)).mpr (Or.inl rfl)

/-- `SWAP` on one cell puts a zero on top of it. -/
theorem swap_alone_grows : ¬ LeavesStack linearImage .wSwap
    ⟨2, 2, fun i => [i.getD 1 0#64, i.getD 0 0#64]⟩ { blankData with ds := [5#64] } := by
  rintro ⟨w, d', hw, hrun, hds⟩
  cases hw
  cases hrun
  have hgrown : [0#64, 5#64] = [5#64] := hds
  cases hgrown

end VectorForth.Forth
