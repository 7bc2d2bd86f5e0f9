import Mathlib.Data.Nat.Digits.Lemmas
import VectorForth.Vm.StackEffects

/-!
# Numerals

`strtol` reads what `ltoa` and `ultoa` print. `try_parse_number` accepts a token
when `strtol` has read all of it, and `strtol` also reads a sign without digits.
-/

namespace VectorForth.Forth

open ByteMemory

/-! ## Digits -/

/-- The digit that `c` stands for; no digit is 36. -/
def digitOf (c : Byte) : Nat := (digitValue c).getD 36

/-- The value of a text of digits, most significant first. -/
def valueOf (base : Nat) (t : Text) : Nat := t.foldl (fun v c => v * base + digitOf c) 0

section Digits

variable {base : Nat} {t : Text} {c : Byte}

/-- The loop of `strtol` stops at the first character that is no digit of the base. -/
theorem strtolDigits_cons (hbase : base ≤ 36) (acc : Cell) :
    strtolDigits base (c :: t) acc =
      if digitOf c < base then
        strtolDigits base t (acc * BitVec.ofNat 64 base + BitVec.ofNat 64 (digitOf c))
      else (acc, c :: t) := by
  rw [strtolDigits, digitOf]
  cases hdigit : digitValue c with
  | none => rw [if_neg (by simpa using hbase)]
  | some digit =>
      simp only [Option.getD_some]
      rcases Nat.lt_or_ge digit base with hlt | hge
      · rw [if_neg (Nat.not_le.mpr hlt), if_pos hlt]
      · rw [if_pos hge, if_neg (Nat.not_lt.mpr hge)]

theorem strtolDigits_all (hbase : base ≤ 36) (ht : ∀ c ∈ t, digitOf c < base) (acc : Nat) :
    strtolDigits base t (BitVec.ofNat 64 acc) =
      (BitVec.ofNat 64 (t.foldl (fun v c => v * base + digitOf c) acc), []) := by
  induction t generalizing acc with
  | nil => rfl
  | cons c t ih =>
      rw [strtolDigits_cons hbase, if_pos (ht c List.mem_cons_self), ← BitVec.ofNat_mul,
        ← BitVec.ofNat_add, ih fun c hc => ht c (List.mem_cons_of_mem _ hc)]
      rfl

theorem digits_of_strtolDigits (hbase : base ≤ 36) {acc : Cell}
    (h : (strtolDigits base t acc).2 = []) : ∀ c ∈ t, digitOf c < base := by
  induction t generalizing acc with
  | nil => exact fun c hc => absurd hc List.not_mem_nil
  | cons c t ih =>
      rw [strtolDigits_cons hbase] at h
      split at h
      · rename_i hlt
        rintro c' (_ | ⟨_, hc'⟩)
        · exact hlt
        · exact ih h c' hc'
      · cases h

end Digits

/-! ## The grammar -/

/-- A base prefix and the base it sets. -/
inductive BasePrefix (forthBase : Nat) : Text → Nat → Prop
  | current : BasePrefix forthBase [] forthBase
  | hex {pre : Text} : pre ∈ [text "0x", text "0X", text "$"] → BasePrefix forthBase pre 16
  | decimal : BasePrefix forthBase (text "#") 10
  | binary : BasePrefix forthBase (text "%") 2

/-- A sign, and whether it negates. -/
inductive Sign : Text → Bool → Prop
  | none : Sign [] false
  | plus : Sign (text "+") false
  | minus : Sign (text "-") true

def signedValue (neg : Bool) (base : Nat) (digits : Text) : Cell :=
  if neg then -BitVec.ofNat 64 (valueOf base digits) else BitVec.ofNat 64 (valueOf base digits)

/-- `w` is a numeral for `v`: a prefix, a sign, and at least one digit of the base. -/
def Numeral (forthBase : Nat) (w : Text) (v : Cell) : Prop :=
  ∃ pre base sgn neg digits, w = pre ++ (sgn ++ digits) ∧ BasePrefix forthBase pre base ∧
    Sign sgn neg ∧ digits ≠ [] ∧ (∀ c ∈ digits, digitOf c < base) ∧
    v = signedValue neg base digits

/-- A prefix and a sign without digits. -/
def BareSign (w : Text) : Prop :=
  ∃ pre ∈ [[], text "0x", text "0X", text "$", text "#", text "%"],
    w = pre ++ text "+" ∨ w = pre ++ text "-"

/-- What `strtol` reads to the end: a sign and any number of digits. -/
def Signed (base : Nat) (t : Text) (v : Cell) : Prop :=
  ∃ sgn neg digits, t = sgn ++ digits ∧ Sign sgn neg ∧ (∀ c ∈ digits, digitOf c < base) ∧
    v = signedValue neg base digits

section Strtol

variable {base : Nat} {t : Text} {v : Cell}

theorem dropWhile_token (h : ∀ c ∈ t, isspace c = false) : t.dropWhile isspace = t := by
  cases t with
  | nil => rfl
  | cons c t => rw [List.dropWhile_cons, h c List.mem_cons_self]; rfl

/-- No sign is a digit. -/
theorem digitOf_sign : digitOf (chr '+') = 36 ∧ digitOf (chr '-') = 36 := by decide

theorem strtol_signed (hbase : base ≤ 36) (htoken : ∀ c ∈ t, isspace c = false)
    (h : Signed base t v) : strtol t base = (v, []) := by
  obtain ⟨sgn, neg, digits, rfl, hsign, hdigits, rfl⟩ := h
  have hread : strtolDigits base digits 0#64 = (BitVec.ofNat 64 (valueOf base digits), []) :=
    strtolDigits_all hbase hdigits 0
  unfold strtol
  rw [dropWhile_token htoken]
  cases hsign with
  | none =>
      cases digits with
      | nil => rfl
      | cons c digits =>
          have hc := hdigits c List.mem_cons_self
          have hminus : c ≠ chr '-' := by rintro rfl; rw [digitOf_sign.2] at hc; omega
          have hplus : c ≠ chr '+' := by rintro rfl; rw [digitOf_sign.1] at hc; omega
          show (if c = chr '-' then _ else if c = chr '+' then _ else _) = _
          rw [if_neg hminus, if_neg hplus, hread]
          rfl
  | plus => exact hread
  | minus =>
      show ((-(strtolDigits base digits 0#64).1, (strtolDigits base digits 0#64).2) : Cell × Text) = _
      rw [hread]
      rfl

theorem signed_of_strtol (hbase : base ≤ 36) (htoken : ∀ c ∈ t, isspace c = false)
    (h : (strtol t base).2 = []) : Signed base t (strtol t base).1 := by
  have hcase : ∀ sgn neg digits, t = sgn ++ digits → Sign sgn neg →
      (strtolDigits base digits 0#64).2 = [] → Signed base t (strtol t base).1 := by
    intro sgn neg digits ht hsign hdigits
    have hall := digits_of_strtolDigits hbase hdigits
    have hsigned : Signed base t (signedValue neg base digits) := ⟨sgn, neg, digits, ht, hsign, hall, rfl⟩
    rw [strtol_signed hbase htoken hsigned]
    exact hsigned
  have hrun := h
  unfold strtol at hrun
  rw [dropWhile_token htoken] at hrun
  cases t with
  | nil => exact hcase [] false [] rfl .none rfl
  | cons c t =>
      dsimp only at hrun
      split at hrun
      · rename_i hc
        exact hcase (text "-") true t (by rw [hc]; rfl) .minus hrun
      · split at hrun
        · rename_i hc
          exact hcase (text "+") false t (by rw [hc]; rfl) .plus hrun
        · exact hcase [] false (c :: t) rfl .none hrun

end Strtol

/-! ## Recognition -/

/-- The prefix dispatch of `try_parse_number`. -/
def splitBase (forthBase : Nat) (w : Text) : Nat × Text :=
  match w with
  | c :: rest =>
      if c = chr '0' ∧ (rest.head? = some (chr 'x') ∨ rest.head? = some (chr 'X')) then
        (16, rest.tail)
      else if c = chr '$' then (16, rest)
      else if c = chr '#' then (10, rest)
      else if c = chr '%' then (2, rest)
      else (forthBase, w)
  | [] => (forthBase, w)

section Recognition

variable {forthBase base : Nat} {w rest : Text} {v : Cell}

theorem tryParseNumber_eq (forthBase : Nat) (w : Text) : tryParseNumber forthBase w =
    if (strtol (splitBase forthBase w).2 (splitBase forthBase w).1).2 = [] ∧
        (splitBase forthBase w).2 ≠ [] then
      some (strtol (splitBase forthBase w).2 (splitBase forthBase w).1).1
    else none := rfl

/-- What is split off is a prefix. -/
theorem splitBase_prefix (forthBase : Nat) (w : Text) :
    ∃ pre, w = pre ++ (splitBase forthBase w).2 ∧
      BasePrefix forthBase pre (splitBase forthBase w).1 := by
  cases w with
  | nil => exact ⟨[], rfl, .current⟩
  | cons c rest =>
      unfold splitBase
      dsimp only
      split
      · rename_i h
        obtain ⟨rfl, hx⟩ := h
        rcases rest with _ | ⟨x, rest⟩
        · rcases hx with hx | hx <;> cases hx
        · rcases hx with hx | hx <;> cases hx
          · exact ⟨text "0x", rfl, .hex (by decide)⟩
          · exact ⟨text "0X", rfl, .hex (by decide)⟩
      · split
        · rename_i h
          exact ⟨text "$", by rw [h]; rfl, .hex (by decide)⟩
        · split
          · rename_i h
            exact ⟨text "#", by rw [h]; rfl, .decimal⟩
          · split
            · rename_i h
              exact ⟨text "%", by rw [h]; rfl, .binary⟩
            · exact ⟨[], rfl, .current⟩

/-- A signed text in a base up to 16 starts with no prefix. -/
theorem splitBase_signed (hbase : forthBase ≤ 16) (h : Signed forthBase rest v) :
    splitBase forthBase rest = (forthBase, rest) := by
  obtain ⟨sgn, neg, digits, rfl, hsign, hdigits, -⟩ := h
  cases hsign with
  | plus => rfl
  | minus => rfl
  | none =>
      rcases digits with _ | ⟨c, digits⟩
      · rfl
      · have hc := hdigits c List.mem_cons_self
        have hprefix : digitOf (chr '$') = 36 ∧ digitOf (chr '#') = 36 ∧ digitOf (chr '%') = 36 := by
          decide
        have hne : ∀ {p : Byte}, digitOf p = 36 → c ≠ p := by
          rintro p hp rfl
          omega
        have hx : ∀ {x : Byte}, digitOf x = 33 → digits.head? ≠ some x := by
          rintro x hx hhead
          have hlt := hdigits x (List.mem_cons_of_mem _ (List.mem_of_mem_head? hhead))
          omega
        show (if c = chr '0' ∧ (digits.head? = some (chr 'x') ∨ digits.head? = some (chr 'X')) then _
          else if c = chr '$' then _ else if c = chr '#' then _ else if c = chr '%' then _ else _) = _
        rw [if_neg (fun h => h.2.elim (hx (by decide)) (hx (by decide))), if_neg (hne hprefix.1),
          if_neg (hne hprefix.2.1), if_neg (hne hprefix.2.2)]

theorem splitBase_append {pre : Text} (hbase : forthBase ≤ 16) (hpre : BasePrefix forthBase pre base)
    (h : Signed base rest v) : splitBase forthBase (pre ++ rest) = (base, rest) := by
  cases hpre with
  | current => exact splitBase_signed hbase h
  | decimal => rfl
  | binary => rfl
  | hex hpre =>
      simp only [List.mem_cons, List.not_mem_nil, or_false] at hpre
      rcases hpre with rfl | rfl | rfl <;> rfl

theorem BasePrefix.le (hbase : forthBase ≤ 16) {pre : Text} (h : BasePrefix forthBase pre base) :
    base ≤ 16 := by
  cases h <;> omega

/-- `try_parse_number` reads a prefix and what `strtol` takes for a number. -/
theorem tryParseNumber_iff (hbase : forthBase ≤ 16) (htoken : ∀ c ∈ w, isspace c = false) :
    tryParseNumber forthBase w = some v ↔
      ∃ pre base rest, w = pre ++ rest ∧ BasePrefix forthBase pre base ∧ rest ≠ [] ∧
        Signed base rest v := by
  rw [tryParseNumber_eq]
  constructor
  · intro h
    obtain ⟨pre, hw, hpre⟩ := splitBase_prefix forthBase w
    have hrest : ∀ c ∈ (splitBase forthBase w).2, isspace c = false := by
      intro c hc
      refine htoken c ?_
      rw [hw]
      exact List.mem_append_right _ hc
    split at h
    · rename_i hread
      cases h
      exact ⟨pre, _, _, hw, hpre, hread.2,
        signed_of_strtol (le_trans (hpre.le hbase) (by decide)) hrest hread.1⟩
    · cases h
  · rintro ⟨pre, base, rest, rfl, hpre, hne, hsigned⟩
    have hrest : ∀ c ∈ rest, isspace c = false :=
      fun c hc => htoken c (List.mem_append_right _ hc)
    rw [splitBase_append hbase hpre hsigned]
    dsimp only
    rw [strtol_signed (le_trans (hpre.le hbase) (by decide)) hrest hsigned, if_pos ⟨rfl, hne⟩]

/-- The prefixes of the grammar. -/
theorem basePrefix_iff {pre : Text} : (∃ base, BasePrefix forthBase pre base) ↔
    pre ∈ [[], text "0x", text "0X", text "$", text "#", text "%"] := by
  simp only [List.mem_cons, List.not_mem_nil, or_false]
  constructor
  · rintro ⟨base, hpre⟩
    cases hpre with
    | current => exact Or.inl rfl
    | decimal => simp
    | binary => simp
    | hex h =>
        simp only [List.mem_cons, List.not_mem_nil, or_false] at h
        rcases h with rfl | rfl | rfl <;> simp
  · rintro (rfl | rfl | rfl | rfl | rfl | rfl)
    · exact ⟨_, .current⟩
    · exact ⟨_, .hex (by decide)⟩
    · exact ⟨_, .hex (by decide)⟩
    · exact ⟨_, .hex (by decide)⟩
    · exact ⟨_, .decimal⟩
    · exact ⟨_, .binary⟩

theorem not_numeral_of_bareSign (hbase : forthBase ≤ 16) (h : BareSign w) :
    ¬ Numeral forthBase w v := by
  rintro ⟨pre, base, sgn, neg, digits, hw, hpre, -, hne, hdigits, -⟩
  obtain ⟨pre', -, hw'⟩ := h
  have hlast : w.getLast? = some (chr '+') ∨ w.getLast? = some (chr '-') := by
    rcases hw' with rfl | rfl
    · exact Or.inl (List.getLast?_concat ..)
    · exact Or.inr (List.getLast?_concat ..)
  obtain ⟨init, c, rfl⟩ : ∃ init c, digits = init ++ [c] :=
    ⟨_, _, (List.dropLast_append_getLast hne).symm⟩
  have hc := hdigits c (by simp)
  have hbase' := hpre.le hbase
  rw [hw, ← List.append_assoc, ← List.append_assoc, List.getLast?_concat] at hlast
  rcases hlast with h | h <;> cases h
  · rw [digitOf_sign.1] at hc
    omega
  · rw [digitOf_sign.2] at hc
    omega

/-- **Numerals and nothing else are recognised**, with their value, unless the token is
a sign without digits. -/
theorem recognises_iff (hbase : forthBase = 10 ∨ forthBase = 16)
    (htoken : ∀ c ∈ w, isspace c = false) :
    (∀ v, tryParseNumber forthBase w = some v ↔ Numeral forthBase w v) ↔ ¬ BareSign w := by
  have hbase : forthBase ≤ 16 := by omega
  constructor
  · intro h hbare
    obtain ⟨pre, hpre, hw⟩ := id hbare
    obtain ⟨base, hpre⟩ := basePrefix_iff.mpr hpre
    have hnone : ∀ c ∈ ([] : Text), digitOf c < base := fun c hc => absurd hc List.not_mem_nil
    obtain ⟨v, hv⟩ : ∃ v, tryParseNumber forthBase w = some v := by
      rcases hw with hw | hw
      · exact ⟨_, (tryParseNumber_iff hbase htoken).mpr ⟨pre, base, _, hw, hpre, by decide,
          _, _, [], rfl, .plus, hnone, rfl⟩⟩
      · exact ⟨_, (tryParseNumber_iff hbase htoken).mpr ⟨pre, base, _, hw, hpre, by decide,
          _, _, [], rfl, .minus, hnone, rfl⟩⟩
    exact not_numeral_of_bareSign hbase hbare ((h v).mp hv)
  · intro hbare v
    rw [tryParseNumber_iff hbase htoken]
    constructor
    · rintro ⟨pre, base, rest, rfl, hpre, hne, sgn, neg, digits, rfl, hsign, hdigits, rfl⟩
      refine ⟨pre, base, sgn, neg, digits, rfl, hpre, hsign, ?_, hdigits, rfl⟩
      rintro rfl
      -- a sign alone
      refine hbare ⟨pre, basePrefix_iff.mp ⟨base, hpre⟩, ?_⟩
      cases hsign with
      | none => exact absurd rfl hne
      | plus => exact Or.inl rfl
      | minus => exact Or.inr rfl
    · rintro ⟨pre, base, sgn, neg, digits, rfl, hpre, hsign, hne, hdigits, rfl⟩
      exact ⟨pre, base, _, rfl, hpre, by simp [hne], sgn, neg, digits, rfl, hsign, hdigits, rfl⟩

/-- `-42` in base 10. -/
theorem recognises_minus_42 : tryParseNumber 10 (text "-42") = some (-42#64) ∧
    Numeral 10 (text "-42") (-42#64) := by
  have hparse : tryParseNumber 10 (text "-42") = some (-42#64) := by decide
  refine ⟨hparse, ((recognises_iff (Or.inl rfl) (by decide)).mpr ?_ (-42#64)).mp hparse⟩
  rintro ⟨pre, -, hw | hw⟩
  all_goals
    have hlast := congrArg List.getLast? hw
  · have hplus : (pre ++ text "+").getLast? = some (chr '+') := List.getLast?_concat ..
    exact absurd (hlast.trans hplus) (by decide)
  · have hminus : (pre ++ text "-").getLast? = some (chr '-') := List.getLast?_concat ..
    exact absurd (hlast.trans hminus) (by decide)

/-- A minus sign alone is taken for a zero. -/
theorem minus_alone_is_zero : ¬ (tryParseNumber 10 (text "-") = some 0#64 ↔
    Numeral 10 (text "-") 0#64) := by
  intro h
  refine not_numeral_of_bareSign (by decide) ?_ (h.mp (by decide))
  exact ⟨[], by decide, Or.inr rfl⟩

end Recognition

/-! ## Printing -/

/-- The digits that are printed for `n`, least significant first. -/
def printedDigits (base n : Nat) : List Nat := if n = 0 then [0] else Nat.digits base n

/-- A digit text without a superfluous zero in front. -/
structure Canonical (base : Nat) (t : Text) : Prop where
  nonempty : t ≠ []
  digits : ∀ c ∈ t, digitOf c < base
  leading : t.head? = some (chr '0') → t = [chr '0']

section Printing

variable {base n : Nat} {v : Cell}

theorem printedDigits_lt (hbase : 2 ≤ base) : ∀ d ∈ printedDigits base n, d < base := by
  intro d hd
  unfold printedDigits at hd
  split at hd
  · rw [List.mem_singleton.mp hd]
    omega
  · exact Nat.digits_lt_base hbase hd

/-- The digit loop emits the digits of `n`, if it may run often enough. -/
theorem emitDigits_eq (hbase : 2 ≤ base) {fuel : Nat} (hfuel : n < base ^ (fuel + 1)) :
    emitDigits base (fuel + 1) n = (printedDigits base n).map digitChar := by
  induction fuel generalizing n with
  | zero =>
      rw [Nat.pow_one] at hfuel
      unfold printedDigits
      rw [emitDigits, Nat.div_eq_of_lt hfuel, if_pos rfl, Nat.mod_eq_of_lt hfuel]
      split
      · rename_i h
        rw [h]
        rfl
      · rename_i h
        rw [Nat.digits_of_lt base n h hfuel]
        rfl
  | succ fuel ih =>
      rcases Nat.eq_zero_or_pos n with rfl | hn
      · rw [emitDigits, Nat.zero_mod, Nat.zero_div, if_pos rfl]
        rfl
      · have hstep : printedDigits base n = n % base :: Nat.digits base (n / base) := by
          rw [printedDigits, if_neg (Nat.ne_of_gt hn), Nat.digits_def' hbase hn]
        rw [emitDigits, hstep, List.map_cons]
        congr 1
        split
        · rename_i hzero
          rw [hzero, Nat.digits_zero]
          rfl
        · rename_i hzero
          have hlt : n / base < base ^ (fuel + 1) := by
            rw [Nat.div_lt_iff_lt_mul (by omega), ← Nat.pow_succ]
            exact hfuel
          rw [ih hlt, printedDigits, if_neg hzero]

/-- What is printed for `n`. -/
def printed (base n : Nat) : Text := ((printedDigits base n).map digitChar).reverse

theorem emitDigits_reverse (hbase : 2 ≤ base) (hn : n < 2 ^ 64) :
    (emitDigits base 64 n).reverse = printed base n := by
  rw [emitDigits_eq hbase (lt_of_lt_of_le hn (Nat.pow_le_pow_left hbase 64))]
  rfl

theorem digitOf_digitChar {d : Nat} (hd : d < 36) : digitOf (digitChar d) = d := by
  revert d
  decide

theorem isspace_digitChar {d : Nat} (hd : d < 36) : isspace (digitChar d) = false := by
  revert d
  decide

theorem mem_printed {c : Byte} (hc : c ∈ printed base n) :
    ∃ d ∈ printedDigits base n, c = digitChar d := by
  obtain ⟨d, hd, rfl⟩ := List.mem_map.mp (List.mem_reverse.mp hc)
  exact ⟨d, hd, rfl⟩

theorem printed_digits (hbase : 2 ≤ base) (hbase' : base ≤ 36) :
    ∀ c ∈ printed base n, digitOf c < base := by
  intro c hc
  obtain ⟨d, hd, rfl⟩ := mem_printed hc
  have hlt := printedDigits_lt hbase d hd
  rwa [digitOf_digitChar (by omega)]

theorem printed_token (hbase : 2 ≤ base) (hbase' : base ≤ 36) :
    ∀ c ∈ printed base n, isspace c = false := by
  intro c hc
  obtain ⟨d, hd, rfl⟩ := mem_printed hc
  have hlt := printedDigits_lt hbase d hd
  exact isspace_digitChar (by omega)

theorem valueOf_printed (hbase : 2 ≤ base) (hbase' : base ≤ 36) : valueOf base (printed base n) = n := by
  have hdigits : ∀ l : List Nat, (∀ d ∈ l, d < base) →
      valueOf base (l.map digitChar).reverse = Nat.ofDigits base l := by
    intro l hl
    rw [valueOf, List.foldl_reverse]
    induction l with
    | nil => rfl
    | cons d l ih =>
        have hd := hl d List.mem_cons_self
        rw [List.map_cons, List.foldr_cons, ih fun x hx => hl x (List.mem_cons_of_mem _ hx),
          digitOf_digitChar (by omega), Nat.ofDigits_cons]
        ring
  rw [printed, hdigits _ (printedDigits_lt hbase), printedDigits]
  split
  · rename_i h
    rw [h]
    rfl
  · exact Nat.ofDigits_digits base n

theorem canonical_printed (hbase : 2 ≤ base) (hbase' : base ≤ 36) :
    Canonical base (printed base n) := by
  refine ⟨?_, printed_digits hbase hbase', ?_⟩
  · intro h
    have hnil : printedDigits base n = [] := by simpa [printed] using h
    unfold printedDigits at hnil
    split at hnil
    · cases hnil
    · rename_i hn
      exact hn (Nat.digits_eq_nil_iff_eq_zero.mp hnil)
  · intro hhead
    rcases Nat.eq_zero_or_pos n with rfl | hn
    · rfl
    · exfalso
      have hne : Nat.digits base n ≠ [] := Nat.digits_ne_nil_iff_ne_zero.mpr (Nat.ne_of_gt hn)
      have hlast := Nat.getLast_digit_ne_zero base (Nat.ne_of_gt hn)
      have hlt := Nat.digits_lt_base hbase (List.getLast_mem hne)
      rw [printed, printedDigits, if_neg (Nat.ne_of_gt hn), List.head?_reverse, List.getLast?_map,
        List.getLast?_eq_getLast_of_ne_nil hne] at hhead
      have hzero := congrArg (Option.map digitOf) hhead
      simp only [Option.map_some, Option.some.injEq] at hzero
      rw [digitOf_digitChar (by omega)] at hzero
      exact hlast hzero

/-- `ltoa` is signed in base 10 only. -/
theorem ltoa_eq (hbase : 2 ≤ base) (hbase' : base ≤ 36) (v : Cell) : ltoa v base =
    if v.msb = true ∧ base = 10 then chr '-' :: printed base (-v).toNat else printed base v.toNat := by
  rw [ltoa, if_neg (by omega), emitDigits_reverse hbase (-v).isLt, emitDigits_reverse hbase v.isLt]

theorem ultoa_eq (hbase : 2 ≤ base) (hbase' : base ≤ 36) (v : Cell) :
    ultoa v.toNat base = printed base v.toNat := by
  rw [ultoa, if_neg (by omega), emitDigits_reverse hbase v.isLt]

/-- The printed text is a sign and digits, of value `v`. -/
theorem signed_ltoa (hbase : 2 ≤ base) (hbase' : base ≤ 36) (v : Cell) :
    Signed base (ltoa v base) v := by
  rw [ltoa_eq hbase hbase']
  split
  · refine ⟨_, true, _, rfl, .minus, printed_digits hbase hbase', ?_⟩
    rw [signedValue, valueOf_printed hbase hbase', BitVec.ofNat_toNat, BitVec.setWidth_eq]
    exact (BitVec.neg_neg).symm
  · refine ⟨_, false, _, rfl, .none, printed_digits hbase hbase', ?_⟩
    rw [signedValue, valueOf_printed hbase hbase', BitVec.ofNat_toNat, BitVec.setWidth_eq]
    rfl

theorem ltoa_token (hbase : 2 ≤ base) (hbase' : base ≤ 36) (v : Cell) :
    ∀ c ∈ ltoa v base, isspace c = false := by
  rw [ltoa_eq hbase hbase']
  split
  · rintro c (_ | ⟨_, hc⟩)
    · decide
    · exact printed_token hbase hbase' c hc
  · exact printed_token hbase hbase'

theorem ltoa_ne_nil (hbase : 2 ≤ base) (hbase' : base ≤ 36) (v : Cell) : ltoa v base ≠ [] := by
  rw [ltoa_eq hbase hbase']
  split
  · exact List.cons_ne_nil _ _
  · exact (canonical_printed hbase hbase').nonempty

theorem strtoul_ultoa (hbase : 2 ≤ base) (hbase' : base ≤ 36) (v : Cell) :
    strtoul (ultoa v.toNat base) base = (v, []) := by
  have hread : strtolDigits base (printed base v.toNat) 0#64 = (v, []) := by
    have h := strtolDigits_all hbase' (printed_digits hbase hbase' (n := v.toNat)) 0
    rw [← valueOf, valueOf_printed hbase hbase', BitVec.ofNat_toNat, BitVec.setWidth_eq] at h
    exact h
  rw [ultoa_eq hbase hbase', strtoul, dropWhile_token (printed_token hbase hbase')]
  have hcanonical := canonical_printed hbase hbase' (n := v.toNat)
  cases hprinted : printed base v.toNat with
  | nil => exact absurd hprinted hcanonical.nonempty
  | cons c t =>
      have hc := hcanonical.digits c (by rw [hprinted]; exact List.mem_cons_self)
      have hplus : c ≠ chr '+' := by
        rintro rfl
        rw [digitOf_sign.1] at hc
        omega
      dsimp only
      rw [if_neg hplus, ← hprinted, hread]

theorem dot_run {d : Data} {rest : List Cell} (hds : d.ds = v :: rest) : wDot.run d = some ((),
    { d with ds := rest, output := d.output ++ (ltoa v d.forthBase ++ [chr ' ']).map .putchar }) := by
  have hpop := dsPop_cons hds
  have hrun : wDot.run d = some ((), (d.dsPop.2.puts (ltoa d.dsPop.1 d.dsPop.2.forthBase)).puts
      [chr ' ']) := rfl
  rw [hrun, hpop]
  refine congrArg (fun d => some ((), d)) ?_
  unfold Data.puts
  dsimp only
  rw [List.map_append, List.append_assoc]

/-- **Printing and reading numbers are inverse**, and what `.` prints in base 10 or 16
is recognised as the same cell. -/
theorem print_read_inverse (hbase : 2 ≤ base) (hbase' : base ≤ 36) (v : Cell) :
    strtol (ltoa v base) base = (v, []) ∧ strtoul (ultoa v.toNat base) base = (v, []) ∧
    Canonical base (ultoa v.toNat base) ∧
    (Canonical base (ltoa v base) ∨ base = 10 ∧ v.toInt < 0 ∧
      ∃ t, ltoa v base = chr '-' :: t ∧ Canonical base t) ∧
    (base = 10 ∨ base = 16 → ∀ (d : Data) rest, d.ds = v :: rest → d.forthBase = base →
      ∃ t, wDot.run d = some ((),
          { d with ds := rest, output := d.output ++ (t ++ [chr ' ']).map .putchar }) ∧
        tryParseNumber base t = some v) := by
  refine ⟨?_, strtoul_ultoa hbase hbase' v, ?_, ?_, ?_⟩
  · exact strtol_signed hbase' (ltoa_token hbase hbase' v) (signed_ltoa hbase hbase' v)
  · rw [ultoa_eq hbase hbase']
    exact canonical_printed hbase hbase'
  · rw [ltoa_eq hbase hbase']
    split
    · rename_i h
      exact Or.inr ⟨h.2, BitVec.toInt_neg_of_msb_true h.1, _, rfl,
        canonical_printed hbase hbase'⟩
    · exact Or.inl (canonical_printed hbase hbase')
  · rintro h10 d rest hds rfl
    refine ⟨ltoa v d.forthBase, dot_run hds, ?_⟩
    refine (tryParseNumber_iff (by omega) (ltoa_token hbase hbase' v)).mpr ?_
    exact ⟨[], _, _, rfl, .current, ltoa_ne_nil hbase hbase' v, signed_ltoa hbase hbase' v⟩

/-- The least cell in base 10. -/
theorem print_read_least : strtol (ltoa (BitVec.intMin 64) 10) 10 = (BitVec.intMin 64, []) :=
  (print_read_inverse (by decide) (by decide) (BitVec.intMin 64)).1

end Printing

end VectorForth.Forth
