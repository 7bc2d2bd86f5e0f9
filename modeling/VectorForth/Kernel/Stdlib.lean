import VectorForth.Vm.Numerals

/-!
# Formatting into a buffer

`itoa`, `utoa`, `ltoa` and `ultoa` of `stdlib.c` as they store into the array of
their caller, whose size they are not told. A buffer records the offsets that are
stored to. What it holds in the end is the text that the interpreter prints, and
the offsets stored to are those of the text and of its terminating NUL.
-/

namespace VectorForth.Stdlib

open ByteMemory Forth

/-- The bytes from the start of the array on, and the offsets stored to. -/
structure Buffer where
  bytes : Nat → Byte
  stores : List Nat

def Buffer.store (b : Buffer) (i : Nat) (c : Byte) : Buffer where
  bytes := Function.update b.bytes i c
  stores := i :: b.stores

/-- The `do … while` that stores digits from `p` on: the new `p`. -/
def storeDigits (base : Nat) : Nat → Nat → Nat → Buffer → Nat × Buffer
  | 0, _, p, b => (p, b)
  | fuel + 1, value, p, b =>
      let b := b.store p (digitChar (value % base))
      if value / base = 0 then (p + 1, b) else storeDigits base fuel (value / base) (p + 1) b

/-- The loop that reverses the digits in place. -/
def reverseBytes (p1 p : Nat) (b : Buffer) : Buffer :=
  if p1 < p then
    let tmp := b.bytes p1
    reverseBytes (p1 + 1) (p - 1) ((b.store p1 (b.bytes p)).store p tmp)
  else b
termination_by p - p1

/-- Digits, the NUL and the reversal, from `start` on. -/
def storeNumber (value base start : Nat) (b : Buffer) : Buffer :=
  let (p, b) := storeDigits base 64 value start b
  reverseBytes start (p - 1) (b.store p 0#8)

def ultoa (value : Cell) (base : Nat) (str : Buffer) : Buffer :=
  if base < 2 ∨ 36 < base then str.store 0 0#8 else storeNumber value.toNat base 0 str

def ltoa (value : Cell) (base : Nat) (str : Buffer) : Buffer :=
  if base < 2 ∨ 36 < base then str.store 0 0#8
  else if value.msb ∧ base = 10 then storeNumber (-value).toNat base 1 (str.store 0 (chr '-'))
  else storeNumber value.toNat base 0 str

def utoa (value : BitVec 32) (base : Nat) (str : Buffer) : Buffer :=
  if base < 2 ∨ 36 < base then str.store 0 0#8 else storeNumber value.toNat base 0 str

def itoa (value : BitVec 32) (base : Nat) (str : Buffer) : Buffer :=
  if base < 2 ∨ 36 < base then str.store 0 0#8
  else if value.msb ∧ base = 10 then storeNumber (-value).toNat base 1 (str.store 0 (chr '-'))
  else storeNumber value.toNat base 0 str

/-! ## What the loops leave -/

section Loops

variable {b b' : Buffer} {base fuel value p start i : Nat} {t : Text}

/-- `t` stands from `p` on. -/
def Buffer.Has (b : Buffer) (p : Nat) (t : Text) : Prop := ∀ i (h : i < t.length), b.bytes (p + i) = t[i]

@[simp] theorem store_stores (c : Byte) : (b.store p c).stores = p :: b.stores := rfl

@[simp] theorem store_same (c : Byte) : (b.store p c).bytes p = c := Function.update_self ..

theorem store_other {c : Byte} (h : i ≠ p) : (b.store p c).bytes i = b.bytes i :=
  Function.update_of_ne h ..

/-- The digits of one call: where they stand, that nothing else is stored to. -/
theorem storeDigits_spec (base : Nat) (fuel value p : Nat) (b : Buffer) :
    (storeDigits base fuel value p b).1 = p + (emitDigits base fuel value).length ∧
      (storeDigits base fuel value p b).2.Has p (emitDigits base fuel value) ∧
      (∀ i, (i < p ∨ p + (emitDigits base fuel value).length ≤ i) →
        (storeDigits base fuel value p b).2.bytes i = b.bytes i) ∧
      ∀ i, i ∈ (storeDigits base fuel value p b).2.stores ↔
        i ∈ b.stores ∨ p ≤ i ∧ i < p + (emitDigits base fuel value).length := by
  induction fuel generalizing value p b with
  | zero =>
      refine ⟨rfl, ?_, fun _ _ => rfl, fun i => ?_⟩
      · rintro i ⟨⟩
      · simp only [storeDigits, emitDigits, List.length_nil]
        grind
  | succ fuel ih =>
      by_cases hlast : value / base = 0
      · simp only [storeDigits, emitDigits, if_pos hlast, List.length_singleton]
        refine ⟨trivial, ?_, fun i hi => store_other (by omega), fun i => ?_⟩
        · intro i hi
          obtain rfl : i = 0 := by simpa using hi
          exact store_same _
        · rw [store_stores, List.mem_cons]
          grind
      · obtain ⟨hend, hhas, hrest, hstores⟩ :=
          ih (value / base) (p + 1) (b.store p (digitChar (value % base)))
        simp only [storeDigits, emitDigits, if_neg hlast, List.length_cons]
        refine ⟨by rw [hend]; omega, ?_, fun i hi => ?_, fun i => ?_⟩
        · intro i hi
          cases i with
          | zero =>
              have hfirst := hrest p (Or.inl (by omega))
              rw [store_same] at hfirst
              exact hfirst
          | succ i =>
              have hdigit := hhas i (by simpa using hi)
              rw [← Nat.add_assoc, Nat.add_right_comm, hdigit]
              rfl
        · rw [hrest i (by omega), store_other (by omega)]
        · rw [hstores, store_stores, List.mem_cons]
          grind

/-- The swaps turn the bytes between `p1` and `p` round and store nowhere else. -/
theorem reverseBytes_spec (p1 p : Nat) (b : Buffer) :
    (∀ i, p1 ≤ i → i ≤ p → (reverseBytes p1 p b).bytes i = b.bytes (p1 + p - i)) ∧
      (∀ i, (i < p1 ∨ p < i) → (reverseBytes p1 p b).bytes i = b.bytes i) ∧
      (∀ i, i ∈ (reverseBytes p1 p b).stores → i ∈ b.stores ∨ p1 ≤ i ∧ i ≤ p) ∧
      ∀ i ∈ b.stores, i ∈ (reverseBytes p1 p b).stores := by
  induction p1, p, b using reverseBytes.induct with
  | case1 p1 p b hlt tmp ih =>
      obtain ⟨hin, hout, hnew, hold⟩ := ih
      rw [reverseBytes, if_pos hlt]
      refine ⟨fun i hlow hhigh => ?_, fun i hi => ?_, fun i hi => ?_, fun i hi => ?_⟩
      · by_cases hfirst : i = p1
        · subst hfirst
          rw [hout i (Or.inl (by omega)), store_other (by omega), store_same, Nat.add_sub_cancel_left]
        · by_cases hlast : i = p
          · subst hlast
            rw [hout i (Or.inr (by omega)), store_same, Nat.add_sub_cancel]
          · have hsum : p1 + 1 + (p - 1) = p1 + p := by omega
            rw [hin i (by omega) (by omega), hsum, store_other (by omega), store_other (by omega)]
      · rw [hout i (by omega), store_other (by omega), store_other (by omega)]
      · rcases hnew i hi with hmem | hrange
        · rw [store_stores, store_stores, List.mem_cons, List.mem_cons] at hmem
          rcases hmem with rfl | rfl | hmem
          · exact Or.inr ⟨by omega, by omega⟩
          · exact Or.inr ⟨by omega, by omega⟩
          · exact Or.inl hmem
        · exact Or.inr ⟨by omega, by omega⟩
      · apply hold
        rw [store_stores, store_stores]
        exact List.mem_cons_of_mem _ (List.mem_cons_of_mem _ hi)
  | case2 p1 p b hge =>
      rw [reverseBytes, if_neg hge]
      refine ⟨fun i hlow hhigh => ?_, fun _ _ => rfl, fun i hi => Or.inl hi, fun i hi => hi⟩
      have hmid : p1 + p - i = i := by omega
      rw [hmid]

/-- What a formatter leaves: the text and the NUL, stored to at their own offsets
and at no other. -/
structure Writes (b : Buffer) (p : Nat) (t : Text) (b' : Buffer) : Prop where
  has : b'.Has p t
  nul : b'.bytes (p + t.length) = 0#8
  rest : ∀ i < p, b'.bytes i = b.bytes i
  stores : ∀ i, i ∈ b'.stores ↔ i ∈ b.stores ∨ p ≤ i ∧ i ≤ p + t.length

theorem emitDigits_length_pos (base fuel value : Nat) :
    0 < (emitDigits base (fuel + 1) value).length := by
  simp [emitDigits]

theorem storeNumber_writes (value base start : Nat) (b : Buffer) :
    Writes b start (emitDigits base 64 value).reverse (storeNumber value base start b) := by
  obtain ⟨hend, hhas, hrest, hstores⟩ := storeDigits_spec base 64 value start b
  have hpos := emitDigits_length_pos base 63 value
  unfold storeNumber
  generalize storeDigits base 64 value start b = r at hend hhas hrest hstores
  obtain ⟨p, b₁⟩ := r
  dsimp only at hend hhas hrest hstores ⊢
  generalize hdigits : emitDigits base 64 value = digits at hend hhas hrest hstores hpos
  obtain ⟨hin, hout, hnew, hold⟩ := reverseBytes_spec start (p - 1) (b₁.store p 0#8)
  constructor
  case has =>
    intro i hi
    rw [List.length_reverse] at hi
    have hplace : start + (p - 1) - (start + i) = start + (digits.length - 1 - i) := by omega
    rw [hin _ (by omega) (by omega), hplace, store_other (by omega), List.getElem_reverse]
    exact hhas _ (by omega)
  case nul =>
    rw [List.length_reverse, ← hend, hout p (Or.inr (by omega)), store_same]
  case rest =>
    intro i hi
    rw [hout i (Or.inl hi), store_other (by omega), hrest i (Or.inl hi)]
  case stores =>
    intro i
    rw [List.length_reverse, ← hend]
    constructor
    · intro hi
      rcases hnew i hi with hmem | hrange
      · rw [store_stores, List.mem_cons, hstores] at hmem
        rcases hmem with rfl | hold | hdigit
        · exact Or.inr (by omega)
        · exact Or.inl hold
        · exact Or.inr (by omega)
      · exact Or.inr (by omega)
    · intro hi
      apply hold
      rw [store_stores, List.mem_cons, hstores]
      rcases hi with hmem | hrange
      · exact Or.inr (Or.inl hmem)
      · rcases Nat.lt_or_eq_of_le hrange.2 with hlt | heq
        · exact Or.inr (Or.inr ⟨hrange.1, hend ▸ hlt⟩)
        · exact Or.inl heq

end Loops

/-! ## The formatters -/

section Formatters

variable {b b' : Buffer} {t : Text}

theorem invalid_writes (b : Buffer) : Writes b 0 [] (b.store 0 0#8) where
  has := by rintro i ⟨⟩
  nul := store_same _
  rest := by rintro i ⟨⟩
  stores i := by
    rw [store_stores, List.mem_cons, List.length_nil]
    grind

/-- A sign in front of a number. -/
theorem Writes.signed (h : Writes (b.store 0 (chr '-')) 1 t b') : Writes b 0 (chr '-' :: t) b' where
  has := by
    intro i hi
    cases i with
    | zero =>
        rw [h.rest 0 (by omega), store_same]
        rfl
    | succ i =>
        have hdigit := h.has i (by simpa using hi)
        rw [Nat.add_comm] at hdigit
        rw [Nat.zero_add]
        exact hdigit
  nul := by
    rw [List.length_cons, Nat.zero_add, Nat.add_comm]
    exact h.nul
  rest := by rintro i ⟨⟩
  stores i := by
    rw [h.stores, store_stores, List.mem_cons, List.length_cons]
    grind

/-- **The formatters store the text that is printed**, and its NUL. -/
theorem ultoa_writes (value : Cell) (base : Nat) (b : Buffer) :
    Writes b 0 (Forth.ultoa value.toNat base) (ultoa value base b) := by
  unfold ultoa Forth.ultoa
  split
  · exact invalid_writes b
  · exact storeNumber_writes _ _ _ b

theorem utoa_writes (value : BitVec 32) (base : Nat) (b : Buffer) :
    Writes b 0 (Forth.utoa value base) (utoa value base b) := by
  unfold utoa Forth.utoa Forth.ultoa
  split
  · exact invalid_writes b
  · exact storeNumber_writes _ _ _ b

theorem ltoa_writes (value : Cell) (base : Nat) (b : Buffer) :
    Writes b 0 (Forth.ltoa value base) (ltoa value base b) := by
  unfold ltoa Forth.ltoa
  split
  · exact invalid_writes b
  · split
    · exact (storeNumber_writes _ _ 1 _).signed
    · exact storeNumber_writes _ _ _ b

theorem itoa_writes (value : BitVec 32) (base : Nat) (b : Buffer) :
    Writes b 0 (Forth.itoa value base) (itoa value base b) := by
  unfold itoa Forth.itoa
  split
  · exact invalid_writes b
  · split
    · exact (storeNumber_writes _ _ 1 _).signed
    · exact storeNumber_writes _ _ _ b

end Formatters

/-! ## Lengths -/

section Lengths

variable {b' : Buffer} {base k size : Nat} {t : Text}

/-- A call that stores `t` stays within `size` bytes exactly when `t` and its NUL do. -/
theorem Writes.fits_iff {bytes : Nat → Byte} (h : Writes ⟨bytes, []⟩ 0 t b') :
    (∀ i ∈ b'.stores, i < size) ↔ t.length < size := by
  constructor
  · intro hall
    exact hall _ ((h.stores _).mpr (Or.inr ⟨Nat.zero_le _, by omega⟩))
  · intro hlen i hi
    rcases (h.stores i).mp hi with hnil | hrange
    · cases hnil
    · omega

theorem length_printed_le (hbase : 2 ≤ base) (n : Nat) :
    (printed base n).length ≤ k + 1 ↔ n < base ^ (k + 1) := by
  rw [printed, List.length_reverse, List.length_map, printedDigits]
  split
  · rename_i hn
    subst hn
    exact iff_of_true (by simp) (Nat.pow_pos (by omega))
  · exact Nat.digits_length_le_iff (by omega) n

theorem toNat_neg_le {w : Nat} {v : BitVec w} (h : v.msb = true) : 2 * (-v).toNat ≤ 2 ^ w := by
  have hmsb := BitVec.msb_eq_decide v
  rw [h] at hmsb
  have hhigh := of_decide_eq_true hmsb.symm
  have hlt := v.isLt
  have hpow : 2 ^ w ≤ 2 * 2 ^ (w - 1) := by
    cases w with
    | zero => decide
    | succ w => rw [Nat.add_sub_cancel, Nat.pow_succ, Nat.mul_comm]
  have hmod := Nat.mod_le (2 ^ w - v.toNat) (2 ^ w)
  rw [BitVec.toNat_neg]
  omega

/-- In the bases of the interpreter, a cell takes at most 20 characters. -/
theorem length_ltoa_le (hbase : base = 10 ∨ base = 16) (v : Cell) :
    (Forth.ltoa v base).length ≤ 20 := by
  have hlt := v.isLt
  rcases hbase with rfl | rfl
  · rw [ltoa_eq (by decide) (by decide)]
    split
    · rename_i hneg
      have hnat := toNat_neg_le hneg.1
      have hdigits : (printed 10 (-v).toNat).length ≤ 18 + 1 :=
        (length_printed_le (by decide) _).mpr (by omega)
      rw [List.length_cons]
      omega
    · exact (length_printed_le (by decide) _).mpr (by omega)
  · rw [ltoa_eq (by decide) (by decide), if_neg (fun h => absurd h.2 (by decide))]
    have hdigits : (printed 16 v.toNat).length ≤ 15 + 1 :=
      (length_printed_le (by decide) _).mpr (by omega)
    omega

/-- A cell has at most 16 hexadecimal digits. -/
theorem length_ultoa_hex_le (v : Cell) : (Forth.ultoa v.toNat 16).length ≤ 16 := by
  rw [ultoa_eq (by decide) (by decide)]
  exact (length_printed_le (by decide) _).mpr v.isLt

theorem length_ultoa_le (hbase : base = 10 ∨ base = 16) (v : Cell) :
    (Forth.ultoa v.toNat base).length ≤ 20 := by
  have hlt := v.isLt
  rcases hbase with rfl | rfl
  · rw [ultoa_eq (by decide) (by decide)]
    exact (length_printed_le (by decide) _).mpr (by omega)
  · have hdigits := length_ultoa_hex_le v
    omega

theorem length_utoa_byte_le (c : Byte) : (Forth.utoa (c.setWidth 32) 16).length ≤ 2 := by
  have hlt := c.isLt
  have hnat : (c.setWidth 32).toNat = c.toNat := by
    rw [BitVec.toNat_setWidth]
    omega
  rw [Forth.utoa, hnat, Forth.ultoa, if_neg (by decide), emitDigits_reverse (by decide) (by omega)]
  exact (length_printed_le (by decide) _).mpr hlt

theorem itoa_eq (v : BitVec 32) : Forth.itoa v 10 =
    if v.msb = true then chr '-' :: printed 10 (-v).toNat else printed 10 v.toNat := by
  have hlt := v.isLt
  have hlt' := (-v).isLt
  rw [Forth.itoa, if_neg (by decide), emitDigits_reverse (by decide) (by omega),
    emitDigits_reverse (by decide) (by omega)]
  simp

/-- `itoa` writes a sign and at most ten digits. -/
theorem length_itoa_le (v : BitVec 32) : (Forth.itoa v 10).length ≤ 11 := by
  have hlt := v.isLt
  have hlt' := (-v).isLt
  rw [itoa_eq]
  split
  · have hdigits : (printed 10 (-v).toNat).length ≤ 9 + 1 :=
      (length_printed_le (by decide) _).mpr (by omega)
    rw [List.length_cons]
    omega
  · have hdigits : (printed 10 v.toNat).length ≤ 9 + 1 :=
      (length_printed_le (by decide) _).mpr (by omega)
    omega

/-- What nine characters can show. -/
theorem length_itoa_lt_iff (v : BitVec 32) :
    (Forth.itoa v 10).length < 10 ↔ -99999999 ≤ v.toInt ∧ v.toInt ≤ 999999999 := by
  have hlt := v.isLt
  rw [itoa_eq, BitVec.toInt_eq_msb_cond]
  split
  · rename_i hneg
    have hnat := toNat_neg_le hneg
    have hpos : 0 < v.toNat := by
      have := BitVec.msb_eq_decide v
      rw [hneg] at this
      have := of_decide_eq_true this.symm
      omega
    rw [List.length_cons, Nat.succ_lt_succ_iff, Nat.lt_succ_iff, length_printed_le (by decide),
      BitVec.toNat_neg]
    omega
  · rename_i hpos
    rw [Nat.lt_succ_iff, length_printed_le (by decide)]
    have := BitVec.msb_eq_decide v
    omega

end Lengths

end VectorForth.Stdlib
