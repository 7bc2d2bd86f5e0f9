import VectorForth.Vm.Define

/-!
# The dictionary at start-up

`forth_init` fills an empty dictionary with the primitives. Every one of them
adds an entry above those before it, so the interpreter starts at the prompt
with a well-formed dictionary.
-/

namespace VectorForth.Forth

open ByteMemory

/-- `dict_add_primitive`. -/
def Data.dictAddPrimitive (img : Image) (name : String) (f : CFun) (flags : Byte) (d : Data) :
    Data :=
  (d.dictCreate (text name) flags).dictSetCode (img.addr f)

structure Primitive where
  name : String
  fn : CFun
  flags : Byte

/-- The table of `register_primitives`, in its order. -/
def primitives : List Primitive :=
  [⟨"DUP", .wDup, 0#8⟩, ⟨"DROP", .wDrop, 0#8⟩, ⟨"SWAP", .wSwap, 0#8⟩, ⟨"OVER", .wOver, 0#8⟩,
   ⟨"ROT", .wRot, 0#8⟩, ⟨"NIP", .wNip, 0#8⟩, ⟨"TUCK", .wTuck, 0#8⟩, ⟨"2DUP", .w2dup, 0#8⟩,
   ⟨"2DROP", .w2drop, 0#8⟩, ⟨"2SWAP", .w2swap, 0#8⟩, ⟨"?DUP", .wQdup, 0#8⟩,
   ⟨"DEPTH", .wDepth, 0#8⟩, ⟨"+", .wPlus, 0#8⟩, ⟨"-", .wMinus, 0#8⟩, ⟨"*", .wMul, 0#8⟩,
   ⟨"/", .wDiv, 0#8⟩, ⟨"MOD", .wMod, 0#8⟩, ⟨"/MOD", .wDivmod, 0#8⟩, ⟨"NEGATE", .wNegate, 0#8⟩,
   ⟨"ABS", .wAbs, 0#8⟩, ⟨"MIN", .wMin, 0#8⟩, ⟨"MAX", .wMax, 0#8⟩, ⟨"1+", .w1plus, 0#8⟩,
   ⟨"1-", .w1minus, 0#8⟩, ⟨"2*", .w2star, 0#8⟩, ⟨"2/", .w2slash, 0#8⟩, ⟨"AND", .wAnd, 0#8⟩,
   ⟨"OR", .wOr, 0#8⟩, ⟨"XOR", .wXor, 0#8⟩, ⟨"INVERT", .wInvert, 0#8⟩, ⟨"LSHIFT", .wLshift, 0#8⟩,
   ⟨"RSHIFT", .wRshift, 0#8⟩, ⟨"=", .wEq, 0#8⟩, ⟨"<>", .wNeq, 0#8⟩, ⟨"<", .wLt, 0#8⟩,
   ⟨">", .wGt, 0#8⟩, ⟨"<=", .wLe, 0#8⟩, ⟨">=", .wGe, 0#8⟩, ⟨"0=", .w0eq, 0#8⟩, ⟨"0<", .w0lt, 0#8⟩,
   ⟨"0>", .w0gt, 0#8⟩, ⟨">R", .wToR, 0#8⟩, ⟨"R>", .wFromR, 0#8⟩, ⟨"R@", .wRFetch, 0#8⟩,
   ⟨"@", .wFetch, 0#8⟩, ⟨"!", .wStore, 0#8⟩, ⟨"C@", .wCfetch, 0#8⟩, ⟨"C!", .wCstore, 0#8⟩,
   ⟨"+!", .wPlusStore, 0#8⟩, ⟨"HERE", .wHere, 0#8⟩, ⟨"ALLOT", .wAllot, 0#8⟩, ⟨",", .wComma, 0#8⟩,
   ⟨"C,", .wCComma, 0#8⟩, ⟨".", .wDot, 0#8⟩, ⟨"U.", .wUDot, 0#8⟩, ⟨".S", .wDotS, 0#8⟩,
   ⟨".HEX", .wDotHex, 0#8⟩, ⟨"EMIT", .wEmit, 0#8⟩, ⟨"CR", .wCr, 0#8⟩, ⟨"SPACE", .wSpace, 0#8⟩,
   ⟨"SPACES", .wSpaces, 0#8⟩, ⟨"TYPE", .wType, 0#8⟩, ⟨".\"", .wDotQuote, fImmediate⟩,
   ⟨"(", .wParen, fImmediate⟩, ⟨":", .wColon, 0#8⟩, ⟨";", .wSemicolon, fImmediate⟩,
   ⟨"VARIABLE", .wVariable, 0#8⟩, ⟨"CONSTANT", .wConstant, 0#8⟩, ⟨"CREATE", .wCreate, 0#8⟩,
   ⟨"IMMEDIATE", .wImmediate, 0#8⟩, ⟨"'", .wTick, 0#8⟩, ⟨"EXECUTE", .wExecute, 0#8⟩,
   ⟨"SEE", .wSee, 0#8⟩, ⟨"IF", .wIf, fImmediate⟩, ⟨"ELSE", .wElse, fImmediate⟩,
   ⟨"THEN", .wThen, fImmediate⟩, ⟨"BEGIN", .wBegin, fImmediate⟩, ⟨"UNTIL", .wUntil, fImmediate⟩,
   ⟨"AGAIN", .wAgain, fImmediate⟩, ⟨"WHILE", .wWhile, fImmediate⟩,
   ⟨"REPEAT", .wRepeat, fImmediate⟩, ⟨"DO", .wDo, fImmediate⟩, ⟨"LOOP", .wLoop, fImmediate⟩,
   ⟨"I", .wI, 0#8⟩, ⟨"WORDS", .wWords, 0#8⟩, ⟨"STATUS", .wStatus, 0#8⟩, ⟨"DUMP", .wDump, 0#8⟩,
   ⟨"FORK", .wFork, 0#8⟩, ⟨"YIELD", .wYield, 0#8⟩, ⟨"CLEAR", .wClear, 0#8⟩, ⟨"BYE", .wBye, 0#8⟩,
   ⟨"BASE", .wBase, 0#8⟩, ⟨"DECIMAL", .wDecimal, 0#8⟩, ⟨"HEX", .wHex, 0#8⟩,
   ⟨"BLOCK", .wBlock, 0#8⟩, ⟨"UPDATE", .wUpdate, 0#8⟩, ⟨"FLUSH", .wFlush, 0#8⟩,
   ⟨"EDIT", .wEdit, 0#8⟩, ⟨"VDUP", .wVdup, 0#8⟩, ⟨"V+", .wVplus, 0#8⟩, ⟨"LOAD", .wLoad, 0#8⟩]

def registerAll (img : Image) (ps : List Primitive) (d : Data) : Data :=
  ps.foldl (fun d p => d.dictAddPrimitive img p.name p.fn p.flags) d

def registerPrimitives (img : Image) (d : Data) : Data := registerAll img primitives d

section

variable {img : Image} {words : Words} {P : Set Nat} {d : Data}

/-- An empty dictionary is well formed. -/
theorem atPrompt_empty (hmode : d.forthState = .interpret) (hlatest : d.dictLatest = 0#64)
    (hhere : d.dictHere = BitVec.ofNat 64 dictVirtBase) :
    AtPrompt img (fun _ => none) ∅ d := by
  have hchain : Chain d.mem d.dictHere.toNat 0 d.dictLatest := by
    rw [hlatest]
    exact .nil
  have hbase : d.dictHere.toNat = dictVirtBase := by
    rw [hhere]
    rfl
  exact ⟨hmode, (fun e k h => by cases h), (fun x hx => absurd hx (Set.notMem_empty x)),
    ⟨0, hchain⟩, by omega, by omega⟩

/-- A primitive is one more word. -/
theorem AtPrompt.addPrimitive (hd : AtPrompt img words P d) (p : Primitive)
    (hroom : d.dictHere.toNat + 64 ≤ dictVirtBase + dictSize) :
    ∃ d', d' = d.dictAddPrimitive img p.name p.fn p.flags ∧
      AtPrompt img (words.extend (alignCell d.dictHere) (.native p.fn))
        (P ∪ Set.Ico (alignCell d.dictHere).toNat d'.dictHere.toNat) d' ∧
      d'.dictHere.toNat ≤ d.dictHere.toNat + 64 := by
  have hdictTop := dictTop_lt
  have hlow := hd.low
  have halign := alignCell_toNat (a := d.dictHere) (by omega)
  have hcreated : Created d (d.dictAddPrimitive img p.name p.fn p.flags) (alignCell d.dictHere)
      (img.addr p.fn) p.flags := dictCreate_spec (by omega)
  refine ⟨_, rfl, ?_⟩
  generalize d.dictAddPrimitive img p.name p.fn p.flags = d' at hcreated ⊢
  generalize alignCell d.dictHere = e at halign hcreated ⊢
  obtain ⟨hfieldLow, hfieldHigh⟩ := hcreated.field
  have htop := hcreated.top
  have hheader : (e + 8#64).toNat = e.toNat + 8 := by
    rw [BitVec.toNat_add, BitVec.toNat_ofNat]
    omega
  obtain ⟨hmode, hlatest⟩ : d'.forthState = .interpret ∧ d'.dictLatest = e := by
    obtain ⟨m, here, hsame⟩ := hcreated.same
    rw [hsame]
    exact ⟨hd.mode, rfl⟩
  have hentry : EntryAt img (Set.Ico e.toNat d'.dictHere.toNat) d'.mem e (.native p.fn) := by
    refine ⟨⟨by omega, by omega⟩, ?_, ?_, hcreated.code, fun b hb => by cases hb⟩
    · rw [Set.mem_Ico]
      omega
    · intro y hy hy'
      rw [Set.mem_Ico]
      omega
  refine ⟨?_, by omega⟩
  exact hd.extend hmode hlatest (by omega) hcreated.link
    (fun y hy => hcreated.frame y (by omega)) (by omega) (by omega) hentry

/-- A known word lies below `HERE`. -/
theorem AtPrompt.lt_here (hd : AtPrompt img words P d) {e : Cell} {k : Meaning}
    (he : words e = some k) : e.toNat < d.dictHere.toNat := by
  have hentry := hd.known e k he
  have hheader := hd.protect _ hentry.header
  have hdictTop : dictVirtBase + dictSize + 1024 < 2 ^ 64 := by decide
  have hin := hentry.inDict.2
  rw [BitVec.toNat_add, BitVec.toNat_ofNat] at hheader
  omega

/-- **Registering primitives leaves the interpreter at the prompt**, with the
words there were and one for each primitive. -/
theorem registerAll_atPrompt (ps : List Primitive) (hd : AtPrompt img words P d)
    (hroom : d.dictHere.toNat + 64 * ps.length ≤ dictVirtBase + dictSize) :
    ∃ words' P', AtPrompt img words' P' (registerAll img ps d) ∧
      (∀ e k, words e = some k → words' e = some k) ∧
      ∀ p ∈ ps, ∃ e, words' e = some (.native p.fn) := by
  induction ps generalizing words P d with
  | nil => exact ⟨words, P, hd, fun e k he => he, fun p hp => by cases hp⟩
  | cons p ps ih =>
      rw [List.length_cons] at hroom
      obtain ⟨d', rfl, hd', hhere⟩ := hd.addPrimitive p (by omega)
      obtain ⟨words', P', hall, hkeep, hfound⟩ := ih hd' (by omega)
      refine ⟨words', P', hall, ?_, ?_⟩
      · intro e k he
        apply hkeep
        rw [Words.extend, if_neg]
        · exact he
        · rintro rfl
          have hlt := hd.lt_here he
          rw [alignCell_toNat (by have := dictTop_lt; omega)] at hlt
          omega
      · intro q hq
        rcases List.mem_cons.mp hq with rfl | hq
        · exact ⟨_, hkeep _ _ (if_pos rfl)⟩
        · exact hfound q hq

/-- The dictionary that `forth_init` leaves. -/
theorem registerPrimitives_atPrompt (hmode : d.forthState = .interpret)
    (hlatest : d.dictLatest = 0#64) (hhere : d.dictHere = BitVec.ofNat 64 dictVirtBase) :
    ∃ words P, AtPrompt img words P (registerPrimitives img d) ∧
      ∀ p ∈ primitives, ∃ e, words e = some (.native p.fn) := by
  have hroom : d.dictHere.toNat + 64 * primitives.length ≤ dictVirtBase + dictSize := by
    rw [hhere]
    decide
  obtain ⟨words, P, hd, -, hfound⟩ :=
    registerAll_atPrompt primitives (atPrompt_empty hmode hlatest hhere) hroom
  exact ⟨words, P, hd, hfound⟩

end

end VectorForth.Forth
