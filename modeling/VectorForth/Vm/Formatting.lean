import VectorForth.Vm.Startup
import VectorForth.Kernel.Stdlib

/-!
# Numbers and the arrays they are formatted into

Only `DECIMAL` and `HEX` set the number base, so it is 10 or 16 in every run. For
that, the arrays of the callers of `itoa`, `utoa`, `ltoa` and `ultoa` are large
enough for every value, but for the ten bytes of `w_load` and of `run_editor`.
-/

namespace VectorForth.Forth

open ByteMemory

/-! ## The number base -/

/-- The base is the old one, or one of the two that a word sets. -/
def BaseFrom (d d' : Data) : Prop :=
  d'.forthBase = d.forthBase ∨ d'.forthBase = 10 ∨ d'.forthBase = 16

theorem BaseFrom.trans {d₁ d₂ d₃ : Data} (h : BaseFrom d₁ d₂) (h' : BaseFrom d₂ d₃) :
    BaseFrom d₁ d₃ := by
  rcases h' with h' | h'
  · unfold BaseFrom
    rw [h']
    exact h
  · exact Or.inr h'

theorem Still.baseFrom {d d' : Data} (h : Still d d') : BaseFrom d d' := by
  obtain ⟨_, _, _, rfl⟩ := h
  exact Or.inl rfl

instance : Keeping BaseFrom := ⟨BaseFrom.trans, Still.baseFrom⟩

section Base

variable {img : Image} {m m' : Machine} {rest : List Frame}

theorem baseFrom_loud {f : CFun} {w : NativeM Unit} (hf : dataWord img f = some w)
    (hloud : f.loud = true) : Keeps BaseFrom w := by
  cases f <;> cases hloud <;> cases hf
  case wImmediate =>
    refine keeps_modify fun d => ?_
    split <;> exact Or.inl rfl
  case wBlock =>
    refine keeps_bind keeps_dsPop fun _ => keeps_bind ?_ fun _ => keeps_dsPush _
    rintro d a d' hrun
    cases hrun
    exact Or.inl rfl
  case wFork =>
    refine keeps_bind keeps_dsPop fun _ => keeps_bind (keeps_modify fun _ => Or.inl rfl) ?_
    exact fun _ => keeps_bind (keeps_modifyGet fun _ => Or.inl rfl) fun _ => keeps_dsPush _
  all_goals
    simp only [wStore, storeCell, wCstore, wPlusStore, wAllot, wComma, wCComma, wColon,
      wSemicolon, wCreate, wVariable, wConstant, wIf, wElse, wThen, wUntil, wAgain, wWhile,
      wRepeat, wDo, wLoop, wUpdate, wFlush]
    repeat'
      first
      | with_reducible refine keeps_ite ?_ ?_
      | with_reducible refine keeps_bind ?_ fun _ => ?_
      | exact keeps_modify fun d => Or.inl rfl
      | simp

theorem baseFrom_word {f : CFun} {w : NativeM Unit} (hf : dataWord img f = some w) :
    Keeps BaseFrom w := by
  by_cases hdecimal : f = .wDecimal
  · subst hdecimal
    cases hf
    exact keeps_modify fun d => Or.inr (Or.inl rfl)
  · by_cases hhex : f = .wHex
    · subst hhex
      cases hf
      exact keeps_modify fun d => Or.inr (Or.inr rfl)
    · cases hloud : f.loud with
      | false => exact keeping_word hf hloud hdecimal hhex
      | true => exact baseFrom_loud hf hloud

theorem still_enterColon (entry : Cell) (vm : Vm) : Still vm.data (enterColon entry vm).data :=
  still_rsPush vm vm.ip

theorem yield_base (m : Machine) : (yield m).vm.data.forthBase = m.vm.data.forthBase := by
  unfold yield
  dsimp only
  split <;> rfl

theorem callNative_base {f : CFun} (h : callNative img f m = some m') :
    BaseFrom m.vm.data m'.vm.data := by
  unfold callNative at h
  split at h
  · rename_i w hw
    obtain ⟨⟨u, d'⟩, hrun, rfl⟩ := Option.map_eq_some_iff.mp h
    exact baseFrom_word hw _ u d' hrun
  · split at h
    · rename_i w hw
      cases h
      exact (still_vmWord hw _).baseFrom
    · split at h <;> cases h
      · exact (still_dsPop _).baseFrom
      · exact (still_dsPop _).baseFrom.trans (Or.inl rfl)
      · exact Or.inl (yield_base m)
      · exact (still_dsPop _).baseFrom.trans (Or.inl rfl)
      · exact Or.inl rfl

theorem callCode_base {code entry : Cell} (h : callCode img code entry m = some m') :
    BaseFrom m.vm.data m'.vm.data := by
  unfold callCode at h
  split at h
  · cases h
    exact (still_dsPush _ _).baseFrom
  · split at h
    · cases h
      exact (still_dsPush _ _).baseFrom
    · split at h
      · exact callNative_base h
      · cases h

theorem forthInner_base (h : forthInner img rest m = some m') :
    BaseFrom m.vm.data m'.vm.data := by
  have hpop := still_rsPop { m.vm with ip := m.vm.ip + 8#64 }
  unfold forthInner at h
  dsimp only [Vm.ipFetchAdvance] at h
  split at h
  · split at h <;> cases h
    · refine Still.baseFrom ?_
      exact hpop
    · refine Still.baseFrom ?_
      exact hpop
  · split at h
    · cases h
      refine Still.baseFrom ?_
      exact still_dsPush _ _
    · split at h
      · cases h
        refine Still.baseFrom ?_
        exact still_puts _ _
      · split at h
        · cases h
          refine Still.baseFrom ?_
          exact still_enterColon _ { m.vm with ip := m.vm.ip + 8#64 }
        · have hcode := callCode_base h
          exact hcode

theorem forthEval_base (h : forthEval img rest m = some m') :
    BaseFrom m.vm.data m'.vm.data := by
  unfold forthEval at h
  dsimp only at h
  split at h
  · -- the end of the line
    cases h
    dsimp only [Machine.setData]
    split <;> exact Or.inl rfl
  · split at h
    · cases h
    · split at h
      · split at h <;> cases h <;> exact Or.inl rfl
      · split at h
        · split at h
          · cases h
            exact Or.inl rfl
          · cases h
            refine Still.baseFrom ?_
            exact Still.trans ⟨_, _, _, rfl⟩ (still_dsPush _ _)
        · cases h
          exact Or.inl rfl

/-- **One step leaves the base, or sets it to 10 or 16.** -/
theorem step_base (h : step img m = some m') : BaseFrom m.vm.data m'.vm.data := by
  unfold step at h
  split at h
  · cases h
  · unfold forthExecute at h
    dsimp only at h
    split at h
    · cases h
      refine Still.baseFrom ?_
      exact still_enterColon _ m.vm
    · have hcode := callCode_base h
      exact hcode
  · exact forthInner_base h
  · exact forthEval_base h
  · cases h
    exact Or.inl rfl
  · cases h
    exact Or.inl rfl
  · split at h <;> cases h
    · exact Or.inl (yield_base _)
    · unfold editorKey
      dsimp only
      split <;> exact Or.inl rfl
  · cases h
    exact Or.inl rfl
  · cases h
    exact Or.inl (yield_base _)
  · cases h
    exact Or.inl rfl
  · cases h
    exact Or.inl (yield_base _)
  · split at h <;> cases h
    · exact Or.inl (yield_base _)
    · unfold replKey
      dsimp only
      split
      · split <;> exact Or.inl rfl
      · split
        · split <;> exact Or.inl rfl
        · split <;> exact Or.inl rfl
  · cases h
    exact Or.inl rfl

/-- The bases that the interpreter can be in. -/
theorem steps_base {n : Nat} (h : steps img n m = some m')
    (hbase : m.vm.data.forthBase = 10 ∨ m.vm.data.forthBase = 16) :
    m'.vm.data.forthBase = 10 ∨ m'.vm.data.forthBase = 16 := by
  induction n generalizing m with
  | zero =>
      cases h
      exact hbase
  | succ n ih =>
      obtain ⟨m₁, hstep, hrest⟩ := Option.bind_eq_some_iff.mp h
      refine ih hrest ?_
      rcases step_base hstep with hsame | hset
      · rwa [hsame]
      · exact hset

end Base

/-! ## The callers -/

/-- A call of a formatter: the size of the array of the caller, and what is done to it. -/
structure FormatCall where
  size : Nat
  format : Stdlib.Buffer → Stdlib.Buffer

/-- Nothing is stored outside the array, whatever it held. -/
def FormatCall.Fits (c : FormatCall) : Prop :=
  ∀ bytes, ∀ i ∈ (c.format ⟨bytes, []⟩).stores, i < c.size

namespace FormatCall

def wDot (d : Data) : FormatCall := ⟨24, Stdlib.ltoa d.dsPop.1 d.dsPop.2.forthBase⟩

def wUDot (d : Data) : FormatCall := ⟨24, Stdlib.ultoa d.dsPop.1 d.dsPop.2.forthBase⟩

/-- The first call of `ds_print`. -/
def dsPrintDepth (d : Data) : FormatCall := ⟨24, Stdlib.itoa (BitVec.ofNat 32 d.ds.length) 10⟩

/-- Its call for a cell of the stack. -/
def dsPrintCell (v : Cell) : FormatCall := ⟨24, Stdlib.ltoa v 10⟩

def vgaPutHex (value : Cell) : FormatCall := ⟨17, Stdlib.ultoa value 16⟩

/-- The operand of a `do_literal` in the body that is listed. -/
def wSee (v : Cell) : FormatCall := ⟨24, Stdlib.ltoa v 10⟩

def wLoad (blkNum : BitVec 32) : FormatCall := ⟨10, Stdlib.itoa blkNum 10⟩

def runEditor (blockNum : BitVec 32) : FormatCall := ⟨10, Stdlib.itoa blockNum 10⟩

def dictListWords (count : BitVec 32) : FormatCall := ⟨16, Stdlib.itoa count 10⟩

def wDump (c : Byte) : FormatCall := ⟨8, Stdlib.utoa (c.setWidth 32) 16⟩

def wStatusTicks (ticks : Cell) : FormatCall := ⟨24, Stdlib.ultoa ticks 10⟩

def wStatusDepth (d : Data) : FormatCall := ⟨24, Stdlib.itoa (BitVec.ofNat 32 d.ds.length) 10⟩

end FormatCall

/-- The calls of a formatter that the next step may make. Of the words that list
memory, every value is allowed for what they find there. -/
inductive Formats (img : Image) (m : Machine) : FormatCall → Prop
  | wDot : calledFun img m = some .wDot → Formats img m (.wDot m.vm.data)
  | wUDot : calledFun img m = some .wUDot → Formats img m (.wUDot m.vm.data)
  | dsPrintDepth : calledFun img m = some .wDotS → Formats img m (.dsPrintDepth m.vm.data)
  | dsPrintCell {v : Cell} : calledFun img m = some .wDotS → v ∈ m.vm.data.ds →
      Formats img m (.dsPrintCell v)
  | wDotHex : calledFun img m = some .wDotHex → Formats img m (.vgaPutHex m.vm.data.dsPop.1)
  | wStatusTicks : calledFun img m = some .wStatus →
      Formats img m (.wStatusTicks m.vm.data.kernelTicks)
  | wStatusHere : calledFun img m = some .wStatus → Formats img m (.vgaPutHex m.vm.data.dictHere)
  | wStatusDepth : calledFun img m = some .wStatus → Formats img m (.wStatusDepth m.vm.data)
  | wSee {v : Cell} : calledFun img m = some .wSee → Formats img m (.wSee v)
  | wLoad : calledFun img m = some .wLoad →
      Formats img m (.wLoad (m.vm.data.dsPop.1.setWidth 32))
  | runEditor {blk cursor : Nat} {n : BitVec 32} {rest : List Frame} :
      m.frames = .editor blk n cursor :: rest → Formats img m (.runEditor n)
  | dictListWords {count : BitVec 32} : calledFun img m = some .wWords →
      Formats img m (.dictListWords count)
  | wDumpAddress {a : Cell} : calledFun img m = some .wDump → Formats img m (.vgaPutHex a)
  | wDump {c : Byte} : calledFun img m = some .wDump → Formats img m (.wDump c)

/-- The block numbers that nine characters can show. -/
def ShortNumber (n : BitVec 32) : Prop := -99999999 ≤ n.toInt ∧ n.toInt ≤ 999999999

/-- The block that the next step loads or shows in the editor has a short number. -/
structure ShortBlocks (img : Image) (m : Machine) : Prop where
  load : calledFun img m = some .wLoad → ShortNumber (m.vm.data.dsPop.1.setWidth 32)
  editor : ∀ blk n cursor rest, m.frames = .editor blk n cursor :: rest → ShortNumber n

section Calls

variable {img : Image} {m : Machine} {size base : Nat}

/-- A call fits when there is room for the text that it stores and for the NUL. -/
theorem call_fits_iff {format : Stdlib.Buffer → Stdlib.Buffer} {t : Text}
    (h : ∀ b, Stdlib.Writes b 0 t (format b)) :
    FormatCall.Fits ⟨size, format⟩ ↔ t.length < size := by
  constructor
  · intro hfits
    exact (h _).fits_iff.mp (hfits fun _ => 0#8)
  · intro hlen bytes
    exact (h _).fits_iff.mpr hlen

/-- Ten bytes are enough exactly for the short numbers. -/
theorem ten_fits_iff (n : BitVec 32) :
    FormatCall.Fits ⟨10, Stdlib.itoa n 10⟩ ↔ ShortNumber n := by
  rw [call_fits_iff (Stdlib.itoa_writes n 10), Stdlib.length_itoa_lt_iff, ShortNumber]

theorem itoa_fits (v : BitVec 32) (hsize : 12 ≤ size) :
    FormatCall.Fits ⟨size, Stdlib.itoa v 10⟩ := by
  have hlen := Stdlib.length_itoa_le v
  exact (call_fits_iff (Stdlib.itoa_writes v 10)).mpr (by omega)

theorem ltoa_fits (hbase : base = 10 ∨ base = 16) (v : Cell) :
    FormatCall.Fits ⟨24, Stdlib.ltoa v base⟩ := by
  have hlen := Stdlib.length_ltoa_le hbase v
  exact (call_fits_iff (Stdlib.ltoa_writes v base)).mpr (by omega)

theorem ultoa_fits (hbase : base = 10 ∨ base = 16) (v : Cell) :
    FormatCall.Fits ⟨24, Stdlib.ultoa v base⟩ := by
  have hlen := Stdlib.length_ultoa_le hbase v
  exact (call_fits_iff (Stdlib.ultoa_writes v base)).mpr (by omega)

theorem vgaPutHex_fits (v : Cell) : (FormatCall.vgaPutHex v).Fits := by
  have hlen := Stdlib.length_ultoa_hex_le v
  exact (call_fits_iff (Stdlib.ultoa_writes v 16)).mpr (by omega)

theorem wDump_fits (c : Byte) : (FormatCall.wDump c).Fits := by
  have hlen := Stdlib.length_utoa_byte_le c
  exact (call_fits_iff (Stdlib.utoa_writes (c.setWidth 32) 16)).mpr (by omega)

theorem fits_of_short {c : FormatCall} (hbase : m.vm.data.forthBase = 10 ∨ m.vm.data.forthBase = 16)
    (hshort : ShortBlocks img m) (h : Formats img m c) : c.Fits := by
  have hpop : m.vm.data.dsPop.2.forthBase = m.vm.data.forthBase := by
    obtain ⟨_, _, _, hsame⟩ := still_dsPop m.vm.data
    rw [hsame]
  cases h with
  | wDot => exact ltoa_fits (by rwa [hpop]) _
  | wUDot => exact ultoa_fits (by rwa [hpop]) _
  | dsPrintDepth => exact itoa_fits _ (by decide)
  | dsPrintCell => exact ltoa_fits (Or.inl rfl) _
  | wDotHex => exact vgaPutHex_fits _
  | wStatusTicks => exact ultoa_fits (Or.inl rfl) _
  | wStatusHere => exact vgaPutHex_fits _
  | wStatusDepth => exact itoa_fits _ (by decide)
  | wSee => exact ltoa_fits (Or.inl rfl) _
  | wLoad hcalled => exact (ten_fits_iff _).mpr (hshort.load hcalled)
  | runEditor hframes => exact (ten_fits_iff _).mpr (hshort.editor _ _ _ _ hframes)
  | dictListWords => exact itoa_fits _ (by decide)
  | wDumpAddress => exact vgaPutHex_fits _
  | wDump => exact wDump_fits _

/-- **In every state of every run, all calls of the formatters stay inside their
arrays exactly when the block that is loaded or shown has a short number.** -/
theorem formats_fit_iff {n : Nat} {m₀ : Machine}
    (hbase : m₀.vm.data.forthBase = 10 ∨ m₀.vm.data.forthBase = 16)
    (h : steps img n m₀ = some m) :
    (∀ c, Formats img m c → c.Fits) ↔ ShortBlocks img m := by
  constructor
  · intro hall
    constructor
    case load =>
      intro hcalled
      exact (ten_fits_iff _).mp (hall _ (.wLoad hcalled))
    case editor =>
      intro blk n cursor rest hframes
      exact (ten_fits_iff _).mp (hall _ (.runEditor hframes))
  · intro hshort c hc
    exact fits_of_short (steps_base h hbase) hshort hc

theorem startup_base (img : Image) (line : Text) :
    (startupPrompt img line).vm.data.forthBase = 10 := by
  obtain ⟨_, _, _, hsame⟩ := startup_same img
  have hat : ∀ d : Data, (d.at line).forthBase = d.forthBase := fun _ => rfl
  unfold startupPrompt
  rw [hat, hsame]
  rfl

/-- A number and `LOAD` at the first prompt: the word is called with the number on the
stack. -/
theorem startup_load {line num : Text} {v : Cell} (hlex : nextWord 64 line = (num, text " LOAD"))
    (hne : num ≠ []) (hnone : dictFind (startup linearImage) num = some 0#64)
    (hnum : tryParseNumber 10 num = some v) : ∃ m e,
      steps linearImage 2 (startupPrompt linearImage line) = some m ∧
        calledFun linearImage m = some .wLoad ∧ m.vm.data.dsPop.1 = v ∧
          m.frames = [.execute e, .eval, .prompt, .repl] := by
  obtain ⟨words, P, hprompt, -, hfound, -⟩ := startup_spec linearImage
  obtain ⟨_, _, _, hsame⟩ := startup_same linearImage
  obtain ⟨e, he⟩ := hfound (text "LOAD") ⟨"LOAD", .wLoad, 0#8⟩ rfl
  have hds : (startup linearImage).ds = [] := by rw [hsame]; rfl
  have hbase : (startup linearImage).forthBase = 10 := by rw [hsame]; rfl
  obtain ⟨m, hm⟩ : ∃ m : Machine, startupPrompt linearImage line =
      m.conf ((startup linearImage).at line) [] 0#64 [.eval, .prompt, .repl] :=
    ⟨startupPrompt linearImage line, rfl⟩
  rw [hm]
  generalize startup linearImage = s at *
  -- the number goes to the stack
  have hpush : step linearImage (m.conf (s.at line) [] 0#64 [.eval, .prompt, .repl]) =
      some (m.conf { s.at (text " LOAD") with ds := [v] } [] 0#64 [.eval, .prompt, .repl]) := by
    have hnum : tryParseNumber s.forthBase num = some v := by
      rw [hbase]
      exact hnum
    have hstep := @step_eval_push linearImage (s.at line) m [] 0#64 [.prompt, .repl] _ _ hlex
      hne hnone _ hnum hprompt.mode
    have hpushed : ((s.at line).at (text " LOAD")).dsPush v =
        { s.at (text " LOAD") with ds := [v] } := by
      show (if s.ds.length ≥ dataStackSize then _ else
        { s.at (text " LOAD") with ds := v :: s.ds }) = _
      rw [hds, if_neg (by decide)]
    rw [hstep, hpushed]
  -- the word is found
  have hlex' : nextWord 64 (text " LOAD") = (text "LOAD", []) := by decide
  have hcall : step linearImage (m.conf { s.at (text " LOAD") with ds := [v] } [] 0#64
      [.eval, .prompt, .repl]) = some (m.conf { s.at [] with ds := [v] } [] 0#64
        [.execute e, .eval, .prompt, .repl]) := by
    have hfind : dictFind { s.at (text " LOAD") with ds := [v] } (text "LOAD") = some e := he.find
    rw [step_eval_found hlex' (by decide) hfind (ne_zero_of_base_le he.low), if_neg]
    · rfl
    · rintro ⟨hmode, -⟩
      exact Mode.noConfusion (hprompt.mode.symm.trans hmode)
  refine ⟨m.conf { s.at [] with ds := [v] } [] 0#64 [.execute e, .eval, .prompt, .repl], e,
    ?_, ?_, rfl, rfl⟩
  · simp only [steps, hpush, hcall, Option.bind_some]
  · show linearImage.decode (cellAt s.mem (dictGetCodeField s.mem e)) = _
    rw [he.code, linearImage.decode_addr]

/-- `5 LOAD` at the first prompt: the text of its number fits. -/
theorem formats_fit_load : ∃ m, steps linearImage 2 (startupPrompt linearImage (text "5 LOAD")) =
    some m ∧ calledFun linearImage m = some .wLoad ∧ ∀ c, Formats linearImage m c → c.Fits := by
  obtain ⟨words, P, -, -, -, hmissing⟩ := startup_spec linearImage
  obtain ⟨m, e, hsteps, hcalled, hpop, hframes⟩ := @startup_load (text "5 LOAD") (text "5") 5#64
    (by decide) (by decide) (hmissing _ rfl) (by decide)
  refine ⟨m, hsteps, hcalled,
    (formats_fit_iff (Or.inl (startup_base linearImage (text "5 LOAD"))) hsteps).mpr ?_⟩
  constructor
  case load =>
    intro _
    rw [hpop]
    unfold ShortNumber
    decide
  case editor =>
    intro blk n cursor rest heq
    rw [hframes] at heq
    cases heq

/-- `1000000000 LOAD` at the first prompt. -/
def longLoad : Text := text "1000000000 LOAD"

/-- Its number takes eleven bytes. -/
theorem longLoad_overruns : ¬ ∀ n m, steps linearImage n (startupPrompt linearImage longLoad) = some m →
    ∀ c, Formats linearImage m c → c.Fits := by
  intro hall
  obtain ⟨words, P, -, -, -, hmissing⟩ := startup_spec linearImage
  obtain ⟨m, e, hsteps, hcalled, hpop, -⟩ := @startup_load longLoad (text "1000000000")
    1000000000#64 (by decide) (by decide) (hmissing _ rfl) (by decide)
  have hshort := (ten_fits_iff _).mp (hall 2 m hsteps _ (.wLoad hcalled))
  have hnumber : ¬ ShortNumber 1000000000#32 := by
    unfold ShortNumber
    decide
  rw [hpop] at hshort
  exact hnumber hshort

end Calls

end VectorForth.Forth
