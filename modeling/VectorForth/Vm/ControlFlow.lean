import VectorForth.Vm.Primitives
import VectorForth.Vm.Reentrancy
import VectorForth.Vm.Threaded

/-!
# Control constructs, from text to execution

A colon definition is compiled to the layout of its body, whatever constructs
it is made of. What the inner interpreter then does with these cells depends on
the constructs: the cells that stand for them are addresses of C functions,
which it rejects. A definition runs as written exactly when neither it nor a
word it calls contains a construct.
-/

namespace VectorForth.Forth

open ByteMemory LabelledRun

/-! ## Which bodies meet a construct -/

/-- The body contains a control construct, or calls a colon word that does. -/
inductive UsesControl (words : Words) : Body → Prop
  | construct {b : Body} : b.straight = false → UsesControl words b
  | callee {b b' : Body} {e : Cell} : e ∈ b.calls → words e = some (.colon b') →
      UsesControl words b' → UsesControl words b

/-- The call of a colon word that uses a construct. -/
def CallUsesControl (words : Words) (e : Cell) : Prop :=
  ∃ b, words e = some (.colon b) ∧ UsesControl words b

section Flags

variable {img : Image} {words : Words} {P : Set Nat} {cap : Nat} {c r : Bool} {code : Code}
  {s t : Local}

theorem UsesControl.lit {v : Cell} {rest : Body} (h : UsesControl words rest) :
    UsesControl words (.lit v rest) := by
  cases h with
  | construct hstraight => exact .construct hstraight
  | callee hmem hword huses => exact .callee hmem hword huses

theorem UsesControl.word {e : Cell} {rest : Body} (h : UsesControl words rest) :
    UsesControl words (.word e rest) := by
  cases h with
  | construct hstraight => exact .construct hstraight
  | callee hmem hword huses => exact .callee (List.mem_cons_of_mem _ hmem) hword huses

/-- What the flag of a structured execution says about the code. -/
def FlagMeans (words : Words) : Code → Prop
  | .body b => UsesControl words b
  | .loop _ => True
  | .call e => CallUsesControl words e

/-- An execution that met a construct is one of code with a construct. -/
theorem Exec.usesControl (h : Exec img words P cap c r code s t) (hc : c = true)
    (hr : r = false) : FlagMeans words code := by
  induction h with
  | nil | native | rsNative | yield | var | const => cases hc
  | lit _ ih => exact UsesControl.lit (ih hc hr)
  | word _ _ ihcall ihrest =>
      rw [Bool.or_eq_true] at hc
      rw [Bool.or_eq_false_iff] at hr
      rcases hc with hc | hc
      · obtain ⟨b, hword, huses⟩ := ihcall hc hr.1
        exact .callee (List.mem_cons_self ..) hword huses
      · exact UsesControl.word (ihrest hc hr.2)
  | ifYes | ifNo | elseYes | elseNo | untilDone | untilAgain | whileDone | whileAgain | doLoop =>
      exact .construct rfl
  | loopAgain | loopDone => trivial
  | colon he _ _ ih => exact ⟨_, he, ih hc hr⟩
  | execute he hds hk hcall _ =>
      rw [Bool.or_eq_false_iff] at hr
      rw [hcall.call_plain hr.2 rfl] at hc
      · cases hc
      · intro b hb
        rw [hk] at hb
        cases Option.some.inj hb
        cases hr.1

/-- A body with a construct meets it. -/
theorem Exec.meets_construct (h : Exec img words P cap c r code s t) {b : Body}
    (hcode : code = .body b) (hb : b.straight = false) : c = true := by
  induction h generalizing b with
  | nil => cases hcode; cases hb
  | lit _ ih => cases hcode; exact ih rfl hb
  | word _ _ _ ihrest =>
      cases hcode
      rw [ihrest rfl hb, Bool.or_true]
  | ifYes | ifNo | elseYes | elseNo | untilDone | untilAgain | whileDone | whileAgain | doLoop =>
      rfl
  | loopAgain | loopDone | native | rsNative | yield | var | const | colon | execute => cases hcode

/-- A straight-line body runs every word it refers to. -/
theorem Exec.runs_callee (h : Exec img words P cap c r code s t) {b : Body} {e : Cell}
    (hcode : code = .body b) (hb : b.straight = true) (he : e ∈ b.calls) :
    ∃ cap' c' r' s' t', Exec img words P cap' c' r' (.call e) s' t' ∧ (c' = true → c = true) := by
  induction h generalizing b with
  | nil => cases hcode; cases he
  | lit _ ih => cases hcode; exact ih rfl hb he
  | word hcall _ _ ihrest =>
      cases hcode
      rcases List.mem_cons.mp he with rfl | he
      · exact ⟨_, _, _, _, _, hcall, fun hc => by rw [hc, Bool.true_or]⟩
      · obtain ⟨cap', c', r', s', t', hexec, himp⟩ := ihrest rfl hb he
        exact ⟨cap', c', r', s', t', hexec, fun hc => by rw [himp hc, Bool.or_true]⟩
  | ifYes | ifNo | elseYes | elseNo | untilDone | untilAgain | whileDone | whileAgain | doLoop =>
      cases hcode
      cases hb
  | loopAgain | loopDone | native | rsNative | yield | var | const | colon | execute => cases hcode

/-- By induction on the derivation that the body uses a construct. -/
theorem UsesControl.flag {b : Body} (huses : UsesControl words b)
    (h : Exec img words P cap c r (.body b) s t) : c = true := by
  induction huses generalizing cap c r s t with
  | construct hstraight => exact h.meets_construct rfl hstraight
  | @callee b b' e he hword _ ih =>
      by_cases hstraight : b.straight = true
      · obtain ⟨cap', c', r', s', t', hcall, himp⟩ := h.runs_callee rfl hstraight he
        apply himp
        cases hcall with
        | colon he' _ hbody =>
            rw [hword] at he'
            cases Option.some.inj he'
            exact ih hbody
        | native he' | rsNative he' | yield he' | var he' | const he' | execute he' =>
            rw [hword] at he'
            cases Option.some.inj he'
      · exact h.meets_construct rfl (by simpa using hstraight)

/-- The flag is what can be read off the body. -/
theorem Exec.flag_iff {b : Body} (h : Exec img words P cap c false (.body b) s t) :
    c = true ↔ UsesControl words b :=
  ⟨fun hc => h.usesControl hc rfl, fun huses => huses.flag h⟩

end Flags

/-! ## Running a definition -/

/-- The word called on top of `K` returns with the data stack and the output of
the structured execution and with the return stack it was called with. -/
def RunsAsStructured (img : Image) (K : List Frame) (m : Machine) (d : Data) : Prop :=
  ∃ m', Returns img K m m' ∧ m'.vm.data.ds = d.ds ∧ m'.vm.data.output = d.output ∧
    m'.vm.rs = m.vm.rs

section Runs

variable {img : Image} {words : Words} {P : Set Nat} {cap : Nat} {c : Bool} {e : Cell} {b : Body}
  {m : Machine} {K : List Frame} {d : Data}

theorem not_runsAsStructured (hframes : m.frames = .execute e :: K)
    (hknown : Known img words P m.vm.data.mem) (he : words e = some (.colon b))
    (hroom : m.vm.rs.length + 1 + cap ≤ returnStackSize)
    (hexec : Exec img words P cap true false (.body b) ⟨m.vm.data, []⟩ ⟨d, []⟩) :
    ¬ RunsAsStructured img K m d := by
  rintro ⟨m', hreturns, -, -, hrs⟩
  obtain ⟨d', X, ip', haborts⟩ := execute_aborts hknown he hexec hroom m K m.vm.ip
  rw [← hframes, Machine.conf_self] at haborts
  rw [hreturns.unique haborts] at hrs
  -- the frame of the call is still there
  have hlen := congrArg List.length hrs
  simp only [Machine.conf_vm, List.length_append, List.length_cons] at hlen
  omega

theorem runsAsStructured_iff (hframes : m.frames = .execute e :: K) (hip : m.vm.ip = 0#64)
    (hknown : Known img words P m.vm.data.mem) (he : words e = some (.colon b))
    (hroom : m.vm.rs.length + 1 + cap ≤ returnStackSize)
    (hexec : Exec img words P cap c false (.body b) ⟨m.vm.data, []⟩ ⟨d, []⟩) :
    RunsAsStructured img K m d ↔ ¬ UsesControl words b := by
  rw [← hexec.flag_iff]
  cases c with
  | true =>
      refine ⟨fun h => absurd h ?_, fun h => absurd rfl h⟩
      exact not_runsAsStructured hframes hknown he hroom hexec
  | false =>
      refine ⟨fun _ => by simp, fun _ => ?_⟩
      exact ⟨_, execute_returns hframes hknown he hroom hexec hip, rfl, rfl, rfl⟩

end Runs

/-- **A colon definition runs as its structure says exactly when neither it nor a
word it calls contains a control construct.** The definition is read from text
at the prompt; it may then be run in any state that still has its cells. -/
theorem control_flow_compiled_and_run {img : Image} {words : Words} {P : Set Nat} {m : Machine}
    {F : List Frame} {b : Body} {q : Text} (hd : AtPrompt img words P m.vm.data)
    (hframes : m.frames = .eval :: F) (hdef : Defines words m.vm.data b q)
    (hroom : m.vm.data.dictHere.toNat + 64 + 8 * (b.size + 1) ≤ dictVirtBase + dictSize)
    (hstack : m.vm.data.ds.length + b.holes ≤ dataStackSize) :
    ∃ d P', Via (step img) (fun _ => True) m (m.setData d) ∧
      d.parsePtr = q ∧ d.ds = m.vm.data.ds ∧ d.output = m.vm.data.output ∧
      d.dictLatest = alignCell m.vm.data.dictHere ∧
      AtPrompt img (words.extend d.dictLatest (.colon b)) P' d ∧
      ∀ (m' : Machine) (K : List Frame) (cap : Nat) (c : Bool) (t : Data),
        m'.frames = .execute d.dictLatest :: K → m'.vm.ip = 0#64 →
        Set.EqOn m'.vm.data.mem d.mem P' → m'.vm.rs.length + 1 + cap ≤ returnStackSize →
        Exec img (words.extend d.dictLatest (.colon b)) P' cap c false (.body b)
          ⟨m'.vm.data, []⟩ ⟨t, []⟩ →
        (RunsAsStructured img K m' t ↔
          ¬ UsesControl (words.extend d.dictLatest (.colon b)) b) := by
  obtain ⟨d, hvia, hparse, hds, hout, hlatest, hprompt⟩ :=
    define_spec m m.vm.rs m.vm.ip F hd hdef hroom hstack
  rw [← hframes, Machine.conf_self] at hvia
  rw [← hlatest] at hprompt
  refine ⟨d, _, hvia, hparse, hds, hout, hlatest, hprompt, ?_⟩
  intro m' K cap c t hframes' hip hmem hrs hexec
  exact runsAsStructured_iff hframes' hip (hprompt.known.congr hmem) (if_pos rfl) hrs hexec

/-! ## Two small definitions -/

/-- Six entries, each a link, the flags and the name, and a code field: `:`,
`;`, `IF`, `THEN`, `DUP`, and `D` with the body `DUP`. -/
def entryColon : Cell := 0xFFFF800010000000#64
def entrySemicolon : Cell := 0xFFFF800010000018#64
def entryIf : Cell := 0xFFFF800010000030#64
def entryThen : Cell := 0xFFFF800010000048#64
def entryNamedDup : Cell := 0xFFFF800010000060#64
def entryD : Cell := 0xFFFF800010000078#64

def controlMem : Mem :=
  writeCells (fun _ => 0#8) entryColon.toNat
    [0#64, 0x3A01#64, linearImage.addr .wColon,
     entryColon, 0x3B81#64, linearImage.addr .wSemicolon,
     entrySemicolon, 0x464982#64, linearImage.addr .wIf,
     entryIf, 0x4E45485484#64, linearImage.addr .wThen,
     entryThen, 0x50554403#64, linearImage.addr .wDup,
     entryNamedDup, 0x4401#64, linearImage.addr .doColon, entryNamedDup, sentinelExit]

def controlData (line : String) : Data :=
  { blankData with
    mem := controlMem
    dictHere := 0xFFFF8000100000A0#64
    dictLatest := entryD
    parsePtr := text line }

def controlStart (line : String) : Machine where
  vm := { data := controlData line, rs := [], ip := 0#64 }
  frames := [.eval]
  kbd := []
  inputBuffer := []

def controlWords : Words := fun e =>
  if e = entryColon then some (.native .wColon)
  else if e = entrySemicolon then some (.native .wSemicolon)
  else if e = entryIf then some (.native .wIf)
  else if e = entryThen then some (.native .wThen)
  else if e = entryNamedDup then some (.native .wDup)
  else if e = entryD then some (.colon (.word entryNamedDup .nil))
  else none

/-- An entry below `hi` whose header and code field are below `hi`. -/
theorem entryAt_native {img : Image} {m : Mem} {e : Cell} {f : CFun} {hi : Nat} (hin : InDict e)
    (hheader : (e + 8#64).toNat < hi) (hfield : (dictGetCodeField m e).toNat + 8 ≤ hi)
    (hcode : cellAt m (dictGetCodeField m e) = img.addr f) :
    EntryAt img { x | x < hi } m e (.native f) :=
  ⟨hin, hheader, fun _ _ hx => lt_of_lt_of_le hx hfield, hcode, fun b hb => by cases hb⟩

theorem control_known :
    Known linearImage controlWords { x | x < 0xFFFF8000100000A0 } controlMem := by
  intro e k h
  unfold controlWords at h
  split_ifs at h <;> cases h <;> rename_i he <;> subst he
  · exact entryAt_native (by decide) (by decide) (by decide +kernel) (by decide +kernel)
  · exact entryAt_native (by decide) (by decide) (by decide +kernel) (by decide +kernel)
  · exact entryAt_native (by decide) (by decide) (by decide +kernel) (by decide +kernel)
  · exact entryAt_native (by decide) (by decide) (by decide +kernel) (by decide +kernel)
  · exact entryAt_native (by decide) (by decide) (by decide +kernel) (by decide +kernel)
  · have hparam : dictGetParamField controlMem entryD = 0xFFFF800010000090#64 := by decide +kernel
    have hcode : (dictGetCodeField controlMem entryD).toNat = 0xFFFF800010000088 := by decide +kernel
    refine ⟨by decide, show (entryD + 8#64).toNat < 0xFFFF8000100000A0 by decide, ?_,
      by decide +kernel, ?_⟩
    · rw [hcode]
      intro x _ hx
      exact lt_of_lt_of_le hx (by decide)
    · intro b hb
      cases hb
      rw [hparam]
      exact ⟨by decide, by decide, fun x _ hx => lt_of_lt_of_le hx (by decide), by decide +kernel,
        by decide +kernel, trivial⟩

theorem control_chain : Chain controlMem 0xFFFF8000100000A0 6 entryD := by
  have hlinks : cellAt controlMem entryD = entryNamedDup ∧
      cellAt controlMem entryNamedDup = entryThen ∧ cellAt controlMem entryThen = entryIf ∧
      cellAt controlMem entryIf = entrySemicolon ∧
      cellAt controlMem entrySemicolon = entryColon ∧
      cellAt controlMem entryColon = 0#64 := by decide +kernel
  obtain ⟨hd, hdup, hthen, hif, hsemi, hcolon⟩ := hlinks
  refine .cons (by decide) (by decide +kernel) ?_
  rw [hd]
  refine .cons (by decide) (by decide +kernel) ?_
  rw [hdup]
  refine .cons (by decide) (by decide +kernel) ?_
  rw [hthen]
  refine .cons (by decide) (by decide +kernel) ?_
  rw [hif]
  refine .cons (by decide) (by decide +kernel) ?_
  rw [hsemi]
  refine .cons (by decide) (by decide +kernel) ?_
  rw [hcolon]
  exact .nil

theorem control_atPrompt (line : String) :
    AtPrompt linearImage controlWords { x | x < 0xFFFF8000100000A0 } (controlData line) :=
  ⟨rfl, control_known, fun _ hx => hx, ⟨6, control_chain⟩, show dictVirtBase ≤ 0xFFFF8000100000A0 by
    decide, show 0xFFFF8000100000A0 ≤ dictVirtBase + dictSize by decide⟩

theorem double_defines :
    Defines controlWords (controlData ": A 7 D ;") (.lit 7#64 (.word entryD .nil)) [] := by
  have hcolon : nextWord 64 (text ": A 7 D ;") = (text ":", text " A 7 D ;") := by decide +kernel
  have hname : nextWord 64 (text " A 7 D ;") = (text "A", text " 7 D ;") := by decide +kernel
  have h₁ : nextWord 64 (text " 7 D ;") = (text "7", text " D ;") := by decide +kernel
  have h₂ : nextWord 64 (text " D ;") = (text "D", text " ;") := by decide +kernel
  have h₃ : nextWord 64 (text " ;") = (text ";", []) := by decide +kernel
  have hseven : Resolves controlWords (controlData ": A 7 D ;") (text "7") (.lit 7#64) :=
    .lit (by decide +kernel) (by decide +kernel)
  have hd : Resolves controlWords (controlData ": A 7 D ;") (text "D") (.word entryD) :=
    .word (by decide +kernel) (by decide) (by decide +kernel)
  have hsemi : Resolves controlWords (controlData ": A 7 D ;") (text ";") (.control .wSemicolon) :=
    .control (e := entrySemicolon) (by decide +kernel) (by decide) (by decide +kernel) rfl
  exact .intro hcolon (by decide +kernel) (e := entryColon) (by decide +kernel) (by decide) rfl hname
    (by decide +kernel) (.cons h₁ (by decide +kernel) (.cons h₂ (by decide +kernel)
      (.cons h₃ (by decide +kernel) .nil)))
    (.cons hseven (.cons hd .nil)) hsemi

/-- `A` calls `D`, which calls `DUP`: it leaves 7 twice, with the return stack as it
was. -/
theorem control_flow_compiled_and_run_double :
    ∃ d t, Via (step linearImage) (fun _ => True) (controlStart ": A 7 D ;")
        ((controlStart ": A 7 D ;").setData d) ∧ t.ds = [7#64, 7#64] ∧
      RunsAsStructured linearImage [.eval]
        ((controlStart ": A 7 D ;").conf d [] 0#64 [.execute d.dictLatest, .eval]) t := by
  obtain ⟨d, P', hvia, -, hds, -, hlatest, -, hrun⟩ := control_flow_compiled_and_run
    (m := controlStart ": A 7 D ;") (control_atPrompt _) rfl double_defines (by decide) (by decide)
  have hds' : d.ds = [] := hds
  have hhere : d.dictLatest = 0xFFFF8000100000A0#64 := hlatest.trans (by decide)
  have hwords : ∀ e k, e ≠ 0xFFFF8000100000A0#64 → controlWords e = some k →
      controlWords.extend d.dictLatest (.colon (.lit 7#64 (.word entryD .nil))) e = some k := by
    intro e k hne hk
    rw [Words.extend, hhere, if_neg hne, hk]
  have hseven : (d.dsPush 7#64).ds = [7#64] := by
    rw [dsPush_eq (by rw [hds']; decide), hds']
    rfl
  have hdup : wDup.run (d.dsPush 7#64) = some ((), (d.dsPush 7#64).dsPush 7#64) := by
    generalize d.dsPush 7#64 = x at hseven
    show some ((), x.dsPush x.dsPeek) = _
    rw [Data.dsPeek, hseven]
    rfl
  have hiff := hrun ((controlStart ": A 7 D ;").conf d [] 0#64 [.execute d.dictLatest, .eval])
    [.eval] 1 false ((d.dsPush 7#64).dsPush 7#64) rfl rfl (Set.eqOn_refl _ _)
    (show 0 + 1 + 1 ≤ returnStackSize by decide)
    (.lit (.word (.colon (hwords entryD _ (by decide) rfl) (show 0 < 1 by decide)
      (.word (.native (hwords entryNamedDup _ (by decide) rfl) rfl hdup fun x _ => by simp) .nil)) .nil))
  refine ⟨d, (d.dsPush 7#64).dsPush 7#64, hvia, ?_, ?_⟩
  · rw [dsPush_eq (by rw [hseven]; decide), hseven]
    rfl
  · rw [hiff]
    intro huses
    rcases huses with hstraight | ⟨hmem, hword, hcallee⟩
    · cases hstraight
    · rw [List.mem_singleton.mp hmem, hwords entryD _ (by decide) rfl] at hword
      cases hword
      rcases hcallee with hstraight | ⟨hmem, hword, -⟩
      · cases hstraight
      · rw [List.mem_singleton.mp hmem, hwords entryNamedDup _ (by decide) rfl] at hword
        cases hword

def controlBody : Body := .lit 1#64 (.ifThen (.lit 2#64 .nil) .nil)

theorem control_lexes : Lexes (text " 1 IF 2 THEN ;")
    [text "1", text "IF", text "2", text "THEN", text ";"] [] := by
  have h₁ : nextWord 64 (text " 1 IF 2 THEN ;") = (text "1", text " IF 2 THEN ;") := by
    decide +kernel
  have h₂ : nextWord 64 (text " IF 2 THEN ;") = (text "IF", text " 2 THEN ;") := by decide +kernel
  have h₃ : nextWord 64 (text " 2 THEN ;") = (text "2", text " THEN ;") := by decide +kernel
  have h₄ : nextWord 64 (text " THEN ;") = (text "THEN", text " ;") := by decide +kernel
  have h₅ : nextWord 64 (text " ;") = (text ";", []) := by decide +kernel
  exact .cons h₁ (by decide +kernel) (.cons h₂ (by decide +kernel) (.cons h₃ (by decide +kernel)
    (.cons h₄ (by decide +kernel) (.cons h₅ (by decide +kernel) .nil))))

theorem control_defines :
    Defines controlWords (controlData ": A 1 IF 2 THEN ;") controlBody [] := by
  have hcolon : nextWord 64 (text ": A 1 IF 2 THEN ;") = (text ":", text " A 1 IF 2 THEN ;") := by
    decide +kernel
  have hname : nextWord 64 (text " A 1 IF 2 THEN ;") = (text "A", text " 1 IF 2 THEN ;") := by
    decide +kernel
  have hone : Resolves controlWords (controlData ": A 1 IF 2 THEN ;") (text "1") (.lit 1#64) :=
    .lit (by decide +kernel) (by decide +kernel)
  have htwo : Resolves controlWords (controlData ": A 1 IF 2 THEN ;") (text "2") (.lit 2#64) :=
    .lit (by decide +kernel) (by decide +kernel)
  have hif : Resolves controlWords (controlData ": A 1 IF 2 THEN ;") (text "IF")
      (.control .wIf) :=
    .control (e := entryIf) (by decide +kernel) (by decide) (by decide +kernel) rfl
  have hthen : Resolves controlWords (controlData ": A 1 IF 2 THEN ;") (text "THEN")
      (.control .wThen) :=
    .control (e := entryThen) (by decide +kernel) (by decide) (by decide +kernel) rfl
  have hsemi : Resolves controlWords (controlData ": A 1 IF 2 THEN ;") (text ";")
      (.control .wSemicolon) :=
    .control (e := entrySemicolon) (by decide +kernel) (by decide) (by decide +kernel) rfl
  exact .intro hcolon (by decide +kernel) (e := entryColon) (by decide +kernel) (by decide) rfl hname
    (by decide +kernel) control_lexes (.cons hone (.cons hif (.cons htwo (.cons hthen .nil)))) hsemi

/-- `: A 1 IF 2 THEN ;` compiles, and its structured execution leaves 2, but the
inner interpreter gives up at the cell of `IF`. -/
theorem if_then_gives_up :
    ∃ d t P', Via (step linearImage) (fun _ => True) (controlStart ": A 1 IF 2 THEN ;")
        ((controlStart ": A 1 IF 2 THEN ;").setData d) ∧
      Exec linearImage (controlWords.extend d.dictLatest (.colon controlBody)) P' 0 true false
        (.body controlBody) ⟨d, []⟩ ⟨t, []⟩ ∧ t.ds = [2#64] ∧
      ¬ RunsAsStructured linearImage [.eval]
        ((controlStart ": A 1 IF 2 THEN ;").conf d [] 0#64 [.execute d.dictLatest, .eval]) t := by
  obtain ⟨d, hvia, -, hds, -, hlatest, hprompt⟩ := define_spec
    (controlStart ": A 1 IF 2 THEN ;") [] 0#64 [] (control_atPrompt _) control_defines (by decide)
    (by decide)
  rw [← hlatest] at hprompt
  generalize { x | x < 0xFFFF8000100000A0 } ∪ Set.Ico d.dictLatest.toNat d.dictHere.toNat = P'
    at hprompt
  have hds' : d.ds = [] := hds
  have hpush : (d.dsPush 1#64).ds = [1#64] := by
    rw [dsPush_eq (by rw [hds']; decide), hds']
    rfl
  obtain ⟨t, ht, hexec⟩ : ∃ t : Data, t.ds = [2#64] ∧ ∀ words, Exec linearImage words P' 0 true
      false (.body controlBody) ⟨d, []⟩ ⟨t, []⟩ :=
    ⟨({ d.dsPush 1#64 with ds := [] } : Data).dsPush 2#64, rfl,
      fun words => .lit (.ifYes hpush (by decide) (.lit .nil) .nil)⟩
  refine ⟨d, t, P', hvia, hexec _, ht, ?_⟩
  exact not_runsAsStructured rfl hprompt.known (if_pos rfl)
    (show 0 + 1 + 0 ≤ returnStackSize by decide) (hexec _)

end VectorForth.Forth
