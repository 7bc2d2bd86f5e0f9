import VectorForth.Vm.Compile
import VectorForth.Vm.Stepping

/-!
# The outer interpreter in compile state

Tokens are looked up while the dictionary grows. What is compiled lies above the
entries that lookup walks through, and the entry being defined is hidden, so a
token means what it meant at the prompt. The run lemma `eval_tokens` carries
`compileToken` over to the machine.
-/

namespace VectorForth.Forth

open ByteMemory LabelledRun

/-! ## Lookup does not see what lies above the dictionary -/

/-- A chain of `n` entries from `e`, each header below the one before it and
the first below `hi`. -/
inductive Chain (m : Mem) : Nat → Nat → Cell → Prop
  | nil {hi : Nat} : Chain m hi 0 0#64
  | cons {hi n : Nat} {e : Cell} : dictVirtBase ≤ e.toNat →
      e.toNat + 9 + (dictGetNameLen m e).toNat ≤ hi → Chain m e.toNat n (cellAt m e) →
      Chain m hi (n + 1) e

section Lookup

variable {m m' : Mem} {hi n : Nat} {e : Cell}

theorem ne_zero_of_base_le (h : dictVirtBase ≤ e.toNat) : e ≠ 0#64 := by
  rintro rfl
  exact absurd h (by decide)

/-- A chain has fewer entries than the dictionary has cells. -/
theorem Chain.length_lt (h : Chain m hi n e) (hhi : hi ≤ dictVirtBase + dictSize) :
    n + 1 < chainFuel := by
  have hlen : n = 0 ∨ dictVirtBase + 9 * n ≤ hi := by
    clear hhi
    induction h with
    | nil => exact Or.inl rfl
    | cons hbase htop _ ih =>
        rcases ih with rfl | ih
        · exact Or.inr (by omega)
        · exact Or.inr (by omega)
  unfold chainFuel
  simp only [dictSize] at *
  omega

theorem header_congr (hm : ∀ x, x < hi → m' x = m x)
    (htop : e.toNat + 9 + (dictGetNameLen m e).toNat ≤ hi) :
    cellAt m' e = cellAt m e ∧ dictGetFlagsLen m' e = dictGetFlagsLen m e ∧
      dictGetName m' e = dictGetName m e := by
  have hflags : dictGetFlagsLen m' e = dictGetFlagsLen m e := by
    apply hm
    rw [BitVec.toNat_add, BitVec.toNat_ofNat]
    omega
  have hlen : dictGetNameLen m' e = dictGetNameLen m e := by
    rw [dictGetNameLen, dictGetNameLen, hflags]
  refine ⟨?_, hflags, ?_⟩
  · rw [cellAt, cellAt, read64_congr]
    intro x _ hx
    exact hm x (by omega)
  · rw [dictGetName, dictGetName, hlen]
    apply List.map_congr_left
    intro i hi'
    rw [List.mem_range] at hi'
    apply hm
    rw [BitVec.toNat_add, BitVec.toNat_ofNat]
    omega

theorem Chain.mono {hi' : Nat} (h : Chain m hi n e) (hle : hi ≤ hi') : Chain m hi' n e := by
  cases h with
  | nil => exact .nil
  | cons hbase htop hrest => exact .cons hbase (by omega) hrest

/-- The chain is the same in a memory that agrees below its end. -/
theorem Chain.congr (h : Chain m hi n e) (hm : ∀ x, x < hi → m' x = m x) : Chain m' hi n e := by
  induction h with
  | nil => exact .nil
  | cons hbase htop _ ih =>
      obtain ⟨hlink, hflags, -⟩ := header_congr hm htop
      refine .cons hbase ?_ ?_
      · rw [dictGetNameLen, hflags]
        exact htop
      · rw [hlink]
        exact ih fun x hx => hm x (by omega)

/-- The walk from `e` finds the same entry in two memories that agree below the
end of the chain. -/
theorem Chain.find_congr (h : Chain m hi n e) (hm : ∀ x, x < hi → m' x = m x)
    (name : Text) {fuel fuel' : Nat} (hfuel : n < fuel) (hfuel' : n < fuel') :
    dictFindFrom m' name fuel' e = dictFindFrom m name fuel e := by
  induction h generalizing fuel fuel' with
  | nil =>
      obtain ⟨k, rfl⟩ := Nat.exists_eq_add_of_lt hfuel
      obtain ⟨k', rfl⟩ := Nat.exists_eq_add_of_lt hfuel'
      rfl
  | @cons hi n e hbase htop _ ih =>
      obtain ⟨k, rfl⟩ := Nat.exists_eq_succ_of_ne_zero (Nat.ne_of_gt (Nat.zero_lt_of_lt hfuel))
      obtain ⟨k', rfl⟩ := Nat.exists_eq_succ_of_ne_zero (Nat.ne_of_gt (Nat.zero_lt_of_lt hfuel'))
      obtain ⟨hlink, hflags, hname⟩ := header_congr hm htop
      have hne := ne_zero_of_base_le hbase
      have hwalk : dictFindFrom m' name k' (cellAt m e) = dictFindFrom m name k (cellAt m e) :=
        ih (fun x hx => hm x (by omega)) (by omega) (by omega)
      rw [dictFindFrom, dictFindFrom, if_neg hne, if_neg hne, hflags, nameMatches, nameMatches,
        hname, hlink, hwalk]

/-- What is found lies in the dictionary. -/
theorem Chain.base_le_found (h : Chain m hi n e) {name : Text} {fuel : Nat} {found : Cell}
    (hfind : dictFindFrom m name fuel e = some found) (hfound : found ≠ 0#64) :
    dictVirtBase ≤ found.toNat := by
  induction h generalizing fuel with
  | nil =>
      cases fuel with
      | zero => cases hfind
      | succ k =>
          cases hfind
          exact absurd rfl hfound
  | cons hbase _ _ ih =>
      cases fuel with
      | zero => cases hfind
      | succ k =>
          rw [dictFindFrom, if_neg (ne_zero_of_base_le hbase)] at hfind
          split at hfind
          · cases hfind
            exact hbase
          · exact ih hfind

/-- What is found lies below the end of the chain. -/
theorem Chain.found_le (h : Chain m hi n e) {name : Text} {fuel : Nat} {found : Cell}
    (hfind : dictFindFrom m name fuel e = some found) (hfound : found ≠ 0#64) :
    found.toNat + 9 ≤ hi := by
  induction h generalizing fuel with
  | nil =>
      cases fuel with
      | zero => cases hfind
      | succ k =>
          cases hfind
          exact absurd rfl hfound
  | cons hbase htop _ ih =>
      cases fuel with
      | zero => cases hfind
      | succ k =>
          rw [dictFindFrom, if_neg (ne_zero_of_base_le hbase)] at hfind
          split at hfind
          · cases hfind
            omega
          · have := ih hfind
            omega

end Lookup

/-! ## Reading text -/

/-- The text with which the parser goes on. -/
def Data.at (d : Data) (p : Text) : Data := { d with parsePtr := p }

/-- The text `p` splits into the tokens `ws`, and `q` is left. -/
inductive Lexes : Text → List Text → Text → Prop
  | nil {p : Text} : Lexes p [] p
  | cons {p p' q : Text} {w : Text} {ws : List Text} : nextWord 64 p = (w, p') → w ≠ [] →
      Lexes p' ws q → Lexes p (w :: ws) q

theorem length_nextWord {p p' w : Text} (hlex : nextWord 64 p = (w, p')) : w.length ≤ 63 := by
  have hfst := congrArg Prod.fst hlex
  subst hfst
  exact List.length_take_le _ _

/-- The words that compile control constructs. -/
def CFun.compiles : CFun → Bool
  | .wIf | .wElse | .wThen | .wBegin | .wUntil | .wAgain | .wWhile | .wRepeat | .wDo | .wLoop => true
  | _ => false

section Reading

variable {img : Image} {words : Words} {d : Data} {p : Text}

@[simp] theorem at_ds : (d.at p).ds = d.ds := rfl

@[simp] theorem at_dictHere : (d.at p).dictHere = d.dictHere := rfl

theorem dictComma_at (v : Cell) : (d.at p).dictComma v = (d.dictComma v).at p := rfl

theorem setCell_at (a v : Cell) : (d.at p).setCell a v = (d.setCell a v).at p := rfl

theorem dsPush_at (v : Cell) : (d.at p).dsPush v = (d.dsPush v).at p := by
  rw [Data.dsPush, Data.dsPush, at_ds]
  split <;> rfl

theorem dsPop_at : (d.at p).dsPop = (d.dsPop.1, d.dsPop.2.at p) := by
  rw [Data.dsPop, Data.dsPop, at_ds]
  split <;> rfl

theorem compiles_at_of {f : CFun} {w : NativeM Unit} {g : Data → Data}
    (hf : dataWord img f = some w) (hrun : ∀ d, w.run d = some ((), g d))
    (hat : g (d.at p) = (g d).at p) {d' : Data}
    (hd : compileToken img d (.control f) = some d') :
    compileToken img (d.at p) (.control f) = some (d'.at p) := by
  rw [compileToken_control hf (hrun d)] at hd
  cases hd
  rw [compileToken_control hf (hrun (d.at p)), hat]

/-- The compiling words do not look at the text. -/
theorem compiles_at {f : CFun} (hf : f.compiles = true) {d' : Data}
    (hd : compileToken img d (.control f) = some d') :
    compileToken img (d.at p) (.control f) = some (d'.at p) := by
  cases f <;> cases hf
  case wIf =>
    apply compiles_at_of rfl (wIf_run img) _ hd
    simp only [dictComma_at, dsPush_at, at_dictHere]
  case wElse =>
    apply compiles_at_of rfl (wElse_run img) _ hd
    simp only [dictComma_at, dsPop_at, setCell_at, dsPush_at, at_dictHere]
  case wThen =>
    apply compiles_at_of rfl wThen_run _ hd
    simp only [dsPop_at, setCell_at, at_dictHere]
  case wBegin =>
    apply compiles_at_of rfl wBegin_run _ hd
    simp only [dsPush_at, at_dictHere]
  case wUntil =>
    apply compiles_at_of rfl (wUntil_run img) _ hd
    simp only [dsPop_at, dictComma_at]
  case wAgain =>
    apply compiles_at_of rfl (wAgain_run img) _ hd
    simp only [dsPop_at, dictComma_at]
  case wWhile =>
    apply compiles_at_of rfl (fun d => (wWhile_run img d).trans (wIf_run img d)) _ hd
    simp only [dictComma_at, dsPush_at, at_dictHere]
  case wRepeat =>
    apply compiles_at_of rfl (wRepeat_run img) _ hd
    simp only [dsPop_at, dictComma_at, setCell_at, at_dictHere]
  case wDo =>
    apply compiles_at_of rfl (wDo_run img) _ hd
    simp only [dictComma_at, dsPush_at, at_dictHere]
  case wLoop =>
    apply compiles_at_of rfl (wLoop_run img) _ hd
    simp only [dsPop_at, dictComma_at]

theorem compileToken_at {t : Token} (ht : ∀ f, t = .control f → f.compiles = true) {d' : Data}
    (hrun : compileToken img d t = some d') : compileToken img (d.at p) t = some (d'.at p) := by
  cases t with
  | lit v =>
      cases hrun
      rfl
  | word e =>
      cases hrun
      rfl
  | control f => exact compiles_at (ht f rfl) hrun

theorem Body.tokens_compile (b : Body) {f : CFun} (h : .control f ∈ b.tokens) :
    f.compiles = true := by
  induction b with
  | nil => simp [Body.tokens] at h
  | lit v rest ih | word e rest ih => grind [Body.tokens]
  | ifThen | ifElse | untilLoop | againLoop | whileLoop | doLoop =>
      grind [Body.tokens, CFun.compiles]

/-! ## One token -/

variable {m : Machine} {rs : List Cell} {ip e : Cell} {F : List Frame} {w : Text}

theorem step_eval_found (hlex : nextWord 64 d.parsePtr = (w, p)) (hw : w ≠ [])
    (hfind : dictFind d w = some e) (he : e ≠ 0#64) :
    step img (m.conf d rs ip (.eval :: F)) =
      if d.forthState = .compile ∧ dictGetFlags d.mem e &&& fImmediate = 0#8 then
        some (m.conf ((d.at p).dictComma e) rs ip (.eval :: F))
      else some (m.conf (d.at p) rs ip (.execute e :: .eval :: F)) := by
  have hfind' : dictFind { d with parsePtr := p } w = some e := hfind
  simp only [step, forthEval, Machine.conf, hlex, hw, hfind', if_false]
  rw [if_pos he]
  rfl

theorem step_eval_number (hlex : nextWord 64 d.parsePtr = (w, p)) (hw : w ≠ [])
    (hfind : dictFind d w = some 0#64) {v : Cell} (hnum : tryParseNumber d.forthBase w = some v)
    (hmode : d.forthState = .compile) :
    step img (m.conf d rs ip (.eval :: F)) =
      some (m.conf (((d.at p).dictComma (img.addr .doLiteral)).dictComma v) rs ip
        (.eval :: F)) := by
  have hfind' : dictFind { d with parsePtr := p } w = some 0#64 := hfind
  simp only [step, forthEval, Machine.conf, hlex, hw, hfind', hnum, if_false, ne_eq,
    not_true_eq_false]
  rw [if_pos hmode]
  rfl

/-- An immediate word, or any word in interpret state, is executed: one step
reads the token, the next calls the word. -/
theorem step_eval_calls (hlex : nextWord 64 d.parsePtr = (w, p)) (hw : w ≠ [])
    (hfind : dictFind d w = some e) (he : e ≠ 0#64)
    (hrun : d.forthState = .interpret ∨ dictGetFlags d.mem e &&& fImmediate ≠ 0#8)
    {f : CFun} {g : NativeM Unit} {d' : Data}
    (hcode : cellAt d.mem (dictGetCodeField d.mem e) = img.addr f) (hf : dataWord img f = some g)
    (hg : g.run (d.at p) = some ((), d')) :
    step img (m.conf d rs ip (.eval :: F)) =
        some (m.conf (d.at p) rs ip (.execute e :: .eval :: F)) ∧
      step img (m.conf (d.at p) rs ip (.execute e :: .eval :: F)) =
        some (m.conf d' rs ip (.eval :: F)) := by
  have hne : f ≠ .doColon := by rintro rfl; cases hf
  constructor
  · rw [step_eval_found hlex hw hfind he, if_neg]
    rintro ⟨hmode, hflag⟩
    rcases hrun with hrun | hrun
    · rw [hmode] at hrun
      cases hrun
    · exact hrun hflag
  · rw [step_execute_other (d := d.at p) hcode (fun h => hne (img.addr_inj h)),
      callCode_native hf hg]

theorem step_eval_execute (hlex : nextWord 64 d.parsePtr = (w, p)) (hw : w ≠ [])
    (hfind : dictFind d w = some e) (he : e ≠ 0#64)
    (hrun : d.forthState = .interpret ∨ dictGetFlags d.mem e &&& fImmediate ≠ 0#8)
    {f : CFun} {g : NativeM Unit} {d' : Data}
    (hcode : cellAt d.mem (dictGetCodeField d.mem e) = img.addr f) (hf : dataWord img f = some g)
    (hg : g.run (d.at p) = some ((), d')) :
    Via (step img) (fun _ => True) (m.conf d rs ip (.eval :: F)) (m.conf d' rs ip (.eval :: F)) := by
  obtain ⟨hfound, hcall⟩ := step_eval_calls hlex hw hfind he hrun hcode hf hg
  exact .head trivial hfound (Via.single trivial hcall)

/-- What a token of the text stands for, with the dictionary of `d`. -/
inductive Resolves (words : Words) (d : Data) : Text → Token → Prop
  | lit {w : Text} {v : Cell} (hfind : dictFind d w = some 0#64)
      (hnum : tryParseNumber d.forthBase w = some v) : Resolves words d w (.lit v)
  | word {w : Text} {e : Cell} (hfind : dictFind d w = some e) (he : e ≠ 0#64)
      (hflag : dictGetFlags d.mem e &&& fImmediate = 0#8) : Resolves words d w (.word e)
  | control {w : Text} {e : Cell} {f : CFun} (hfind : dictFind d w = some e) (he : e ≠ 0#64)
      (hflag : dictGetFlags d.mem e &&& fImmediate ≠ 0#8) (hword : words e = some (.native f)) :
      Resolves words d w (.control f)

end Reading

/-! ## The tokens of a body -/

section Tokens

variable {img : Image} {words : Words} {P : Set Nat} {m : Machine} {rs : List Cell} {ip : Cell}
  {F : List Frame}

/-- The dictionary at the prompt: the words known so far lie below `HERE`, and
lookup walks a chain below `HERE`. -/
structure AtPrompt (img : Image) (words : Words) (P : Set Nat) (d : Data) : Prop where
  mode : d.forthState = .interpret
  known : Known img words P d.mem
  protect : ∀ x ∈ P, x < d.dictHere.toNat
  chain : ∃ n, Chain d.mem d.dictHere.toNat n d.dictLatest
  low : dictVirtBase ≤ d.dictHere.toNat
  high : d.dictHere.toNat ≤ dictVirtBase + dictSize

/-- In the middle of a definition whose hidden entry is `e`, begun in `d`. -/
structure Compiling (d : Data) (e : Cell) (x : Data) : Prop where
  mode : x.forthState = .compile
  base : x.forthBase = d.forthBase
  latest : x.dictLatest = e
  link : cellAt x.mem e = d.dictLatest
  hidden : dictGetFlagsLen x.mem e &&& fHidden ≠ 0#8
  mem : ∀ y, y < d.dictHere.toNat → x.mem y = d.mem y

/-- Cells compiled above the header leave all that as it is. -/
theorem Compiling.keep {d x y : Data} {a e : Cell} (h : Compiling d e x) (hy : KeptBelow x a y)
    (he : e.toNat + 9 ≤ a.toNat) (hhere : d.dictHere.toNat ≤ a.toNat) : Compiling d e y := by
  obtain ⟨m', here, ds, rfl⟩ := hy.same
  refine ⟨h.mode, h.base, h.latest, ?_, ?_, fun z hz => ?_⟩
  · rw [← h.link, cellAt, cellAt, read64_congr]
    intro z _ hz
    exact hy.mem z (by omega)
  · have hflags : dictGetFlagsLen m' e = dictGetFlagsLen x.mem e := by
      apply hy.mem
      rw [BitVec.toNat_add, BitVec.toNat_ofNat]
      omega
    rw [hflags]
    exact h.hidden
  · rw [hy.mem z (by omega)]
    exact h.mem z hz

/-- Tokens are found as at the prompt: the new entry is hidden. -/
theorem Compiling.find {d x : Data} {e : Cell} (h : Compiling d e x)
    (hd : AtPrompt img words P d) (he : e ≠ 0#64) (w : Text) : dictFind x w = dictFind d w := by
  obtain ⟨n, hchain⟩ := hd.chain
  have hn := hchain.length_lt hd.high
  have hfuel : chainFuel = (chainFuel - 1) + 1 := by omega
  rw [dictFind, dictFind, h.latest, hfuel, dictFindFrom, if_neg he, if_neg (fun hc => h.hidden hc.1),
    h.link]
  exact hchain.find_congr h.mem w (by omega) (by omega)

theorem AtPrompt.found_le {d : Data} (hd : AtPrompt img words P d) {w : Text} {e : Cell}
    (hfind : dictFind d w = some e) (he : e ≠ 0#64) : e.toNat + 9 ≤ d.dictHere.toNat := by
  obtain ⟨n, hchain⟩ := hd.chain
  exact hchain.found_le hfind he

/-- **One token of a body**: the outer interpreter does what the token stands for. -/
theorem eval_token {d x x' : Data} {e : Cell} {w p : Text} {t : Token}
    (hd : AtPrompt img words P d) (h : Compiling d e x) (he : e ≠ 0#64)
    (hlex : nextWord 64 x.parsePtr = (w, p)) (hw : w ≠ []) (hres : Resolves words d w t)
    (hrun : compileToken img (x.at p) t = some x') :
    Via (step img) (fun _ => True) (m.conf x rs ip (.eval :: F)) (m.conf x' rs ip (.eval :: F)) := by
  have hfind := h.find hd he w
  have hflags : ∀ e', e'.toNat + 9 ≤ d.dictHere.toNat →
      dictGetFlags x.mem e' = dictGetFlags d.mem e' := by
    intro e' hle
    rw [dictGetFlags, dictGetFlags, dictGetFlagsLen, dictGetFlagsLen, h.mem]
    rw [BitVec.toNat_add, BitVec.toNat_ofNat]
    omega
  cases hres with
  | lit hfind' hnum =>
      cases hrun
      rw [← h.base] at hnum
      exact Via.single trivial (step_eval_number hlex hw (hfind.trans hfind') hnum h.mode)
  | word hfind' he' hflag =>
      cases hrun
      refine Via.single trivial ?_
      rw [step_eval_found hlex hw (hfind.trans hfind') he', if_pos]
      refine ⟨h.mode, ?_⟩
      rw [hflags _ (hd.found_le hfind' he')]
      exact hflag
  | @control e' f hfind' he' hflag hword =>
      have hknown : Known img words P x.mem :=
        hd.known.congr fun y hy => h.mem y (hd.protect y hy)
      rw [compileToken, Option.bind_eq_some_iff] at hrun
      obtain ⟨g, hg, hrun⟩ := hrun
      rw [Option.map_eq_some_iff] at hrun
      obtain ⟨⟨⟨⟩, y⟩, hy, rfl⟩ := hrun
      refine step_eval_execute hlex hw (hfind.trans hfind') he' (Or.inr ?_)
        (hknown e' _ hword).code hg hy
      rw [hflags _ (hd.found_le hfind' he')]
      exact hflag

/-- The run lemma for `eval_token`: induction on the tokens. `x` is the state
with the text still to be read in place of `p`. -/
theorem eval_tokens {d d₁ x x' : Data} {a e : Cell} {ws : List Text} {ts : List Token}
    {p q : Text} (hd : AtPrompt img words P d) (hstart : Compiling d e d₁) (he : e ≠ 0#64)
    (ha : e.toNat + 9 ≤ a.toNat) (hhere : d.dictHere.toNat ≤ a.toNat)
    (hfeeds : Feeds img (KeptBelow d₁ a) ts x x') (hlex : Lexes p ws q)
    (hres : List.Forall₂ (Resolves words d) ws ts)
    (hts : ∀ f, .control f ∈ ts → f.compiles = true) :
    Via (step img) (fun _ => True) (m.conf (x.at p) rs ip (.eval :: F))
      (m.conf (x'.at q) rs ip (.eval :: F)) := by
  induction hfeeds generalizing ws p with
  | nil =>
      cases hres
      cases hlex
      exact Via.refl _
  | @cons t ts x y x' hkept hrun _ ih =>
      cases hres with
      | cons hhead htail =>
      cases hlex with
      | @cons _ p' _ w ws hnext hw hlex =>
      have ht : ∀ f, t = .control f → f.compiles = true := by
        rintro f rfl
        exact hts f (List.mem_cons_self ..)
      have hcomp := hstart.keep hkept ha hhere
      have hcomp' : Compiling d e (x.at p) :=
        ⟨hcomp.mode, hcomp.base, hcomp.latest, hcomp.link, hcomp.hidden, hcomp.mem⟩
      have hrun' : compileToken img ((x.at p).at p') t = some (y.at p') :=
        compileToken_at (d := x) ht hrun
      exact (eval_token hd hcomp' he hnext hw hhead hrun').trans
        (ih hlex htail fun f hf => hts f (List.mem_cons_of_mem _ hf))

end Tokens

end VectorForth.Forth
