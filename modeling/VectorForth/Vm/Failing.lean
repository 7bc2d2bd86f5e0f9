import VectorForth.Vm.Bounds
import VectorForth.Vm.Growth

/-!
# Definitions that fail

A defining word that finds no name, and an unknown word in the middle of a colon
definition. `forth_eval` goes back to interpret state and keeps the header, the
cells and what the control words have left on the data stack; `VARIABLE` compiles
its cell although there is no entry for it.
-/

namespace VectorForth.Forth

open ByteMemory LabelledRun

/-! ## `HERE` only grows -/

section Grows

variable {img : Image} {lo : Nat} {d d' : Data} {a : Act} {as : List Act} {m m' : Machine}

/-- `HERE` is where it was. -/
def SameHere (d d' : Data) : Prop := d'.dictHere = d.dictHere

instance : Framing SameHere where
  trans h h' := h'.trans h
  quiet h := h.sameDict.1

/-- The words that store at will leave `HERE` alone. -/
theorem stores_here {f : CFun} {w : NativeM Unit} (hf : dataWord img f = some w)
    (hstores : f.stores = true) : Keeps SameHere w := by
  have hstore : ∀ a v, Keeps SameHere (storeCell a v) := fun _ _ => keeps_modify fun _ => rfl
  cases f <;> cases hstores <;> cases hf
  case wStore => exact keeps_bind keeps_dsPop fun a => keeps_bind keeps_dsPop fun v => hstore a v
  case wCstore =>
    exact keeps_bind keeps_dsPop fun a => keeps_bind keeps_dsPop fun v => keeps_modify fun _ => rfl
  case wPlusStore =>
    exact keeps_bind keeps_dsPop fun a => keeps_bind keeps_dsPop fun v =>
      keeps_bind (keeps_fetchCell a) fun x => hstore a (x + v)

theorem word_here_le {f : CFun} {w : NativeM Unit} (hf : dataWord img f = some w)
    (hallot : f ≠ .wAllot) (hrun : w.run d = some ((), d')) (htop : d.dictHere.toNat + 128 < 2 ^ 64) :
    d.dictHere.toNat ≤ d'.dictHere.toNat := by
  cases hstores : f.stores with
  | true =>
      have hsame : d'.dictHere = d.dictHere := stores_here hf hstores d () d' hrun
      rw [hsame]
  | false =>
      have hbuf : f.blocks = true → BuffersBelow img _ := fun _ => Nat.le_refl _
      rcases word_acts hbuf hf hstores (by omega) hrun with
        ⟨hacts, hlen, hbuilds⟩ | ⟨rfl, -, -⟩ | ⟨-, hacts, hlen, hemits, hpatch⟩
      · exact (here_le_of_acts hacts (fun a ha => Act.builds_ne (hbuilds a ha)) (by omega)).1
      · exact absurd rfl hallot
      · have hne : ∀ a ∈ ‹List Act›, a ≠ .allot := by
          intro a ha
          rw [hemits a ha]
          exact Act.noConfusion
        have hfirst := here_le_of_acts hacts hne (by omega)
        rw [hpatch.1]
        exact hfirst.1

theorem Effect.here_le {fn : Option CFun} {top : Frame} (h : Effect img fn top d d')
    (htop : d.dictHere.toNat + 128 < 2 ^ 64) : d.dictHere.toNat ≤ d'.dictHere.toNat := by
  cases h with
  | quiet hq => rw [hq.sameDict.1]
  | unknown hq => exact Nat.le_of_eq (congrArg BitVec.toNat hq.sameDict.1.symm)
  | block _ _ hq hq' =>
      rw [hq'.sameDict.1]
      exact Nat.le_of_eq (congrArg BitVec.toNat hq.sameDict.1.symm)
  | @compile d₁ v _ _ hq =>
      have hfirst : Does 0 d .emit (d₁.dictComma v) := (does_comma v).after hq.sameDict
      exact (hfirst.here_le Act.noConfusion (by omega)).1
  | @literal d₁ v _ _ hq =>
      have hfirst : Does 0 d .emit (d₁.dictComma (img.addr .doLiteral)) :=
        (does_comma _).after hq.sameDict
      have hsecond : Does 0 _ .emit ((d₁.dictComma (img.addr .doLiteral)).dictComma v) :=
        does_comma v
      exact (here_le_of_acts (.cons hfirst (.cons hsecond (.nil _))) (by simp) (by simp; omega)).1
  | stroke _ => exact Nat.le_refl _
  | save _ hq => rw [hq.sameDict.1]
  | exit => exact Nat.le_refl _

/-- **A step that does not call `ALLOT` leaves `HERE` where it was or moves it up.** -/
theorem step_here_le (h : step img m = some m') (hallot : calledFun img m ≠ some .wAllot)
    (htop : m.vm.data.dictHere.toNat + 128 < 2 ^ 64) :
    m.vm.data.dictHere.toNat ≤ m'.vm.data.dictHere.toNat := by
  obtain ⟨top, -, m₁, F, hword, heffect, -, -, hm⟩ := step_cases h
  have hlast : m'.vm.data.dictHere = m₁.vm.data.dictHere := by
    rcases hm with rfl | rfl
    · rfl
    · exact (sameDict_yield m₁).1
  rw [hlast]
  cases hcalled : calledWord img m with
  | none => exact (heffect hcalled).here_le htop
  | some w =>
      obtain ⟨f, hf, hw⟩ := Option.bind_eq_some_iff.mp hcalled
      have hne : f ≠ .wAllot := by
        rintro rfl
        exact hallot hf
      exact word_here_le hw hne (hword w hcalled) htop

end Grows

/-! ## Failing definitions -/

/-- The words that define. -/
def CFun.defines : CFun → Bool
  | .wColon | .wCreate | .wVariable | .wConstant => true
  | _ => false

/-- A step in the middle of a colon definition, whatever it compiles or executes
there. `HERE` is inside the dictionary, and `ALLOT` does not move it. -/
structure DefinitionStep (img : Image) (m m' : Machine) : Prop where
  step : step img m = some m'
  mode : m.vm.data.forthState = .compile
  allot : calledFun img m ≠ some .wAllot
  room : m.vm.data.dictHere.toNat ≤ dictVirtBase + dictSize

/-- `forth_eval` compiles, and the next token names no word and is no number. -/
structure MeetsUnknown (m : Machine) : Prop where
  frames : m.frames.head? = some .eval
  mode : m.vm.data.forthState = .compile
  token : (nextWord 64 m.vm.data.parsePtr).1 ≠ []
  missing : dictFind m.vm.data (nextWord 64 m.vm.data.parsePtr).1 = some 0#64
  number : tryParseNumber m.vm.data.forthBase (nextWord 64 m.vm.data.parsePtr).1 = none

/-- The defining word `f` runs in `d`, and its definition fails: it finds no name,
or an unknown word is met before the colon definition ends. -/
inductive Fails (img : Image) (d : Data) : CFun → Data → Prop
  | noName {f : CFun} {w : NativeM Unit} {d' : Data} (hf : f.defines = true)
      (hw : dataWord img f = some w) (hlex : (nextWord 64 d.parsePtr).1 = [])
      (hrun : w.run d = some ((), d')) : Fails img d f d'
  | unknown {d₁ : Data} {m₁ m₂ m₃ : Machine} (hlex : (nextWord 64 d.parsePtr).1 ≠ [])
      (hroom : d.dictHere.toNat ≤ dictVirtBase + dictSize)
      (hcolon : (wColon img).run d = some ((), d₁)) (hstart : m₁.vm.data = d₁)
      (hsteps : Relation.ReflTransGen (DefinitionStep img) m₁ m₂) (hunknown : MeetsUnknown m₂)
      (hstep : step img m₂ = some m₃) : Fails img d .wColon m₃.vm.data

/-- Nothing is left of the definition. -/
structure Undone (d d' : Data) : Prop where
  here : d'.dictHere = d.dictHere
  latest : d'.dictLatest = d.dictLatest
  stack : d'.ds = d.ds
  findable : ∀ name, dictFind d' name = dictFind d name

section Failing

variable {img : Image} {d d' d₁ : Data} {m m' m₁ m₂ : Machine} {f : CFun} {w : NativeM Unit} {p : Text}

/-- Without a name, only `VARIABLE` goes on. -/
theorem noName_run (hf : f.defines = true) (hw : dataWord img f = some w)
    (hlex : nextWord 64 d.parsePtr = ([], p)) :
    w.run d = some ((), if f = .wVariable then (d.at p).dictComma 0#64 else d.at p) := by
  have hskip : ∀ g : Text → NativeM Unit, (parseWord 64 >>= fun name =>
      if name = [] then return () else g name).run d = some ((), d.at p) := by
    intro g
    rw [named_run, hlex, if_pos rfl]
  cases f <;> cases hf <;> cases hw
  case wColon => exact hskip _
  case wCreate => exact hskip _
  case wConstant => exact hskip _
  case wVariable =>
    have hcreate : (wCreate img).run d = some ((), d.at p) := hskip _
    rw [wVariable, StateT.run_bind, hcreate]
    rfl

theorem DefinitionStep.here_le (hsteps : Relation.ReflTransGen (DefinitionStep img) m m') :
    m.vm.data.dictHere.toNat ≤ m'.vm.data.dictHere.toNat := by
  have hdictTop : dictVirtBase + dictSize + 1024 < 2 ^ 64 := by decide
  induction hsteps with
  | refl => exact Nat.le_refl _
  | tail _ hstep ih =>
      have hroom := hstep.room
      exact le_trans ih (step_here_le hstep.step hstep.allot (by omega))

/-- `:` with a name moves `HERE` up. -/
theorem wColon_here_lt {name : Text} (hlex : nextWord 64 d.parsePtr = (name, p)) (hname : name ≠ [])
    (htop : d.dictHere.toNat + 64 < 2 ^ 64) (hrun : (wColon img).run d = some ((), d₁)) :
    d.dictHere.toNat < d₁.dictHere.toNat := by
  rw [wColon_run hlex hname] at hrun
  obtain rfl := congrArg Prod.snd (Option.some.inj hrun)
  have halign := alignCell_toNat (a := d.dictHere) (by omega)
  have hcreated : Created (d.at p) (((d.at p).dictCreate name fHidden).dictSetCode
      (img.addr .doColon)) (alignCell d.dictHere) (img.addr .doColon) fHidden := dictCreate_spec htop
  obtain ⟨hlow, hhigh⟩ := hcreated.field
  have htop₁ := hcreated.top
  dsimp only
  omega

/-- What `forth_eval` does with the unknown word: it says so and gives up. -/
theorem MeetsUnknown.step (img : Image) (h : MeetsUnknown m) : ∃ m', Forth.step img m = some m' ∧
    m'.vm.data = { (m.vm.data.at (nextWord 64 m.vm.data.parsePtr).2).puts
      ((nextWord 64 m.vm.data.parsePtr).1 ++ text " ? Unknown word\n") with
        forthState := .interpret } := by
  obtain ⟨F, hF⟩ := List.head?_eq_some_iff.mp h.frames
  have hfind : dictFind { m.vm.data with parsePtr := (nextWord 64 m.vm.data.parsePtr).2 }
      (nextWord 64 m.vm.data.parsePtr).1 = some 0#64 := h.missing
  refine ⟨{ m.setData { (m.vm.data.at (nextWord 64 m.vm.data.parsePtr).2).puts
      ((nextWord 64 m.vm.data.parsePtr).1 ++ text " ? Unknown word\n") with
        forthState := .interpret } with frames := F }, ?_, rfl⟩
  simp only [Forth.step, hF, forthEval, h.token, hfind, h.number, if_false, ne_eq,
    not_true_eq_false]
  rfl

/-- The rest of a colon definition that an unknown word breaks off stays. -/
theorem not_undone_of_unknown (hlex : (nextWord 64 d.parsePtr).1 ≠ [])
    (hroom : d.dictHere.toNat ≤ dictVirtBase + dictSize)
    (hcolon : (wColon img).run d = some ((), m₁.vm.data))
    (hsteps : Relation.ReflTransGen (DefinitionStep img) m₁ m₂) (hunknown : MeetsUnknown m₂)
    (hstep : step img m₂ = some m) : ¬ Undone d m.vm.data := by
  intro hundone
  have hdictTop : dictVirtBase + dictSize + 1024 < 2 ^ 64 := by decide
  have hfirst := wColon_here_lt rfl hlex (by omega) hcolon
  have hrest := DefinitionStep.here_le hsteps
  have hlast : m.vm.data.dictHere = m₂.vm.data.dictHere := by
    obtain ⟨m', hstep', hdata⟩ := hunknown.step img
    obtain rfl := Option.some.inj (hstep.symm.trans hstep')
    rw [hdata]
    rfl
  have hhere := congrArg BitVec.toNat hundone.here
  rw [hlast] at hhere
  omega

/-- **A failed definition is undone exactly when no name was found, by a word other
than `VARIABLE`.** An unknown word in a colon definition never undoes it. -/
theorem failed_undone_iff (h : Fails img d f d') :
    Undone d d' ↔ (nextWord 64 d.parsePtr).1 = [] ∧ f ≠ .wVariable := by
  cases h with
  | noName hf hw hlex hrun =>
      rw [noName_run hf hw (Prod.ext hlex rfl : nextWord 64 d.parsePtr = ([], _))] at hrun
      obtain rfl := congrArg Prod.snd (Option.some.inj hrun)
      dsimp only
      constructor
      · intro hundone
        refine ⟨hlex, ?_⟩
        rintro rfl
        have hhere : alignCell d.dictHere + 8#64 = d.dictHere := hundone.here
        obtain ⟨k, hk, halign⟩ := alignCell_eq_add d.dictHere
        rw [halign, BitVec.add_assoc, ← BitVec.ofNat_add] at hhere
        exact add_ofNat_ne (by omega) (by omega) hhere
      · rintro ⟨-, hne⟩
        rw [if_neg hne]
        exact ⟨rfl, rfl, rfl, fun _ => rfl⟩
  | unknown hlex hroom hcolon hstart hsteps hunknown hstep =>
      subst hstart
      constructor
      · exact fun hundone =>
          absurd hundone (not_undone_of_unknown hlex hroom hcolon hsteps hunknown hstep)
      · rintro ⟨hnil, -⟩
        exact absurd hnil hlex

end Failing

/-- `CREATE` at the end of a line leaves no trace in the dictionary of `forth_init` and on
the two cells of the stack; `VARIABLE` does. -/
theorem failed_undone_create : ∃ d d₁ d₂,
    d = { (startup linearImage).at [] with ds := [2#64, 1#64] } ∧
    (∃ e, dictFind d (text "DUP") = some e ∧ e ≠ 0#64) ∧
    Fails linearImage d .wCreate d₁ ∧ Undone d d₁ ∧
    Fails linearImage d .wVariable d₂ ∧ ¬ Undone d d₂ := by
  obtain ⟨words, P, -, -, hfound, -⟩ := startup_spec linearImage
  obtain ⟨e, hdup⟩ := hfound (text "DUP") _ rfl
  generalize startup linearImage = s at *
  obtain ⟨d, hd⟩ : ∃ d, d = { s.at [] with ds := [2#64, 1#64] } := ⟨_, rfl⟩
  have hlex : nextWord 64 d.parsePtr = ([], []) := by
    rw [hd]
    rfl
  have hfails : ∀ f w, f.defines = true → dataWord linearImage f = some w →
      Fails linearImage d f (if f = .wVariable then (d.at []).dictComma 0#64 else d.at []) :=
    fun f w hf hw => .noName hf hw (congrArg Prod.fst hlex) (noName_run hf hw hlex)
  have hcreate := hfails .wCreate _ rfl rfl
  have hvariable := hfails .wVariable _ rfl rfl
  refine ⟨d, _, _, hd, ⟨e, ?_, ne_zero_of_base_le hdup.low⟩, hcreate,
    (failed_undone_iff hcreate).mpr ⟨congrArg Prod.fst hlex, by decide⟩, hvariable,
    fun hundone => ((failed_undone_iff hvariable).mp hundone).2 rfl⟩
  rw [hd]
  exact hdup.find

/-- `: A BOGUS` leaves the header of `A`. -/
theorem unknown_fails {words : Words} {P : Set Nat} {d : Data} (hd : AtPrompt linearImage words P d)
    (hbase : d.forthBase = 10) (hmissing : dictFind d (text "BOGUS") = some 0#64) :
    ∃ d', Fails linearImage (d.at (text " A BOGUS")) .wColon d' ∧
      ¬ Undone (d.at (text " A BOGUS")) d' := by
  have hdictTop : dictVirtBase + dictSize + 1024 < 2 ^ 64 := by decide
  have hhigh := hd.high
  have hlow := hd.low
  have halign := alignCell_toNat (a := d.dictHere) (by omega)
  have hlex : nextWord 64 (text " A BOGUS") = (text "A", text " BOGUS") := by decide
  have hbogus : nextWord 64 (text " BOGUS") = (text "BOGUS", []) := by decide
  have hname : text "A" ≠ [] := by decide
  have hcolon : (wColon linearImage).run (d.at (text " A BOGUS")) = some ((), _) :=
    wColon_run hlex hname
  have hcreated : Created (d.at (text " BOGUS")) (((d.at (text " BOGUS")).dictCreate (text "A")
      fHidden).dictSetCode (linearImage.addr .doColon)) (alignCell d.dictHere)
      (linearImage.addr .doColon) fHidden := dictCreate_spec (by rw [at_dictHere]; omega)
  have hcompiling := hcreated.compiling (by omega)
  -- the state in which BOGUS is read
  generalize hd₁ : ({ ((d.at (text " BOGUS")).dictCreate (text "A") fHidden).dictSetCode
    (linearImage.addr .doColon) with forthState := .compile } : Data) = d₁ at hcompiling
  have hparse : d₁.parsePtr = text " BOGUS" := by rw [← hd₁]; rfl
  have hcolon' : (wColon linearImage).run (d.at (text " A BOGUS")) = some ((), d₁) := by
    rw [hcolon, ← hd₁]
    rfl
  have hunknown : MeetsUnknown ((startupPrompt linearImage []).conf d₁ [] 0#64 [.eval]) := by
    refine ⟨rfl, hcompiling.mode, ?_, ?_, ?_⟩ <;> rw [Machine.conf_vm, hparse, hbogus]
    · decide
    · exact (hcompiling.find hd (ne_zero_of_base_le (by omega)) (text "BOGUS")).trans hmissing
    · rw [hcompiling.base, hbase]
      decide +kernel
  have hword : (nextWord 64 (d.at (text " A BOGUS")).parsePtr).1 ≠ [] := by
    rw [show (d.at (text " A BOGUS")).parsePtr = text " A BOGUS" from rfl, hlex]
    exact hname
  obtain ⟨m', hstep, -⟩ := hunknown.step linearImage
  exact ⟨_, .unknown hword hhigh hcolon' rfl .refl hunknown hstep,
    not_undone_of_unknown hword hhigh hcolon' .refl hunknown hstep⟩

theorem failed_colon_stays : ∃ d', Fails linearImage ((startup linearImage).at (text " A BOGUS"))
      .wColon d' ∧ ¬ Undone ((startup linearImage).at (text " A BOGUS")) d' := by
  obtain ⟨words, P, hprompt, -, -, hmissing⟩ := startup_spec linearImage
  obtain ⟨mem, here, latest, hsame⟩ := startup_same linearImage
  exact unknown_fails hprompt (by rw [hsame]; rfl) (hmissing _ rfl)

end VectorForth.Forth
