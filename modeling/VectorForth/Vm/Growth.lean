import VectorForth.Fs.BlockCache
import VectorForth.Vm.Effects
import VectorForth.Vm.Define

/-!
# How the dictionary grows

Whatever a word does to the dictionary is made of a few kinds of acts: a cell or
a byte compiled at `HERE`, a new entry, a change of the newest entry's flags,
`ALLOT`, and a cell written to an address from the data stack. `step_acts` takes
a step of the machine apart into such acts; the results about all runs are
proved act by act.
-/

namespace VectorForth.Forth

open ByteMemory LabelledRun

/-! ## Acts -/

/-- A change of `HERE`, of the newest entry, or of memory. -/
inductive Act
  | other
  | emit
  | byte
  | entry
  | flags
  | allot
  | patch (a : Cell)

/-- Memory from `lo` on is the same, except in `X`. -/
def SameBeyond (lo : Nat) (X : Set Nat) (d d' : Data) : Prop :=
  ∀ x, lo ≤ x → x ∉ X → d'.mem x = d.mem x

/-- The act that leads from `d` to `d'`. Below `lo` the block buffers may change. -/
def Does (lo : Nat) (d : Data) (a : Act) (d' : Data) : Prop :=
  match a with
  | .other => d'.dictHere = d.dictHere ∧ d'.dictLatest = d.dictLatest ∧ SameBeyond lo ∅ d d'
  | .emit =>
      d'.dictHere = alignCell d.dictHere + 8#64 ∧ d'.dictLatest = d.dictLatest ∧
        SameBeyond lo (Set.Ico (alignCell d.dictHere).toNat ((alignCell d.dictHere).toNat + 8)) d d'
  | .byte =>
      d'.dictHere = d.dictHere + 1#64 ∧ d'.dictLatest = d.dictLatest ∧
        SameBeyond lo {d.dictHere.toNat} d d'
  | .entry =>
      ∃ d₁ d₂ code flags, d₁.dictHere = d.dictHere ∧ d₁.dictLatest = d.dictLatest ∧
        d₁.mem = d.mem ∧ Created d₁ d₂ (alignCell d.dictHere) code flags ∧
        d'.dictHere = d₂.dictHere ∧ d'.dictLatest = d₂.dictLatest ∧ d'.mem = d₂.mem
  | .flags =>
      d'.dictHere = d.dictHere ∧ d'.dictLatest = d.dictLatest ∧
        SameBeyond lo {(d.dictLatest + 8#64).toNat} d d' ∧
        dictGetNameLen d'.mem d.dictLatest = dictGetNameLen d.mem d.dictLatest
  | .allot => d'.dictLatest = d.dictLatest ∧ SameBeyond lo ∅ d d'
  | .patch a =>
      d'.dictHere = d.dictHere ∧ d'.dictLatest = d.dictLatest ∧
        SameBeyond lo (Set.Ico a.toNat (a.toNat + 8)) d d'

/-- The dictionary is the same. -/
def SameDict (d d' : Data) : Prop :=
  d'.dictHere = d.dictHere ∧ d'.dictLatest = d.dictLatest ∧ d'.mem = d.mem

section Does

variable {lo : Nat} {d d₁ d' : Data} {a : Act}

theorem Quiet.sameDict (h : Quiet d d') : SameDict d d' := by
  obtain ⟨_, _, _, _, rfl⟩ := h
  exact ⟨rfl, rfl, rfl⟩

theorem SameDict.trans (h : SameDict d d₁) (h' : SameDict d₁ d') : SameDict d d' :=
  ⟨h'.1.trans h.1, h'.2.1.trans h.2.1, h'.2.2.trans h.2.2⟩

theorem SameDict.other (h : SameDict d d') : Does lo d .other d' := by
  obtain ⟨hhere, hlatest, hmem⟩ := h
  refine ⟨hhere, hlatest, ?_⟩
  intro x _ _
  rw [hmem]

/-- What comes before an act without changing the dictionary belongs to it. -/
theorem Does.after (h : Does lo d₁ a d') (hsame : SameDict d d₁) : Does lo d a d' := by
  obtain ⟨hhere, hlatest, hmem⟩ := hsame
  unfold Does SameBeyond at *
  cases a <;> simpa only [hhere, hlatest, hmem] using h

/-- And so does what follows. -/
theorem Does.before (h : Does lo d a d₁) (hsame : SameDict d₁ d') : Does lo d a d' := by
  obtain ⟨hhere, hlatest, hmem⟩ := hsame
  unfold Does SameBeyond at *
  cases a <;> simpa only [hhere, hlatest, hmem] using h

theorem does_comma (v : Cell) : Does lo d .emit (d.dictComma v) := by
  refine ⟨rfl, rfl, ?_⟩
  intro x _ hx
  rw [Set.mem_Ico, not_and_or] at hx
  have hout : x < (alignCell d.dictHere).toNat ∨ (alignCell d.dictHere).toNat + 8 ≤ x := by omega
  exact write64_outside hout

theorem does_cComma (b : Byte) : Does lo d .byte (d.dictCComma b) := by
  refine ⟨rfl, rfl, ?_⟩
  intro x _ hx
  exact write8_outside hx

theorem does_setCell (a v : Cell) : Does lo d (.patch a) (d.setCell a v) := by
  refine ⟨rfl, rfl, ?_⟩
  intro x _ hx
  rw [Set.mem_Ico, not_and_or] at hx
  exact write64_outside (by omega)

theorem does_create {name : Text} {flags : Byte} {code : Cell}
    (htop : d.dictHere.toNat + 64 < 2 ^ 64) :
    Does lo d .entry ((d.dictCreate name flags).dictSetCode code) :=
  ⟨d, _, code, flags, rfl, rfl, rfl, dictCreate_spec htop, rfl, rfl, rfl⟩

/-- A change of the flag bits of the newest entry. -/
theorem does_setFlags {b : Byte} (hb : b &&& fLenmask = dictGetNameLen d.mem d.dictLatest) :
    Does lo d .flags (d.setByte (d.dictLatest + 8#64) b) := by
  refine ⟨rfl, rfl, ?_, ?_⟩
  · intro x _ hx
    exact write8_outside hx
  · rw [← hb, dictGetNameLen, dictGetFlagsLen]
    exact congrArg (· &&& fLenmask) (write8_same _ _ _)

/-! ## `HERE` only grows -/

/-- Only `ALLOT` moves `HERE` back. -/
theorem Does.here_le (h : Does lo d a d') (ha : a ≠ .allot) (htop : d.dictHere.toNat + 64 < 2 ^ 64) :
    d.dictHere.toNat ≤ d'.dictHere.toNat ∧ d'.dictHere.toNat ≤ d.dictHere.toNat + 64 := by
  have halign := alignCell_toNat (a := d.dictHere) (by omega)
  cases a with
  | other => rw [h.1]; omega
  | flags => rw [h.1]; omega
  | patch => rw [h.1]; omega
  | emit =>
      rw [h.1, BitVec.toNat_add, BitVec.toNat_ofNat]
      omega
  | byte =>
      rw [h.1, BitVec.toNat_add, BitVec.toNat_ofNat]
      omega
  | entry =>
      obtain ⟨d₁, d₂, code, flags, -, -, -, hcreated, hhere, -⟩ := h
      obtain ⟨hlow, hhigh⟩ := hcreated.field
      have htop₂ := hcreated.top
      rw [hhere]
      omega
  | allot => exact absurd rfl ha

theorem here_le_of_acts (hrun : Run (Does lo) d as d') (has : ∀ a ∈ as, a ≠ .allot)
    (htop : d.dictHere.toNat + 64 * as.length < 2 ^ 64) :
    d.dictHere.toNat ≤ d'.dictHere.toNat ∧ d'.dictHere.toNat ≤ d.dictHere.toNat + 64 * as.length := by
  induction hrun with
  | nil => omega
  | cons h _ ih =>
      rw [List.length_cons] at htop ⊢
      have hfirst := h.here_le (has _ (List.mem_cons_self ..)) (by omega)
      have hrest := ih (fun b hb => has b (List.mem_cons_of_mem _ hb)) (by omega)
      omega

end Does

/-! ## The acts of a word -/

/-- The acts that leave what is below `HERE` alone, but for flags. -/
def Act.builds : Act → Bool
  | .allot | .patch _ => false
  | _ => true

theorem Act.builds_ne {a : Act} (h : a.builds = true) : a ≠ .allot := by
  rintro rfl
  cases h

/-- The words that store wherever the data stack says. -/
def CFun.stores : CFun → Bool
  | .wStore | .wCstore | .wPlusStore => true
  | _ => false

/-- The compiling words that fill a hole left by another one. -/
def CFun.patches : CFun → Bool
  | .wElse | .wThen | .wRepeat => true
  | _ => false

/-- The block buffers end at or below `lo`. -/
def BuffersBelow (img : Image) (lo : Nat) : Prop :=
  img.buffers + BlockDevice.bufferSize * BlockDevice.numBuffers ≤ lo

theorem BuffersBelow.outside {img : Image} {lo : Nat} (h : BuffersBelow img lo) {x : Nat}
    (hx : lo ≤ x) : BlockDevice.Outside img.buffers x := Or.inr (le_trans h hx)

/-- What the word `f` does to the dictionary. -/
inductive WordActs (lo : Nat) (f : CFun) (d d' : Data) : Prop
  | builds {as : List Act} : Run (Does lo) d as d' → as.length ≤ 2 → (∀ a ∈ as, a.builds = true) →
      WordActs lo f d d'
  | allot : f = .wAllot → Does lo d .allot d' → d'.dictHere = d.dictHere + d.ds.headD 0#64 →
      WordActs lo f d d'
  | patch {as : List Act} {d₁ : Data} : f.patches = true → Run (Does lo) d as d₁ → as.length ≤ 2 →
      (∀ a ∈ as, a = .emit) → Does lo d₁ (.patch (d.ds.headD 0#64)) d' → WordActs lo f d d'

section Words

variable {img : Image} {lo : Nat} {d d₁ d' : Data} {f : CFun} {w : NativeM Unit}

theorem WordActs.same (h : SameDict d d') : WordActs lo f d d' :=
  .builds (.cons h.other (.nil _)) (by simp) (by simp [Act.builds])

theorem WordActs.one {a : Act} (h : Does lo d a d') (ha : a.builds = true) : WordActs lo f d d' :=
  .builds (.cons h (.nil _)) (by simp) (by simpa using ha)

theorem WordActs.two {a b : Act} (h : Does lo d a d₁) (h' : Does lo d₁ b d') (ha : a.builds = true)
    (hb : b.builds = true) : WordActs lo f d d' :=
  .builds (.cons h (.cons h' (.nil _))) (by simp) (by simp [ha, hb])

theorem sameDict_dsPop (d : Data) : SameDict d d.dsPop.2 := (quiet_dsPop d).sameDict

theorem sameDict_dsPush (d : Data) (v : Cell) : SameDict d (d.dsPush v) := (quiet_dsPush d v).sameDict

/-- `:`, `CREATE`, `VARIABLE` and `CONSTANT` read a name first. -/
theorem named_run (g : Text → NativeM Unit) (d : Data) :
    (parseWord 64 >>= fun name => if name = [] then return () else g name).run d =
      if (nextWord 64 d.parsePtr).1 = [] then some ((), d.at (nextWord 64 d.parsePtr).2)
      else (g (nextWord 64 d.parsePtr).1).run (d.at (nextWord 64 d.parsePtr).2) := by
  have hparse : (parseWord 64 >>= fun name => if name = [] then return () else g name).run d =
      (if (nextWord 64 d.parsePtr).1 = [] then pure () else g (nextWord 64 d.parsePtr).1 :
        NativeM Unit).run (d.at (nextWord 64 d.parsePtr).2) := rfl
  rw [hparse]
  split <;> rfl

/-- `CREATE` and a name. -/
theorem wCreate_run {img : Image} {d : Data} {name p : Text}
    (hlex : nextWord 64 d.parsePtr = (name, p)) (hname : name ≠ []) :
    (wCreate img).run d =
      some ((), ((d.at p).dictCreate name 0#8).dictSetCode (img.addr .doVariable)) := by
  have hnamed : (wCreate img).run d = (parseWord 64 >>= fun name => if name = [] then return () else
      (modify (·.dictCreate name 0#8) >>= fun _ =>
        modify (·.dictSetCode (img.addr .doVariable))) : NativeM Unit).run d := rfl
  rw [hnamed, named_run, hlex, if_neg hname]
  rfl

/-- A header and a code field above the old dictionary. -/
theorem does_named (htop : d.dictHere.toNat + 64 < 2 ^ 64) (name p : Text) (flags : Byte)
    (code : Cell) : Does lo d .entry (((d.at p).dictCreate name flags).dictSetCode code) :=
  (does_create (d := d.at p) htop).after ⟨rfl, rfl, rfl⟩

theorem creating_acts {g : Text → NativeM Unit} (hrun : (parseWord 64 >>= fun name =>
    if name = [] then return () else g name).run d = some ((), d'))
    (hg : ∀ name p, (g name).run (d.at p) = some ((), d') → WordActs lo f d d') : WordActs lo f d d' := by
  rw [named_run] at hrun
  split at hrun
  · cases hrun
    exact .same ⟨rfl, rfl, rfl⟩
  · exact hg _ _ hrun

theorem wColon_acts (htop : d.dictHere.toNat + 64 < 2 ^ 64)
    (hrun : (wColon img).run d = some ((), d')) : WordActs lo .wColon d d' := by
  refine creating_acts hrun ?_
  rintro name p hg
  cases hg
  exact .one ((does_named htop name p fHidden (img.addr .doColon)).before ⟨rfl, rfl, rfl⟩) rfl

theorem wCreate_acts (htop : d.dictHere.toNat + 64 < 2 ^ 64)
    (hrun : (wCreate img).run d = some ((), d')) : SameDict d d' ∨ Does lo d .entry d' := by
  have hnamed : (wCreate img).run d = (parseWord 64 >>= fun name => if name = [] then return () else
      (modify (·.dictCreate name 0#8) >>= fun _ =>
        modify (·.dictSetCode (img.addr .doVariable))) : NativeM Unit).run d := rfl
  rw [hnamed, named_run] at hrun
  split at hrun
  · cases hrun
    exact Or.inl ⟨rfl, rfl, rfl⟩
  · cases hrun
    exact Or.inr (does_named htop _ _ 0#8 (img.addr .doVariable))

theorem wVariable_acts (htop : d.dictHere.toNat + 64 < 2 ^ 64)
    (hrun : (wVariable img).run d = some ((), d')) : WordActs lo .wVariable d d' := by
  have hbind : ((wCreate img).run d).bind (fun r => some ((), r.2.dictComma 0#64)) =
      some ((), d') := hrun
  obtain ⟨⟨⟨⟩, d₁⟩, hcreate, hcomma⟩ := Option.bind_eq_some_iff.mp hbind
  cases hcomma
  rcases wCreate_acts htop hcreate with hsame | hentry
  · exact .one ((does_comma 0#64).after hsame) rfl
  · exact .two hentry (does_comma 0#64) rfl rfl

theorem wConstant_acts (htop : d.dictHere.toNat + 64 < 2 ^ 64)
    (hrun : (wConstant img).run d = some ((), d')) : WordActs lo .wConstant d d' := by
  refine creating_acts hrun ?_
  rintro name p hg
  cases hg
  exact .two (does_named htop name p 0#8 (img.addr .doConstant))
    ((does_comma _).after (sameDict_dsPop _)) rfl rfl

theorem semicolon_acts : WordActs lo .wSemicolon d
    { (d.dictComma sentinelExit).setByte (d.dictLatest + 8#64)
        (dictGetFlagsLen (d.dictComma sentinelExit).mem d.dictLatest &&& ~~~fHidden) with
      forthState := .interpret } := by
  have hflags : Does lo (d.dictComma sentinelExit) .flags
      ((d.dictComma sentinelExit).setByte (d.dictLatest + 8#64)
        (dictGetFlagsLen (d.dictComma sentinelExit).mem d.dictLatest &&& ~~~fHidden)) := by
    refine does_setFlags (d := d.dictComma sentinelExit) ?_
    have hmask : ~~~fHidden &&& fLenmask = fLenmask := rfl
    rw [BitVec.and_assoc, hmask]
    rfl
  exact .two (does_comma sentinelExit) (hflags.before ⟨rfl, rfl, rfl⟩) rfl rfl

theorem immediate_acts (hrun : wImmediate.run d = some ((), d')) : WordActs lo .wImmediate d d' := by
  have hmodify : wImmediate.run d = some ((), if d.dictLatest ≠ 0#64 then
      d.setByte (d.dictLatest + 8#64) (dictGetFlagsLen d.mem d.dictLatest ^^^ fImmediate) else d) :=
    rfl
  rw [hmodify] at hrun
  cases hrun
  split
  · refine .one (does_setFlags ?_) rfl
    have hmask : ∀ b : Byte, (b ^^^ fImmediate) &&& fLenmask = b &&& fLenmask := by decide
    exact hmask _
  · exact .same ⟨rfl, rfl, rfl⟩

theorem blockGet_acts (hbuf : BuffersBelow img lo) (n : BitVec 32) :
    Does lo d .other { d with toState := (BlockDevice.blockGet img.buffers d.toState n).1 } := by
  refine ⟨rfl, rfl, ?_⟩
  intro x hx _
  exact BlockDevice.blockGet_outside (hbuf.outside hx) n

theorem wElse_acts (hrun : (wElse img).run d = some ((), d')) : WordActs lo .wElse d d' := by
  rw [wElse_run] at hrun
  cases hrun
  refine .patch rfl (.cons (does_comma (img.addr .rtBranch)) (.cons (does_comma 0#64) (.nil _)))
    (by simp) (by simp) ?_
  generalize (d.dictComma (img.addr .rtBranch)).dictHere = hole
  have hds : ((d.dictComma (img.addr .rtBranch)).dictComma 0#64).ds = d.ds := rfl
  generalize (d.dictComma (img.addr .rtBranch)).dictComma 0#64 = d₁ at hds ⊢
  rw [← hds, ← (dsPop_headD d₁).1]
  exact ((does_setCell _ _).after (sameDict_dsPop d₁)).before (sameDict_dsPush _ hole)

theorem wThen_acts (hrun : wThen.run d = some ((), d')) : WordActs lo .wThen d d' := by
  rw [wThen_run] at hrun
  cases hrun
  refine .patch rfl (.nil _) (by simp) (by simp) ?_
  rw [← (dsPop_headD d).1]
  exact (does_setCell _ _).after (sameDict_dsPop d)

theorem wRepeat_acts (hrun : (wRepeat img).run d = some ((), d')) : WordActs lo .wRepeat d d' := by
  rw [wRepeat_run] at hrun
  cases hrun
  have hpops : SameDict d d.dsPop.2.dsPop.2 :=
    ((quiet_dsPop d).trans (quiet_dsPop d.dsPop.2)).sameDict
  refine .patch rfl (.cons ((does_comma (img.addr .rtBranch)).after hpops)
    (.cons (does_comma d.dsPop.2.dsPop.1) (.nil _))) (by simp) (by simp) ?_
  rw [← (dsPop_headD d).1]
  exact does_setCell _ _

theorem loud_acts (hbuf : f.blocks = true → BuffersBelow img lo)
    (hf : dataWord img f = some w) (hstores : f.stores = false)
    (hloud : f.loud = true) (htop : d.dictHere.toNat + 64 < 2 ^ 64)
    (hrun : w.run d = some ((), d')) : WordActs lo f d d' := by
  have hpop := sameDict_dsPop d
  cases f <;> cases hstores <;> cases hloud <;> cases hf
  case wColon => exact wColon_acts htop hrun
  case wSemicolon =>
    rw [wSemicolon_run] at hrun
    cases hrun
    exact semicolon_acts
  case wVariable => exact wVariable_acts htop hrun
  case wConstant => exact wConstant_acts htop hrun
  case wImmediate => exact immediate_acts hrun
  case wCreate =>
    rcases wCreate_acts htop hrun with hsame | hentry
    · exact .same hsame
    · exact .one hentry rfl
  case wAllot =>
    cases hrun
    refine .allot rfl ⟨hpop.2.1, fun x _ _ => congrFun hpop.2.2 x⟩ ?_
    show d.dsPop.2.dictHere + d.dsPop.1 = _
    rw [hpop.1, (dsPop_headD d).1]
  case wComma =>
    cases hrun
    exact .one ((does_comma _).after hpop) rfl
  case wCComma =>
    cases hrun
    exact .one ((does_cComma _).after hpop) rfl
  case wIf =>
    rw [wIf_run] at hrun
    cases hrun
    exact .two (does_comma _) ((does_comma _).after (sameDict_dsPush _ _)) rfl rfl
  case wWhile =>
    rw [wWhile_run, wIf_run] at hrun
    cases hrun
    exact .two (does_comma _) ((does_comma _).after (sameDict_dsPush _ _)) rfl rfl
  case wElse => exact wElse_acts hrun
  case wThen => exact wThen_acts hrun
  case wUntil =>
    rw [wUntil_run] at hrun
    cases hrun
    exact .two ((does_comma _).after hpop) (does_comma _) rfl rfl
  case wAgain =>
    rw [wAgain_run] at hrun
    cases hrun
    exact .two ((does_comma _).after hpop) (does_comma _) rfl rfl
  case wRepeat => exact wRepeat_acts hrun
  case wDo =>
    rw [wDo_run] at hrun
    cases hrun
    exact .one ((does_comma _).before (sameDict_dsPush _ _)) rfl
  case wLoop =>
    rw [wLoop_run] at hrun
    cases hrun
    exact .two ((does_comma _).after hpop) (does_comma _) rfl rfl
  case wBlock =>
    cases hrun
    exact .one (((blockGet_acts (hbuf rfl) _).after hpop).before (sameDict_dsPush _ _)) rfl
  case wUpdate =>
    cases hrun
    refine .same ⟨rfl, rfl, ?_⟩
    dsimp only [BlockDevice.blockUpdate]
    split <;> rfl
  case wFlush =>
    cases hrun
    refine .one (a := .other) ⟨rfl, rfl, ?_⟩ rfl
    intro x hx _
    exact BlockDevice.blockFlush_outside ((hbuf rfl).outside hx)
  case wFork =>
    cases hrun
    have htask : SameDict d.dsPop.2
        (taskCreate { d.dsPop.2 with forkTargetXt := d.dsPop.1 } .wrapper).2 := ⟨rfl, rfl, rfl⟩
    exact .same ((hpop.trans htask).trans (sameDict_dsPush _ _))

/-- **The acts of the words that do not store at will.** -/
theorem word_acts (hbuf : f.blocks = true → BuffersBelow img lo)
    (hf : dataWord img f = some w) (hstores : f.stores = false)
    (htop : d.dictHere.toNat + 64 < 2 ^ 64) (hrun : w.run d = some ((), d')) :
    WordActs lo f d d' := by
  cases hloud : f.loud with
  | true => exact loud_acts hbuf hf hstores hloud htop hrun
  | false => exact .same (keeps_word hf hloud d () d' hrun).sameDict

end Words

/-! ## The acts of a step -/

/-- What a step of `m` does to the dictionary, if it stores nothing at will. -/
inductive StepActs (img : Image) (lo : Nat) (m : Machine) (d' : Data) : Prop
  | builds {as : List Act} : Run (Does lo) m.vm.data as d' → as.length ≤ 3 →
      (∀ a ∈ as, a.builds = true) → StepActs img lo m d'
  | allot : calledFun img m = some .wAllot → Does lo m.vm.data .allot d' →
      d'.dictHere = m.vm.data.dictHere + m.vm.data.ds.headD 0#64 → StepActs img lo m d'
  | patch {f : CFun} {as : List Act} {d₁ : Data} : calledFun img m = some f → f.patches = true →
      Run (Does lo) m.vm.data as d₁ → as.length ≤ 2 → (∀ a ∈ as, a = .emit) →
      Does lo d₁ (.patch (m.vm.data.ds.headD 0#64)) d' → StepActs img lo m d'

/-- The next step is a key in the block editor. -/
def AtEditorKey (m : Machine) : Prop := ∃ blk n cursor, m.frames.head? = some (.editorKey blk n cursor)

section Steps

variable {img : Image} {lo : Nat} {m m' : Machine} {d d₁ d' : Data}

theorem builds_snoc {as : List Act} (h : ∀ a ∈ as, a.builds = true) :
    ∀ a ∈ as ++ [.other], a.builds = true := by
  intro a ha
  rcases List.mem_append.mp ha with ha | ha
  · exact h a ha
  · rw [List.mem_singleton.mp ha]
    rfl

theorem sameDict_yield (m : Machine) : SameDict m.vm.data (yield m).vm.data := by
  unfold yield
  dsimp only
  split <;> exact ⟨rfl, rfl, rfl⟩

theorem Effect.acts {fn : Option CFun} {top : Frame} (h : Effect img fn top d d')
    (hbuf : ∀ f, fn = some f → f.blocks = true → BuffersBelow img lo)
    (htop : ∀ blk n cursor, top ≠ .editorKey blk n cursor) :
    ∃ as, Run (Does lo) d as d' ∧ as.length ≤ 2 ∧ ∀ a ∈ as, a.builds = true := by
  cases h with
  | quiet hq => exact ⟨[.other], .cons hq.sameDict.other (.nil _), by simp, by simp [Act.builds]⟩
  | compile _ _ hq =>
      exact ⟨[.emit], .cons ((does_comma _).after hq.sameDict) (.nil _), by simp,
        by simp [Act.builds]⟩
  | literal _ _ hq =>
      exact ⟨[.emit, .emit], .cons ((does_comma _).after hq.sameDict) (.cons (does_comma _) (.nil _)),
        by simp, by simp [Act.builds]⟩
  | @unknown d₁ hq =>
      have hsame : SameDict d { d₁ with forthState := .interpret } :=
        hq.sameDict.trans ⟨rfl, rfl, rfl⟩
      exact ⟨[.other], .cons hsame.other (.nil _), by simp, by simp [Act.builds]⟩
  | block hf hblocks hq hq' =>
      have hblock := ((blockGet_acts (hbuf _ hf hblocks) _).after hq.sameDict).before hq'.sameDict
      exact ⟨[.other], .cons hblock (.nil _), by simp, by simp [Act.builds]⟩
  | stroke hkey => exact absurd hkey (htop _ _ _)
  | save hkey => exact absurd hkey (htop _ _ _)
  | exit =>
      have hsame : SameDict d { d with tasks := d.tasks.modify d.current (setState .dead) } :=
        ⟨rfl, rfl, rfl⟩
      exact ⟨[.other], .cons hsame.other (.nil _), by simp, by simp [Act.builds]⟩

/-- **A step that stores nothing at will is made of acts.** -/
theorem step_acts (h : step img m = some m')
    (hbuf : ∀ f, calledFun img m = some f → f.blocks = true → BuffersBelow img lo)
    (hstores : ∀ f, calledFun img m = some f → f.stores = false) (heditor : ¬ AtEditorKey m)
    (htop : m.vm.data.dictHere.toNat + 64 < 2 ^ 64) : StepActs img lo m m'.vm.data := by
  obtain ⟨top, hhead, m₁, F, hword, heffect, -, -, hm⟩ := step_cases h
  have hlast : SameDict m₁.vm.data m'.vm.data := by
    rcases hm with rfl | rfl
    · exact ⟨rfl, rfl, rfl⟩
    · exact sameDict_yield m₁
  cases hcalled : calledWord img m with
  | none =>
      have hkey : ∀ blk n cursor, top ≠ .editorKey blk n cursor := by
        rintro blk n cursor rfl
        exact heditor ⟨blk, n, cursor, hhead⟩
      obtain ⟨as, hrun, hlen, has⟩ := (heffect hcalled).acts hbuf hkey
      exact .builds (hrun.snoc hlast.other)
        (by rw [List.length_append]; exact Nat.succ_le_succ hlen) (builds_snoc has)
  | some w =>
      obtain ⟨f, hf, hw⟩ := Option.bind_eq_some_iff.mp hcalled
      rcases word_acts (hbuf f hf) hw (hstores f hf) htop (hword w hcalled) with
        ⟨hrun, hlen, has⟩ | ⟨rfl, hdoes, hhere⟩ | ⟨hpatches, hrun, hlen, has, hdoes⟩
      · exact .builds (hrun.snoc hlast.other)
          (by rw [List.length_append]; exact Nat.succ_le_succ hlen) (builds_snoc has)
      · exact .allot hf (hdoes.before hlast) (hlast.1.trans hhere)
      · exact .patch hf hpatches hrun hlen has (hdoes.before hlast)

end Steps

end VectorForth.Forth
