import VectorForth.Vm.Stepping

/-!
# What a step may change

Most native words only touch the data stack, the console, the input text and
the number base: they are *quiet*. That is proved once for all of them, by
composing `Keeps` along their code. `step_cases` says of an arbitrary step of
the machine what it does to the data, which frames it leaves, and that only
`yield` switches tasks. Results about all runs of the machine start from it.
-/

namespace VectorForth.Forth

open ByteMemory

/-- Nothing but the data stack, the console, the input text and the number base
has changed. -/
def Quiet (d d' : Data) : Prop :=
  ∃ ds output parsePtr base, d' =
    { d with ds := ds, output := output, parsePtr := parsePtr, forthBase := base }

theorem Quiet.refl (d : Data) : Quiet d d := ⟨_, _, _, _, rfl⟩

theorem Quiet.trans {d₁ d₂ d₃ : Data} (h : Quiet d₁ d₂) (h' : Quiet d₂ d₃) : Quiet d₁ d₃ := by
  obtain ⟨_, _, _, _, rfl⟩ := h
  obtain ⟨ds, output, parsePtr, base, rfl⟩ := h'
  exact ⟨ds, output, parsePtr, base, rfl⟩

/-- Nothing but the data stack, the console and the input text has changed. -/
def Still (d d' : Data) : Prop :=
  ∃ ds output parsePtr, d' = { d with ds := ds, output := output, parsePtr := parsePtr }

theorem Still.refl (d : Data) : Still d d := ⟨_, _, _, rfl⟩

theorem Still.trans {d₁ d₂ d₃ : Data} (h : Still d₁ d₂) (h' : Still d₂ d₃) : Still d₁ d₃ := by
  obtain ⟨_, _, _, rfl⟩ := h
  obtain ⟨ds, output, parsePtr, rfl⟩ := h'
  exact ⟨ds, output, parsePtr, rfl⟩

theorem Still.quiet {d d' : Data} (h : Still d d') : Quiet d d' := by
  obtain ⟨_, _, _, rfl⟩ := h
  exact ⟨_, _, _, _, rfl⟩

theorem still_puts (d : Data) (t : Text) : Still d (d.puts t) := ⟨_, _, _, rfl⟩

theorem still_dsPush (d : Data) (v : Cell) : Still d (d.dsPush v) := by
  unfold Data.dsPush
  split <;> exact ⟨_, _, _, rfl⟩

theorem still_dsPop (d : Data) : Still d d.dsPop.2 := by
  unfold Data.dsPop
  split <;> exact ⟨_, _, _, rfl⟩

theorem still_dsPick (d : Data) (n : Nat) : Still d (d.dsPick n).2 := by
  unfold Data.dsPick
  split <;> exact ⟨_, _, _, rfl⟩

@[simp] theorem quiet_puts (d : Data) (t : Text) : Quiet d (d.puts t) := (still_puts d t).quiet

@[simp] theorem quiet_dsPush (d : Data) (v : Cell) : Quiet d (d.dsPush v) :=
  (still_dsPush d v).quiet

@[simp] theorem quiet_dsPop (d : Data) : Quiet d d.dsPop.2 := (still_dsPop d).quiet

theorem dsPop_headD (d : Data) : d.dsPop.1 = d.ds.headD 0#64 ∧ d.dsPop.2.ds = d.ds.tail := by
  unfold Data.dsPop
  split <;> rename_i hds <;> constructor <;> simp [hds, Data.puts]

@[simp] theorem quiet_dsPick (d : Data) (n : Nat) : Quiet d (d.dsPick n).2 :=
  (still_dsPick d n).quiet

/-! ## What native code keeps -/

/-- A transitive relation that quiet steps satisfy. -/
class Framing (R : Data → Data → Prop) : Prop where
  trans : ∀ {d₁ d₂ d₃}, R d₁ d₂ → R d₂ d₃ → R d₁ d₃
  quiet : ∀ {d d'}, Quiet d d' → R d d'

instance : Framing Quiet := ⟨Quiet.trans, id⟩

/-- A transitive relation that holds when only the data stack, the console and the
input text change. -/
class Keeping (R : Data → Data → Prop) : Prop where
  trans : ∀ {d₁ d₂ d₃}, R d₁ d₂ → R d₂ d₃ → R d₁ d₃
  still : ∀ {d d'}, Still d d' → R d d'

instance {R : Data → Data → Prop} [Framing R] : Keeping R :=
  ⟨Framing.trans, fun h => Framing.quiet h.quiet⟩

/-- Wherever `w` returns, it has kept `R`. -/
def Keeps {α : Type} (R : Data → Data → Prop) (w : NativeM α) : Prop :=
  ∀ d a d', w d = some (a, d') → R d d'

section Keeps

variable {α β : Type} {R : Data → Data → Prop} [Keeping R]

@[simp] theorem keeps_pure (a : α) : Keeps R (pure a : NativeM α) := by
  rintro d a d' h
  cases h
  exact Keeping.still (Still.refl d)

theorem keeps_bind {w : NativeM α} {g : α → NativeM β} (hw : Keeps R w)
    (hg : ∀ a, Keeps R (g a)) : Keeps R (w >>= g) := by
  intro d b d'' h
  have hbind : (w d).bind (fun r => g r.1 r.2) = some (b, d'') := h
  obtain ⟨⟨a, d'⟩, hfirst, hrest⟩ := Option.bind_eq_some_iff.mp hbind
  exact Keeping.trans (hw d a d' hfirst) (hg a d' b d'' hrest)

omit [Keeping R] in
theorem keeps_ite {p : Prop} [Decidable p] {w w' : NativeM α} (hw : Keeps R w)
    (hw' : Keeps R w') : Keeps R (if p then w else w') := by
  split <;> assumption

omit [Keeping R] in
theorem keeps_modifyGet {f : Data → α × Data} (h : ∀ d, R d (f d).2) :
    Keeps R (modifyGet f : NativeM α) := by
  intro d a d' hrun
  have hfd : f d = (a, d') := Option.some.inj hrun
  have hd := h d
  rwa [hfd] at hd

omit [Keeping R] in
theorem keeps_modify {f : Data → Data} (h : ∀ d, R d (f d)) :
    Keeps R (modify f : NativeM Unit) := by
  rintro d a d' hrun
  cases hrun
  exact h d

@[simp] theorem keeps_get : Keeps R (get : NativeM Data) := by
  rintro d a d' hrun
  cases hrun
  exact Keeping.still (Still.refl d)

omit [Keeping R] in
@[simp] theorem keeps_hang : Keeps R (hang : NativeM α) := by
  rintro d a d' ⟨⟩

@[simp] theorem keeps_dsPush (v : Cell) : Keeps R (dsPush v) :=
  keeps_modify fun d => Keeping.still (still_dsPush d v)

@[simp] theorem keeps_dsPop : Keeps R dsPop :=
  keeps_modifyGet fun d => Keeping.still (still_dsPop d)

@[simp] theorem keeps_dsPeek : Keeps R dsPeek := keeps_bind keeps_get fun _ => keeps_pure _

@[simp] theorem keeps_dsPick (n : Nat) : Keeps R (dsPick n) :=
  keeps_modifyGet fun d => Keeping.still (still_dsPick d n)

@[simp] theorem keeps_puts (t : Text) : Keeps R (puts t) :=
  keeps_modify fun d => Keeping.still (still_puts d t)

@[simp] theorem keeps_putchar (c : Byte) : Keeps R (putchar c) := keeps_puts [c]

@[simp] theorem keeps_fetchCell (a : Cell) : Keeps R (fetchCell a) :=
  keeps_bind keeps_get fun _ => keeps_pure _

@[simp] theorem keeps_fetchByte (a : Cell) : Keeps R (fetchByte a) :=
  keeps_bind keeps_get fun _ => keeps_pure _

@[simp] theorem keeps_parseWord (n : Nat) : Keeps R (parseWord n) := by
  rintro d a d' hrun
  cases hrun
  exact Keeping.still ⟨_, _, _, rfl⟩

@[simp] theorem keeps_parseUntil (delim : Byte) (n : Nat) : Keeps R (parseUntil delim n) := by
  rintro d a d' hrun
  cases hrun
  exact Keeping.still ⟨_, _, _, rfl⟩

@[simp] theorem keeps_find (name : Text) : Keeps R (find name) := by
  intro d a d' hrun
  obtain ⟨e, -, he⟩ := Option.map_eq_some_iff.mp hrun
  cases he
  exact Keeping.still (Still.refl d)

@[simp] theorem keeps_idiv (a b : Cell) : Keeps R (idiv a b) :=
  keeps_ite keeps_hang (keeps_pure _)

@[simp] theorem keeps_binary (f : Cell → Cell → Cell) : Keeps R (binary f) :=
  keeps_bind keeps_dsPop fun _ => keeps_bind keeps_dsPop fun _ => keeps_dsPush _

@[simp] theorem keeps_unary (f : Cell → Cell) : Keeps R (unary f) :=
  keeps_bind keeps_dsPop fun _ => keeps_dsPush _

@[simp] theorem keeps_vgaPutHex (v : Cell) : Keeps R (vgaPutHex v) := by simp [vgaPutHex]

theorem keeps_forM {γ : Type} (l : List γ) {g : γ → NativeM Unit} (hg : ∀ x, Keeps R (g x)) :
    Keeps R (l.forM g) := by
  induction l with
  | nil => exact keeps_pure ()
  | cons x l ih => exact keeps_bind (hg x) fun _ => ih

theorem keeps_dictListWordsFrom (fuel : Nat) (entry : Cell) (count : Nat) :
    Keeps R (dictListWordsFrom fuel entry count) := by
  induction fuel generalizing entry count with
  | zero => exact keeps_hang
  | succ fuel ih =>
      unfold dictListWordsFrom
      repeat'
        first
        | with_reducible exact ih _ _
        | with_reducible refine keeps_ite ?_ ?_
        | with_reducible refine keeps_bind ?_ fun _ => ?_
        | simp

theorem keeps_seeFrom (img : Image) (fuel : Nat) (pfa : Cell) :
    Keeps R (seeFrom img fuel pfa) := by
  induction fuel generalizing pfa with
  | zero => exact keeps_hang
  | succ fuel ih =>
      unfold seeFrom
      repeat'
        first
        | with_reducible exact ih _
        | with_reducible refine keeps_ite ?_ ?_
        | with_reducible refine keeps_bind ?_ fun _ => ?_
        | simp

theorem keeps_dumpByte (m : Mem) (addr : Cell) (i : Nat) : Keeps R (dumpByte m addr i) := by
  unfold dumpByte
  repeat'
    first
    | with_reducible refine keeps_ite ?_ ?_
    | with_reducible refine keeps_bind ?_ fun _ => ?_
    | simp

end Keeps

/-- The words that store into memory, move the dictionary, or reach the block
cache or the scheduler. -/
def CFun.loud : CFun → Bool
  | .wStore | .wCstore | .wPlusStore | .wAllot | .wComma | .wCComma | .wColon | .wSemicolon
  | .wCreate | .wVariable | .wConstant | .wImmediate | .wIf | .wElse | .wThen | .wUntil | .wAgain
  | .wWhile | .wRepeat | .wDo | .wLoop | .wBlock | .wUpdate | .wFlush | .wFork => true
  | _ => false

/-- The words that are not loud and do not set the number base. -/
theorem keeping_word {R : Data → Data → Prop} [Keeping R] {img : Image} {f : CFun}
    {w : NativeM Unit} (hf : dataWord img f = some w) (hloud : f.loud = false)
    (hdecimal : f ≠ .wDecimal) (hhex : f ≠ .wHex) : Keeps R w := by
  cases f <;> cases hloud <;> cases hf
  case wWords => exact keeps_bind keeps_get fun _ => keeps_dictListWordsFrom _ _ _
  case wClear => exact keeps_modify fun d => Keeping.still ⟨_, _, _, rfl⟩
  case wDecimal => exact absurd rfl hdecimal
  case wHex => exact absurd rfl hhex
  all_goals
    simp only [wDup, wDrop, wSwap, wOver, wRot, wNip, wTuck, w2dup, w2drop, w2swap, wQdup, wDepth,
      wPlus, wMinus, wMul, wDiv, wMod, wDivmod, wNegate, wAbs, wMin, wMax, w1plus, w1minus, w2star,
      w2slash, wAnd, wOr, wXor, wInvert, wLshift, wRshift, wEq, wNeq, wLt, wGt, wLe, wGe, w0eq,
      w0lt, w0gt, wVdup, wVplus, wFetch, wCfetch, wHere, wDot, wUDot, wDotS, wEmit, wCr, wSpace,
      wSpaces, wType, wDotQuote, wParen, wDotHex, wBye, wBase, wStatus, wTick, wBegin, wDump,
      wSee]
    repeat'
      first
      | with_reducible refine keeps_ite ?_ ?_
      | with_reducible refine keeps_bind ?_ fun _ => ?_
      | with_reducible exact keeps_forM _ fun _ => keeps_dumpByte _ _ _
      | with_reducible exact keeps_seeFrom _ _ _
      | simp

/-- **All other native words are quiet.** -/
theorem keeps_word {img : Image} {f : CFun} {w : NativeM Unit} (hf : dataWord img f = some w)
    (hloud : f.loud = false) : Keeps Quiet w := by
  by_cases hdecimal : f = .wDecimal
  · subst hdecimal
    cases hf
    exact keeps_modify fun d => ⟨_, _, _, _, rfl⟩
  · by_cases hhex : f = .wHex
    · subst hhex
      cases hf
      exact keeps_modify fun d => ⟨_, _, _, _, rfl⟩
    · exact keeping_word hf hloud hdecimal hhex

/-! ## One step of the machine -/

/-- The C function that the next step calls through a code field. -/
def calledFun (img : Image) (m : Machine) : Option CFun :=
  match m.frames with
  | .execute entry :: _ => img.decode (cellAt m.vm.data.mem (dictGetCodeField m.vm.data.mem entry))
  | .inner :: _ =>
      let cell := cellAt m.vm.data.mem m.vm.ip
      if InDict cell then
        img.decode (cellAt m.vm.data.mem (dictGetCodeField m.vm.data.mem cell))
      else none
  | _ => none

/-- The native word on the data that the next step calls. -/
def calledWord (img : Image) (m : Machine) : Option (NativeM Unit) :=
  (calledFun img m).bind (dataWord img)

/-- The words that read or write blocks. -/
def CFun.blocks : CFun → Bool
  | .wBlock | .wFlush | .wLoad | .wEdit => true
  | _ => false

/-- What a step with the active function `top` may do to the data, before it
switches tasks, if it is not the call of a native word on the data. `fn` is the
C function that it calls. -/
inductive Effect (img : Image) (fn : Option CFun) (top : Frame) (d : Data) : Data → Prop
  | quiet {d' : Data} : Quiet d d' → Effect img fn top d d'
  /-- `forth_eval` compiles a word, or a number. -/
  | compile {d₁ : Data} {v : Cell} : d.forthState = .compile → top = .eval → Quiet d d₁ →
      Effect img fn top d (d₁.dictComma v)
  | literal {d₁ : Data} {v : Cell} : d.forthState = .compile → top = .eval → Quiet d d₁ →
      Effect img fn top d ((d₁.dictComma (img.addr .doLiteral)).dictComma v)
  /-- `forth_eval` gives up. -/
  | unknown {d₁ : Data} : Quiet d d₁ → Effect img fn top d { d₁ with forthState := .interpret }
  /-- `LOAD` and `EDIT` get a block. -/
  | block {f : CFun} {d₁ d₂ : Data} {n : BitVec 32} : fn = some f → f.blocks = true → Quiet d d₁ →
      Quiet { d₁ with toState := (BlockDevice.blockGet img.buffers d₁.toState n).1 } d₂ →
      Effect img fn top d d₂
  /-- A key in the editor. -/
  | stroke {blk cursor : Nat} {n : BitVec 32} {key : Byte} : top = .editorKey blk n cursor →
      Effect img fn top d
        { d with mem := (editorStroke key (blk + BlockDevice.dataField) cursor d.mem).1 }
  | save {blk cursor : Nat} {n : BitVec 32} {d' : Data} : top = .editorKey blk n cursor → Quiet { d with
      toState := BlockDevice.blockFlush img.buffers (BlockDevice.blockUpdate d.toState) } d' →
      Effect img fn top d d'
  /-- `task_exit`. -/
  | exit : Effect img fn top d { d with tasks := d.tasks.modify d.current (setState .dead) }

section Steps

variable {img : Image} {m m' : Machine} {fn : Option CFun} {top : Frame}

theorem still_rsPush (vm : Vm) (v : Cell) : Still vm.data (vm.rsPush v).data := by
  unfold Vm.rsPush
  split
  · exact still_puts _ _
  · exact Still.refl _

theorem still_rsPop (vm : Vm) : Still vm.data vm.rsPop.2.data := by
  unfold Vm.rsPop
  split
  · exact still_puts _ _
  · exact Still.refl _

/-- The words on the return stack and the instruction pointer keep the rest of the data. -/
theorem still_vmWord {f : CFun} {w : Vm → Vm} (hf : vmWord f = some w) (vm : Vm) :
    Still vm.data (w vm).data := by
  cases f <;> cases hf
  case doLiteral =>
      show Still vm.data (vm.data.dsPush (cellAt vm.data.mem vm.ip))
      exact still_dsPush _ _
  case rtBranch =>
      dsimp only [rtBranch, Vm.ipFetchAdvance]
      exact Still.refl vm.data
  case rt0branch =>
      unfold rt0branch
      dsimp only [Vm.ipFetchAdvance]
      split <;> exact still_dsPop vm.data
  case rtDo =>
      have hpops := (still_dsPop vm.data).trans (still_dsPop vm.data.dsPop.2)
      have hlimit := still_rsPush ⟨vm.data.dsPop.2.dsPop.2, vm.rs, vm.ip⟩ vm.data.dsPop.2.dsPop.1
      unfold rtDo
      dsimp only
      generalize Vm.rsPush ⟨vm.data.dsPop.2.dsPop.2, vm.rs, vm.ip⟩ vm.data.dsPop.2.dsPop.1 = r
        at hlimit ⊢
      exact hpops.trans (hlimit.trans (still_rsPush r vm.data.dsPop.1))
  case rtLoop =>
      have hpop := still_rsPop { vm with ip := vm.ip + 8#64 }
      unfold rtLoop
      dsimp only [Vm.ipFetchAdvance]
      generalize Vm.rsPop { vm with ip := vm.ip + 8#64 } = r at hpop ⊢
      split
      · exact hpop.trans (still_rsPush r.2 (r.1 + 1#64))
      · exact hpop.trans (still_rsPop r.2)
  case wToR =>
      show Still vm.data (Vm.rsPush { vm with data := vm.data.dsPop.2 } vm.data.dsPop.1).data
      exact (still_dsPop vm.data).trans (still_rsPush { vm with data := vm.data.dsPop.2 } _)
  case wFromR =>
      show Still vm.data (vm.rsPop.2.data.dsPush vm.rsPop.1)
      exact (still_rsPop vm).trans (still_dsPush vm.rsPop.2.data _)
  case wRFetch =>
      show Still vm.data (vm.data.dsPush vm.rsPeek)
      exact still_dsPush _ _
  case wI =>
      show Still vm.data (vm.data.dsPush vm.rsPeek)
      exact still_dsPush _ _

theorem quiet_rsPush (vm : Vm) (v : Cell) : Quiet vm.data (vm.rsPush v).data :=
  (still_rsPush vm v).quiet

theorem quiet_rsPop (vm : Vm) : Quiet vm.data vm.rsPop.2.data := (still_rsPop vm).quiet

theorem quiet_vmWord {f : CFun} {w : Vm → Vm} (hf : vmWord f = some w) (vm : Vm) :
    Quiet vm.data (w vm).data := (still_vmWord hf vm).quiet

/-- What a step leaves behind: its effect, the frames it pushed, and whether it
yielded. -/
def Leads (img : Image) (fn : Option CFun) (top : Frame) (d : Data)
    (rest : List Frame) (m' : Machine) : Prop :=
  ∃ m₁ F, (∀ w, fn.bind (dataWord img) = some w → w.run d = some ((), m₁.vm.data)) ∧
    (fn.bind (dataWord img) = none → Effect img fn top d m₁.vm.data) ∧
    m₁.frames = F ++ rest ∧ Frame.wrapper ∉ F ∧ (m' = m₁ ∨ m' = yield m₁)

theorem Leads.effect {d : Data} {rest : List Frame} (F : List Frame)
    (hnone : fn.bind (dataWord img) = none) (he : Effect img fn top d m'.vm.data)
    (hF : m'.frames = F ++ rest) (hno : Frame.wrapper ∉ F) : Leads img fn top d rest m' := by
  refine ⟨m', F, fun w hw => ?_, fun _ => he, hF, hno, Or.inl rfl⟩
  rw [hnone] at hw
  cases hw

theorem Leads.quiet {d : Data} {rest : List Frame} (F : List Frame)
    (hnone : fn.bind (dataWord img) = none) (hq : Quiet d m'.vm.data)
    (hF : m'.frames = F ++ rest) (hno : Frame.wrapper ∉ F) : Leads img fn top d rest m' :=
  .effect F hnone (.quiet hq) hF hno

theorem Leads.yield {rest : List Frame} (F : List Frame) (hnone : fn.bind (dataWord img) = none)
    (hF : m.frames = F ++ rest) (hno : Frame.wrapper ∉ F) :
    Leads img fn top m.vm.data rest (yield m) := by
  refine ⟨m, F, fun w hw => ?_, fun _ => .quiet (Quiet.refl _), hF, hno, Or.inr rfl⟩
  rw [hnone] at hw
  cases hw

theorem callNative_leads {f : CFun} (h : callNative img f m = some m') :
    Leads img (some f) top m.vm.data m.frames m' := by
  unfold callNative at h
  split at h
  · -- a word that acts on the data alone
    rename_i w hw
    obtain ⟨⟨u, d'⟩, hrun, rfl⟩ := Option.map_eq_some_iff.mp h
    refine ⟨m.setData d', [], fun w' hw' => ?_, fun hnone => ?_, rfl, by simp, Or.inl rfl⟩
    · rw [Option.bind_some, hw] at hw'
      cases hw'
      exact hrun
    · rw [Option.bind_some, hw] at hnone
      cases hnone
  · rename_i hnone
    split at h
    · rename_i w hw
      cases h
      exact .quiet [] hnone (quiet_vmWord hw _) rfl (by simp)
    · split at h
      · cases h
        exact .quiet [.execute m.vm.data.dsPop.1] hnone (quiet_dsPop _) rfl (by simp)
      · cases h
        refine .effect [.eval, .load m.vm.data.dsPop.2.parsePtr] hnone
          (.block (n := ?_) rfl rfl (quiet_dsPop _) ?_) rfl (by simp)
        · exact m.vm.data.dsPop.1.setWidth 32
        · exact ⟨_, _, _, _, rfl⟩
      · cases h
        exact .yield [] hnone rfl (by simp)
      · cases h
        exact .effect [_] hnone (.block rfl rfl (quiet_dsPop _) (Quiet.refl _)) rfl (by simp)
      · cases h
        exact .quiet [] hnone (Quiet.refl _) rfl (by simp)

theorem callCode_leads {code entry : Cell} (h : callCode img code entry m = some m') :
    Leads img (img.decode code) top m.vm.data m.frames m' := by
  unfold callCode at h
  split at h
  · rename_i hcode
    cases h
    rw [hcode, img.decode_addr]
    exact .quiet [] rfl (quiet_dsPush _ _) rfl (by simp)
  · split at h
    · rename_i hcode
      cases h
      rw [hcode, img.decode_addr]
      exact .quiet [] rfl (quiet_dsPush _ _) rfl (by simp)
    · split at h
      · rename_i f hf
        rw [hf]
        exact callNative_leads h
      · cases h

theorem forthInner_leads {rest : List Frame} (hf : m.frames = .inner :: rest)
    (h : forthInner img rest m = some m') :
    Leads img (calledFun img m) .inner m.vm.data rest m' := by
  have hout : ¬ InDict (cellAt m.vm.data.mem m.vm.ip) → calledFun img m = none := by
    intro hin
    simp only [calledFun, hf, if_neg hin]
  unfold forthInner at h
  dsimp only [Vm.ipFetchAdvance] at h
  split at h
  · -- the exit of a word
    rename_i hcell
    have hpop := quiet_rsPop { m.vm with ip := m.vm.ip + 8#64 }
    rw [hout (by rw [hcell]; decide)]
    split at h
    · cases h
      exact .quiet [] rfl hpop rfl (by simp)
    · cases h
      exact .quiet [.inner] rfl hpop hf (by simp)
  · split at h
    · rename_i hcell
      rw [hout (by rw [hcell]; exact img.addr_not_inDict _)]
      cases h
      exact .quiet [.inner] rfl (quiet_dsPush _ _) hf (by simp)
    · split at h
      · rename_i hin
        rw [hout hin]
        cases h
        exact .quiet [] rfl (quiet_puts _ _) rfl (by simp)
      · rename_i hin
        have hcalled : calledFun img m = img.decode (cellAt m.vm.data.mem
            (dictGetCodeField m.vm.data.mem (cellAt m.vm.data.mem m.vm.ip))) := by
          simp only [calledFun, hf]
          rw [if_pos (not_not.mp hin)]
        rw [hcalled]
        split at h
        · rename_i hcode
          cases h
          rw [hcode, img.decode_addr]
          exact .quiet [.inner] rfl (quiet_rsPush _ _) hf (by simp)
        · obtain ⟨m₁, F, hword, heffect, hF, hno, hm⟩ := @callCode_leads _ _ _ .inner _ _ h
          refine ⟨m₁, F ++ [.inner], hword, heffect, ?_, by simp [hno], hm⟩
          rw [hF, List.append_assoc]
          exact congrArg (F ++ ·) hf

theorem forthEval_leads {rest : List Frame} (hf : m.frames = .eval :: rest)
    (h : forthEval img rest m = some m') :
    Leads img none .eval m.vm.data rest m' := by
  unfold forthEval at h
  dsimp only at h
  split at h
  · -- the end of the line
    cases h
    refine .quiet [] rfl ?_ rfl (by simp)
    dsimp only [Machine.setData]
    split <;> exact ⟨_, _, _, _, rfl⟩
  · split at h
    · cases h
    · split at h
      · split at h
        · rename_i hc
          cases h
          exact .effect [.eval] rfl (.compile hc.1 rfl ⟨_, _, _, _, rfl⟩) hf (by simp)
        · cases h
          refine .quiet [.execute ‹Cell›, .eval] rfl ⟨_, _, _, _, rfl⟩ ?_ (by simp)
          exact congrArg (_ :: ·) hf
      · split at h
        · split at h
          · rename_i hc
            cases h
            exact .effect [.eval] rfl (.literal hc rfl ⟨_, _, _, _, rfl⟩) hf (by simp)
          · cases h
            refine .quiet [.eval] rfl ?_ hf (by simp)
            exact Quiet.trans ⟨_, _, _, _, rfl⟩ (quiet_dsPush _ _)
        · cases h
          exact .effect [] rfl (.unknown ⟨_, _, _, _, rfl⟩) rfl (by simp)

theorem editorKey_leads {rest : List Frame} {blk cursor : Nat} {n : BitVec 32} {key : Byte}
    {kbd : Text} : Leads img none (.editorKey blk n cursor) m.vm.data rest
      (editorKey img rest blk n cursor key { m with kbd := kbd }) := by
  unfold editorKey
  dsimp only
  split
  · exact .effect [] rfl (.save rfl ⟨_, _, _, _, rfl⟩) rfl (by simp)
  · exact .effect [_] rfl (.stroke rfl) rfl (by simp)

theorem replKey_leads {rest : List Frame} {c : Byte} {kbd : Text}
    (hf : m.frames = .repl :: rest) : Leads img none .repl m.vm.data rest
      (replKey rest c { m with kbd := kbd }) := by
  unfold replKey
  split
  · dsimp only
    split
    · exact .quiet [.eval, .prompt, .repl] rfl ⟨_, _, _, _, rfl⟩ rfl (by simp)
    · exact .quiet [.prompt, .repl] rfl ⟨_, _, _, _, rfl⟩ rfl (by simp)
  · split
    · split
      · exact .quiet [.repl] rfl ⟨_, _, _, _, rfl⟩ hf (by simp)
      · exact .quiet [.repl] rfl (Quiet.refl _) hf (by simp)
    · split
      · exact .quiet [.repl] rfl ⟨_, _, _, _, rfl⟩ hf (by simp)
      · exact .quiet [.repl] rfl (Quiet.refl _) hf (by simp)

/-- **What a step of the machine does.** Only `yield` switches tasks, and no
step brings the frame of a task that has not started. -/
theorem step_cases (h : step img m = some m') : ∃ top, m.frames.head? = some top ∧
    Leads img (calledFun img m) top m.vm.data m.frames.tail m' := by
  unfold step at h
  split at h
  · cases h
  · -- forth_execute
    rename_i entry rest hf
    refine ⟨.execute entry, by rw [hf]; rfl, ?_⟩
    have hcalled : calledFun img m =
        img.decode (cellAt m.vm.data.mem (dictGetCodeField m.vm.data.mem entry)) := by
      simp only [calledFun, hf]
    rw [hf, List.tail_cons, hcalled]
    unfold forthExecute at h
    dsimp only at h
    split at h
    · rename_i hcode
      cases h
      rw [hcode, img.decode_addr]
      exact .quiet [.inner] rfl (quiet_rsPush _ _) rfl (by simp)
    · exact callCode_leads h
  · rename_i rest hf
    refine ⟨.inner, by rw [hf]; rfl, ?_⟩
    rw [hf, List.tail_cons]
    exact forthInner_leads hf h
  all_goals
    rename_i hf
    refine ⟨_, by rw [hf]; rfl, ?_⟩
    have hcalled : calledFun img m = none := by
      simp only [calledFun, hf]
    rw [hf, List.tail_cons, hcalled]
  · exact forthEval_leads hf h
  · -- w_load
    cases h
    exact .quiet [] rfl ⟨_, _, _, _, rfl⟩ rfl (by simp)
  · cases h
    exact .quiet [_] rfl ⟨_, _, _, _, rfl⟩ rfl (by simp)
  · split at h
    · cases h
      exact .yield [_] rfl hf (by simp)
    · cases h
      exact editorKey_leads
  · -- forth_thread_wrapper
    cases h
    split
    · exact .quiet [.execute _] rfl (Quiet.refl _) rfl (by simp)
    · exact .quiet [] rfl (Quiet.refl _) rfl (by simp)
  · cases h
    exact ⟨_, [.halt], (by rintro w ⟨⟩), fun _ => .exit, rfl, by simp, Or.inr rfl⟩
  · cases h
    exact .quiet [.halt] rfl (Quiet.refl _) hf (by simp)
  · cases h
    exact .yield [.worker] rfl hf (by simp)
  · split at h
    · cases h
      exact .yield [.repl] rfl hf (by simp)
    · cases h
      exact replKey_leads hf
  · cases h
    exact .quiet [] rfl (quiet_puts _ _) rfl (by simp)

end Steps

end VectorForth.Forth
