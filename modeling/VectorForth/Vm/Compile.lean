import VectorForth.Lib.Masks
import VectorForth.Vm.Code

/-!
# Compiling a colon body

The cells that the compiling words emit are those of `layout`. A construct
leaves the address of its unfilled operand, or of its start, on the data
stack; the word that closes it takes the address from there and patches or
uses it. `Emitted` is the state of the dictionary after some cells have been
compiled from an address on.
-/

namespace VectorForth.Forth

open ByteMemory

/-! ## Alignment -/

def Aligned (a : Cell) : Prop := a.toNat % 8 = 0

theorem alignCell_toNat {a : Cell} (h : a.toNat + 16 < 2 ^ 64) :
    (alignCell a).toNat = (a.toNat + 7) / 8 * 8 :=
  Masks.toNat_round_up (k := 3) a (by decide) (by omega)

theorem alignCell_of_aligned {a : Cell} (h : Aligned a) (hlt : a.toNat + 16 < 2 ^ 64) :
    alignCell a = a := by
  apply BitVec.eq_of_toNat_eq
  rw [alignCell_toNat hlt]
  unfold Aligned at h
  omega

theorem Aligned.offset {a : Cell} {n : Nat} (h : Aligned a) (hlt : a.toNat + 8 * n < 2 ^ 64) :
    Aligned (offset a n) := by
  unfold Aligned at h
  rw [Aligned, offset_toNat hlt]
  omega

/-! ## One cell -/

theorem cellAt_write64_same (m : Mem) (a v : Cell) :
    cellAt (write64 m a.toNat v.toNat) a = v := by
  rw [cellAt, read64_write64_of_lt v.isLt, BitVec.ofNat_toNat, BitVec.setWidth_eq]

theorem cellAt_write64_other {m : Mem} {a b v : Cell}
    (h : b.toNat + 8 ≤ a.toNat ∨ a.toNat + 8 ≤ b.toNat) :
    cellAt (write64 m a.toNat v.toNat) b = cellAt m b := by
  rw [cellAt, cellAt, read64_write64_of_disjoint h]

theorem cellsAt_write64_other {m : Mem} {a b v : Cell} {cs : List Cell}
    (h : b.toNat + 8 * cs.length ≤ a.toNat ∨ a.toNat + 8 ≤ b.toNat)
    (htop : b.toNat + 8 * cs.length < 2 ^ 64) :
    CellsAt (write64 m a.toNat v.toNat) b cs ↔ CellsAt m b cs := by
  induction cs generalizing b with
  | nil => exact Iff.rfl
  | cons c cs ih =>
      rw [List.length_cons] at h htop
      have hnext : (offset b 1).toNat = b.toNat + 8 := offset_toNat (by omega)
      rw [CellsAt, CellsAt, cellAt_write64_other (by omega), ih (by omega) (by omega)]

def Data.withStack (d : Data) (ds : List Cell) : Data := { d with ds := ds }

@[simp] theorem Data.withStack_mem (d : Data) (ds : List Cell) : (d.withStack ds).mem = d.mem := rfl

@[simp] theorem Data.withStack_ds (d : Data) (ds : List Cell) : (d.withStack ds).ds = ds := rfl

@[simp] theorem Data.withStack_dictHere (d : Data) (ds : List Cell) :
    (d.withStack ds).dictHere = d.dictHere := rfl

/-- Only memory, `HERE` and the data stack differ. -/
def SameBut (d d' : Data) : Prop :=
  ∃ m here ds, d' = { d with mem := m, dictHere := here, ds := ds }

theorem SameBut.refl (d : Data) : SameBut d d := ⟨_, _, _, rfl⟩

theorem SameBut.trans {d d' d'' : Data} (h : SameBut d d') (h' : SameBut d' d'') :
    SameBut d d'' := by
  obtain ⟨m, here, ds, rfl⟩ := h
  obtain ⟨m', here', ds', rfl⟩ := h'
  exact ⟨m', here', ds', rfl⟩

/-- The cells `cs` have been compiled from `a` on. -/
structure Emitted (d d' : Data) (a : Cell) (cs : List Cell) : Prop where
  same : SameBut d d'
  here : d'.dictHere = offset a cs.length
  cells : CellsAt d'.mem a cs
  frame : ∀ x, x < a.toNat ∨ a.toNat + 8 * cs.length ≤ x → d'.mem x = d.mem x

section Emitted

variable {d d' d'' : Data} {a : Cell} {cs ds : List Cell}

theorem SameBut.withStack (d : Data) (ds : List Cell) : SameBut d (d.withStack ds) :=
  ⟨d.mem, d.dictHere, ds, rfl⟩

/-- The stack before the first cell does not matter. -/
theorem Emitted.ofStack {ds' : List Cell} (h : Emitted (d.withStack ds') d' a cs) :
    Emitted d d' a cs :=
  ⟨(SameBut.withStack d ds').trans h.same, h.here, h.cells, h.frame⟩

theorem Emitted.nil (h : SameBut d d') (hhere : d'.dictHere = a) (hmem : d'.mem = d.mem) :
    Emitted d d' a [] :=
  ⟨h, by rw [hhere, List.length_nil, offset_zero], trivial, fun x _ => by rw [hmem]⟩

theorem Emitted.append (htop : a.toNat + 8 * (cs.length + ds.length) < 2 ^ 64)
    (h : Emitted d d' a cs) (h' : Emitted d' d'' (offset a cs.length) ds) :
    Emitted d d'' a (cs ++ ds) := by
  have haddr : (offset a cs.length).toNat = a.toNat + 8 * cs.length := offset_toNat (by omega)
  refine ⟨h.same.trans h'.same, ?_, ?_, ?_⟩
  · rw [h'.here, offset_offset, List.length_append]
  · rw [cellsAt_append]
    refine ⟨?_, h'.cells⟩
    refine h.cells.congr (P := { x | x < a.toNat + 8 * cs.length }) ?_ ?_ (by omega)
    · intro x hx
      apply h'.frame
      rw [haddr]
      exact Or.inl hx
    · intro x _ hx
      exact hx
  · intro x hx
    rw [List.length_append] at hx
    rw [h'.frame x (by rw [haddr]; omega), h.frame x (by omega)]

theorem Emitted.withStack {ds' : List Cell} (h : Emitted d d' a cs) :
    Emitted d (d'.withStack ds') a cs :=
  ⟨h.same.trans ⟨d'.mem, d'.dictHere, ds', rfl⟩, h.here, h.cells, h.frame⟩

/-- A cell that has been compiled is filled in later. -/
theorem Emitted.patch {c v : Cell} (htop : a.toNat + 8 * (cs.length + 1 + ds.length) < 2 ^ 64)
    (h : Emitted d d' a (cs ++ c :: ds)) :
    Emitted d (d'.setCell (offset a cs.length) v) a (cs ++ v :: ds) := by
  have haddr : (offset a cs.length).toNat = a.toNat + 8 * cs.length := offset_toNat (by omega)
  have hnext : (offset (offset a cs.length) 1).toNat = a.toNat + 8 * cs.length + 8 := by
    rw [offset_offset, offset_toNat (by omega)]
    omega
  have hcells := h.cells
  rw [cellsAt_append, CellsAt] at hcells
  refine ⟨?_, ?_, ?_, ?_⟩
  · exact h.same.trans ⟨write64 d'.mem _ v.toNat, d'.dictHere, d'.ds, rfl⟩
  · rw [Data.setCell, h.here, List.length_append, List.length_append, List.length_cons,
      List.length_cons]
  · rw [cellsAt_append, CellsAt, Data.setCell]
    refine ⟨?_, cellAt_write64_same .., ?_⟩
    · rw [cellsAt_write64_other (Or.inl (by omega)) (by omega)]
      exact hcells.1
    · rw [cellsAt_write64_other (Or.inr (by omega)) (by omega)]
      exact hcells.2.2
  · intro x hx
    rw [List.length_append, List.length_cons] at hx
    rw [Data.setCell]
    dsimp only
    rw [write64_outside (by omega), h.frame x (by rw [List.length_append, List.length_cons]; omega)]

theorem emitted_comma (ha : Aligned a) (htop : a.toNat + 16 < 2 ^ 64) (hhere : d.dictHere = a)
    (v : Cell) : Emitted d (d.dictComma v) a [v] := by
  subst hhere
  have halign : d.dictAlign = d := by
    rw [Data.dictAlign, alignCell_of_aligned ha htop]
  have hcomma : d.dictComma v =
      { d with
        mem := write64 d.mem d.dictHere.toNat v.toNat
        dictHere := d.dictHere + 8#64 } := by
    rw [Data.dictComma, halign]
    rfl
  rw [hcomma]
  refine ⟨⟨_, _, _, rfl⟩, rfl, ⟨cellAt_write64_same .., trivial⟩, ?_⟩
  intro x hx
  exact write64_outside hx

end Emitted

/-! ## The compiling words -/

section Words

variable {img : Image} {d : Data} {a : Cell}

/-- Two cells in a row. -/
theorem emitted_comma₂ (ha : Aligned a) (htop : a.toNat + 24 < 2 ^ 64) (hhere : d.dictHere = a)
    (v w : Cell) : Emitted d ((d.dictComma v).dictComma w) a [v, w] := by
  have h₁ := emitted_comma ha (by omega) hhere v
  have hnext : (offset a 1).toNat = a.toNat + 8 := offset_toNat (by omega)
  have h₂ := emitted_comma (ha.offset (n := 1) (by omega)) (by omega) h₁.here w
  exact h₁.append (by simp only [List.length_cons, List.length_nil]; omega) h₂

theorem dsPush_eq {v : Cell} (h : d.ds.length < dataStackSize) :
    d.dsPush v = d.withStack (v :: d.ds) := by
  rw [Data.dsPush, if_neg (by omega)]
  rfl

theorem dsPop_eq {v : Cell} {ds : List Cell} (h : d.ds = v :: ds) :
    d.dsPop = (v, d.withStack ds) := by
  rw [Data.dsPop, h]
  rfl

@[simp] theorem dictComma_ds (d : Data) (v : Cell) : (d.dictComma v).ds = d.ds := rfl

theorem wIf_run (img : Image) (d : Data) : (wIf img).run d =
    some ((), ((d.dictComma (img.addr .rt0branch)).dsPush
      (d.dictComma (img.addr .rt0branch)).dictHere).dictComma 0#64) := rfl

theorem wElse_run (img : Image) (d : Data) : (wElse img).run d =
    some ((), ((((d.dictComma (img.addr .rtBranch)).dictComma 0#64).dsPop.2).setCell
      ((d.dictComma (img.addr .rtBranch)).dictComma 0#64).dsPop.1
      ((d.dictComma (img.addr .rtBranch)).dictComma 0#64).dsPop.2.dictHere).dsPush
      (d.dictComma (img.addr .rtBranch)).dictHere) := rfl

theorem wThen_run (d : Data) : wThen.run d =
    some ((), d.dsPop.2.setCell d.dsPop.1 d.dsPop.2.dictHere) := rfl

theorem wBegin_run (d : Data) : wBegin.run d = some ((), d.dsPush d.dictHere) := rfl

theorem wUntil_run (img : Image) (d : Data) : (wUntil img).run d =
    some ((), (d.dsPop.2.dictComma (img.addr .rt0branch)).dictComma d.dsPop.1) := rfl

theorem wAgain_run (img : Image) (d : Data) : (wAgain img).run d =
    some ((), (d.dsPop.2.dictComma (img.addr .rtBranch)).dictComma d.dsPop.1) := rfl

/-- `WHILE` does what `IF` does. -/
theorem wWhile_run (img : Image) (d : Data) : (wWhile img).run d = (wIf img).run d := rfl

theorem wRepeat_run (img : Image) (d : Data) : (wRepeat img).run d =
    some ((), ((d.dsPop.2.dsPop.2.dictComma (img.addr .rtBranch)).dictComma
      d.dsPop.2.dsPop.1).setCell d.dsPop.1
      ((d.dsPop.2.dsPop.2.dictComma (img.addr .rtBranch)).dictComma
        d.dsPop.2.dsPop.1).dictHere) := rfl

theorem wDo_run (img : Image) (d : Data) : (wDo img).run d =
    some ((), (d.dictComma (img.addr .rtDo)).dsPush
      (d.dictComma (img.addr .rtDo)).dictHere) := rfl

theorem wLoop_run (img : Image) (d : Data) : (wLoop img).run d =
    some ((), (d.dsPop.2.dictComma (img.addr .rtLoop)).dictComma d.dsPop.1) := rfl

/-- `IF` and `WHILE`: a conditional branch whose operand is left open. -/
theorem openHole_spec (img : Image) (ha : Aligned a) (htop : a.toNat + 24 < 2 ^ 64)
    (hhere : d.dictHere = a)
    (hds : d.ds.length < dataStackSize) :
    ∃ d', (wIf img).run d = some ((), d') ∧
      Emitted d d' a [img.addr .rt0branch, 0#64] ∧ d'.ds = offset a 1 :: d.ds := by
  have h₁ := emitted_comma ha (by omega) hhere (img.addr .rt0branch)
  have hnext : (offset a 1).toNat = a.toNat + 8 := offset_toNat (by omega)
  have hrun := wIf_run img d
  rw [dsPush_eq (by rwa [dictComma_ds]), h₁.here] at hrun
  refine ⟨_, hrun, ?_, by simp⟩
  have h₂ := emitted_comma (d := (d.dictComma (img.addr .rt0branch)).withStack (offset a 1 :: d.ds))
    (ha.offset (n := 1) (by omega)) (by omega) h₁.here 0#64
  exact h₁.withStack.append (by simp only [List.length_cons, List.length_nil]; omega) h₂

/-- `UNTIL`, `AGAIN` and `LOOP`: a branch back to the address on the stack. -/
theorem closeLoop_spec (img : Image) (f : CFun) (ha : Aligned a) (htop : a.toNat + 24 < 2 ^ 64)
    (hhere : d.dictHere = a) {b : Cell} {ds : List Cell} (hds : d.ds = b :: ds) :
    Emitted d ((d.dsPop.2.dictComma (img.addr f)).dictComma d.dsPop.1) a [img.addr f, b] ∧
      ((d.dsPop.2.dictComma (img.addr f)).dictComma d.dsPop.1).ds = ds := by
  rw [dsPop_eq hds]
  exact ⟨(emitted_comma₂ (d := d.withStack ds) ha htop hhere (img.addr f) b).ofStack, rfl⟩

/-- `BEGIN`. -/
theorem wBegin_spec (hhere : d.dictHere = a) (hds : d.ds.length < dataStackSize) :
    ∃ d', wBegin.run d = some ((), d') ∧ Emitted d d' a [] ∧ d'.ds = a :: d.ds := by
  have hrun := wBegin_run d
  rw [dsPush_eq hds, hhere] at hrun
  exact ⟨_, hrun, .nil (SameBut.withStack ..) hhere rfl, rfl⟩

/-- `DO`. -/
theorem wDo_spec (img : Image) (ha : Aligned a) (htop : a.toNat + 24 < 2 ^ 64) (hhere : d.dictHere = a)
    (hds : d.ds.length < dataStackSize) :
    ∃ d', (wDo img).run d = some ((), d') ∧ Emitted d d' a [img.addr .rtDo] ∧
      d'.ds = offset a 1 :: d.ds := by
  have h := emitted_comma ha (by omega) hhere (img.addr .rtDo)
  have hrun := wDo_run img d
  rw [dsPush_eq (by rwa [dictComma_ds]), h.here] at hrun
  exact ⟨_, hrun, h.withStack, rfl⟩

/-- `THEN` fills the hole with `HERE`. -/
theorem wThen_spec {hole : Cell} {ds : List Cell} (hds : d.ds = hole :: ds) :
    wThen.run d = some ((), (d.withStack ds).setCell hole d.dictHere) := by
  rw [wThen_run, dsPop_eq hds]
  rfl

/-- `ELSE` opens a hole of its own and fills that of `IF`. -/
theorem wElse_spec (img : Image) (ha : Aligned a) (htop : a.toNat + 24 < 2 ^ 64) (hhere : d.dictHere = a)
    {hole : Cell} {ds : List Cell} (hds : d.ds = hole :: ds) (hroom : ds.length < dataStackSize) :
    ∃ d', Emitted d d' a [img.addr .rtBranch, 0#64] ∧
      (wElse img).run d =
        some ((), (d'.setCell hole (offset a 2)).withStack (offset a 1 :: ds)) := by
  have h₁ := emitted_comma ha (by omega) hhere (img.addr .rtBranch)
  have h₂ := emitted_comma₂ ha htop hhere (img.addr .rtBranch) 0#64
  have hrun := wElse_run img d
  rw [dsPop_eq (show _ = hole :: ds by simpa using hds), Data.withStack_dictHere, h₁.here, h₂.here,
    dsPush_eq (by simpa [Data.setCell] using hroom)] at hrun
  exact ⟨_, h₂.withStack, hrun⟩

/-- `REPEAT` branches back and fills the hole of `WHILE`. -/
theorem wRepeat_spec (img : Image) (ha : Aligned a) (htop : a.toNat + 24 < 2 ^ 64)
    (hhere : d.dictHere = a)
    {w b : Cell} {ds : List Cell} (hds : d.ds = w :: b :: ds) :
    ∃ d', Emitted d d' a [img.addr .rtBranch, b] ∧ d'.ds = ds ∧
      (wRepeat img).run d = some ((), d'.setCell w (offset a 2)) := by
  have hrun := wRepeat_run img d
  have h := emitted_comma₂ (d := d.withStack ds) ha htop hhere (img.addr .rtBranch) b
  rw [dsPop_eq hds] at hrun
  dsimp only at hrun
  rw [dsPop_eq (d := d.withStack (b :: ds)) rfl] at hrun
  dsimp only at hrun
  change (wRepeat img).run d = some ((), (((d.withStack ds).dictComma (img.addr .rtBranch)).dictComma
    b).setCell w (((d.withStack ds).dictComma (img.addr .rtBranch)).dictComma b).dictHere) at hrun
  rw [h.here] at hrun
  exact ⟨_, h.ofStack, rfl, hrun⟩

end Words

/-! ## Tokens -/

/-- A token of a colon body as the outer interpreter sees it: a number, a word
to compile, or an immediate word that runs now. -/
inductive Token
  | lit (v : Cell)
  | word (entry : Cell)
  | control (f : CFun)

def Body.tokens : Body → List Token
  | .nil => []
  | .lit v rest => .lit v :: rest.tokens
  | .word e rest => .word e :: rest.tokens
  | .ifThen yes rest => .control .wIf :: (yes.tokens ++ .control .wThen :: rest.tokens)
  | .ifElse yes no rest =>
      .control .wIf :: (yes.tokens ++ .control .wElse ::
        (no.tokens ++ .control .wThen :: rest.tokens))
  | .untilLoop body rest => .control .wBegin :: (body.tokens ++ .control .wUntil :: rest.tokens)
  | .againLoop body rest => .control .wBegin :: (body.tokens ++ .control .wAgain :: rest.tokens)
  | .whileLoop test body rest =>
      .control .wBegin :: (test.tokens ++ .control .wWhile ::
        (body.tokens ++ .control .wRepeat :: rest.tokens))
  | .doLoop body rest => .control .wDo :: (body.tokens ++ .control .wLoop :: rest.tokens)

/-- The data-stack slots that compiling a body takes. -/
def Body.holes : Body → Nat
  | .nil => 0
  | .lit _ rest => rest.holes
  | .word _ rest => rest.holes
  | .ifThen yes rest => max (1 + yes.holes) rest.holes
  | .ifElse yes no rest => max (max (1 + yes.holes) (1 + no.holes)) rest.holes
  | .untilLoop body rest => max (1 + body.holes) rest.holes
  | .againLoop body rest => max (1 + body.holes) rest.holes
  | .whileLoop test body rest => max (max (1 + test.holes) (2 + body.holes)) rest.holes
  | .doLoop body rest => max (1 + body.holes) rest.holes

section Tokens

variable {img : Image}

/-- What a token does in compile state. -/
def compileToken (img : Image) (d : Data) : Token → Option Data
  | .lit v => some ((d.dictComma (img.addr .doLiteral)).dictComma v)
  | .word e => some (d.dictComma e)
  | .control f => (dataWord img f).bind fun w => (w.run d).map Prod.snd

/-- The tokens `ts` lead from `d` to `d'`, each of them read in a state in `Q`. -/
inductive Feeds (img : Image) (Q : Data → Prop) : List Token → Data → Data → Prop
  | nil {d : Data} : Feeds img Q [] d d
  | cons {t : Token} {ts : List Token} {d d' d'' : Data} : Q d → compileToken img d t = some d' →
      Feeds img Q ts d' d'' → Feeds img Q (t :: ts) d d''

section Feeds

variable {Q Q' : Data → Prop} {ts ts' : List Token} {d d' d'' : Data}

theorem Feeds.append (h : Feeds img Q ts d d') (h' : Feeds img Q ts' d' d'') :
    Feeds img Q (ts ++ ts') d d'' := by
  induction h with
  | nil => exact h'
  | cons hQ hrun _ ih => exact .cons hQ hrun (ih h')

theorem Feeds.mono (hQ : ∀ x, Q x → Q' x) (h : Feeds img Q ts d d') : Feeds img Q' ts d d' := by
  induction h with
  | nil => exact .nil
  | cons hd hrun _ ih => exact .cons (hQ _ hd) hrun ih

theorem Feeds.single {t : Token} (hd : Q d) (hrun : compileToken img d t = some d') :
    Feeds img Q [t] d d' :=
  .cons hd hrun .nil

end Feeds

/-- Nothing below `a` has changed since `d`. -/
structure KeptBelow (d : Data) (a : Cell) (x : Data) : Prop where
  same : SameBut d x
  mem : ∀ y, y < a.toNat → x.mem y = d.mem y

theorem KeptBelow.refl (d : Data) (a : Cell) : KeptBelow d a d := ⟨.refl d, fun _ _ => rfl⟩

theorem KeptBelow.trans {d d' x : Data} {a b : Cell} (hab : a.toNat ≤ b.toNat)
    (h : KeptBelow d a d') (h' : KeptBelow d' b x) : KeptBelow d a x :=
  ⟨h.same.trans h'.same, fun y hy => (h'.mem y (by omega)).trans (h.mem y hy)⟩

theorem Emitted.keptBelow {d d' : Data} {a : Cell} {cs : List Cell} (h : Emitted d d' a cs) :
    KeptBelow d a d' :=
  ⟨h.same, fun y hy => h.frame y (Or.inl hy)⟩

/-- The tokens `ts` compile the cells `cs` from `a` on. -/
structure Compiles (img : Image) (ts : List Token) (d d' : Data) (a : Cell) (cs : List Cell) :
    Prop where
  run : Feeds img (KeptBelow d a) ts d d'
  emitted : Emitted d d' a cs

variable {d d' d'' : Data} {a : Cell}

theorem Compiles.append {ts ts' : List Token} {cs cs' : List Cell}
    (htop : a.toNat + 8 * (cs.length + cs'.length) < 2 ^ 64) (h : Compiles img ts d d' a cs)
    (h' : Compiles img ts' d' d'' (offset a cs.length) cs') :
    Compiles img (ts ++ ts') d d'' a (cs ++ cs') := by
  have haddr : (offset a cs.length).toNat = a.toNat + 8 * cs.length := offset_toNat (by omega)
  refine ⟨h.run.append (h'.run.mono ?_), h.emitted.append htop h'.emitted⟩
  intro x hx
  exact h.emitted.keptBelow.trans (by omega) hx

theorem Compiles.nil (hhere : d.dictHere = a) : Compiles img [] d d a [] :=
  ⟨.nil, .nil (.refl d) hhere rfl⟩

theorem Compiles.single {t : Token} {cs : List Cell} (hrun : compileToken img d t = some d')
    (h : Emitted d d' a cs) : Compiles img [t] d d' a cs :=
  ⟨.single (.refl d a) hrun, h⟩

theorem compileToken_control {f : CFun} {w : NativeM Unit} (hf : dataWord img f = some w)
    (hrun : w.run d = some ((), d')) : compileToken img d (.control f) = some d' := by
  rw [compileToken, hf, Option.bind_some, hrun]
  rfl

theorem Compiles.control {f : CFun} {w : NativeM Unit} {cs : List Cell}
    (hf : dataWord img f = some w) (hrun : w.run d = some ((), d')) (h : Emitted d d' a cs) :
    Compiles img [.control f] d d' a cs :=
  .single (compileToken_control hf hrun) h

end Tokens

/-! ## Bodies -/

section Bodies

variable {img : Image}

/-- Where a body is compiled: aligned, with room for it above `HERE` and for its
holes on the data stack. -/
structure Room (d : Data) (a : Cell) (size holes : Nat) : Prop where
  aligned : Aligned a
  top : a.toNat + 8 * (size + 3) < 2 ^ 64
  here : d.dictHere = a
  stack : d.ds.length + holes ≤ dataStackSize

def CompilesTo (img : Image) (b : Body) : Prop :=
  ∀ d a, Room d a b.size b.holes → ∃ d', Compiles img b.tokens d d' a (layout img b a) ∧ d'.ds = d.ds

theorem compilesTo_nil : CompilesTo img .nil := by
  intro d a hroom
  exact ⟨d, .nil hroom.here, rfl⟩

theorem compilesTo_lit {v : Cell} {rest : Body} (ih : CompilesTo img rest) :
    CompilesTo img (.lit v rest) := by
  intro d a ⟨ha, htop, hhere, hstack⟩
  simp only [Body.size, Body.holes] at htop hstack
  have hcells := emitted_comma₂ ha (by omega) hhere (img.addr .doLiteral) v
  have hlit : Compiles img [.lit v] d _ a [img.addr .doLiteral, v] := .single rfl hcells
  have haddr : (offset a 2).toNat = a.toNat + 8 * 2 := offset_toNat (by omega)
  obtain ⟨d', hrest, hds⟩ := ih _ (offset a 2)
    ⟨ha.offset (by omega), by omega, hcells.here, by simpa using hstack⟩
  refine ⟨d', hlit.append ?_ hrest, hds⟩
  rw [length_layout]
  simp only [List.length_cons, List.length_nil]
  omega

theorem compilesTo_word {e : Cell} {rest : Body} (ih : CompilesTo img rest) :
    CompilesTo img (.word e rest) := by
  intro d a ⟨ha, htop, hhere, hstack⟩
  simp only [Body.size, Body.holes] at htop hstack
  have hcell := emitted_comma ha (by omega) hhere e
  have hword : Compiles img [.word e] d _ a [e] := .single rfl hcell
  have haddr : (offset a 1).toNat = a.toNat + 8 * 1 := offset_toNat (by omega)
  obtain ⟨d', hrest, hds⟩ := ih _ (offset a 1)
    ⟨ha.offset (by omega), by omega, hcell.here, by simpa using hstack⟩
  refine ⟨d', hword.append ?_ hrest, hds⟩
  rw [length_layout]
  simp only [List.length_cons, List.length_nil]
  omega

/-- A body compiled after `n` cells. -/
theorem Compiles.body {d d' : Data} {a : Cell} {b : Body} {ts : List Token} {cs : List Cell}
    {n : Nat} (h : Compiles img ts d d' a cs) (hn : cs.length = n) (ha : Aligned a)
    (htop : a.toNat + 8 * (n + b.size + 3) < 2 ^ 64)
    (hstack : d'.ds.length + b.holes ≤ dataStackSize) (ih : CompilesTo img b) :
    ∃ d'', Compiles img (ts ++ b.tokens) d d'' a (cs ++ layout img b (offset a n)) ∧
      d''.dictHere = offset a (n + b.size) ∧ d''.ds = d'.ds := by
  subst hn
  have haddr : (offset a cs.length).toNat = a.toNat + 8 * cs.length := offset_toNat (by omega)
  obtain ⟨d'', hbody, hds⟩ := ih d' (offset a cs.length)
    ⟨ha.offset (by omega), by omega, h.emitted.here, hstack⟩
  have h' := h.append (by rw [length_layout]; omega) hbody
  refine ⟨d'', h', ?_, hds⟩
  rw [h'.emitted.here, List.length_append, length_layout]

@[simp] theorem setCell_ds (d : Data) (x v : Cell) : (d.setCell x v).ds = d.ds := rfl

/-- A word that emits `cs₂` and fills a hole among the cells compiled before. -/
theorem Compiles.close {d d' d₂ : Data} {a : Cell} {f : CFun} {w : NativeM Unit} {ts : List Token}
    {c v : Cell} {cs cs₁ cs₂ ds : List Cell} {n : Nat} (hn : n = cs.length + 1 + cs₁.length)
    (htop : a.toNat + 8 * (n + cs₂.length) < 2 ^ 64)
    (h : Compiles img ts d d' a (cs ++ c :: cs₁)) (hf : dataWord img f = some w)
    (hnew : Emitted d' d₂ (offset a n) cs₂)
    (hrun : w.run d' = some ((), (d₂.setCell (offset a cs.length) v).withStack ds)) :
    Compiles img (ts ++ [.control f]) d ((d₂.setCell (offset a cs.length) v).withStack ds) a
      (cs ++ v :: (cs₁ ++ cs₂)) := by
  have hlen : (cs ++ c :: cs₁).length = n := by
    rw [List.length_append, List.length_cons]
    omega
  have hcells : Emitted d d₂ a (cs ++ c :: (cs₁ ++ cs₂)) := by
    rw [← hlen] at hnew
    have hall := h.emitted.append (by rw [hlen]; exact htop) hnew
    rwa [List.append_assoc, List.cons_append] at hall
  exact ⟨h.run.append (.single h.emitted.keptBelow (compileToken_control hf hrun)),
    (hcells.patch (by rw [List.length_append]; omega)).withStack⟩

/-- The cells and tokens of `IF` and the body after it. -/
theorem compiles_if {d : Data} {a : Cell} {yes : Body} (ha : Aligned a)
    (htop : a.toNat + 8 * (2 + yes.size + 3) < 2 ^ 64) (hhere : d.dictHere = a)
    (hstack : d.ds.length + (1 + yes.holes) ≤ dataStackSize) (ih : CompilesTo img yes) :
    ∃ d', Compiles img (.control .wIf :: yes.tokens) d d' a
        ([img.addr .rt0branch] ++ 0#64 :: layout img yes (offset a 2)) ∧
      d'.dictHere = offset a (2 + yes.size) ∧ d'.ds = offset a 1 :: d.ds := by
  obtain ⟨d₁, hif, hcells, hds₁⟩ := openHole_spec img ha (by omega) hhere (by omega)
  have hopen : Compiles img [.control .wIf] d d₁ a [img.addr .rt0branch, 0#64] :=
    .control rfl hif hcells
  obtain ⟨d', hyes, hhere', hds⟩ := hopen.body (n := 2) rfl ha htop
    (by rw [hds₁, List.length_cons]; omega) ih
  exact ⟨d', hyes, hhere', hds.trans hds₁⟩

/-- `THEN` finds the hole on the stack. -/
theorem compiles_then {d d' : Data} {a c : Cell} {ts : List Token} {cs cs₁ ds : List Cell} {n : Nat}
    (hn : n = cs.length + 1 + cs₁.length) (htop : a.toNat + 8 * n < 2 ^ 64)
    (h : Compiles img ts d d' a (cs ++ c :: cs₁)) (hds : d'.ds = offset a cs.length :: ds) :
    ∃ d'', Compiles img (ts ++ [.control .wThen]) d d'' a (cs ++ offset a n :: cs₁) ∧
      d''.ds = ds := by
  have hhere : d'.dictHere = offset a n := by
    rw [h.emitted.here, List.length_append, List.length_cons, hn]
    congr 1
    omega
  have hrun := wThen_spec hds
  rw [hhere] at hrun
  refine ⟨(d'.setCell (offset a cs.length) (offset a n)).withStack ds, ?_, rfl⟩
  have hnew : Emitted d' d' (offset a n) [] := .nil (.refl d') hhere rfl
  have hclose := h.close hn (by simpa using htop) (f := .wThen) rfl hnew hrun
  rwa [List.append_nil] at hclose

theorem compilesTo_ifThen {yes rest : Body} (ihyes : CompilesTo img yes)
    (ihrest : CompilesTo img rest) : CompilesTo img (.ifThen yes rest) := by
  intro d a ⟨ha, htop, hhere, hstack⟩
  simp only [Body.size, Body.holes] at htop hstack
  obtain ⟨d₁, hyes, hhere₁, hds₁⟩ := compiles_if ha (by omega) hhere (by omega) ihyes
  have hlen := length_layout img yes (offset a 2)
  obtain ⟨d₂, hthen, hds₂⟩ := compiles_then (n := 2 + yes.size)
    (by rw [hlen, List.length_singleton]) (by omega) hyes hds₁
  obtain ⟨d', hall, -, hds'⟩ := hthen.body (n := 2 + yes.size)
    (by simp [hlen]; omega) ha (by omega) (by rw [hds₂]; omega) ihrest
  refine ⟨d', ?_, hds'.trans hds₂⟩
  simpa [Body.tokens, layout] using hall

theorem compilesTo_ifElse {yes no rest : Body} (ihyes : CompilesTo img yes)
    (ihno : CompilesTo img no) (ihrest : CompilesTo img rest) :
    CompilesTo img (.ifElse yes no rest) := by
  intro d a ⟨ha, htop, hhere, hstack⟩
  simp only [Body.size, Body.holes] at htop hstack
  obtain ⟨d₁, hyes, hhere₁, hds₁⟩ := compiles_if ha (by omega) hhere (by omega) ihyes
  have hlen := length_layout img yes (offset a 2)
  have haddr : (offset a (2 + yes.size)).toNat = a.toNat + 8 * (2 + yes.size) :=
    offset_toNat (by omega)
  -- `ELSE` leaves a hole of its own and fills that of `IF`
  obtain ⟨d₂, hcells, helse⟩ := wElse_spec img (ha.offset (n := 2 + yes.size) (by omega))
    (by omega) hhere₁ hds₁ (by omega)
  rw [offset_offset, offset_offset] at helse
  have hmid := hyes.close (n := 2 + yes.size) (by rw [hlen, List.length_singleton])
    (by simp only [List.length_cons, List.length_nil]; omega) (f := .wElse) rfl hcells helse
  obtain ⟨d₃, hno, hhere₃, hds₃⟩ := hmid.body (n := 2 + yes.size + 2) (by simp [hlen]; omega) ha
    (by omega) (by simp; omega) ihno
  have hlen' := length_layout img no (offset a (2 + yes.size + 2))
  have hmid' : Compiles img (.control .wIf :: yes.tokens ++ [.control .wElse] ++ no.tokens) d d₃ a
      ((img.addr .rt0branch :: offset a (2 + yes.size + 2) ::
        (layout img yes (offset a 2) ++ [img.addr .rtBranch])) ++
        0#64 :: layout img no (offset a (2 + yes.size + 2))) := by
    simpa using hno
  have hhole : d₃.ds = offset a (img.addr .rt0branch :: offset a (2 + yes.size + 2) ::
      (layout img yes (offset a 2) ++ [img.addr .rtBranch])).length :: d.ds := by
    rw [hds₃]
    simp only [Data.withStack_ds, List.length_cons, List.length_append, List.length_nil, hlen]
    rw [show yes.size + (0 + 1) + 1 + 1 = 2 + yes.size + 1 by omega]
  obtain ⟨d₄, hthen, hds₄⟩ := compiles_then (n := 2 + yes.size + 2 + no.size)
    (by simp [hlen, hlen']; omega) (by omega) hmid' hhole
  obtain ⟨d', hall, -, hds'⟩ := hthen.body (n := 2 + yes.size + 2 + no.size)
    (by simp [hlen, hlen']; omega) ha (by omega) (by rw [hds₄]; omega) ihrest
  refine ⟨d', ?_, hds'.trans hds₄⟩
  simpa [Body.tokens, layout] using hall
/-- `BEGIN` and the body after it. -/
theorem compiles_begin {d : Data} {a : Cell} {body : Body} (ha : Aligned a)
    (htop : a.toNat + 8 * (body.size + 3) < 2 ^ 64) (hhere : d.dictHere = a)
    (hstack : d.ds.length + (1 + body.holes) ≤ dataStackSize) (ih : CompilesTo img body) :
    ∃ d', Compiles img (.control .wBegin :: body.tokens) d d' a (layout img body a) ∧
      d'.dictHere = offset a body.size ∧ d'.ds = a :: d.ds := by
  obtain ⟨d₁, hbegin, hcells, hds₁⟩ := wBegin_spec hhere (by omega)
  have hopen : Compiles img [.control .wBegin] d d₁ a [] := .control rfl hbegin hcells
  obtain ⟨d', hbody, hhere', hds⟩ := hopen.body (n := 0) rfl ha (by omega)
    (by rw [hds₁, List.length_cons]; omega) ih
  rw [offset_zero] at hbody
  rw [Nat.zero_add] at hhere'
  exact ⟨d', hbody, hhere', hds.trans hds₁⟩

/-- A word that branches back to the address on the stack. -/
theorem compiles_back {d d' : Data} {a b : Cell} {f g : CFun} {w : NativeM Unit} {ts : List Token}
    {cs ds : List Cell} {n : Nat} (h : Compiles img ts d d' a cs) (hn : cs.length = n)
    (ha : Aligned a) (htop : a.toNat + 8 * (n + 3) < 2 ^ 64) (hds : d'.ds = b :: ds)
    (hf : dataWord img f = some w)
    (hrun : ∀ d, w.run d = some ((), (d.dsPop.2.dictComma (img.addr g)).dictComma d.dsPop.1)) :
    ∃ d'', Compiles img (ts ++ [.control f]) d d'' a (cs ++ [img.addr g, b]) ∧ d''.ds = ds := by
  subst hn
  have haddr : (offset a cs.length).toNat = a.toNat + 8 * cs.length := offset_toNat (by omega)
  obtain ⟨hcells, hds'⟩ := closeLoop_spec img g (ha.offset (n := cs.length) (by omega))
    (by omega) h.emitted.here hds
  refine ⟨_, h.append ?_ (.control hf (hrun d') hcells), hds'⟩
  simp only [List.length_cons, List.length_nil]
  omega

theorem compilesTo_untilLoop {body rest : Body} (ihbody : CompilesTo img body)
    (ihrest : CompilesTo img rest) : CompilesTo img (.untilLoop body rest) := by
  intro d a ⟨ha, htop, hhere, hstack⟩
  simp only [Body.size, Body.holes] at htop hstack
  obtain ⟨d₁, hbody, hhere₁, hds₁⟩ := compiles_begin ha (by omega) hhere (by omega) ihbody
  have hlen := length_layout img body a
  obtain ⟨d₂, huntil, hds₂⟩ := compiles_back (f := .wUntil) hbody hlen ha (by omega) hds₁ rfl
    (wUntil_run img)
  obtain ⟨d', hall, -, hds'⟩ := huntil.body (n := body.size + 2)
    (by simp [hlen]) ha (by omega) (by rw [hds₂]; omega) ihrest
  refine ⟨d', ?_, hds'.trans hds₂⟩
  simpa [Body.tokens, layout] using hall

theorem compilesTo_againLoop {body rest : Body} (ihbody : CompilesTo img body)
    (ihrest : CompilesTo img rest) : CompilesTo img (.againLoop body rest) := by
  intro d a ⟨ha, htop, hhere, hstack⟩
  simp only [Body.size, Body.holes] at htop hstack
  obtain ⟨d₁, hbody, hhere₁, hds₁⟩ := compiles_begin ha (by omega) hhere (by omega) ihbody
  have hlen := length_layout img body a
  obtain ⟨d₂, hagain, hds₂⟩ := compiles_back (f := .wAgain) hbody hlen ha (by omega) hds₁ rfl
    (wAgain_run img)
  obtain ⟨d', hall, -, hds'⟩ := hagain.body (n := body.size + 2)
    (by simp [hlen]) ha (by omega) (by rw [hds₂]; omega) ihrest
  refine ⟨d', ?_, hds'.trans hds₂⟩
  simpa [Body.tokens, layout] using hall

theorem compilesTo_doLoop {body rest : Body} (ihbody : CompilesTo img body)
    (ihrest : CompilesTo img rest) : CompilesTo img (.doLoop body rest) := by
  intro d a ⟨ha, htop, hhere, hstack⟩
  simp only [Body.size, Body.holes] at htop hstack
  obtain ⟨d₀, hdo, hcells, hds₀⟩ := wDo_spec img ha (by omega) hhere (by omega)
  have hopen : Compiles img [.control .wDo] d d₀ a [img.addr .rtDo] := .control rfl hdo hcells
  obtain ⟨d₁, hbody, hhere₁, hds₁⟩ := hopen.body (n := 1) rfl ha (by omega)
    (by rw [hds₀, List.length_cons]; omega) ihbody
  have hlen := length_layout img body (offset a 1)
  obtain ⟨d₂, hloop, hds₂⟩ := compiles_back (f := .wLoop) hbody (n := 1 + body.size)
    (by simp [hlen]; omega) ha
    (by omega) (hds₁.trans hds₀) rfl (wLoop_run img)
  obtain ⟨d', hall, -, hds'⟩ := hloop.body (n := 1 + body.size + 2)
    (by simp [hlen]; omega) ha (by omega) (by rw [hds₂]; omega) ihrest
  refine ⟨d', ?_, hds'.trans hds₂⟩
  simpa [Body.tokens, layout] using hall

theorem compilesTo_whileLoop {test body rest : Body} (ihtest : CompilesTo img test)
    (ihbody : CompilesTo img body) (ihrest : CompilesTo img rest) :
    CompilesTo img (.whileLoop test body rest) := by
  intro d a ⟨ha, htop, hhere, hstack⟩
  simp only [Body.size, Body.holes] at htop hstack
  obtain ⟨d₁, htest, hhere₁, hds₁⟩ := compiles_begin ha (by omega) hhere (by omega) ihtest
  have hlen := length_layout img test a
  have haddr : (offset a test.size).toNat = a.toNat + 8 * test.size := offset_toNat (by omega)
  obtain ⟨d₂, hwhile, hcells, hds₂⟩ := openHole_spec img
    (ha.offset (n := test.size) (by omega)) (by omega) hhere₁
    (by rw [hds₁, List.length_cons]; omega)
  rw [offset_offset] at hds₂
  have hopen : Compiles img (.control .wBegin :: test.tokens ++ [.control .wWhile]) d d₂ a
      (layout img test a ++ [img.addr .rt0branch, 0#64]) := by
    apply htest.append
    · rw [hlen]
      simp only [List.length_cons, List.length_nil]
      omega
    · rw [hlen]
      exact .control (f := .wWhile) rfl hwhile hcells
  obtain ⟨d₃, hbody, hhere₃, hds₃⟩ := hopen.body (n := test.size + 2) (by simp [hlen]) ha
    (by omega) (by rw [hds₂, hds₁, List.length_cons, List.length_cons]; omega) ihbody
  have hlen' := length_layout img body (offset a (test.size + 2))
  have haddr' : (offset a (test.size + 2 + body.size)).toNat =
    a.toNat + 8 * (test.size + 2 + body.size) := offset_toNat (by omega)
  rw [hds₂, hds₁] at hds₃
  -- `REPEAT` finds the hole of `WHILE`, and below it the address of `BEGIN`
  obtain ⟨d₄, hcells₄, hds₄, hrepeat⟩ := wRepeat_spec img
    (ha.offset (n := test.size + 2 + body.size) (by omega)) (by omega) hhere₃ hds₃
  rw [offset_offset] at hrepeat
  have hbody' : Compiles img (.control .wBegin :: test.tokens ++ [.control .wWhile] ++ body.tokens)
      d d₃ a ((layout img test a ++ [img.addr .rt0branch]) ++
        0#64 :: layout img body (offset a (test.size + 2))) := by
    simpa using hbody
  have hrun : (wRepeat img).run d₃ = some ((),
      (d₄.setCell (offset a (layout img test a ++ [img.addr .rt0branch]).length)
        (offset a (test.size + 2 + body.size + 2))).withStack d.ds) := by
    rw [hrepeat]
    simp [hlen, Data.withStack, Data.setCell, hds₄]
  have hclose := hbody'.close (n := test.size + 2 + body.size) (by simp [hlen, hlen'])
    (by simp only [List.length_cons, List.length_nil]; omega) (f := .wRepeat) rfl hcells₄ hrun
  obtain ⟨d', hall, -, hds'⟩ := hclose.body (n := test.size + 2 + body.size + 2)
    (by simp [hlen, hlen']; omega) ha (by omega) (by simp; omega) ihrest
  refine ⟨d', ?_, hds'⟩
  simpa [Body.tokens, layout] using hall

/-- **The compiling words emit the cells of the layout**, and leave the data
stack as it was. -/
theorem compile_body (img : Image) (b : Body) : CompilesTo img b := by
  induction b with
  | nil => exact compilesTo_nil
  | lit v rest ih => exact compilesTo_lit ih
  | word e rest ih => exact compilesTo_word ih
  | ifThen yes rest ihyes ihrest => exact compilesTo_ifThen ihyes ihrest
  | ifElse yes no rest ihyes ihno ihrest => exact compilesTo_ifElse ihyes ihno ihrest
  | untilLoop body rest ihbody ihrest => exact compilesTo_untilLoop ihbody ihrest
  | againLoop body rest ihbody ihrest => exact compilesTo_againLoop ihbody ihrest
  | whileLoop test body rest ihtest ihbody ihrest => exact compilesTo_whileLoop ihtest ihbody ihrest
  | doLoop body rest ihbody ihrest => exact compilesTo_doLoop ihbody ihrest

end Bodies

end VectorForth.Forth
