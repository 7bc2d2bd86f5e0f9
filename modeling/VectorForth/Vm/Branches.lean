import VectorForth.Vm.ControlFlow

/-!
# Branch operands

The cells of a colon body, read back as instructions. An operand is the place
of the structured target of its branch, counted from the start of the body.
The holes that the compiling words leave open are all filled when `;` is
reached, and nothing but the body has been written.
-/

namespace VectorForth.Forth

open ByteMemory LabelledRun

/-! ## A body as instructions -/

/-- An instruction of a colon body. A branch leads to the cell with the number
`target`, counted from the first cell of the body. -/
inductive Instr
  | literal (v : Cell)
  | word (entry : Cell)
  | loopStart
  | branch (f : CFun) (target : Nat)

/-- The cells of an instruction of a body that starts at `a`. -/
def Instr.cells (img : Image) (a : Cell) : Instr → List Cell
  | .literal v => [img.addr .doLiteral, v]
  | .word entry => [entry]
  | .loopStart => [img.addr .rtDo]
  | .branch f target => [img.addr f, offset a target]

/-- The instructions of a body whose first cell has the number `k`. -/
def Body.instrs : Body → Nat → List Instr
  | .nil, _ => []
  | .lit v rest, k => .literal v :: rest.instrs (k + 2)
  | .word entry rest, k => .word entry :: rest.instrs (k + 1)
  | .ifThen yes rest, k =>
      let after := k + (2 + yes.size)
      .branch .rt0branch after :: (yes.instrs (k + 2) ++ rest.instrs after)
  | .ifElse yes no rest, k =>
      let other := k + (2 + yes.size + 2)
      let after := k + (2 + yes.size + 2 + no.size)
      .branch .rt0branch other :: (yes.instrs (k + 2) ++
        .branch .rtBranch after :: (no.instrs other ++ rest.instrs after))
  | .untilLoop body rest, k =>
      body.instrs k ++ .branch .rt0branch k :: rest.instrs (k + (body.size + 2))
  | .againLoop body rest, k =>
      body.instrs k ++ .branch .rtBranch k :: rest.instrs (k + (body.size + 2))
  | .whileLoop test body rest, k =>
      let after := k + (test.size + 2 + body.size + 2)
      test.instrs k ++ .branch .rt0branch after ::
        (body.instrs (k + (test.size + 2)) ++ .branch .rtBranch k :: rest.instrs after)
  | .doLoop body rest, k =>
      .loopStart :: (body.instrs (k + 1) ++
        .branch .rtLoop (k + 1) :: rest.instrs (k + (1 + body.size + 2)))

/-- The layout is that of the instructions, one after the other. -/
theorem layout_instrs (img : Image) (a : Cell) (b : Body) (k : Nat) :
    layout img b (offset a k) = (b.instrs k).flatMap (Instr.cells img a) := by
  induction b generalizing k <;>
    simp [layout, Body.instrs, Instr.cells, offset_offset, *]

/-- If the instruction is a branch, it leads to one of the cells `lo` to `hi`. -/
def Instr.LeadsInto (lo hi : Nat) : Instr → Prop
  | .branch f target =>
      (f = .rtBranch ∨ f = .rt0branch ∨ f = .rtLoop) ∧ lo ≤ target ∧ target ≤ hi
  | _ => True

theorem Instr.LeadsInto.mono {lo hi lo' hi' : Nat} {i : Instr} (h : i.LeadsInto lo hi)
    (hlo : lo' ≤ lo) (hhi : hi ≤ hi') : i.LeadsInto lo' hi' := by
  cases i with
  | branch f target =>
      obtain ⟨hf, hlow, hhigh⟩ := h
      exact ⟨hf, by omega, by omega⟩
  | literal | word | loopStart => trivial

theorem leadsInto_mono {lo hi lo' hi' : Nat} {is : List Instr}
    (h : ∀ i ∈ is, i.LeadsInto lo hi) (hlo : lo' ≤ lo) (hhi : hi ≤ hi') :
    ∀ i ∈ is, i.LeadsInto lo' hi' :=
  fun i hi => (h i hi).mono hlo hhi

/-- A branch stays inside its body, or leads to the cell right after it. -/
theorem Body.instrs_leadInto (b : Body) (k : Nat) :
    ∀ i ∈ b.instrs k, i.LeadsInto k (k + b.size) := by
  induction b generalizing k <;>
    simp only [Body.instrs, Body.size, List.forall_mem_cons, List.forall_mem_append]
  case nil => exact List.forall_mem_nil _
  case lit v rest ih | word e rest ih =>
    exact ⟨trivial, leadsInto_mono (ih _) (by omega) (by omega)⟩
  case ifThen yes rest ihyes ihrest =>
    refine ⟨⟨by simp, by omega, by omega⟩, ?_, ?_⟩
    · exact leadsInto_mono (ihyes _) (by omega) (by omega)
    · exact leadsInto_mono (ihrest _) (by omega) (by omega)
  case ifElse yes no rest ihyes ihno ihrest =>
    refine ⟨⟨by simp, by omega, by omega⟩, ?_, ⟨by simp, by omega, by omega⟩, ?_, ?_⟩
    · exact leadsInto_mono (ihyes _) (by omega) (by omega)
    · exact leadsInto_mono (ihno _) (by omega) (by omega)
    · exact leadsInto_mono (ihrest _) (by omega) (by omega)
  case untilLoop body rest ihbody ihrest | againLoop body rest ihbody ihrest =>
    refine ⟨?_, ⟨by simp, by omega, by omega⟩, ?_⟩
    · exact leadsInto_mono (ihbody _) (by omega) (by omega)
    · exact leadsInto_mono (ihrest _) (by omega) (by omega)
  case whileLoop test body rest ihtest ihbody ihrest =>
    refine ⟨?_, ⟨by simp, by omega, by omega⟩, ?_, ⟨by simp, by omega, by omega⟩, ?_⟩
    · exact leadsInto_mono (ihtest _) (by omega) (by omega)
    · exact leadsInto_mono (ihbody _) (by omega) (by omega)
    · exact leadsInto_mono (ihrest _) (by omega) (by omega)
  case doLoop body rest ihbody ihrest =>
    refine ⟨trivial, ?_, ⟨by simp, by omega, by omega⟩, ?_⟩
    · exact leadsInto_mono (ihbody _) (by omega) (by omega)
    · exact leadsInto_mono (ihrest _) (by omega) (by omega)

/-! ## The operands that a definition compiles -/

/-- The cells from `a` on are the instructions of `b` and the sentinel; every
operand of a branch is the address of a cell of the body or of the sentinel. -/
structure OperandsResolved (img : Image) (b : Body) (a : Cell) (m : Mem) : Prop where
  cells : CellsAt m a (layout img b a ++ [sentinelExit])
  instrs : layout img b a = (b.instrs 0).flatMap (Instr.cells img a)
  operands : ∀ f target, .branch f target ∈ b.instrs 0 →
    (f = .rtBranch ∨ f = .rt0branch ∨ f = .rtLoop) ∧ target ≤ b.size ∧
      (offset a target).toNat = a.toNat + 8 * target ∧ offset a target ≠ 0#64

theorem OperandsResolved.of_cells {img : Image} {b : Body} {a : Cell} {m : Mem}
    (hbase : dictVirtBase ≤ a.toNat) (htop : a.toNat + 8 * (b.size + 1) ≤ dictVirtBase + dictSize)
    (hcells : CellsAt m a (layout img b a ++ [sentinelExit])) : OperandsResolved img b a m := by
  have hdictTop := dictTop_lt
  refine ⟨hcells, ?_, ?_⟩
  · have h := layout_instrs img a b 0
    rwa [offset_zero] at h
  · intro f target hmem
    obtain ⟨hf, -, hle⟩ := b.instrs_leadInto 0 _ hmem
    rw [Nat.zero_add] at hle
    have haddr : (offset a target).toNat = a.toNat + 8 * target := offset_toNat (by omega)
    exact ⟨hf, hle, haddr, ne_zero_of_base_le (by omega)⟩

/-- A definition with the body `b` has been compiled: `c` is the state after `:`,
`d₂` the one before `;` and `d'` the one after it. From `c` to `d₂` only the cells
of the body are written; `;` adds the sentinel and reveals the entry. -/
structure CompiledBetween (img : Image) (b : Body) (c d₂ d' : Data) : Prop where
  modes : c.forthState = .compile ∧ d₂.forthState = .compile ∧ d'.forthState = .interpret
  stack : d₂.ds = c.ds ∧ d'.ds = c.ds
  entry : d'.dictLatest = c.dictLatest ∧ dictGetParamField d'.mem d'.dictLatest = c.dictHere
  here : d₂.dictHere = offset c.dictHere b.size ∧ d'.dictHere = offset c.dictHere (b.size + 1)
  operands : OperandsResolved img b c.dictHere d'.mem
  bodyFrame : ∀ y, y < c.dictHere.toNat ∨ c.dictHere.toNat + 8 * b.size ≤ y → d₂.mem y = c.mem y
  frame : ∀ y, y < c.dictHere.toNat ∨ c.dictHere.toNat + 8 * (b.size + 1) ≤ y →
    y ≠ (c.dictLatest + 8#64).toNat → d'.mem y = c.mem y

theorem compiledBetween {img : Image} {b : Body} {d d₁ d₂ : Data} {e : Cell} {p₂ q : Text}
    (hbase : dictVirtBase ≤ e.toNat)
    (htop : d₁.dictHere.toNat + 8 * (b.size + 1) ≤ dictVirtBase + dictSize)
    (hcreated : Created d d₁ e (img.addr .doColon) fHidden)
    (hemit : Emitted { d₁ with forthState := .compile } d₂ d₁.dictHere (layout img b d₁.dictHere))
    (hds : d₂.ds = d₁.ds) (hlatest : d₂.dictLatest = e) :
    CompiledBetween img b { d₁ with forthState := .compile } (d₂.at p₂) (d₂.at q).semicolon := by
  have hdictTop : dictVirtBase + dictSize + 1024 < 2 ^ 64 := by decide
  obtain ⟨hfieldLow, hfieldHigh⟩ := hcreated.field
  have htop₁ := hcreated.top
  have hemit' := hemit.sentinel hcreated.aligned_here (by omega)
  have hend := hcreated.finished (by omega) hemit' hlatest rfl
  have hfin : Finished img b d₁ (d₂.at q).semicolon e :=
    ⟨hend.mode, hend.latest, hend.here, hend.flags, hend.keep, hend.cells⟩
  have hlen := length_layout img b d₁.dictHere
  have hlatest₁ : d₁.dictLatest = e := by
    obtain ⟨m', here, hsame⟩ := hcreated.same
    subst hsame
    rfl
  have hmode₂ : d₂.forthState = .compile := by
    obtain ⟨m', here, ds, hsame⟩ := hemit.same
    subst hsame
    rfl
  constructor
  case modes => exact ⟨rfl, hmode₂, rfl⟩
  case stack => exact ⟨hds, hds⟩
  case entry =>
    refine ⟨hlatest.trans hlatest₁.symm, ?_⟩
    rw [show (d₂.at q).semicolon.dictLatest = e from hlatest, dictGetParamField, hfin.fields.2,
      ← dictGetParamField]
    exact hcreated.here.symm
  case here =>
    refine ⟨?_, hfin.here⟩
    have hhere₂ := hemit.here
    rwa [hlen] at hhere₂
  case operands =>
    exact .of_cells (show dictVirtBase ≤ d₁.dictHere.toNat by omega) htop hfin.cells
  case bodyFrame =>
    intro y hy
    exact hemit.frame y (by rwa [hlen])
  case frame =>
    intro y hy hne
    rw [hlatest₁] at hne
    exact hfin.keep y hy hne

/-- **Branch operands are resolved at compile time.** Reading a colon definition
passes through a state after `:` and a state before `;`; in between the body is
compiled, with every operand at its structured target. -/
theorem branch_operands_resolved {img : Image} {words : Words} {P : Set Nat} {m : Machine}
    {F : List Frame} {b : Body} {q : Text} (hd : AtPrompt img words P m.vm.data)
    (hframes : m.frames = .eval :: F) (hdef : Defines words m.vm.data b q)
    (hroom : m.vm.data.dictHere.toNat + 64 + 8 * (b.size + 1) ≤ dictVirtBase + dictSize)
    (hstack : m.vm.data.ds.length + b.holes ≤ dataStackSize) :
    ∃ c d₂ d' : Data,
      Via (step img) (fun _ => True) m (m.setData c) ∧
      Via (step img) (fun _ => True) (m.setData c) (m.setData d₂) ∧
      Via (step img) (fun _ => True) (m.setData d₂) (m.setData d') ∧
      c.ds = m.vm.data.ds ∧ d'.parsePtr = q ∧ CompiledBetween img b c d₂ d' := by
  have hdictTop : dictVirtBase + dictSize + 1024 < 2 ^ 64 := by decide
  have halign := alignCell_toNat (a := m.vm.data.dictHere) (by omega)
  have hlow := hd.low
  obtain ⟨p, p₂, d₁, d₂, hcolon, hbody, hsemi, -, hcreated, hemit, hds, hlatest⟩ :=
    define_phases m m.vm.rs m.vm.ip F hd hdef (by omega) hstack
  generalize alignCell m.vm.data.dictHere = e at halign hcreated hlatest
  obtain ⟨hfieldLow, hfieldHigh⟩ := hcreated.field
  have htop₁ := hcreated.top
  have hds₁ : d₁.ds = m.vm.data.ds := by
    obtain ⟨m', here, hsame⟩ := hcreated.same
    subst hsame
    rfl
  rw [← hframes] at hcolon hbody hsemi
  rw [Machine.conf_self] at hcolon
  exact ⟨{ d₁ with forthState := .compile }, d₂.at p₂, (d₂.at q).semicolon, hcolon, hbody, hsemi,
    hds₁, rfl, compiledBetween (by omega) (by omega) hcreated hemit (hds.trans hds₁.symm) hlatest⟩

/-- `: A 1 IF 2 THEN ;` leads the branch of `IF` to the sentinel cell. -/
theorem branch_operands_resolved_if :
    ∃ d' : Data, Via (step linearImage) (fun _ => True) (controlStart ": A 1 IF 2 THEN ;")
        ((controlStart ": A 1 IF 2 THEN ;").setData d') ∧
      CellsAt d'.mem (dictGetParamField d'.mem d'.dictLatest)
        [linearImage.addr .doLiteral, 1#64, linearImage.addr .rt0branch,
          offset (dictGetParamField d'.mem d'.dictLatest) 6, linearImage.addr .doLiteral, 2#64,
          sentinelExit] := by
  obtain ⟨c, d₂, d', hcolon, hbody, hsemi, -, -, hcompiled⟩ := branch_operands_resolved
    (m := controlStart ": A 1 IF 2 THEN ;") (control_atPrompt _) rfl control_defines (by decide)
    (by decide)
  refine ⟨d', hcolon.trans (hbody.trans hsemi), ?_⟩
  have hcells := hcompiled.operands.cells
  rw [hcompiled.operands.instrs] at hcells
  rw [hcompiled.entry.2]
  exact hcells

end VectorForth.Forth
