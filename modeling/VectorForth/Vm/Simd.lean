import VectorForth.Vm.StackEffects

/-!
# The vector words and their scalar counterparts

`VDUP` and `V+` go through 128-bit registers. The four instructions they use are
modelled on the registers; what is stored again is what the model of the two words
pushes. On the stacks, each then agrees with ordinary words of the vocabulary.
-/

namespace VectorForth.Forth

/-! ## The instructions -/

/-- A register of two 64-bit lanes. -/
abbrev Xmm : Type := BitVec 128

def Xmm.low (x : Xmm) : Cell := x.extractLsb' 0 64
def Xmm.high (x : Xmm) : Cell := x.extractLsb' 64 64

/-- `movq`, from a general register. -/
def movq (v : Cell) : Xmm := v.setWidth 128

/-- `punpcklqdq src, dst`: the low lanes of both. -/
def punpcklqdq (src dst : Xmm) : Xmm := src.low ++ dst.low

/-- `paddq src, dst`. -/
def paddq (src dst : Xmm) : Xmm := (dst.high + src.high) ++ (dst.low + src.low)

/-- `movdqa` from an array of two cells. -/
def movdqaLoad (v : Cell × Cell) : Xmm := v.2 ++ v.1

/-- `movdqa` to an array of two cells. -/
def movdqaStore (x : Xmm) : Cell × Cell := (x.low, x.high)

def vdupAsm (top : Cell) : Cell × Cell :=
  let xmm0 := movq top
  let xmm0 := punpcklqdq xmm0 xmm0
  movdqaStore xmm0

def vplusAsm (va vb : Cell × Cell) : Cell × Cell :=
  let xmm1 := movdqaLoad va
  let xmm2 := movdqaLoad vb
  let xmm1 := paddq xmm2 xmm1
  movdqaStore xmm1

/-- `w_vdup`, with its instructions. -/
def wVdupSse : NativeM Unit := do
  if (← get).ds.length < 1 then return ()
  let top ← dsPop
  let out := vdupAsm top
  dsPush out.1
  dsPush out.2

/-- `w_vplus`, with its instructions. -/
def wVplusSse : NativeM Unit := do
  if (← get).ds.length < 4 then puts (text " Stack Underflow for V+\n")
  else
    let b1 ← dsPop; let b0 ← dsPop
    let a1 ← dsPop; let a0 ← dsPop
    let sum := vplusAsm (a0, a1) (b0, b1)
    dsPush sum.1
    dsPush sum.2

theorem Xmm.low_append (h l : Cell) : Xmm.low (h ++ l) = l := by
  apply BitVec.eq_of_getLsbD_eq
  intro i hi
  simp only [Xmm.low, BitVec.getLsbD_extractLsb', BitVec.getLsbD_append, Nat.zero_add, hi,
    decide_true, Bool.true_and, if_true]

theorem Xmm.high_append (h l : Cell) : Xmm.high (h ++ l) = h := by
  apply BitVec.eq_of_getLsbD_eq
  intro i hi
  have hge : ¬ 64 + i < 64 := by omega
  simp only [Xmm.high, BitVec.getLsbD_extractLsb', BitVec.getLsbD_append, hi, decide_true,
    Bool.true_and, hge, if_false, Nat.add_sub_cancel_left]

theorem movq_low (v : Cell) : (movq v).low = v := by
  rw [Xmm.low, movq, BitVec.extractLsb'_setWidth_of_le (by omega), BitVec.extractLsb'_eq_self]

theorem vdupAsm_eq (top : Cell) : vdupAsm top = (top, top) := by
  rw [vdupAsm, punpcklqdq, movdqaStore, Xmm.low_append, Xmm.high_append, movq_low]

theorem vplusAsm_eq (va vb : Cell × Cell) : vplusAsm va vb = (va.1 + vb.1, va.2 + vb.2) := by
  rw [vplusAsm, paddq, movdqaLoad, movdqaLoad, movdqaStore]
  simp only [Xmm.low_append, Xmm.high_append]

/-- The words of the dictionary are these. -/
theorem wVdupSse_eq : wVdupSse = wVdup := by
  simp only [wVdupSse, wVdup, vdupAsm_eq]

theorem wVplusSse_eq : wVplusSse = wVplus := by
  simp only [wVplusSse, wVplus, vplusAsm_eq]

/-! ## Sequences of words -/

section Sequences

variable {img : Image}

def Machine.stacks (m : Machine) : List Cell × List Cell := (m.vm.data.ds, m.vm.rs)

/-- The words of a sequence, called one after the other. -/
def callAll (img : Image) : List CFun → Machine → Option Machine
  | [], m => some m
  | f :: fs, m => (callNative img f m).bind (callAll img fs)

/-- Both sequences return, with the same two stacks. -/
def LeaveSame (img : Image) (fs gs : List CFun) (m : Machine) : Prop :=
  ∃ m₁ m₂, callAll img fs m = some m₁ ∧ callAll img gs m = some m₂ ∧ m₁.stacks = m₂.stacks

variable {m m' : Machine} {f : CFun} {fs : List CFun} {w : NativeM Unit} {x y v : Cell}
  {ds ds' rs : List Cell}

/-- `f` takes the two stacks to others. -/
def Takes (img : Image) (f : CFun) (m : Machine) (s s' : List Cell × List Cell) : Prop :=
  m.stacks = s → ∃ m', callNative img f m = some m' ∧ m'.stacks = s'

theorem takes_dataWord (hf : dataWord img f = some w) (hw : leaves w m.vm.data = some ds') :
    Takes img f m (ds, rs) (ds', rs) := by
  intro h
  obtain ⟨⟨⟨⟩, d⟩, hrun, hds⟩ := Option.map_eq_some_iff.mp hw
  refine ⟨m.setData d, ?_, ?_⟩
  · simp only [callNative, hf]
    exact congrArg (Option.map fun r => m.setData r.2) hrun
  · have hrs : m.vm.rs = rs := congrArg Prod.snd h
    exact Prod.ext hds hrs

theorem takes_shape {s : Shape} (hs : shape f = some s) (hafter : stackAfter f ds = some ds') :
    Takes img f m (ds, rs) (ds', rs) := by
  intro h
  obtain ⟨w, hw⟩ : ∃ w, dataWord img f = some w := by
    cases f <;> cases hs <;> exact ⟨_, rfl⟩
  have hds : m.vm.data.ds = ds := congrArg Prod.fst h
  exact takes_dataWord hw ((leaves_word hw hs).trans (hds ▸ hafter)) h

theorem takes_toR (hroom : rs.length < returnStackSize) :
    Takes img .wToR m (v :: ds, rs) (ds, v :: rs) := by
  intro h
  have hds : m.vm.data.ds = v :: ds := congrArg Prod.fst h
  have hrs : m.vm.rs = rs := congrArg Prod.snd h
  refine ⟨{ m with vm := wToR m.vm }, rfl, ?_⟩
  have hpush : ¬ rs.length ≥ returnStackSize := Nat.not_le.mpr hroom
  simp only [Machine.stacks, wToR, Data.dsPop, hds, Vm.rsPush, hrs, if_neg hpush]

theorem takes_fromR (hroom : ds.length < dataStackSize) :
    Takes img .wFromR m (ds, v :: rs) (v :: ds, rs) := by
  intro h
  have hds : m.vm.data.ds = ds := congrArg Prod.fst h
  have hrs : m.vm.rs = v :: rs := congrArg Prod.snd h
  refine ⟨{ m with vm := wFromR m.vm }, rfl, ?_⟩
  simp only [Machine.stacks, wFromR, Vm.rsPop, hrs, ds_dsPush, hds, afterPush_room hroom]

/-- One word of a sequence. -/
theorem callAll_cons {s s' s'' : List Cell × List Cell} (hf : Takes img f m s s') (h : m.stacks = s)
    (hfs : ∀ m', m'.stacks = s' → ∃ m'', callAll img fs m' = some m'' ∧ m''.stacks = s'') :
    ∃ m'', callAll img (f :: fs) m = some m'' ∧ m''.stacks = s'' := by
  obtain ⟨m', hcall, hs'⟩ := hf h
  obtain ⟨m'', hrest, hs''⟩ := hfs m' hs'
  refine ⟨m'', ?_, hs''⟩
  rw [callAll, hcall, Option.bind_some, hrest]

theorem callAll_nil {s : List Cell × List Cell} (h : m.stacks = s) :
    ∃ m'', callAll img [] m = some m'' ∧ m''.stacks = s := ⟨m, rfl, h⟩

theorem callAll_one {s s' : List Cell × List Cell} (hf : Takes img f m s s') (h : m.stacks = s) :
    ∃ m', callAll img [f] m = some m' ∧ m'.stacks = s' :=
  callAll_cons hf h fun _ h => callAll_nil h

/-- `>R SWAP >R + R> R> +`. -/
def scalarVplus : List CFun := [.wToR, .wSwap, .wToR, .wPlus, .wFromR, .wFromR, .wPlus]

theorem call_scalarVplus {a0 a1 b0 b1 : Cell} (h : m.stacks = (b1 :: b0 :: a1 :: a0 :: ds, rs))
    (hds : ds.length + 4 ≤ dataStackSize) (hrs : rs.length + 2 ≤ returnStackSize) :
    ∃ m', callAll img scalarVplus m = some m' ∧
      m'.stacks = ((a1 + b1) :: (a0 + b0) :: ds, rs) := by
  have hpush : ∀ (z : Cell) (zs : List Cell), zs.length < ds.length + 4 →
      afterPush z zs = z :: zs := fun z zs hlt => afterPush_room (by omega)
  have hswap : stackAfter .wSwap (b0 :: a1 :: a0 :: ds) = some (a1 :: b0 :: a0 :: ds) := by
    show some (afterPush a1 (afterPush b0 (a0 :: ds))) = _
    rw [hpush b0 _ (by simp), hpush a1 _ (by simp)]
  have hplus : ∀ z t : Cell, stackAfter .wPlus (z :: t :: ds) = some ((t + z) :: ds) := by
    intro z t
    show some (afterPush (t + z) ds) = _
    rw [hpush _ _ (by omega)]
  have hplus' : stackAfter .wPlus (b1 :: a1 :: (a0 + b0) :: ds) =
      some ((a1 + b1) :: (a0 + b0) :: ds) := by
    show some (afterPush (a1 + b1) ((a0 + b0) :: ds)) = _
    rw [hpush _ _ (by simp)]
  refine callAll_cons (takes_toR (by omega)) h fun m h => ?_
  refine callAll_cons (takes_shape rfl hswap) h fun m h => ?_
  refine callAll_cons (takes_toR (by rw [List.length_cons]; omega)) h fun m h => ?_
  refine callAll_cons (takes_shape rfl (hplus b0 a0)) h fun m h => ?_
  refine callAll_cons (takes_fromR (by rw [List.length_cons]; omega)) h fun m h => ?_
  refine callAll_cons (takes_fromR (by rw [List.length_cons, List.length_cons]; omega)) h
    fun m h => ?_
  refine callAll_cons (takes_shape rfl hplus') h fun m h => ?_
  exact callAll_nil h

theorem vplus_leaveSame (hds : 4 ≤ m.vm.data.ds.length)
    (hsize : m.vm.data.ds.length ≤ dataStackSize) (hrs : m.vm.rs.length + 2 ≤ returnStackSize) :
    LeaveSame img [.wVplus] scalarVplus m := by
  obtain ⟨b1, b0, a1, a0, ds, hstack⟩ : ∃ b1 b0 a1 a0 ds,
      m.vm.data.ds = b1 :: b0 :: a1 :: a0 :: ds := by
    rcases hm : m.vm.data.ds with _ | ⟨b1, _ | ⟨b0, _ | ⟨a1, _ | ⟨a0, ds⟩⟩⟩⟩
    case cons.cons.cons.cons => exact ⟨b1, b0, a1, a0, ds, rfl⟩
    all_goals
      rw [hm] at hds
      simp at hds
  have h : m.stacks = (b1 :: b0 :: a1 :: a0 :: ds, m.vm.rs) := Prod.ext hstack rfl
  rw [hstack] at hsize
  simp only [List.length_cons] at hsize
  have hvector : stackAfter .wVplus (b1 :: b0 :: a1 :: a0 :: ds) =
      some ((a1 + b1) :: (a0 + b0) :: ds) := by
    have hlong : ¬ (b1 :: b0 :: a1 :: a0 :: ds).length < 4 := by
      simp only [List.length_cons]
      omega
    have hfirst : afterPush (a0 + b0) ds = (a0 + b0) :: ds := afterPush_room (by omega)
    have hsecond : afterPush (a1 + b1) ((a0 + b0) :: ds) = (a1 + b1) :: (a0 + b0) :: ds :=
      afterPush_room (by rw [List.length_cons]; omega)
    simp only [stackAfter, if_neg hlong, List.headD_cons, List.tail_cons, hfirst, hsecond]
  have htakes : Takes img .wVplus m (_, m.vm.rs) _ := takes_shape rfl hvector
  obtain ⟨m₁, hcall, hstacks⟩ := callAll_one htakes h
  obtain ⟨m₂, hscalar, hstacks'⟩ := call_scalarVplus h (by omega) hrs
  exact ⟨m₁, m₂, hcall, hscalar, hstacks.trans hstacks'.symm⟩

theorem vdup_leaveSame (hds : m.vm.data.ds ≠ []) (hsize : m.vm.data.ds.length ≤ dataStackSize) :
    LeaveSame img [.wVdup] [.wDup] m := by
  obtain ⟨x, ds, hstack⟩ := List.exists_cons_of_ne_nil hds
  have h : m.stacks = (x :: ds, m.vm.rs) := Prod.ext hstack rfl
  rw [hstack, List.length_cons] at hsize
  have hdup : stackAfter .wDup (x :: ds) = some (afterPush x (x :: ds)) := rfl
  have hvdup : stackAfter .wVdup (x :: ds) = some (afterPush x (x :: ds)) := by
    have hfirst : afterPush x ds = x :: ds := afterPush_room (by omega)
    have hlong : ¬ (x :: ds).length < 1 := by
      rw [List.length_cons]
      omega
    simp only [stackAfter, if_neg hlong, List.headD_cons, List.tail_cons, hfirst]
  have htakes : Takes img .wVdup m (_, m.vm.rs) _ := takes_shape rfl hvdup
  have htakes' : Takes img .wDup m (_, m.vm.rs) _ := takes_shape rfl hdup
  obtain ⟨m₁, hcall, hstacks⟩ := callAll_one htakes h
  obtain ⟨m₂, hcall', hstacks'⟩ := callAll_one htakes' h
  exact ⟨m₁, m₂, hcall, hcall', hstacks.trans hstacks'.symm⟩

/-- **The vector words agree with the scalar ones**, on every stack that they take. -/
theorem simd_agrees (img : Image) (hsize : m.vm.data.ds.length ≤ dataStackSize) :
    dataWord img .wVdup = some wVdupSse ∧ dataWord img .wVplus = some wVplusSse ∧
      (m.vm.data.ds ≠ [] → LeaveSame img [.wVdup] [.wDup] m) ∧
      (4 ≤ m.vm.data.ds.length → m.vm.rs.length + 2 ≤ returnStackSize →
        LeaveSame img [.wVplus] scalarVplus m) := by
  refine ⟨?_, ?_, ?_, ?_⟩
  · rw [wVdupSse_eq]
    rfl
  · rw [wVplusSse_eq]
    rfl
  · intro hds
    exact vdup_leaveSame hds hsize
  · intro hds hrs
    exact vplus_leaveSame hds hsize hrs

end Sequences

/-- A machine with the data stack `ds`. -/
def stackMachine (ds : List Cell) : Machine where
  vm := { data := { blankData with ds := ds }, rs := [], ip := 0#64 }
  frames := []
  kbd := []
  inputBuffer := []

/-- `-1 5 1 2`: the first of the two additions wraps. -/
def fourCells : Machine := stackMachine [2#64, 1#64, 5#64, -1#64]

theorem simd_agrees_four : LeaveSame linearImage [.wVdup] [.wDup] fourCells ∧
    LeaveSame linearImage [.wVplus] scalarVplus fourCells := by
  have hagree := simd_agrees (m := fourCells) linearImage (by decide)
  exact ⟨hagree.2.2.1 (by decide), hagree.2.2.2 (by decide) (by decide)⟩

/-- On the empty stack `VDUP` does nothing, and `DUP` pushes a zero. -/
theorem vdup_empty_differs : ¬ ∀ (img : Image) (m : Machine),
    m.vm.data.ds.length ≤ dataStackSize → LeaveSame img [.wVdup] [.wDup] m := by
  intro h
  obtain ⟨m₁, m₂, hvdup, hdup, hstacks⟩ := h linearImage (stackMachine []) (by decide)
  cases hvdup
  cases hdup
  cases hstacks

end VectorForth.Forth
