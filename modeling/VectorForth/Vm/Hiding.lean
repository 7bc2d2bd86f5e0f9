import VectorForth.Lib.TwoRuns
import VectorForth.Vm.Effects

/-!
# Words that see the stack and the base alone

Most native words look at the data stack and the number base and at nothing
else. They do the same in any two states that share these two, whatever else
the states may hide from them.
-/

namespace VectorForth.Forth

open ByteMemory TwoRuns

/-- A relation between states that share the data stack and the base, and go on
doing so when the stack, the base and the output change alike. -/
class Hiding (R : Data → Data → Prop) : Prop where
  ds : ∀ {d e}, R d e → e.ds = d.ds
  base : ∀ {d e}, R d e → e.forthBase = d.forthBase
  keep : ∀ {d e}, R d e → ∀ ds o b, R { d with ds := ds, output := d.output ++ o, forthBase := b }
    { e with ds := ds, output := e.output ++ o, forthBase := b }

section Hiding

variable {R : Data → Data → Prop} [Hiding R] {d e : Data} {α : Type}

/-- The output and the base change, the stack does not. -/
theorem hides_show (h : R d e) (o : List Out) (b : Nat) :
    R { d with output := d.output ++ o, forthBase := b }
      { e with output := e.output ++ o, forthBase := b } := by
  have hkeep := Hiding.keep h d.ds o b
  have hds := Hiding.ds h
  obtain ⟨_, _, _, _, _, _, _, _, _, _, _, _⟩ := d
  obtain ⟨_, _, _, _, _, _, _, _, _, _, _, _⟩ := e
  cases hds
  exact hkeep

theorem hides_output (h : R d e) (o : List Out) :
    R { d with output := d.output ++ o } { e with output := e.output ++ o } := by
  have hshow := hides_show h o d.forthBase
  have hbase := Hiding.base h
  obtain ⟨_, _, _, _, _, _, _, _, _, _, _, _⟩ := d
  obtain ⟨_, _, _, _, _, _, _, _, _, _, _, _⟩ := e
  cases hbase
  exact hshow

theorem hides_base (h : R d e) (b : Nat) : R { d with forthBase := b } { e with forthBase := b } := by
  have hshow := hides_show h [] b
  rwa [List.append_nil, List.append_nil] at hshow

theorem hides_puts (t : Text) (h : R d e) : R (d.puts t) (e.puts t) := hides_output h _

theorem hides_ds (h : R d e) (ds : List Cell) : R { d with ds := ds } { e with ds := ds } := by
  have hkeep := Hiding.keep h ds [] d.forthBase
  have hbase := Hiding.base h
  rw [List.append_nil, List.append_nil] at hkeep
  obtain ⟨_, _, _, _, _, _, _, _, _, _, _, _⟩ := d
  obtain ⟨_, _, _, _, _, _, _, _, _, _, _, _⟩ := e
  cases hbase
  exact hkeep

theorem hides_dsPush (v : Cell) (h : R d e) : R (d.dsPush v) (e.dsPush v) := by
  unfold Data.dsPush
  rw [Hiding.ds h]
  split
  · exact hides_puts _ h
  · exact hides_ds h _

theorem hides_dsPop (h : R d e) : e.dsPop.1 = d.dsPop.1 ∧ R d.dsPop.2 e.dsPop.2 := by
  unfold Data.dsPop
  rw [Hiding.ds h]
  split
  · exact ⟨rfl, hides_puts _ h⟩
  · exact ⟨rfl, hides_ds h _⟩

theorem hides_dsPick (n : Nat) (h : R d e) :
    (e.dsPick n).1 = (d.dsPick n).1 ∧ R (d.dsPick n).2 (e.dsPick n).2 := by
  unfold Data.dsPick
  rw [Hiding.ds h]
  split
  · exact ⟨rfl, hides_puts _ h⟩
  · exact ⟨rfl, h⟩

@[simp] theorem blind_dsPush (v : Cell) : Blind R (dsPush v) :=
  blind_modify fun _ _ he => hides_dsPush v he

@[simp] theorem blind_dsPop : Blind R dsPop := blind_modifyGet fun _ _ he => hides_dsPop he

@[simp] theorem blind_dsPeek : Blind R dsPeek :=
  blind_peek (fun _ _ he => by rw [Data.dsPeek, Data.dsPeek, Hiding.ds he]) fun _ => blind_pure _

@[simp] theorem blind_dsPick (n : Nat) : Blind R (dsPick n) :=
  blind_modifyGet fun _ _ he => hides_dsPick n he

@[simp] theorem blind_puts (t : Text) : Blind R (puts t) := blind_modify fun _ _ he => hides_puts t he

@[simp] theorem blind_putchar (c : Byte) : Blind R (putchar c) := blind_puts [c]

omit [Hiding R] in
@[simp] theorem blind_idiv (a b : Cell) : Blind R (idiv a b) :=
  blind_ite blind_failure (blind_pure _)

@[simp] theorem blind_binary (f : Cell → Cell → Cell) : Blind R (binary f) :=
  blind_bind blind_dsPop fun _ => blind_bind blind_dsPop fun _ => blind_dsPush _

@[simp] theorem blind_unary (f : Cell → Cell) : Blind R (unary f) :=
  blind_bind blind_dsPop fun _ => blind_dsPush _

@[simp] theorem blind_vgaPutHex (v : Cell) : Blind R (vgaPutHex v) := blind_puts _

omit [Hiding R] in
@[simp] theorem blind_hang : Blind R (hang : NativeM α) := blind_failure

theorem blindAt_dsPop {g : Cell → NativeM α} (hg : BlindAt R (g (d.ds.headD 0#64)) d.dsPop.2) :
    BlindAt R (dsPop >>= g) d := by
  refine blindAt_bind (blind_dsPop d) fun a d' hrun => ?_
  obtain rfl : d.dsPop.1 = a := congrArg Prod.fst (Option.some.inj hrun)
  obtain rfl : d.dsPop.2 = d' := congrArg Prod.snd (Option.some.inj hrun)
  rw [(dsPop_headD d).1]
  exact hg

/-- The words that see the data stack and the base alone. -/
def CFun.plain : CFun → Bool
  | .wDup | .wDrop | .wSwap | .wOver | .wRot | .wNip | .wTuck | .w2dup | .w2drop | .w2swap
  | .wQdup | .wDepth | .wPlus | .wMinus | .wMul | .wDiv | .wMod | .wDivmod | .wNegate | .wAbs
  | .wMin | .wMax | .w1plus | .w1minus | .w2star | .w2slash | .wAnd | .wOr | .wXor | .wInvert
  | .wLshift | .wRshift | .wEq | .wNeq | .wLt | .wGt | .wLe | .wGe | .w0eq | .w0lt | .w0gt
  | .wDot | .wUDot | .wDotS | .wEmit | .wCr | .wSpace | .wSpaces | .wDotHex | .wBye | .wClear
  | .wDecimal | .wHex | .wBase | .wVdup | .wVplus => true
  | _ => false

theorem blind_show (g : Cell → Nat → Text) : Blind R (dsPop >>= fun v => get >>= fun d =>
    puts (g v d.forthBase) >>= fun _ => putchar (chr ' ')) :=
  blind_bind blind_dsPop fun v => blind_peek (fun _ _ he => Hiding.base he)
    (g := fun b => puts (g v b) >>= fun _ => putchar (chr ' '))
    fun _ => blind_bind (blind_puts _) fun _ => blind_putchar _

/-- **The plain words** do the same in all states that share the stack and the base. -/
theorem blind_plain {img : Image} {f : CFun} {w : NativeM Unit} (hf : dataWord img f = some w)
    (hplain : f.plain = true) : Blind R w := by
  cases f <;> cases hplain <;> cases hf
  case wDepth =>
    exact blind_peek (fun _ _ he => congrArg List.length (Hiding.ds he))
      (g := fun n => dsPush (BitVec.ofNat 64 n)) fun _ => blind_dsPush _
  case wBase =>
    exact blind_peek (fun _ _ he => Hiding.base he)
      (g := fun n => dsPush (BitVec.ofNat 64 n)) fun _ => blind_dsPush _
  case wDot => exact blind_show fun v b => ltoa v b
  case wUDot => exact blind_show fun v b => ultoa v.toNat b
  case wDotS =>
    refine blind_get (fun d => blind_bind (blind_puts _) fun _ => blind_puts _) fun d e he => ?_
    rw [Hiding.ds he]
  case wVdup =>
    refine blind_get (fun d => blind_ite (blind_pure _) ?_) fun d e he => by rw [Hiding.ds he]
    exact blind_bind blind_dsPop fun _ => blind_bind (blind_dsPush _) fun _ => blind_dsPush _
  case wVplus =>
    refine blind_get (fun d => blind_ite (blind_puts _) ?_) fun d e he => by rw [Hiding.ds he]
    exact blind_bind blind_dsPop fun _ => blind_bind blind_dsPop fun _ =>
      blind_bind blind_dsPop fun _ => blind_bind blind_dsPop fun _ =>
      blind_bind (blind_dsPush _) fun _ => blind_dsPush _
  case wClear => exact blind_modify fun _ _ he => hides_output he [.clear]
  case wDecimal => exact blind_modify fun _ _ he => hides_base he 10
  case wHex => exact blind_modify fun _ _ he => hides_base he 16
  all_goals
    simp only [wDup, wDrop, wSwap, wOver, wRot, wNip, wTuck, w2dup, w2drop, w2swap, wQdup,
      wPlus, wMinus, wMul, wDiv, wMod, wDivmod, wNegate, wAbs, wMin, wMax, w1plus, w1minus, w2star,
      w2slash, wAnd, wOr, wXor, wInvert, wLshift, wRshift, wEq, wNeq, wLt, wGt, wLe, wGe, w0eq,
      w0lt, w0gt, wEmit, wCr, wSpace, wSpaces, wDotHex, wBye]
    repeat'
      first
      | with_reducible refine blind_ite ?_ ?_
      | with_reducible refine blind_bind ?_ fun _ => ?_
      | simp

end Hiding

/-! ## The words on the return stack and the instruction pointer -/

/-- The two virtual machines share the return stack and the instruction pointer,
and their data are related. -/
inductive VmHides (R : Data → Data → Prop) (vm : Vm) : Vm → Prop
  | intro (e : Data) : R vm.data e → VmHides R vm { vm with data := e }

section Vms

variable {R : Data → Data → Prop} {vm vm' : Vm}

theorem VmHides.jump (h : VmHides R vm vm') (a : Cell) :
    VmHides R { vm with ip := a } { vm' with ip := a } := by
  obtain ⟨e, he⟩ := h
  exact ⟨e, he⟩

theorem VmHides.ip (h : VmHides R vm vm') : vm'.ip = vm.ip := by
  obtain ⟨e, he⟩ := h
  rfl

theorem VmHides.rs (h : VmHides R vm vm') : vm'.rs = vm.rs := by
  obtain ⟨e, he⟩ := h
  rfl

theorem VmHides.data (h : VmHides R vm vm') : R vm.data vm'.data := by
  obtain ⟨e, he⟩ := h
  exact he

theorem VmHides.fetch (h : VmHides R vm vm')
    (hcell : cellAt vm'.data.mem vm.ip = cellAt vm.data.mem vm.ip) :
    vm'.ipFetchAdvance.1 = vm.ipFetchAdvance.1 ∧
      VmHides R vm.ipFetchAdvance.2 vm'.ipFetchAdvance.2 := by
  obtain ⟨e, he⟩ := h
  exact ⟨hcell, ⟨e, he⟩⟩

variable [Hiding R]

theorem VmHides.rsPush (h : VmHides R vm vm') (v : Cell) :
    VmHides R (vm.rsPush v) (vm'.rsPush v) := by
  obtain ⟨e, he⟩ := h
  unfold Vm.rsPush
  dsimp only
  split
  · exact ⟨_, hides_puts _ he⟩
  · exact ⟨_, he⟩

theorem VmHides.rsPop (h : VmHides R vm vm') :
    vm'.rsPop.1 = vm.rsPop.1 ∧ VmHides R vm.rsPop.2 vm'.rsPop.2 := by
  obtain ⟨e, he⟩ := h
  unfold Vm.rsPop
  dsimp only
  split
  · exact ⟨rfl, ⟨_, hides_puts _ he⟩⟩
  · exact ⟨rfl, ⟨_, he⟩⟩

theorem VmHides.dsPush (h : VmHides R vm vm') (v : Cell) :
    VmHides R { vm with data := vm.data.dsPush v } { vm' with data := vm'.data.dsPush v } := by
  obtain ⟨e, he⟩ := h
  exact ⟨_, hides_dsPush v he⟩

theorem VmHides.dsPop (h : VmHides R vm vm') : vm'.data.dsPop.1 = vm.data.dsPop.1 ∧
    VmHides R { vm with data := vm.data.dsPop.2 } { vm' with data := vm'.data.dsPop.2 } := by
  obtain ⟨e, he⟩ := h
  exact ⟨(hides_dsPop he).1, ⟨_, (hides_dsPop he).2⟩⟩

/-- The words that read the cell at the instruction pointer. -/
def CFun.fetches : CFun → Bool
  | .doLiteral | .rtBranch | .rt0branch | .rtLoop => true
  | _ => false

theorem VmHides.word {f : CFun} {g : Vm → Vm} (h : VmHides R vm vm') (hg : vmWord f = some g)
    (hcell : f.fetches = true → cellAt vm'.data.mem vm.ip = cellAt vm.data.mem vm.ip) :
    VmHides R (g vm) (g vm') := by
  cases f <;> cases hg
  case doLiteral =>
    obtain ⟨hv, hvm⟩ := h.fetch (hcell rfl)
    unfold doLiteral
    dsimp only
    rw [hv]
    exact hvm.dsPush _
  case rtBranch =>
    obtain ⟨ht, hvm⟩ := h.fetch (hcell rfl)
    unfold rtBranch
    dsimp only
    rw [ht]
    exact hvm.jump _
  case rt0branch =>
    obtain ⟨ht, hvm⟩ := h.fetch (hcell rfl)
    obtain ⟨hv, hvm⟩ := hvm.dsPop
    unfold rt0branch
    dsimp only
    rw [ht, hv]
    split
    · exact hvm.jump _
    · exact hvm
  case rtDo =>
    obtain ⟨hi, hvm⟩ := h.dsPop
    obtain ⟨hlimit, hvm⟩ := hvm.dsPop
    unfold rtDo
    dsimp only at hi hlimit hvm ⊢
    rw [hi, hlimit]
    exact (hvm.rsPush _).rsPush _
  case rtLoop =>
    obtain ⟨ht, hvm⟩ := h.fetch (hcell rfl)
    obtain ⟨hi, hvm⟩ := hvm.rsPop
    unfold rtLoop
    dsimp only
    rw [ht, hi, Vm.rsPeek, Vm.rsPeek, hvm.rs]
    split
    · exact (hvm.rsPush _).jump _
    · exact hvm.rsPop.2
  case wToR =>
    obtain ⟨hv, hvm⟩ := h.dsPop
    unfold wToR
    dsimp only
    rw [hv]
    exact hvm.rsPush _
  case wFromR =>
    obtain ⟨hv, hvm⟩ := h.rsPop
    unfold wFromR
    dsimp only
    rw [hv]
    exact hvm.dsPush _
  all_goals
    have hpeek : vm'.rsPeek = vm.rsPeek := by rw [Vm.rsPeek, Vm.rsPeek, h.rs]
    unfold wRFetch
    rw [hpeek]
    exact h.dsPush _

end Vms

end VectorForth.Forth
