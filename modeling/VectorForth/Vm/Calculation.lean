import VectorForth.Vm.Reentrancy
import VectorForth.Vm.StackEffects
import VectorForth.Vm.Threaded

/-!
# Words that calculate and print

The primitives for the data stack, arithmetic, comparison and output look at the
data stack, at the number base and, in `TYPE`, at memory. They leave another
stack and print something. A word defined by such words alone does no more than
that, and the machine carries out what it denotes, up to a division that traps.
-/

namespace VectorForth.Forth

open ByteMemory LabelledRun

/-! ## A stack and some output -/

/-- The stack `ds`, and `o` on the console. -/
def Data.tell (d : Data) (ds : List Cell) (o : List Out) : Data :=
  { d with ds := ds, output := d.output ++ o }

section Tell

variable {d : Data} {ds ds' : List Cell} {o o' : List Out}

@[simp] theorem tell_ds : (d.tell ds o).ds = ds := rfl

@[simp] theorem tell_base : (d.tell ds o).forthBase = d.forthBase := rfl

@[simp] theorem tell_mem : (d.tell ds o).mem = d.mem := rfl

@[simp] theorem tell_output : (d.tell ds o).output = d.output ++ o := rfl

theorem tell_self (d : Data) : d.tell d.ds [] = d := by
  rw [Data.tell, List.append_nil]

@[simp] theorem tell_tell : (d.tell ds o).tell ds' o' = d.tell ds' (o ++ o') := by
  rw [Data.tell, Data.tell, Data.tell, List.append_assoc]

end Tell

/-- What a push prints. -/
def pushMessage (ds : List Cell) : List Out :=
  if ds.length ≥ dataStackSize then (text " Data Stack Overflow!\n").map .putchar else []

def popMessage (ds : List Cell) : List Out :=
  if ds = [] then (text " Stack Underflow!\n").map .putchar else []

def pickMessage (n : Nat) (ds : List Cell) : List Out :=
  if ds[n]? = none then (text " Invalid PICK!\n").map .putchar else []

theorem dsPush_tell (d : Data) (v : Cell) :
    d.dsPush v = d.tell (afterPush v d.ds) (pushMessage d.ds) := by
  unfold Data.dsPush afterPush pushMessage
  split
  · rfl
  · rw [Data.tell, List.append_nil]

theorem dsPop_tell (d : Data) :
    d.dsPop = (d.ds.headD 0#64, d.tell d.ds.tail (popMessage d.ds)) := by
  unfold Data.dsPop popMessage
  split <;> rename_i h
  · rw [h, if_pos rfl]
    refine Prod.ext rfl ?_
    rw [Data.tell, Data.puts, List.tail_nil, ← h]
  · rw [h, if_neg (List.cons_ne_nil _ _), Data.tell, List.append_nil]
    rfl

theorem dsPick_tell (d : Data) (n : Nat) :
    d.dsPick n = (d.ds[n]?.getD 0#64, d.tell d.ds (pickMessage n d.ds)) := by
  unfold Data.dsPick pickMessage
  split <;> rename_i h
  · rw [h, if_pos rfl]
    rfl
  · rw [h, if_neg (Option.some_ne_none _), tell_self]
    rfl

/-! ## Words that look at the stack and the base -/

/-- `w` depends on the data stack and the base alone; it leaves another stack
and prints. -/
def Answers {α : Type} (w : NativeM α) : Prop :=
  ∃ g : List Cell → Nat → Option (α × List Cell × List Out),
    ∀ d : Data, w.run d = (g d.ds d.forthBase).map fun r => (r.1, d.tell r.2.1 r.2.2)

section Answers

variable {α β : Type}

theorem answers_pure (a : α) : Answers (pure a : NativeM α) :=
  ⟨fun ds _ => some (a, ds, []), fun d => by
    rw [Option.map_some, tell_self]
    rfl⟩

theorem Answers.bind {w : NativeM α} {k : α → NativeM β} (hw : Answers w)
    (hk : ∀ a, Answers (k a)) : Answers (w >>= k) := by
  obtain ⟨g, hg⟩ := hw
  choose g' hg' using hk
  refine ⟨fun ds b => (g ds b).bind fun r =>
    (g' r.1 r.2.1 b).map fun r' => (r'.1, r'.2.1, r.2.2 ++ r'.2.2), fun d => ?_⟩
  rw [StateT.run_bind, hg]
  dsimp only
  generalize g d.ds d.forthBase = first
  cases first with
  | none => rfl
  | some r =>
      rw [Option.map_some, Option.bind_eq_bind, Option.bind_some, Option.bind_some, hg', tell_ds,
        tell_base]
      generalize g' r.1 r.2.1 d.forthBase = second
      cases second with
      | none => rfl
      | some r' => rw [Option.map_some, Option.map_some, Option.map_some, tell_tell]

theorem answers_push (v : Cell) : Answers (dsPush v) :=
  ⟨fun ds _ => some ((), afterPush v ds, pushMessage ds), fun d => by
    rw [Option.map_some, ← dsPush_tell]
    rfl⟩

theorem answers_pop : Answers dsPop :=
  ⟨fun ds _ => some (ds.headD 0#64, ds.tail, popMessage ds), fun d => by
    rw [Option.map_some, ← dsPop_tell]
    rfl⟩

theorem answers_pick (n : Nat) : Answers (dsPick n) :=
  ⟨fun ds _ => some (ds[n]?.getD 0#64, ds, pickMessage n ds), fun d => by
    rw [Option.map_some, ← dsPick_tell]
    rfl⟩

theorem answers_peek : Answers dsPeek :=
  ⟨fun ds _ => some (ds.headD 0#64, ds, []), fun d => by
    rw [Option.map_some, tell_self]
    rfl⟩

theorem answers_puts (t : Text) : Answers (puts t) :=
  ⟨fun ds _ => some ((), ds, t.map .putchar), fun _ => rfl⟩

theorem answers_hang : Answers (hang : NativeM α) := ⟨fun _ _ => none, fun _ => rfl⟩

theorem answers_clear : Answers wClear := ⟨fun ds _ => some ((), ds, [.clear]), fun _ => rfl⟩

theorem answers_get {k : List Cell → Nat → NativeM α} (hk : ∀ ds b, Answers (k ds b)) :
    Answers (do let d ← get; k d.ds d.forthBase) := by
  choose g hg using hk
  exact ⟨fun ds b => g ds b ds b, fun d => hg d.ds d.forthBase d⟩

theorem answers_ite {p : Prop} [Decidable p] {w w' : NativeM α} (hw : Answers w)
    (hw' : Answers w') : Answers (if p then w else w') := by
  split
  · exact hw
  · exact hw'

theorem answers_idiv (a b : Cell) : Answers (idiv a b) := answers_ite answers_hang (answers_pure _)

theorem answers_binary (f : Cell → Cell → Cell) : Answers (binary f) :=
  answers_pop.bind fun _ => answers_pop.bind fun _ => answers_push _

theorem answers_unary (f : Cell → Cell) : Answers (unary f) :=
  answers_pop.bind fun _ => answers_push _

end Answers

/-! ## The primitives -/

/-- The words for output that read no memory. -/
def CFun.outputs : CFun → Bool
  | .wDot | .wUDot | .wDotS | .wDotHex | .wEmit | .wCr | .wSpace | .wSpaces | .wClear => true
  | _ => false

/-- The primitives for the data stack, arithmetic, comparison and output. -/
def CFun.calculates (f : CFun) : Bool :=
  f.shuffles || f.divides || (binaryOp f).isSome || (unaryOp f).isSome || f.outputs ||
    f == .wQdup || f == .wDepth || f == .wType

/-- The bytes of memory that `f` shows. -/
def typedLeaf (f : CFun) (ds : List Cell) : Set Nat :=
  { x | f = .wType ∧ ∃ i < (ds.headD 0#64).toInt.toNat, x = (ds.tail.headD 0#64).toNat + i }

section Primitives

variable {img : Image} {f : CFun} {w : NativeM Unit}

theorem answers_shuffle (hf : f.shuffles = true) (hw : dataWord img f = some w) : Answers w := by
  cases f <;> cases hf <;> cases hw
  case wDup => exact answers_peek.bind fun _ => answers_push _
  case wDrop => exact answers_pop.bind fun _ => answers_pure _
  case wSwap =>
    exact answers_pop.bind fun _ => answers_pop.bind fun _ => (answers_push _).bind fun _ =>
      answers_push _
  case wOver => exact (answers_pick 1).bind fun _ => answers_push _
  case wRot =>
    exact answers_pop.bind fun _ => answers_pop.bind fun _ => answers_pop.bind fun _ =>
      (answers_push _).bind fun _ => (answers_push _).bind fun _ => answers_push _
  case wNip => exact answers_pop.bind fun _ => answers_pop.bind fun _ => answers_push _
  case wTuck =>
    exact answers_pop.bind fun _ => answers_pop.bind fun _ => (answers_push _).bind fun _ =>
      (answers_push _).bind fun _ => answers_push _
  case w2dup =>
    exact answers_peek.bind fun _ => (answers_pick 1).bind fun _ => (answers_push _).bind fun _ =>
      answers_push _
  case w2drop => exact answers_pop.bind fun _ => answers_pop.bind fun _ => answers_pure _
  case w2swap =>
    exact answers_pop.bind fun _ => answers_pop.bind fun _ => answers_pop.bind fun _ =>
      answers_pop.bind fun _ => (answers_push _).bind fun _ => (answers_push _).bind fun _ =>
      (answers_push _).bind fun _ => answers_push _
  case wVdup =>
    refine answers_get (k := fun ds _ => if ds.length < 1 then pure () else do
      let top ← dsPop
      dsPush top
      dsPush top) fun ds _ => answers_ite (answers_pure _) ?_
    exact answers_pop.bind fun _ => (answers_push _).bind fun _ => answers_push _
  case wVplus =>
    refine answers_get (k := fun ds _ =>
      if ds.length < 4 then puts (text " Stack Underflow for V+\n") else do
        let b1 ← dsPop
        let b0 ← dsPop
        let a1 ← dsPop
        let a0 ← dsPop
        dsPush (a0 + b0)
        dsPush (a1 + b1)) fun ds _ => answers_ite (answers_puts _) ?_
    exact answers_pop.bind fun _ => answers_pop.bind fun _ => answers_pop.bind fun _ =>
      answers_pop.bind fun _ => (answers_push _).bind fun _ => answers_push _

theorem answers_division (hf : f.divides = true) (hw : dataWord img f = some w) : Answers w := by
  cases f <;> cases hf <;> cases hw
  case wDiv =>
    refine answers_pop.bind fun _ => answers_ite ?_ ?_
    · exact (answers_puts _).bind fun _ => answers_push _
    · exact answers_pop.bind fun _ => (answers_idiv _ _).bind fun _ => answers_push _
  case wMod =>
    refine answers_pop.bind fun _ => answers_ite ?_ ?_
    · exact (answers_puts _).bind fun _ => answers_push _
    · exact answers_pop.bind fun _ => (answers_idiv _ _).bind fun _ => answers_push _
  case wDivmod =>
    refine answers_pop.bind fun _ => answers_ite ?_ ?_
    · exact (answers_puts _).bind fun _ => (answers_push _).bind fun _ => answers_push _
    · exact answers_pop.bind fun _ => (answers_idiv _ _).bind fun _ =>
        (answers_push _).bind fun _ => answers_push _

theorem answers_output (hf : f.outputs = true) (hw : dataWord img f = some w) : Answers w := by
  cases f <;> cases hf <;> cases hw
  case wDot =>
    refine answers_pop.bind fun v => answers_get (k := fun _ b => do
      puts (ltoa v b)
      putchar (chr ' ')) fun _ _ => ?_
    exact (answers_puts _).bind fun _ => answers_puts _
  case wUDot =>
    refine answers_pop.bind fun v => answers_get (k := fun _ b => do
      puts (ultoa v.toNat b)
      putchar (chr ' ')) fun _ _ => ?_
    exact (answers_puts _).bind fun _ => answers_puts _
  case wDotS =>
    refine answers_get (k := fun ds _ => do
      puts (text "<" ++ itoa (BitVec.ofNat 32 ds.length) 10 ++ text "> ")
      puts (ds.reverse.flatMap fun v => ltoa v 10 ++ [chr ' '])) fun _ _ => ?_
    exact (answers_puts _).bind fun _ => answers_puts _
  case wEmit => exact answers_pop.bind fun _ => answers_puts _
  case wCr => exact answers_puts _
  case wSpace => exact answers_puts _
  case wSpaces => exact answers_pop.bind fun _ => answers_puts _
  case wDotHex => exact answers_pop.bind fun _ => (answers_puts _).bind fun _ => answers_puts _
  case wClear => exact answers_clear

/-- Only `TYPE` reads memory. -/
theorem answers_calculation (hf : f.calculates = true) (hw : dataWord img f = some w)
    (htype : f ≠ .wType) : Answers w := by
  simp only [CFun.calculates, Bool.or_eq_true, beq_iff_eq, or_assoc] at hf
  rcases hf with hf | hf | hf | hf | hf | rfl | rfl | hf
  · exact answers_shuffle hf hw
  · exact answers_division hf hw
  · obtain ⟨g, hg⟩ := Option.isSome_iff_exists.mp hf
    rw [dataWord_binary hg] at hw
    cases hw
    exact answers_binary g
  · obtain ⟨g, hg⟩ := Option.isSome_iff_exists.mp hf
    rw [dataWord_unary hg] at hw
    cases hw
    exact answers_unary g
  · exact answers_output hf hw
  · cases hw
    exact answers_peek.bind fun _ => answers_ite (answers_push _) (answers_pure _)
  · cases hw
    exact answers_get (k := fun ds _ => dsPush (BitVec.ofNat 64 ds.length)) fun _ _ =>
      answers_push _
  · exact absurd hf htype

theorem wType_run (d : Data) : wType.run d = some ((), d.tell d.ds.tail.tail
    (popMessage d.ds ++ popMessage d.ds.tail ++
      ((List.range (d.ds.headD 0#64).toInt.toNat).map fun i =>
        d.mem ((d.ds.tail.headD 0#64).toNat + i)).map .putchar)) := by
  have hrun : wType.run d = some ((), d.dsPop.2.dsPop.2.puts
      ((List.range d.dsPop.1.toInt.toNat).map fun i =>
        d.dsPop.2.dsPop.2.mem (d.dsPop.2.dsPop.1.toNat + i))) := rfl
  rw [hrun, dsPop_tell, dsPop_tell, tell_ds, tell_tell, tell_mem, Data.puts, tell_output,
    List.append_assoc d.output]
  rfl

theorem calculates_dataWord (hf : f.calculates = true) : ∃ w, dataWord img f = some w := by
  cases f <;> first | exact ⟨_, rfl⟩ | cases hf

end Primitives

/-! ## The same effect on two machines -/

/-- `r` and `r'` are the same effect on `d` and on `d'`: the same stack, and as
much output, which is the same if the bytes in `X` are. -/
inductive Mirrors (d d' : Data) (X : Set Nat) : Option Data → Option Data → Prop
  | traps : Mirrors d d' X none none
  | acts {ds : List Cell} {o o' : List Out} (hlen : o'.length = o.length)
      (heq : o' = o ↔ Set.EqOn d'.mem d.mem X) :
      Mirrors d d' X (some (d.tell ds o)) (some (d'.tell ds o'))

section Mirrors

variable {d d' : Data} {X Y : Set Nat} {r r' : Option Data} {img : Image} {f : CFun}

theorem Mirrors.congr (h : Mirrors d d' X r r') (hX : X = Y) : Mirrors d d' Y r r' := hX ▸ h

/-- Without memory the output is the same. -/
theorem Mirrors.same {ds : List Cell} {o : List Out} :
    Mirrors d d' ∅ (some (d.tell ds o)) (some (d'.tell ds o)) :=
  .acts rfl ⟨fun _ => Set.eqOn_empty _ _, fun _ => rfl⟩

theorem Mirrors.bind {k k' : Data → Option Data} {Y : Data → Set Nat} (h : Mirrors d d' X r r')
    (hk : ∀ ds o o', Mirrors (d.tell ds o) (d'.tell ds o') (Y (d.tell ds o)) (k (d.tell ds o))
      (k' (d'.tell ds o'))) :
    Mirrors d d' (X ∪ { x | ∃ d₁, r = some d₁ ∧ x ∈ Y d₁ }) (r.bind k) (r'.bind k') := by
  cases h with
  | traps => exact .traps
  | @acts ds o o' hlen heq =>
      have hsecond := hk ds o o'
      have hbytes : { x | ∃ d₁, some (d.tell ds o) = some d₁ ∧ x ∈ Y d₁ } = Y (d.tell ds o) := by
        ext x
        constructor
        · rintro ⟨d₁, hd₁, hx⟩
          rwa [Option.some.inj hd₁]
        · exact fun hx => ⟨_, rfl, hx⟩
      rw [Option.bind_some, Option.bind_some, hbytes]
      generalize k (d.tell ds o) = s at hsecond ⊢
      generalize k' (d'.tell ds o') = s' at hsecond ⊢
      cases hsecond with
      | traps => exact .traps
      | @acts ds₂ o₂ o₂' hlen₂ heq₂ =>
          rw [tell_tell, tell_tell]
          refine .acts ?_ ?_
          · rw [List.length_append, List.length_append, hlen, hlen₂]
          · rw [tell_mem, tell_mem] at heq₂
            rw [Set.eqOn_union, ← heq, ← heq₂]
            constructor
            · exact fun h => List.append_inj h hlen
            · rintro ⟨rfl, rfl⟩
              rfl

theorem Answers.mirrors {w : NativeM Unit} (h : Answers w) (hds : d'.ds = d.ds)
    (hbase : d'.forthBase = d.forthBase) :
    Mirrors d d' ∅ ((w.run d).map Prod.snd) ((w.run d').map Prod.snd) := by
  obtain ⟨g, hg⟩ := h
  rw [hg, hg, hds, hbase]
  cases g d.ds d.forthBase with
  | none => exact .traps
  | some r => exact .same

theorem calculation_mirrors {w : NativeM Unit} (hf : f.calculates = true)
    (hw : dataWord img f = some w) (hds : d'.ds = d.ds) (hbase : d'.forthBase = d.forthBase) :
    Mirrors d d' (typedLeaf f d.ds) ((w.run d).map Prod.snd) ((w.run d').map Prod.snd) := by
  by_cases htype : f = .wType
  · subst htype
    cases hw
    rw [wType_run, wType_run, hds]
    refine .acts ?_ ?_
    · simp only [List.length_append, List.length_map]
    · rw [List.append_cancel_left_eq, List.map_inj_right (fun _ _ => Out.putchar.inj),
        List.map_inj_left]
      constructor
      · rintro h x ⟨-, i, hi, rfl⟩
        exact h i (List.mem_range.mpr hi)
      · intro h i hi
        exact h ⟨rfl, i, List.mem_range.mp hi, rfl⟩
  · refine ((answers_calculation hf hw htype).mirrors hds hbase).congr ?_
    symm
    exact Set.eq_empty_iff_forall_notMem.mpr fun x hx => htype hx.1

end Mirrors

/-! ## Words defined by such words -/

section Denotation

variable (img : Image) (words : Words)

/-- `e` is a primitive that calculates, or a straight-line word of such words,
nested at most `depth` deep. -/
def OfKind : Nat → Cell → Prop
  | 0, e => ∃ f, words e = some (.native f) ∧ f.calculates = true
  | depth + 1, e => (∃ f, words e = some (.native f) ∧ f.calculates = true) ∨
      ∃ b, words e = some (.colon b) ∧ b.straight = true ∧ ∀ e' ∈ b.calls, OfKind depth e'

/-- The bytes of memory that a body shows. -/
def typedBody (call : Cell → Data → Option Data) (typed : Cell → Data → Set Nat) :
    Body → Data → Set Nat
  | .lit v rest, d => typedBody call typed rest (d.dsPush v)
  | .word e rest, d =>
      typed e d ∪ { x | ∃ d', call e d = some d' ∧ x ∈ typedBody call typed rest d' }
  | _, _ => ∅

/-- The bytes of memory that a word shows. -/
def typedWord : Nat → Cell → Data → Set Nat
  | 0, e, d =>
      match words e with
      | some (.native f) => typedLeaf f d.ds
      | _ => ∅
  | depth + 1, e, d =>
      match words e with
      | some (.native f) => typedLeaf f d.ds
      | some (.colon b) => typedBody (denoteWord img words depth) (typedWord depth) b d
      | _ => ∅

end Denotation

section Denotation

variable {img : Image} {words : Words} {depth : Nat} {e : Cell} {d d' : Data}

theorem denoteBody_mirrors {call : Cell → Data → Option Data} {typed : Cell → Data → Set Nat}
    {b : Body} (hb : b.straight = true)
    (hcall : ∀ e ∈ b.calls, ∀ d d' : Data, d'.ds = d.ds → d'.forthBase = d.forthBase →
      Mirrors d d' (typed e d) (call e d) (call e d')) (hds : d'.ds = d.ds)
    (hbase : d'.forthBase = d.forthBase) :
    Mirrors d d' (typedBody call typed b d) (denoteBody call b d) (denoteBody call b d') := by
  induction b generalizing d d' with
  | nil =>
      have h : Mirrors d d' ∅ (some (d.tell d.ds [])) (some (d'.tell d'.ds [])) := by
        rw [hds]
        exact .same
      rwa [tell_self, tell_self] at h
  | lit v rest ih =>
      rw [denoteBody, denoteBody, typedBody, dsPush_tell, dsPush_tell, hds]
      have hpush : Mirrors d d' ∅ (some (d.tell (afterPush v d.ds) (pushMessage d.ds)))
          (some (d'.tell (afterPush v d.ds) (pushMessage d.ds))) := .same
      have hrest : ∀ ds o o', Mirrors (d.tell ds o) (d'.tell ds o')
          (typedBody call typed rest (d.tell ds o)) (denoteBody call rest (d.tell ds o))
          (denoteBody call rest (d'.tell ds o')) := fun ds o o' => ih hb hcall rfl hbase
      refine (hpush.bind hrest).congr ?_
      ext x
      simp
  | word e rest ih =>
      exact (hcall e (List.mem_cons_self ..) d d' hds hbase).bind fun ds o o' =>
        ih hb (fun e' he' => hcall e' (List.mem_cons_of_mem _ he')) rfl hbase
  | ifThen | ifElse | untilLoop | againLoop | whileLoop | doLoop => cases hb

theorem denoteLeaf_mirrors {f : CFun} (hf : f.calculates = true) (hds : d'.ds = d.ds)
    (hbase : d'.forthBase = d.forthBase) :
    Mirrors d d' (typedLeaf f d.ds) (denoteLeaf img (.native f) e d)
      (denoteLeaf img (.native f) e d') := by
  obtain ⟨w, hw⟩ : ∃ w, dataWord img f = some w := calculates_dataWord hf
  rw [denoteLeaf, denoteLeaf, hw, Option.bind_some, Option.bind_some]
  exact calculation_mirrors hf hw hds hbase

/-- **A word calculates alike in two machines with the same stack and base**, by
induction on the nesting of calls. -/
theorem denoteWord_mirrors (h : OfKind words depth e) (hds : d'.ds = d.ds)
    (hbase : d'.forthBase = d.forthBase) :
    Mirrors d d' (typedWord img words depth e d) (denoteWord img words depth e d)
      (denoteWord img words depth e d') := by
  induction depth generalizing e d d' with
  | zero =>
      obtain ⟨f, he, hf⟩ := h
      simp only [denoteWord, typedWord, he, Option.bind_some]
      exact denoteLeaf_mirrors hf hds hbase
  | succ depth ih =>
      rcases h with ⟨f, he, hf⟩ | ⟨b, he, hb, hcalls⟩
      · simp only [denoteWord, typedWord, he]
        exact denoteLeaf_mirrors hf hds hbase
      · simp only [denoteWord, typedWord, he]
        exact denoteBody_mirrors hb (fun e' he' d d' => ih (hcalls e' he')) hds hbase

/-- What a calculation leaves is the machine with another stack and more output. -/
theorem Mirrors.tells {X : Set Nat} {r r' : Option Data} {d₁ : Data} (h : Mirrors d d' X r r')
    (hr : r = some d₁) : ∃ ds o, d₁ = d.tell ds o := by
  cases h with
  | traps => cases hr
  | acts => exact ⟨_, _, (Option.some.inj hr).symm⟩

theorem denoteWord_tells {d₁ : Data} (h : OfKind words depth e)
    (hden : denoteWord img words depth e d = some d₁) : ∃ ds o, d₁ = d.tell ds o := by
  have hself : Mirrors d d (typedWord img words depth e d) (denoteWord img words depth e d)
      (denoteWord img words depth e d) := denoteWord_mirrors h rfl rfl
  exact hself.tells hden

theorem denoteWord_mem {d₁ : Data} (h : OfKind words depth e)
    (hden : denoteWord img words depth e d = some d₁) : d₁.mem = d.mem := by
  obtain ⟨ds, o, rfl⟩ := denoteWord_tells h hden
  rfl

theorem denoteBody_mem {call : Cell → Data → Option Data} {b : Body} {d₁ : Data}
    (hkeep : ∀ e ∈ b.calls, ∀ d d', call e d = some d' → d'.mem = d.mem)
    (hden : denoteBody call b d = some d₁) : d₁.mem = d.mem := by
  induction b generalizing d with
  | nil =>
      cases hden
      rfl
  | lit v rest ih => exact (ih hkeep hden).trans (dsPush_mem d v)
  | word e rest ih =>
      obtain ⟨d₂, hfirst, hrest⟩ := Option.bind_eq_some_iff.mp hden
      exact (ih (fun e' he' => hkeep e' (List.mem_cons_of_mem _ he')) hrest).trans
        (hkeep e (List.mem_cons_self ..) d d₂ hfirst)
  | ifThen | ifElse | untilLoop | againLoop | whileLoop | doLoop => cases hden

end Denotation

/-! ## On the machine -/

/-- From `m` the machine comes to `after d` if the outcome is `d`; if there is none,
it gets stuck. -/
def ComesTo (img : Image) (K : List Frame) (m : Machine) (after : Data → Machine) :
    Option Data → Prop
  | some d => Via (step img) (Above K) m (after d)
  | none => ∃ m', Via (step img) (Above K) m m' ∧ Above K m' ∧ step img m' = none

section ComesTo

variable {img : Image} {K F : List Frame} {m m₁ : Machine} {after after' : Data → Machine}
  {r : Option Data} {d : Data} {rs : List Cell} {ip : Cell}

theorem ComesTo.via (hvia : Via (step img) (Above K) m m₁) (h : ComesTo img K m₁ after r) :
    ComesTo img K m after r := by
  cases r with
  | some d => exact hvia.trans h
  | none =>
      obtain ⟨m', hvia', hstuck⟩ := h
      exact ⟨m', hvia.trans hvia', hstuck⟩

theorem ComesTo.head (hm : Above K m) (hstep : step img m = some m₁)
    (h : ComesTo img K m₁ after r) : ComesTo img K m after r := h.via (Via.single hm hstep)

theorem ComesTo.bind {k : Data → Option Data} (h : ComesTo img K m after r)
    (hk : ∀ d, r = some d → ComesTo img K (after d) after' (k d)) :
    ComesTo img K m after' (r.bind k) := by
  cases r with
  | some d => exact (hk d rfl).via h
  | none => exact h

/-- One more step at the end. -/
theorem ComesTo.last (h : ComesTo img K m after r)
    (hlast : ∀ d, r = some d → Above K (after d) ∧ step img (after d) = some (after' d)) :
    ComesTo img K m after' r := by
  cases r with
  | some d => exact h.trans (Via.single (hlast d rfl).1 (hlast d rfl).2)
  | none => exact h

theorem above_conf {f : Frame} (hF : K <:+ F) : Above K (m.conf d rs ip (f :: F)) := by
  obtain ⟨L, hL⟩ := hF
  exact ⟨f :: L, List.cons_ne_nil _ _, by rw [Machine.conf_frames, ← hL]; rfl⟩

/-- A machine that is stuck above `K` does not return to `K`. -/
theorem not_returns_of_stuck {m' : Machine} (hvia : Via (step img) (Above K) m m')
    (habove : Above K m') (hstuck : step img m' = none) : ¬ Returns img K m m₁ := by
  rintro ⟨hvia', hframes⟩
  induction hvia with
  | refl s =>
      cases hvia' with
      | refl => exact not_above_self hframes habove
      | head _ hstep _ =>
          rw [hstuck] at hstep
          cases hstep
  | head hs hstep _ ih =>
      cases hvia' with
      | refl => exact not_above_self hframes hs
      | head _ hstep' hrest =>
          rw [hstep] at hstep'
          obtain rfl := Option.some.inj hstep'
          exact ih habove hstuck hrest

/-- Where the machine returns, there was an outcome. -/
theorem ComesTo.of_returns (h : ComesTo img K m after r) (hafter : ∀ d, (after d).frames = K)
    (hreturns : Returns img K m m₁) : ∃ d, r = some d ∧ m₁ = after d := by
  cases r with
  | some d => exact ⟨d, rfl, hreturns.unique ⟨h, hafter d⟩⟩
  | none =>
      obtain ⟨m', hvia, habove, hstuck⟩ := h
      exact absurd hreturns (not_returns_of_stuck hvia habove hstuck)

end ComesTo

section Machine

variable {img : Image} {words : Words} {P : Set Nat} {K F : List Frame} {m : Machine} {d : Data}
  {rs : List Cell} {ip e a : Cell} {depth : Nat} {f : CFun}

/-- A primitive is called: it returns, or the machine is stuck. -/
theorem callCode_leaf {w : NativeM Unit} (hw : dataWord img f = some w) :
    callCode img (img.addr f) e (m.conf d rs ip F) =
      ((w.run d).map Prod.snd).map fun d' => m.conf d' rs ip F := by
  cases hrun : w.run d with
  | some r => exact callCode_native hw hrun
  | none =>
      have hv : f ≠ .doVariable := by rintro rfl; cases hw
      have hc : f ≠ .doConstant := by rintro rfl; cases hw
      have hrun' : w.run (m.conf d rs ip F).vm.data = none := hrun
      rw [callCode_function hv hc]
      unfold callNative
      simp only [hw, hrun', Option.map_none]

theorem comesTo_step {m₁ : Machine} {after : Data → Machine} {r : Option Data} (hm : Above K m₁)
    (hstep : step img m₁ = r.map after) : ComesTo img K m₁ after r := by
  cases r with
  | some d => exact Via.single hm hstep
  | none => exact ⟨m₁, Via.refl _, hm, hstep⟩

theorem denoteLeaf_native {w : NativeM Unit} (hw : dataWord img f = some w) :
    denoteLeaf img (.native f) e d = (w.run d).map Prod.snd := by
  rw [denoteLeaf, hw, Option.bind_some]

/-- A primitive among the cells of a body. -/
theorem inner_leaf (hF : K <:+ F) (hcell : cellAt d.mem ip = e)
    (hentry : EntryAt img P d.mem e (.native f)) (hf : f.calculates = true) :
    ComesTo img K (m.conf d rs ip (.inner :: F)) (fun d' => m.conf d' rs (ip + 8#64) (.inner :: F))
      (denoteLeaf img (.native f) e d) := by
  obtain ⟨w, hw⟩ : ∃ w, dataWord img f = some w := calculates_dataWord hf
  have hne : img.addr f ≠ img.addr .doColon := by
    intro h
    rw [img.addr_inj h] at hw
    cases hw
  rw [denoteLeaf_native hw]
  refine comesTo_step (above_conf hF) ?_
  rw [step_inner_other hcell hentry.inDict hentry.code hne]
  exact callCode_leaf hw

/-- The cells of a straight-line body, from left to right. -/
theorem inner_body {call : Cell → Data → Option Data} {b : Body} {M : Mem} (hF : K <:+ F)
    (hb : b.straight = true)
    (hcall : ∀ e ∈ b.calls, ∀ (d : Data) (ip : Cell), d.mem = M → cellAt M ip = e →
      ip + 8#64 ≠ 0#64 →
      ComesTo img K (m.conf d rs ip (.inner :: F))
        (fun d' => m.conf d' rs (ip + 8#64) (.inner :: F)) (call e d))
    (hkeep : ∀ e ∈ b.calls, ∀ d d', call e d = some d' → d'.mem = d.mem)
    (hmem : d.mem = M) (hfits : Fits a b.size) (hcells : CellsAt M a (layout img b a)) :
    ComesTo img K (m.conf d rs a (.inner :: F))
      (fun d' => m.conf d' rs (offset a b.size) (.inner :: F)) (denoteBody call b d) := by
  induction b generalizing d a with
  | nil =>
      rw [denoteBody, Body.size, offset_zero]
      exact Via.refl _
  | lit v rest ih =>
      obtain ⟨hcell, hv, hrest⟩ := hcells
      rw [offset_offset] at hrest
      obtain ⟨hfits', -⟩ := hfits.offset (i := 2) (j := rest.size) (by rw [Body.size])
      have hstep : step img (m.conf d rs a (.inner :: F)) =
          some (m.conf (d.dsPush v) rs (offset a 2) (.inner :: F)) := by
        rw [offset_one] at hv
        rw [step_inner_literal (by rw [hmem]; exact hcell), hmem, hv, ← offset_one, ← offset_one,
          offset_offset]
      have h := ih hb hcall hkeep (d := d.dsPush v) (by rw [dsPush_mem]; exact hmem) hfits' hrest
      rw [offset_offset] at h
      exact h.head (above_conf hF) hstep
  | word e rest ih =>
      obtain ⟨hcell, hrest⟩ := hcells
      obtain ⟨hfits', -⟩ := hfits.offset (i := 1) (j := rest.size) (by rw [Body.size])
      refine (hcall e (List.mem_cons_self ..) d a hmem hcell hfits.next_ne_zero).bind ?_
      intro d' hd'
      have h := ih hb (fun e' he' => hcall e' (List.mem_cons_of_mem _ he'))
        (fun e' he' => hkeep e' (List.mem_cons_of_mem _ he')) (d := d')
        ((hkeep e (List.mem_cons_self ..) d d' hd').trans hmem) hfits' hrest
      rw [offset_offset] at h
      exact h
  | ifThen | ifElse | untilLoop | againLoop | whileLoop | doLoop => cases hb

/-- The body of a colon word, with its return address `ret` on the return stack. -/
theorem inner_colon {call : Cell → Data → Option Data} {b : Body} (hF : K <:+ F)
    (hknown : Known img words P d.mem) (he : words e = some (.colon b)) (hb : b.straight = true)
    {ret : Cell}
    (hcall : ∀ e' ∈ b.calls, ∀ (d₁ : Data) (ip : Cell), d₁.mem = d.mem → cellAt d.mem ip = e' →
      ip + 8#64 ≠ 0#64 →
      ComesTo img K (m.conf d₁ (ret :: rs) ip (.inner :: F))
        (fun d' => m.conf d' (ret :: rs) (ip + 8#64) (.inner :: F)) (call e' d₁))
    (hkeep : ∀ e' ∈ b.calls, ∀ d₁ d₂, call e' d₁ = some d₂ → d₂.mem = d₁.mem)
    {after : Data → Machine}
    (hexit : ∀ (d' : Data) (a : Cell), d'.mem = d.mem → cellAt d'.mem a = sentinelExit →
      step img (m.conf d' (ret :: rs) a (.inner :: F)) = some (after d')) :
    ComesTo img K (m.conf d (ret :: rs) (dictGetParamField d.mem e) (.inner :: F)) after
      (denoteBody call b d) := by
  obtain ⟨hfits, -, hcells, hsentinel⟩ := hknown.colon he
  refine (inner_body hF hb hcall hkeep rfl hfits hcells).last ?_
  intro d' hd'
  have hmem : d'.mem = d.mem := denoteBody_mem hkeep hd'
  exact ⟨above_conf hF, hexit d' _ hmem (by rw [hmem]; exact hsentinel)⟩

/-- **A word among the cells of a body**: the machine runs it and comes to the
next cell, by induction on the nesting of calls. -/
theorem inner_word (hF : K <:+ F) (h : OfKind words depth e) (hknown : Known img words P d.mem)
    (hcell : cellAt d.mem ip = e) (hnext : ip + 8#64 ≠ 0#64)
    (hroom : rs.length + depth ≤ returnStackSize) :
    ComesTo img K (m.conf d rs ip (.inner :: F)) (fun d' => m.conf d' rs (ip + 8#64) (.inner :: F))
      (denoteWord img words depth e d) := by
  induction depth generalizing e d rs ip with
  | zero =>
      obtain ⟨f, he, hf⟩ := h
      rw [denoteWord, he, Option.bind_some]
      exact inner_leaf hF hcell (hknown e _ he) hf
  | succ depth ih =>
      rcases h with ⟨f, he, hf⟩ | ⟨b, he, hb, hcalls⟩
      · simp only [denoteWord, he]
        exact inner_leaf hF hcell (hknown e _ he) hf
      · simp only [denoteWord, he]
        have hentry := hknown e _ he
        refine .head (above_conf hF)
          (step_inner_colon hcell hentry.inDict hentry.code (by omega)) ?_
        refine inner_colon hF hknown he hb ?_ ?_ ?_
        · intro e' he' d₁ ip' hmem hcell' hnext'
          exact ih (hcalls e' he') (by rw [hmem]; exact hknown) (by rw [hmem]; exact hcell') hnext'
            (by rw [List.length_cons]; omega)
        · exact fun e' he' d₁ d₂ hden => denoteWord_mem (hcalls e' he') hden
        · exact fun d' a _ hexit => step_inner_exit hexit hnext

/-- **A word executed with `ip = 0`** returns to its caller. -/
theorem execute_word (hF : K <:+ F) (h : OfKind words depth e) (hknown : Known img words P d.mem)
    (hroom : rs.length + depth ≤ returnStackSize) :
    ComesTo img K (m.conf d rs 0#64 (.execute e :: F)) (fun d' => m.conf d' rs 0#64 F)
      (denoteWord img words depth e d) := by
  have hleaf : ∀ f, words e = some (.native f) → f.calculates = true →
      ComesTo img K (m.conf d rs 0#64 (.execute e :: F)) (fun d' => m.conf d' rs 0#64 F)
        (denoteLeaf img (.native f) e d) := by
    intro f he hf
    obtain ⟨w, hw⟩ : ∃ w, dataWord img f = some w := calculates_dataWord hf
    have hne : img.addr f ≠ img.addr .doColon := by
      intro h
      rw [img.addr_inj h] at hw
      cases hw
    rw [denoteLeaf_native hw]
    refine comesTo_step (above_conf hF) ?_
    rw [step_execute_other (hknown e _ he).code hne]
    exact callCode_leaf hw
  cases depth with
  | zero =>
      obtain ⟨f, he, hf⟩ := h
      rw [denoteWord, he, Option.bind_some]
      exact hleaf f he hf
  | succ depth =>
      rcases h with ⟨f, he, hf⟩ | ⟨b, he, hb, hcalls⟩
      · simp only [denoteWord, he]
        exact hleaf f he hf
      · simp only [denoteWord, he]
        refine .head (above_conf hF) (step_execute_colon (hknown e _ he).code (by omega)) ?_
        refine inner_colon hF hknown he hb ?_ ?_ ?_
        · intro e' he' d₁ ip' hmem hcell' hnext'
          exact inner_word hF (hcalls e' he') (by rw [hmem]; exact hknown)
            (by rw [hmem]; exact hcell') hnext' (by rw [List.length_cons]; omega)
        · exact fun e' he' d₁ d₂ hden => denoteWord_mem (hcalls e' he') hden
        · exact fun d' a _ hexit => step_inner_return hexit

end Machine

end VectorForth.Forth
