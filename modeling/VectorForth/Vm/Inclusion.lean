import VectorForth.Vm.Locality
import VectorForth.Vm.Modes

/-!
# Text that goes on

A text is read token by token, so what follows it does not matter until it is
used up. Evaluating a text in front of another one is therefore the same as
evaluating it alone, and a block that is loaded does what its text does in the
place of the `LOAD`: other frames lie underneath, other things were printed
before, and the rest of the text waits in a frame of `w_load` or behind the
text. Blocks may load other blocks.
-/

namespace VectorForth.Forth

open ByteMemory LabelledRun TwoRuns

/-! ## The same state with more text to read -/

/-- `e` has `r` to read after the text of `d`, and `o'` printed in the place of `o`. -/
inductive Inlined (r : Text) (o o' : List Out) (d : Data) : Data → Prop
  | intro (x : List Out) : d.output = o ++ x →
      Inlined r o o' d { d with parsePtr := d.parsePtr ++ r, output := o' ++ x }

/-- `f` neither reads nor changes the text and the output. -/
def Steady (f : Data → Data) : Prop :=
  ∀ d p o, f { d with parsePtr := p, output := o } = { f d with parsePtr := p, output := o }

section Inlined

variable {r : Text} {o o' : List Out} {d e : Data} {img : Image} {f : CFun} {w : NativeM Unit}
  {α : Type}

instance : Hiding (Inlined r o o') where
  ds := by
    rintro d e ⟨x, hx⟩
    rfl
  base := by
    rintro d e ⟨x, hx⟩
    rfl
  keep := by
    rintro d e ⟨x, hx⟩ ds y b
    have hout : d.output ++ y = o ++ (x ++ y) := by rw [hx, List.append_assoc]
    have hout' : (o' ++ x) ++ y = o' ++ (x ++ y) := List.append_assoc ..
    dsimp only
    rw [hout']
    exact Inlined.intro (d := { d with ds := ds, output := d.output ++ y, forthBase := b }) (x ++ y) hout

theorem Steady.inlined {f : Data → Data} (hf : Steady f) (h : Inlined r o o' d e) :
    Inlined r o o' (f d) (f e) := by
  obtain ⟨x, hx⟩ := h
  have hparse := congrArg Data.parsePtr (hf d d.parsePtr d.output)
  have hout := congrArg Data.output (hf d d.parsePtr d.output)
  change (f d).parsePtr = d.parsePtr at hparse
  change (f d).output = d.output at hout
  have hnew : f { d with parsePtr := d.parsePtr ++ r, output := o' ++ x } =
      { f d with parsePtr := (f d).parsePtr ++ r, output := o' ++ x } := by
    rw [hparse]
    exact hf d _ _
  rw [hnew]
  exact ⟨x, hout.trans hx⟩

theorem Steady.blind {f : Data → Data} (hf : Steady f) :
    Blind (Inlined r o o') (modify f : NativeM Unit) := blind_modify fun _ _ he => hf.inlined he

theorem steady_comma (v : Cell) : Steady (·.dictComma v) := fun _ _ _ => rfl

theorem steady_setCell (a v : Cell) : Steady (·.setCell a v) := fun _ _ _ => rfl

/-- `HERE` goes to a hole. -/
theorem steady_fill (a : Cell) : Steady fun d => d.setCell a d.dictHere := fun _ _ _ => rfl

theorem blind_comma (v : Cell) : Blind (Inlined r o o') (modify (·.dictComma v) : NativeM Unit) :=
  (steady_comma v).blind

theorem blind_here {g : Cell → NativeM α} (hg : ∀ a, Blind (Inlined r o o') (g a)) :
    Blind (Inlined r o o') (get >>= fun d => g d.dictHere) := by
  refine blind_peek ?_ hg
  rintro d e ⟨x, hx⟩
  rfl

theorem blind_mem {g : Mem → NativeM α} (hg : ∀ m, Blind (Inlined r o o') (g m)) :
    Blind (Inlined r o o') (get >>= fun d => g d.mem) := by
  refine blind_peek ?_ hg
  rintro d e ⟨x, hx⟩
  rfl

theorem blind_cell (a : Cell) : Blind (Inlined r o o') (fetchCell a) :=
  blind_mem (g := fun m => pure (cellAt m a)) fun _ => blind_pure _

theorem blind_find (name : Text) : Blind (Inlined r o o') (find name) := by
  intro d e he
  have hfind : dictFind e name = dictFind d name := by
    obtain ⟨x, hx⟩ := he
    rfl
  have hd : find name d = (dictFind d name).map (·, d) := rfl
  have he' : find name e = (dictFind e name).map (·, e) := rfl
  rw [hd, he', hfind]
  cases dictFind d name with
  | none => exact .none
  | some a => exact .some ⟨rfl, he⟩

theorem blind_list (fuel : Nat) (entry : Cell) (count : Nat) :
    Blind (Inlined r o o') (dictListWordsFrom fuel entry count) := by
  induction fuel generalizing entry count with
  | zero => exact blind_failure
  | succ fuel ih =>
      rw [dictListWordsFrom]
      refine blind_ite ?_ (blind_mem (g := fun m => if dictGetFlagsLen m entry &&& fHidden = 0#8 then
        (puts (dictGetName m entry) >>= fun _ => putchar (chr ' ') >>= fun _ =>
          if (count + 1) % 10 = 0 then putchar (chr '\n') >>= fun _ =>
            dictListWordsFrom fuel (cellAt m entry) (count + 1)
          else dictListWordsFrom fuel (cellAt m entry) (count + 1))
        else dictListWordsFrom fuel (cellAt m entry) count) fun m => ?_)
      · exact blind_bind (blind_putchar _) fun _ => blind_bind (blind_puts _) fun _ => blind_puts _
      · refine blind_ite (blind_bind (blind_puts _) fun _ => blind_bind (blind_putchar _) fun _ => ?_)
          (ih _ _)
        exact blind_ite (blind_bind (blind_putchar _) fun _ => ih _ _) (ih _ _)

theorem blind_listing (fuel : Nat) (pfa : Cell) :
    Blind (Inlined r o o') (seeFrom img fuel pfa) := by
  induction fuel generalizing pfa with
  | zero => exact blind_failure
  | succ fuel ih =>
      rw [seeFrom]
      refine blind_bind (blind_cell _) fun cell => blind_ite (blind_puts _) (blind_ite ?_ ?_)
      · exact blind_bind (blind_cell _) fun v => blind_bind (blind_puts _) fun _ =>
          blind_bind (blind_putchar _) fun _ => ih _
      · refine blind_ite ?_ (blind_bind (blind_puts _) fun _ => ih _)
        exact blind_mem (g := fun m => puts (dictGetName m cell) >>= fun _ =>
          putchar (chr ' ') >>= fun _ => seeFrom img fuel (pfa + 8#64)) fun m =>
          blind_bind (blind_puts _) fun _ => blind_bind (blind_putchar _) fun _ => ih _

/-! ## Words that read on -/

/-- The words that read a name. -/
def CFun.names : CFun → Bool
  | .wColon | .wCreate | .wVariable | .wConstant | .wTick | .wSee => true
  | _ => false

/-- The words that read up to a delimiter. -/
def CFun.delimiter : CFun → Option Byte
  | .wDotQuote => some (chr '"')
  | .wParen => some (chr ')')
  | _ => none

/-- What `f` reads of the text `p` ends in `p`. -/
def ReadsInside (f : CFun) (p : Text) : Prop :=
  (f.names = true → (nextWord 64 p).1 ≠ []) ∧ ∀ c, f.delimiter = some c → c ∈ p

/-- There is nothing to read on, or it starts with a blank and is not reached. -/
def Continues (r : Text) (inside : Prop) : Prop := r = [] ∨ (∃ x, r = chr ' ' :: x) ∧ inside

theorem nextWord_inlined {p : Text} (h : Continues r ((nextWord 64 p).1 ≠ [])) :
    nextWord 64 (p ++ r) = ((nextWord 64 p).1, (nextWord 64 p).2 ++ r) := by
  rcases h with rfl | ⟨⟨x, rfl⟩, hword⟩
  · rw [List.append_nil, List.append_nil]
  · exact nextWord_append rfl hword

theorem nextUntil_inlined {p : Text} {c : Byte} {n : Nat} (hc : c ≠ chr ' ')
    (h : Continues r (c ∈ p)) :
    nextUntil c n (p ++ r) = ((nextUntil c n p).1, (nextUntil c n p).2 ++ r) := by
  rcases h with rfl | ⟨-, hin⟩
  · rw [List.append_nil, List.append_nil]
  · exact nextUntil_append hin hc

theorem blindAt_parseWord (h : Continues r ((nextWord 64 d.parsePtr).1 ≠ [])) :
    BlindAt (Inlined r o o') (parseWord 64) d := by
  rintro e ⟨x, hx⟩
  have hword := nextWord_inlined h
  have hd : parseWord 64 d =
      some ((nextWord 64 d.parsePtr).1, { d with parsePtr := (nextWord 64 d.parsePtr).2 }) := rfl
  have he : ∀ e : Data, parseWord 64 e =
      some ((nextWord 64 e.parsePtr).1, { e with parsePtr := (nextWord 64 e.parsePtr).2 }) :=
    fun _ => rfl
  rw [hd, he]
  dsimp only
  rw [hword]
  exact .some ⟨rfl, ⟨x, hx⟩⟩

theorem blindAt_parseUntil {c : Byte} {n : Nat} (hc : c ≠ chr ' ')
    (h : Continues r (c ∈ d.parsePtr)) : BlindAt (Inlined r o o') (parseUntil c n) d := by
  rintro e ⟨x, hx⟩
  have hword := nextUntil_inlined (n := n) hc h
  have hd : parseUntil c n d =
      some ((nextUntil c n d.parsePtr).1, { d with parsePtr := (nextUntil c n d.parsePtr).2 }) := rfl
  have he : ∀ e : Data, parseUntil c n e =
      some ((nextUntil c n e.parsePtr).1, { e with parsePtr := (nextUntil c n e.parsePtr).2 }) :=
    fun _ => rfl
  rw [hd, he]
  dsimp only
  rw [hword]
  exact .some ⟨rfl, ⟨x, hx⟩⟩

/-- A word that reads a name and does `g` with it. -/
theorem blindAt_named {g : Text → NativeM Unit} (h : Continues r ((nextWord 64 d.parsePtr).1 ≠ []))
    (hg : ∀ name, Blind (Inlined r o o') (g name)) : BlindAt (Inlined r o o')
      (parseWord 64 >>= fun name => if name = [] then return () else g name) d :=
  blindAt_bind (blindAt_parseWord h) fun name _ _ => blind_ite (blind_pure _) (hg name) _

theorem blind_header (name : Text) (flags : Byte) (code : Cell) {g : NativeM Unit}
    (hg : Blind (Inlined r o o') g) :
    Blind (Inlined r o o') (modify (·.dictCreate name flags) >>= fun _ =>
      modify (·.dictSetCode code) >>= fun _ => g : NativeM Unit) :=
  blind_bind (Steady.blind fun _ _ _ => rfl) fun _ =>
    blind_bind (Steady.blind fun _ _ _ => rfl) fun _ => hg

theorem blindAt_status : BlindAt (Inlined r o o') wStatus d := by
  refine blindAt_get ?_ ?_
  · exact blind_bind (blind_puts _) (fun _ => blind_bind (blind_puts _) fun _ =>
      blind_bind (blind_puts _) fun _ => blind_bind (blind_vgaPutHex _) fun _ =>
      blind_bind (blind_putchar _) fun _ => blind_bind (blind_puts _) fun _ => blind_puts _) _
  · rintro e ⟨x, hx⟩
    rfl

theorem blind_dumped (m : Mem) (addr : Cell) (i : Nat) :
    Blind (Inlined r o o') (dumpByte m addr i) := by
  unfold dumpByte
  repeat'
    first
    | with_reducible refine blind_ite ?_ ?_
    | with_reducible refine blind_bind ?_ fun _ => ?_
    | simp

theorem blind_getBlock (n : BitVec 32) : Blind (Inlined r o o') (blockGet img n) := by
  rintro d e ⟨x, hx⟩
  exact .some ⟨rfl, ⟨x, hx⟩⟩

theorem blind_forked : Blind (Inlined r o o') wFork := by
  refine blind_bind blind_dsPop fun xt => blind_bind (Steady.blind fun _ _ _ => rfl) fun _ =>
    blind_bind (blind_modifyGet ?_) fun _ => blind_dsPush _
  rintro d e ⟨x, hx⟩
  exact ⟨rfl, ⟨x, hx⟩⟩

theorem blindAt_create (h : Continues r ((nextWord 64 d.parsePtr).1 ≠ [])) :
    BlindAt (Inlined r o o') (wCreate img) d :=
  blindAt_named h fun _ => blind_bind (Steady.blind fun _ _ _ => rfl) fun _ =>
    Steady.blind fun _ _ _ => rfl

theorem steady_immediate : Steady fun d => if d.dictLatest ≠ 0#64 then
    d.setByte (d.dictLatest + 8#64) (dictGetFlagsLen d.mem d.dictLatest ^^^ fImmediate) else d := by
  intro d p o
  dsimp only
  split <;> rfl

theorem blind_see (name : Text) : Blind (Inlined r o o') (find name >>= fun entry =>
    if entry = 0#64 then puts (text " ? Not found\n") else get >>= fun d =>
      puts (text ": " ++ dictGetName d.mem entry ++ text " ") >>= fun _ =>
      fetchCell (dictGetCodeField d.mem entry) >>= fun code =>
        if code = img.addr .doVariable then puts (text "VARIABLE\n")
        else if code = img.addr .doConstant then puts (text "CONSTANT\n")
        else if code ≠ img.addr .doColon then puts (text "<native>\n")
        else seeFrom img chainFuel (dictGetParamField d.mem entry)) := by
  refine blind_bind (blind_find name) fun entry => blind_ite (blind_puts _) ?_
  refine blind_mem (g := fun m => puts (text ": " ++ dictGetName m entry ++ text " ") >>= fun _ =>
      fetchCell (dictGetCodeField m entry) >>= fun code =>
        if code = img.addr .doVariable then puts (text "VARIABLE\n")
        else if code = img.addr .doConstant then puts (text "CONSTANT\n")
        else if code ≠ img.addr .doColon then puts (text "<native>\n")
        else seeFrom img chainFuel (dictGetParamField m entry)) fun m => ?_
  refine blind_bind (blind_puts _) fun _ => blind_bind (blind_cell _) fun code => ?_
  exact blind_ite (blind_puts _) (blind_ite (blind_puts _) (blind_ite (blind_puts _)
    (blind_listing _ _)))

theorem blind_if : Blind (Inlined r o o') (wIf img) :=
  blind_bind (blind_comma _) fun _ => blind_here (g := fun a => dsPush a >>= fun _ =>
    modify (·.dictComma 0#64)) fun _ => blind_bind (blind_dsPush _) fun _ => blind_comma _

theorem blind_else : Blind (Inlined r o o') (wElse img) :=
  blind_bind (blind_comma _) fun _ => blind_here (g := fun e => modify (·.dictComma 0#64) >>= fun _ =>
    dsPop >>= fun hole => modify (fun d => d.setCell hole d.dictHere) >>= fun _ => dsPush e)
    fun _ => blind_bind (blind_comma _) fun _ => blind_bind blind_dsPop fun a =>
      blind_bind (steady_fill a).blind fun _ => blind_dsPush _

theorem blind_repeat : Blind (Inlined r o o') (wRepeat img) :=
  blind_bind blind_dsPop fun a => blind_bind blind_dsPop fun _ => blind_bind (blind_comma _) fun _ =>
    blind_bind (blind_comma _) fun _ => (steady_fill a).blind

theorem blind_dumping : Blind (Inlined r o o') wDump := by
  refine blind_bind blind_dsPop fun count => blind_bind blind_dsPop fun addr => ?_
  refine blind_mem (g := fun m => (List.range count.toInt.toNat).forM (dumpByte m addr) >>= fun _ =>
    if count.srem 16#64 ≠ 0#64 then putchar (chr '\n') else pure ()) fun m => ?_
  exact blind_bind (blind_forM _ fun i => blind_dumped m addr i) fun _ =>
    blind_ite (blind_putchar _) (blind_pure _)

/-- The words that do more than look at the stack and the base. -/
theorem blindAt_unplain (hf : dataWord img f = some w) (hplain : f.plain = false)
    (hname : f.names = true → Continues r ((nextWord 64 d.parsePtr).1 ≠ []))
    (hdelim : ∀ c, f.delimiter = some c → Continues r (c ∈ d.parsePtr)) :
    BlindAt (Inlined r o o') w d := by
  cases f <;> cases hplain <;> cases hf
  case wFetch =>
    exact blind_bind blind_dsPop (fun _ => blind_bind (blind_cell _) fun _ => blind_dsPush _) _
  case wStore =>
    exact blind_bind blind_dsPop (fun a => blind_bind blind_dsPop fun v =>
      (steady_setCell a v).blind) _
  case wCfetch =>
    refine blind_bind blind_dsPop (fun a => blind_bind ?_ fun _ => blind_dsPush _) _
    exact blind_mem (g := fun m => pure (m a.toNat)) fun _ => blind_pure _
  case wCstore =>
    exact blind_bind blind_dsPop (fun _ => blind_bind blind_dsPop fun _ =>
      Steady.blind fun _ _ _ => rfl) _
  case wPlusStore =>
    exact blind_bind blind_dsPop (fun a => blind_bind blind_dsPop fun v =>
      blind_bind (blind_cell a) fun w => (steady_setCell a (w + v)).blind) _
  case wHere => exact blind_here (g := dsPush) (fun _ => blind_dsPush _) _
  case wAllot => exact blind_bind blind_dsPop (fun _ => Steady.blind fun _ _ _ => rfl) _
  case wComma => exact blind_bind blind_dsPop (fun v => blind_comma v) _
  case wCComma => exact blind_bind blind_dsPop (fun _ => Steady.blind fun _ _ _ => rfl) _
  case wType =>
    refine blind_bind blind_dsPop (fun len => blind_bind blind_dsPop fun a => ?_) _
    exact blind_mem (g := fun m => puts ((List.range len.toInt.toNat).map fun i =>
      m (a.toNat + i))) fun _ => blind_puts _
  case wDotQuote =>
    exact blindAt_bind (blindAt_parseUntil (by decide) (hdelim _ rfl)) fun _ _ _ => blind_puts _ _
  case wParen =>
    exact blindAt_bind (blindAt_parseUntil (by decide) (hdelim _ rfl)) fun _ _ _ => blind_pure _ _
  case wColon =>
    exact blindAt_named (hname rfl) fun name => blind_header name fHidden _
      (Steady.blind fun _ _ _ => rfl)
  case wSemicolon =>
    refine blind_bind (blind_comma _) (fun _ => blind_bind ?_ fun _ => ?_) _
    · exact Steady.blind fun _ _ _ => rfl
    · exact Steady.blind fun _ _ _ => rfl
  case wCreate => exact blindAt_create (hname rfl)
  case wVariable =>
    exact blindAt_bind (blindAt_create (hname rfl)) fun _ _ _ => blind_comma _ _
  case wConstant =>
    exact blindAt_named (hname rfl) fun name => blind_header name 0#8 _
      (blind_bind blind_dsPop fun v => blind_comma v)
  case wImmediate => exact steady_immediate.blind _
  case wTick =>
    refine blindAt_named (hname rfl) fun name => blind_bind (blind_find name) fun entry => ?_
    exact blind_ite (blind_dsPush _) (blind_puts _)
  case wSee => exact blindAt_named (hname rfl) blind_see
  case wIf => exact blind_if _
  case wElse => exact blind_else _
  case wThen => exact blind_bind blind_dsPop (fun a => (steady_fill a).blind) _
  case wBegin => exact blind_here (g := dsPush) (fun _ => blind_dsPush _) _
  case wUntil =>
    exact blind_bind blind_dsPop (fun b => blind_bind (blind_comma _) fun _ => blind_comma b) _
  case wAgain =>
    exact blind_bind blind_dsPop (fun b => blind_bind (blind_comma _) fun _ => blind_comma b) _
  case wWhile => exact blind_if _
  case wRepeat => exact blind_repeat _
  case wDo =>
    exact blind_bind (blind_comma _) (fun _ => blind_here (g := dsPush) fun _ => blind_dsPush _) _
  case wLoop =>
    exact blind_bind blind_dsPop (fun b => blind_bind (blind_comma _) fun _ => blind_comma b) _
  case wBlock =>
    exact blind_bind blind_dsPop (fun _ => blind_bind (blind_getBlock _) fun _ => blind_dsPush _) _
  case wUpdate => exact Steady.blind (fun _ _ _ => rfl) _
  case wFlush => exact Steady.blind (fun _ _ _ => rfl) _
  case wFork => exact blind_forked _
  case wWords =>
    refine blind_peek ?_ (g := fun e => dictListWordsFrom chainFuel e 0) (fun _ => blind_list _ _ _) _
    rintro d e ⟨x, hx⟩
    rfl
  case wStatus => exact blindAt_status
  case wDump => exact blind_dumping _

/-- **Every native word on the data** does the same whatever follows what it reads,
and whatever was printed before. -/
theorem blindAt_inlined (hf : dataWord img f = some w)
    (hinside : Continues r (ReadsInside f d.parsePtr)) : BlindAt (Inlined r o o') w d := by
  cases hplain : f.plain with
  | true => exact blind_plain hf hplain _
  | false =>
      refine blindAt_unplain hf hplain ?_ ?_
      · exact fun hnames => hinside.imp_right fun h => ⟨h.1, h.2.1 hnames⟩
      · exact fun c hc => hinside.imp_right fun h => ⟨h.1, h.2.2 c hc⟩

end Inlined

/-! ## The same step with other frames underneath -/

/-- `n` is `m` with `G` in the place of `K` under its frames. While there is a
frame of `w_load` above, nothing more is to be read. -/
inductive Under (r : Text) (o o' : List Out) (K G : List Frame) (m : Machine) : Machine → Prop
  | intro (pre : List Frame) (e : Data) : m.frames = pre ++ K → (∀ p, .load p ∈ pre → r = []) →
      Inlined r o o' m.vm.data e → Under r o o' K G m { m.setData e with frames := pre ++ G }

/-- `n` has more to read than `m`, behind its text or in a frame of `w_load`. -/
inductive Joined (r : Text) (o o' : List Out) (K G : List Frame) (m n : Machine) : Prop
  | text : Under r o o' K G m n → Joined r o o' K G m n
  | nested (pre : List Frame) (q : Text) : (∀ p, .load p ∈ pre → r = []) →
      Under [] o o' (.load q :: pre ++ K) (.load (q ++ r) :: pre ++ G) m n → Joined r o o' K G m n

/-- The functions that evaluate a text. -/
def Frame.evaluates : Frame → Bool
  | .execute _ | .inner | .eval | .load _ => true
  | _ => false

section Under

variable {r : Text} {o o' : List Out} {K G pre : List Frame} {img : Image} {m n : Machine}
  {d e : Data} {f : CFun} {fr : Frame}

theorem Under.vm (h : Under r o o' K G m n) : VmHides (Inlined r o o') m.vm n.vm := by
  obtain ⟨pre, e, hframes, hload, he⟩ := h
  exact ⟨e, he⟩

theorem Under.setVm (h : Under r o o' K G m n) {v v' : Vm} (hv : VmHides (Inlined r o o') v v') :
    Under r o o' K G { m with vm := v } { n with vm := v' } := by
  obtain ⟨pre, e, hframes, hload, he⟩ := h
  obtain ⟨e', he'⟩ := hv
  exact .intro (m := { m with vm := v }) pre e' hframes hload he'

theorem Under.setData (h : Under r o o' K G m n) (hd : Inlined r o o' d e) :
    Under r o o' K G (m.setData d) (n.setData e) := by
  obtain ⟨pre, e', hframes, hload, he'⟩ := h
  exact .intro (m := m.setData d) pre e hframes hload hd

theorem Under.setFrames (h : Under r o o' K G m n) (hload : ∀ p, .load p ∈ pre → r = []) :
    Under r o o' K G { m with frames := pre ++ K } { n with frames := pre ++ G } := by
  obtain ⟨pre', e, hframes, hload', he⟩ := h
  exact .intro (m := { m with frames := pre ++ K }) pre e rfl hload he

theorem Under.push (h : Under r o o' K G m n) (hfr : ∀ p, fr ≠ .load p) :
    Under r o o' K G (m.push fr) (n.push fr) := by
  obtain ⟨pre, e, hframes, hload, he⟩ := h
  refine .intro (m := m.push fr) (fr :: pre) e ?_ ?_ he
  · exact congrArg (fr :: ·) hframes
  · intro p hp
    rcases List.mem_cons.mp hp with heq | hp
    · exact absurd heq.symm (hfr p)
    · exact hload p hp

theorem Inlined.mem (h : Inlined r o o' d e) : e.mem = d.mem := by
  obtain ⟨x, hx⟩ := h
  rfl

theorem Inlined.parse (h : Inlined r o o' d e) : e.parsePtr = d.parsePtr ++ r := by
  obtain ⟨x, hx⟩ := h
  rfl

theorem Inlined.state (h : Inlined r o o' d e) : e.forthState = d.forthState := by
  obtain ⟨x, hx⟩ := h
  rfl

theorem Inlined.dictFind (h : Inlined r o o' d e) (w : Text) : dictFind e w = dictFind d w := by
  obtain ⟨x, hx⟩ := h
  rfl

/-- Both read on from a place in the text. -/
theorem Inlined.at (h : Inlined r o o' d e) (p r' : Text) :
    Inlined r' o o' { d with parsePtr := p } { e with parsePtr := p ++ r' } := by
  obtain ⟨x, hx⟩ := h
  exact .intro (d := { d with parsePtr := p }) x hx

/-- `EXECUTE` pushes a frame. -/
theorem Under.execute (h : Under r o o' K G m n) :
    Under r o o' K G (wExecute m) (wExecute n) := by
  obtain ⟨hv, hd⟩ := hides_dsPop h.vm.data
  unfold wExecute
  dsimp only
  rw [hv]
  exact (h.setData hd).push (fun p hp => by cases hp)

/-- Both read a block. -/
theorem Inlined.loaded (img : Image) (h : Inlined r o o' d e) (num : BitVec 32) (t : Text) :
    Inlined [] o o' (loadedData img d num t) (loadedData img e num t) := by
  have hsteady : Steady fun d =>
      { d with toState := (BlockDevice.blockGet img.buffers d.toState num).1 } := fun _ _ _ => rfl
  have hstate : e.toState = d.toState := by
    obtain ⟨x, hx⟩ := h
    rfl
  have hputs := (hides_puts t (hsteady.inlined h)).at
    (blockText (BlockDevice.blockGet img.buffers d.toState num).1.mem
      ((BlockDevice.blockGet img.buffers d.toState num).2 + BlockDevice.dataField)) []
  rw [List.append_nil] at hputs
  unfold loadedData
  rw [hstate]
  rw [hstate] at hputs
  exact hputs

/-- `LOAD` puts the rest of the text into a frame. -/
theorem Under.load (h : Under r o o' K G m n) :
    Joined r o o' K G (wLoad img m) (wLoad img n) := by
  obtain ⟨pre, e, hframes, hload, hdata⟩ := h
  obtain ⟨hv, hd⟩ := hides_dsPop hdata
  have hparse := hd.parse
  have hloaded := hd.loaded img (m.vm.data.dsPop.1.setWidth 32)
    (text "\n[Loading Block " ++ itoa (m.vm.data.dsPop.1.setWidth 32) 10 ++ text "...]\n")
  rw [wLoad_eq, wLoad_eq]
  show Joined r o o' K G _ (((({ m.setData e with frames := pre ++ G } : Machine).setData
    (loadedData img e.dsPop.2 (e.dsPop.1.setWidth 32) (text "\n[Loading Block " ++
      itoa (e.dsPop.1.setWidth 32) 10 ++ text "...]\n"))).push (.load e.dsPop.2.parsePtr)).push .eval)
  rw [hv, hparse]
  generalize loadedData img m.vm.data.dsPop.2 _ _ = d', loadedData img e.dsPop.2 _ _ = e' at hloaded
  refine .nested pre m.vm.data.dsPop.2.parsePtr hload ?_
  exact .intro (m := ((m.setData d').push (.load m.vm.data.dsPop.2.parsePtr)).push .eval) [.eval] e'
    (congrArg (fun F => Frame.eval :: .load m.vm.data.dsPop.2.parsePtr :: F) hframes)
    (fun _ _ => rfl) hloaded

theorem agrees_under {a b : Option (Unit × Data)} (h : Under r o o' K G m n)
    (hr : Agrees (Inlined r o o') a b) : Option.Rel (Joined r o o' K G)
      (a.map fun a => m.setData a.2) (b.map fun b => n.setData b.2) := by
  cases hr with
  | none => exact .none
  | some hrel => exact .some (.text (h.setData hrel.2))

/-- A call of a C function that neither switches tasks nor starts the editor. -/
theorem callNative_joined (h : Under r o o' K G m n) (hyield : f ≠ .wYield) (hedit : f ≠ .wEdit)
    (hinside : Continues r (ReadsInside f m.vm.data.parsePtr)) :
    Option.Rel (Joined r o o' K G) (callNative img f m) (callNative img f n) := by
  unfold callNative
  split
  · rename_i w hw
    exact agrees_under h (blindAt_inlined hw hinside _ h.vm.data)
  · split
    · rename_i w hw
      refine .some (.text (h.setVm (h.vm.word hw fun _ => ?_)))
      rw [h.vm.data.mem]
    · split
      · exact .some (.text h.execute)
      · exact .some h.load
      · exact absurd rfl hyield
      · exact absurd rfl hedit
      · exact .some (.text h)

theorem callCode_joined {code entry : Cell} (h : Under r o o' K G m n)
    (hwords : ∀ f, img.decode code = some f → f ≠ .wYield ∧ f ≠ .wEdit)
    (hinside : ∀ f, img.decode code = some f → Continues r (ReadsInside f m.vm.data.parsePtr)) :
    Option.Rel (Joined r o o' K G) (callCode img code entry m) (callCode img code entry n) := by
  unfold callCode
  rw [h.vm.data.mem]
  split
  · exact .some (.text (h.setData (hides_dsPush _ h.vm.data)))
  · split
    · exact .some (.text (h.setData (hides_dsPush _ h.vm.data)))
    · split
      · rename_i f hf
        exact callNative_joined h (hwords f hf).1 (hwords f hf).2 (hinside f hf)
      · exact .none

theorem enterColon_under {entry : Cell} {vm vm' : Vm} (h : VmHides (Inlined r o o') vm vm') :
    VmHides (Inlined r o o') (enterColon entry vm) (enterColon entry vm') := by
  unfold enterColon
  rw [h.data.mem, h.ip]
  exact (h.rsPush _).jump _

theorem forthExecute_joined {entry : Cell} (h : Under r o o' K G m n)
    (hwords : ∀ f, img.decode (cellAt m.vm.data.mem (dictGetCodeField m.vm.data.mem entry)) =
      some f → f ≠ .wYield ∧ f ≠ .wEdit)
    (hinside : ∀ f, img.decode (cellAt m.vm.data.mem (dictGetCodeField m.vm.data.mem entry)) =
      some f → Continues r (ReadsInside f m.vm.data.parsePtr)) :
    Option.Rel (Joined r o o' K G) (forthExecute img entry m) (forthExecute img entry n) := by
  unfold forthExecute
  dsimp only
  rw [h.vm.data.mem]
  split
  · exact .some (.text ((h.setVm (enterColon_under h.vm)).push fun p hp => by cases hp))
  · exact callCode_joined h hwords hinside

/-- A pass of `forth_inner`, with `pre` above what the two machines do not share. -/
theorem forthInner_joined (h : Under r o o' K G m n) (hframes : m.frames = .inner :: pre ++ K)
    (hload : ∀ p, .load p ∈ pre → r = [])
    (hwords : ∀ f, calledFun img m = some f → f ≠ .wYield ∧ f ≠ .wEdit)
    (hinside : ∀ f, calledFun img m = some f → Continues r (ReadsInside f m.vm.data.parsePtr)) :
    Option.Rel (Joined r o o' K G) (forthInner img (pre ++ K) m) (forthInner img (pre ++ G) n) := by
  have hmem := h.vm.data.mem
  simp only [calledFun, hframes, List.cons_append] at hwords hinside
  obtain ⟨hcell, hvm⟩ := h.vm.fetch (by rw [hmem])
  change n.vm.ipFetchAdvance.1 = cellAt m.vm.data.mem m.vm.ip at hcell
  unfold forthInner
  dsimp only
  rw [hcell, show m.vm.ipFetchAdvance.1 = cellAt m.vm.data.mem m.vm.ip from rfl]
  generalize cellAt m.vm.data.mem m.vm.ip = cell at hwords hinside ⊢
  split
  · -- the exit of a word
    obtain ⟨hip, hpop⟩ := hvm.rsPop
    rw [hip]
    split
    · exact .some (.text ((h.setVm (hpop.jump _)).setFrames hload))
    · exact .some (.text (h.setVm (hpop.jump _)))
  · split
    · obtain ⟨hv, hnext⟩ := hvm.fetch (by rw [hvm.data.mem])
      rw [hv]
      exact .some (.text (h.setVm (hnext.dsPush _)))
    · split
      · exact .some (.text (((h.setVm hvm).setData (hides_puts _ hvm.data)).setFrames hload))
      · rename_i hin
        rw [not_not] at hin
        rw [if_pos hin] at hwords hinside
        rw [hvm.data.mem]
        split
        · exact .some (.text (h.setVm (enterColon_under hvm)))
        · exact callCode_joined (h.setVm hvm) hwords hinside

/-- `forth_eval` gives up. -/
theorem Inlined.unknown (h : Inlined r o o' d e) (t : Text) :
    Inlined r o o' { d.puts t with forthState := .interpret }
      { e.puts t with forthState := .interpret } := by
  have hsteady : Steady fun d => { d with forthState := .interpret } := fun _ _ _ => rfl
  exact hsteady.inlined (hides_puts t h)

/-- A token of a text that goes on. -/
theorem forthEval_joined (h : Under r o o' K G m n) (hload : ∀ p, .load p ∈ pre → r = [])
    (hinside : Continues r ((nextWord 64 m.vm.data.parsePtr).1 ≠ [])) :
    Option.Rel (Joined r o o' K G) (forthEval img (pre ++ K) m) (forthEval img (pre ++ G) n) := by
  have hdata := h.vm.data.at (nextWord 64 m.vm.data.parsePtr).2 r
  have hword := nextWord_inlined hinside
  rw [← h.vm.data.parse] at hword
  unfold forthEval
  rw [hword]
  dsimp only
  generalize (nextWord 64 m.vm.data.parsePtr).2 = p at hdata ⊢
  generalize (nextWord 64 m.vm.data.parsePtr).1 = token
  have hstate := h.vm.data.state
  have hbase := Hiding.base h.vm.data
  rw [hdata.dictFind, h.vm.data.mem, hstate, hbase]
  rw [hstate, hbase] at hdata
  split
  · -- the end of the text
    refine .some (.text ((h.setData ?_).setFrames hload))
    split
    · exact hdata
    · exact hides_puts _ hdata
  · split
    · exact .none
    · split
      · split
        · exact .some (.text (h.setData ((steady_comma _).inlined hdata)))
        · exact .some (.text ((h.setData hdata).push fun p hp => by cases hp))
      · split
        · split
          · exact .some (.text (h.setData
              ((steady_comma _).inlined ((steady_comma _).inlined hdata))))
          · exact .some (.text (h.setData (hides_dsPush _ hdata)))
        · exact .some (.text ((h.setData (hdata.unknown _)).setFrames hload))

/-! ## Runs -/

/-- What the next step reads ends inside the text. -/
def ReadsOn (img : Image) (m : Machine) : Prop :=
  (m.frames.head? = some .eval → (nextWord 64 m.vm.data.parsePtr).1 ≠ []) ∧
    ∀ f, calledFun img m = some f → ReadsInside f m.vm.data.parsePtr

/-- The next step evaluates, above `K`, and switches no task. Unless a block is
loaded, it does not read over the end of the text. -/
structure Evaluating (img : Image) (K : List Frame) (m : Machine) : Prop where
  words : ∀ f, calledFun img m = some f → f ≠ .wYield ∧ f ≠ .wEdit
  top : ∃ fr pre, m.frames = fr :: pre ++ K ∧ fr.evaluates = true ∧
    ((∀ p, .load p ∉ fr :: pre) → ReadsOn img m)

theorem Under.frames (h : Under r o o' K G m n) (hframes : m.frames = pre ++ K) :
    n.frames = pre ++ G ∧ ∀ p, .load p ∈ pre → r = [] := by
  obtain ⟨pre', e, hpre, hload, he⟩ := h
  obtain rfl : pre' = pre := List.append_cancel_right (hpre.symm.trans hframes)
  exact ⟨rfl, hload⟩

/-- A step of an evaluating function. -/
theorem step_under (h : Under r o o' K G m n) (hframes : m.frames = fr :: pre ++ K)
    (hfr : fr.evaluates = true) (hwords : ∀ f, calledFun img m = some f → f ≠ .wYield ∧ f ≠ .wEdit)
    (hreads : Continues r (ReadsOn img m)) :
    Option.Rel (Joined r o o' K G) (step img m) (step img n) := by
  obtain ⟨hframes', hload⟩ := h.frames hframes
  have hpre : ∀ p, .load p ∈ pre → r = [] := fun p hp => hload p (List.mem_cons_of_mem _ hp)
  have hinside : ∀ f, calledFun img m = some f → Continues r (ReadsInside f m.vm.data.parsePtr) :=
    fun f hf => hreads.imp_right fun h => ⟨h.1, h.2.2 f hf⟩
  unfold step
  rw [hframes, hframes']
  cases fr <;> cases hfr
  case execute entry =>
    simp only [calledFun, hframes, List.cons_append] at hwords hinside
    exact forthExecute_joined (h.setFrames hpre) hwords hinside
  case inner => exact forthInner_joined h hframes hpre hwords hinside
  case eval =>
    refine forthEval_joined h hpre (hreads.imp_right fun h => ⟨h.1, h.2.1 ?_⟩)
    rw [hframes]
    rfl
  case load q =>
    obtain rfl := hload q List.mem_cons_self
    have hdata := h.vm.data.at q []
    rw [List.append_nil] at hdata
    exact .some (.text ((h.setData hdata).setFrames hpre))

/-- What is nested in a nested text is nested. -/
theorem Joined.absorb {q : Text} (hpre : ∀ p, .load p ∈ pre → r = [])
    (h : Joined [] o o' (.load q :: pre ++ K) (.load (q ++ r) :: pre ++ G) m n) :
    Joined r o o' K G m n := by
  cases h with
  | text h => exact .nested pre q hpre h
  | nested pre₂ q₂ hpre₂ h =>
      refine .nested pre q hpre ?_
      obtain ⟨pre₃, e, hframes, hload, he⟩ := h
      have hsame : pre₃ ++ (.load (q₂ ++ []) :: pre₂ ++ (.load (q ++ r) :: pre ++ G)) =
          (pre₃ ++ .load q₂ :: pre₂) ++ (.load (q ++ r) :: pre ++ G) := by
        rw [List.append_nil, List.append_assoc]
      rw [hsame]
      refine .intro (pre₃ ++ .load q₂ :: pre₂) e ?_ (fun _ _ => rfl) he
      rw [hframes, List.append_assoc]

/-- **A step of an evaluation** is the same step with more text behind, and other
frames underneath. -/
theorem step_joined (hr : ∃ x, r = chr ' ' :: x) (hm : Evaluating img K m)
    (h : Joined r o o' K G m n) : Option.Rel (Joined r o o' K G) (step img m) (step img n) := by
  obtain ⟨fr, pre, hframes, hfr, hreads⟩ := hm.top
  cases h with
  | text h =>
      obtain ⟨x, rfl⟩ := hr
      have hno : ∀ p, .load p ∉ fr :: pre := fun p hp => by cases (h.frames hframes).2 p hp
      exact step_under h hframes hfr hm.words (Or.inr ⟨⟨x, rfl⟩, hreads hno⟩)
  | nested pre₁ q hpre₁ h =>
      obtain ⟨pre₂, e, hframes₂, hload, he⟩ := id h
      cases pre₂ with
      | nil =>
          -- the end of `w_load`
          have htop : m.frames = .load q :: (pre₁ ++ K) := hframes₂
          have htop' : (.load (q ++ r) :: pre₁ ++ G : List Frame) =
            .load (q ++ r) :: (pre₁ ++ G) := rfl
          unfold step
          rw [htop]
          dsimp only [List.nil_append]
          rw [htop']
          dsimp only
          refine .some (.text ?_)
          exact .intro (m := { m.setData { m.vm.data with parsePtr := q } with frames := pre₁ ++ K })
            pre₁ _ rfl hpre₁ (he.at q r)
      | cons fr' pre₂ =>
          have hsame : fr' = fr := by
            have hboth := hframes₂.symm.trans hframes
            rw [List.cons_append, List.cons_append] at hboth
            exact (List.cons.inj hboth).1
          subst hsame
          have hstep := step_under h hframes₂ hfr hm.words (Or.inl rfl)
          exact rel_mono (fun _ _ hjoined => hjoined.absorb hpre₁) hstep

theorem Joined.of_eval (h : Joined r o o' K G m n) (hframes : m.frames = .eval :: K) :
    Under r o o' K G m n := by
  cases h with
  | text h => exact h
  | nested pre q hpre h =>
      -- there is no room for a frame of `w_load`
      obtain ⟨pre₂, e, hframes₂, hload, he⟩ := h
      have hsame := hframes₂.symm.trans hframes
      cases pre₂ with
      | nil => cases (List.cons.inj hsame).1
      | cons fr pre₂ =>
          have hlen := congrArg List.length hsame
          simp only [List.length_append, List.length_cons] at hlen
          omega

theorem Under.of_eval (h : Under r o o' K G m n) (hframes : m.frames = .eval :: K) :
    ∃ e, Inlined r o o' m.vm.data e ∧ n = { m.setData e with frames := .eval :: G } := by
  obtain ⟨pre, e, hpre, hload, he⟩ := h
  obtain rfl : pre = [.eval] := List.append_cancel_right (hpre.symm.trans hframes)
  exact ⟨e, he, rfl⟩

/-- A run of `forth_eval` on a text, carried over. -/
theorem run_joined {x : Text} {m' : Machine} (hvia : Via (step img) (Evaluating img K) m m')
    (h : Under (chr ' ' :: x) o o' K G m n) (hend : m'.frames = .eval :: K) :
    ∃ e, Via (step img) (fun _ => True) n { m'.setData e with frames := .eval :: G } ∧
      Inlined (chr ' ' :: x) o o' m'.vm.data e := by
  have hstep := fun s t (hs : Evaluating img K s) (hj : Joined (chr ' ' :: x) o o' K G s t) =>
    step_joined ⟨x, rfl⟩ hs hj
  obtain ⟨n', hvia', hjoined⟩ := lockstep hstep hvia (Joined.text h)
  obtain ⟨e, he, rfl⟩ := (hjoined.of_eval hend).of_eval hend
  exact ⟨e, hvia'.mono fun _ _ => trivial, he⟩

/-- Blanks are skipped. -/
theorem nextWord_blanks {p : Text} (hp : (nextWord 64 p).1 = []) (x : Text) :
    nextWord 64 (p ++ chr ' ' :: x) = nextWord 64 x := by
  have hnil : p.dropWhile isspace = [] := by
    unfold nextWord at hp
    dsimp only at hp
    cases hdrop : p.dropWhile isspace with
    | nil => rfl
    | cons c q =>
        have hc : isspace c = false := by
          have hhead := List.head?_dropWhile_not isspace p
          rw [hdrop] at hhead
          simpa using hhead
        rw [hdrop, List.takeWhile_cons_of_pos (by rw [hc]; rfl)] at hp
        cases hp
  have hblank : (chr ' ' :: x).dropWhile isspace = x.dropWhile isspace :=
    List.dropWhile_cons_of_pos (by decide)
  have hdrop : (p ++ chr ' ' :: x).dropWhile isspace = x.dropWhile isspace := by
    rw [List.dropWhile_append, hnil]
    exact hblank
  unfold nextWord
  rw [hdrop]

end Under

/-- The machine with a text to read. -/
def Machine.reading (m : Machine) (p : Text) : Machine :=
  m.setData { m.vm.data with parsePtr := p }

section Texts

variable {img : Image} {m m' : Machine} {F : List Frame}

/-- **A text in front of another one**: `forth_eval` does with it what it does with
it alone, and then goes on with the other text. -/
theorem eval_in_front (hframes : m.frames = .eval :: F)
    (hvia : Via (step img) (Evaluating img F) m m') (hend : m'.frames = .eval :: F)
    (htext : (nextWord 64 m'.vm.data.parsePtr).1 = []) (x : Text) :
    ∃ q, Via (step img) (fun _ => True) (m.reading (m.vm.data.parsePtr ++ chr ' ' :: x))
      (m'.reading q) ∧ nextWord 64 q = nextWord 64 x := by
  have hstart : Under (chr ' ' :: x) [] [] F F m (m.reading (m.vm.data.parsePtr ++ chr ' ' :: x)) := by
    have hunder : Under (chr ' ' :: x) [] [] F F m _ := Under.intro [.eval] _ hframes
      (fun p hp => by cases List.mem_singleton.mp hp) ⟨m.vm.data.output, rfl⟩
    rw [List.singleton_append, ← hframes] at hunder
    exact hunder
  obtain ⟨e, hrun, ⟨y, hy⟩⟩ := run_joined hvia hstart hend
  refine ⟨m'.vm.data.parsePtr ++ chr ' ' :: x, ?_, nextWord_blanks htext x⟩
  rw [← hend] at hrun
  have hout : ([] ++ y : List Out) = m'.vm.data.output := hy.symm
  rw [hout] at hrun
  exact hrun

/-- A step of `forth_eval` that has a word to read. -/
theorem evaluating_eval (hframes : m.frames = .eval :: F)
    (htext : (nextWord 64 m.vm.data.parsePtr).1 ≠ []) : Evaluating img F m := by
  have hcalled : calledFun img m = none := by
    rw [calledFun, hframes]
  refine ⟨fun f hf => ?_, .eval, [], hframes, rfl, fun _ => ⟨fun _ => htext, fun f hf => ?_⟩⟩
  · exact absurd (hcalled.symm.trans hf) (by simp)
  · exact absurd (hcalled.symm.trans hf) (by simp)

/-- `7` in front of `8`. -/
theorem eval_in_front_seven : ∃ (m : Machine) (q : Text), Via (step linearImage) (fun _ => True)
    ((startupPrompt linearImage (text "7")).reading (text "7" ++ chr ' ' :: text "8")) (m.reading q) ∧
      m.vm.data.ds = [7#64] ∧ nextWord 64 q = nextWord 64 (text "8") := by
  obtain ⟨words, P, hd, -, -, hmiss⟩ := startup_spec linearImage
  obtain ⟨m₀, here, latest, hsame⟩ := startup_same linearImage
  have hnone := hmiss (text "7") rfl
  have hds : (startup linearImage).ds = [] := by rw [hsame]; rfl
  have hbase : (startup linearImage).forthBase = 10 := by rw [hsame]; rfl
  obtain ⟨m, hm⟩ : ∃ m : Machine, startupPrompt linearImage (text "7") =
      m.conf ((startup linearImage).at (text "7")) [] 0#64 [.eval, .prompt, .repl] :=
    ⟨startupPrompt linearImage (text "7"), rfl⟩
  rw [hm]
  generalize startup linearImage = s at *
  have hstep : step linearImage (m.conf (s.at (text "7")) [] 0#64 [.eval, .prompt, .repl]) =
      some (m.conf (((s.at (text "7")).at []).dsPush 7#64) [] 0#64 [.eval, .prompt, .repl]) :=
    step_eval_push (d := s.at (text "7")) (w := text "7") rfl (by decide) hnone (v := 7#64) (by
      show tryParseNumber s.forthBase _ = _
      rw [hbase]
      decide) hd.mode
  have hpush : ((s.at (text "7")).at []).dsPush 7#64 = { (s.at []) with ds := [7#64] } := by
    rw [Data.dsPush, at_ds, at_ds, hds, if_neg (by decide)]
    rfl
  rw [hpush] at hstep
  have htext : (nextWord 64 (text "7")).1 ≠ [] := by decide
  obtain ⟨q, hrun, hq⟩ := eval_in_front (F := [.prompt, .repl]) rfl
    (Via.single (evaluating_eval rfl htext) hstep) rfl rfl (text "8")
  exact ⟨_, q, hrun, rfl, hq⟩

/-! ## `LOAD` -/

/-- What `w_load` prints first. -/
def loadBanner (num : BitVec 32) : Text :=
  text "\n[Loading Block " ++ itoa num 10 ++ text "...]\n"

/-- The text of a block in the place of its `LOAD`, once the block is there. -/
def inlineLoad (img : Image) (m : Machine) : Machine :=
  let d := m.vm.data.dsPop.2
  let got := BlockDevice.blockGet img.buffers d.toState (m.vm.data.dsPop.1.setWidth 32)
  m.setData { d with
    toState := got.1
    parsePtr := blockText got.1.mem (got.2 + BlockDevice.dataField) ++ chr ' ' :: d.parsePtr }

/-- What `forth_eval` says at the end of a text. -/
def endText (d : Data) : Text := if d.forthState = .compile then [] else text " ok\n"

/-- The ends of `forth_eval` and of `w_load`. -/
theorem load_ends {P : Text} {G : List Frame} (hframes : m.frames = .eval :: .load P :: G)
    (htext : (nextWord 64 m.vm.data.parsePtr).1 = []) : Via (step img) (fun _ => True) m
      { (m.puts (endText m.vm.data)).reading P with frames := G } := by
  have heval : step img m = some { (m.puts (endText m.vm.data)).reading
      (nextWord 64 m.vm.data.parsePtr).2 with frames := .load P :: G } := by
    unfold step
    rw [hframes]
    dsimp only
    unfold forthEval endText
    dsimp only
    rw [if_pos htext]
    split
    · rw [Machine.puts, puts_nil]
      rfl
    · rfl
  refine .head trivial heval (Via.single trivial ?_)
  unfold step
  rfl

theorem inlineLoad_under (hframes : m.frames = .eval :: F) :
    Under (chr ' ' :: m.vm.data.dsPop.2.parsePtr)
      (m.vm.data.dsPop.2.output ++ (loadBanner (m.vm.data.dsPop.1.setWidth 32)).map .putchar)
      m.vm.data.dsPop.2.output (.load m.vm.data.dsPop.2.parsePtr :: .eval :: F) F (wLoad img m)
      (inlineLoad img m) := by
  obtain ⟨vm, frames, kbd, buf⟩ := m
  obtain rfl : frames = .eval :: F := hframes
  rw [wLoad_eq]
  unfold inlineLoad
  dsimp only
  generalize vm.data.dsPop.2 = d, vm.data.dsPop.1.setWidth 32 = num
  show Under _ _ _ _ _ (((({ vm := vm, frames := .eval :: F, kbd := kbd, inputBuffer := buf } :
    Machine).setData (loadedData img d num (loadBanner num))).push (.load d.parsePtr)).push .eval) _
  unfold loadedData
  generalize loadBanner num = t
  generalize blockText (BlockDevice.blockGet img.buffers d.toState num).1.mem
    ((BlockDevice.blockGet img.buffers d.toState num).2 + BlockDevice.dataField) = txt
  generalize (BlockDevice.blockGet img.buffers d.toState num).1 = s
  have hout : ((({ d with toState := s } : Data).puts t)).output =
      (d.output ++ t.map .putchar) ++ [] := by
    rw [List.append_nil]
    rfl
  have hdata : Inlined (chr ' ' :: d.parsePtr) _ d.output
      { ({ d with toState := s } : Data).puts t with parsePtr := txt } _ := Inlined.intro [] hout
  rw [List.append_nil] at hdata
  exact .intro [.eval] _ rfl (fun p hp => by cases List.mem_singleton.mp hp) hdata

/-- **`LOAD` is textual inclusion**: a block that evaluates to its end does what its
text does in the place of the `LOAD`, up to what `w_load` and the end of the text
print. It may load other blocks. -/
theorem load_included (hframes : m.frames = .eval :: F)
    (hvia : Via (step img) (Evaluating img (.load m.vm.data.dsPop.2.parsePtr :: .eval :: F))
      (wLoad img m) m')
    (hend : m'.frames = .eval :: .load m.vm.data.dsPop.2.parsePtr :: .eval :: F)
    (htext : (nextWord 64 m'.vm.data.parsePtr).1 = []) :
    ∃ q y, nextWord 64 q = nextWord 64 m.vm.data.dsPop.2.parsePtr ∧
      m'.vm.data.output = (m.vm.data.dsPop.2.output ++
        (loadBanner (m.vm.data.dsPop.1.setWidth 32)).map .putchar) ++ y ∧
      Via (step img) (fun _ => True) (wLoad img m)
        { (m'.puts (endText m'.vm.data)).reading m.vm.data.dsPop.2.parsePtr with
          frames := .eval :: F } ∧
      Via (step img) (fun _ => True) (inlineLoad img m)
        { m'.setData { m'.vm.data with parsePtr := q, output := m.vm.data.dsPop.2.output ++ y } with
          frames := .eval :: F } := by
  obtain ⟨e, hrun, ⟨y, hy⟩⟩ := run_joined hvia (inlineLoad_under hframes) hend
  refine ⟨_, y, nextWord_blanks htext _, hy, ?_, hrun⟩
  exact (hvia.mono fun _ _ => trivial).trans (load_ends hend htext)

/-! ### A block with a number in it -/

/-- Block 0 starts with a `7`. -/
def sevenDisk : BlockDevice.Disk := fun lba o =>
  if lba = BlockDevice.startSector 0#32 ∧ o = BlockDevice.dataField then chr '7' else 0#8

/-- A machine without words, about to load a block. -/
def sevenData : Data := { blankData with disk := sevenDisk }

/-- `0 LOAD` with nothing behind it. -/
def sevenMachine : Machine where
  vm := { data := { sevenData with ds := [0#64] }, rs := [], ip := 0#64 }
  frames := [.eval]
  kbd := []
  inputBuffer := []

theorem seven_get (base : Nat) : ∃ idx,
    (BlockDevice.blockGet base sevenData.toState 0#32).2 = BlockDevice.blockAddr base idx ∧
    ∀ o, o < BlockDevice.blockSize → (BlockDevice.blockGet base sevenData.toState 0#32).1.mem
        (BlockDevice.blockAddr base idx + o) = BlockDevice.diskBlock sevenDisk 0#32 o := by
  have hfind : BlockDevice.findBuffer sevenData.toState 0#32 = none := rfl
  unfold BlockDevice.blockGet
  rw [hfind]
  refine ⟨_, rfl, fun o ho => ?_⟩
  rw [BlockDevice.loadBlock_mem_self ho, BlockDevice.writeBufferToDisk_clean]
  · rfl
  · rintro ⟨hvalid, -⟩
    cases hvalid

theorem sevenDisk_later {o : Nat} (ho : BlockDevice.dataField < o) :
    BlockDevice.diskBlock sevenDisk 0#32 o = 0#8 := by
  unfold BlockDevice.diskBlock sevenDisk
  split
  · rw [if_neg fun h => absurd h.2 (Nat.ne_of_gt ho)]
  · rw [if_neg fun h => absurd h.1 (by decide)]

/-- A block with one character in it. -/
theorem blockText_first {m : Mem} {a : Nat} (hfirst : m a = chr '7')
    (hrest : ∀ i, 0 < i → i < BlockDevice.blockDataSize → m (a + i) = 0#8) :
    ∃ q, (∀ c ∈ q, c = chr ' ') ∧ blockText m a = chr '7' :: q := by
  have hsize : BlockDevice.blockDataSize = 1007 + 1 := rfl
  refine ⟨((List.range 1007).map Nat.succ).map fun i =>
    if m (a + i) < 32#8 ∨ 126#8 < m (a + i) then chr ' ' else m (a + i), ?_, ?_⟩
  · intro c hc
    obtain ⟨j, hj, rfl⟩ := List.mem_map.mp hc
    obtain ⟨i, hi, rfl⟩ := List.mem_map.mp hj
    have hlt := List.mem_range.mp hi
    rw [hrest _ (Nat.succ_pos i) (by rw [hsize]; exact Nat.succ_lt_succ hlt)]
    rfl
  · rw [blockText, hsize, List.range_succ_eq_map, List.map_cons, Nat.add_zero, hfirst]
    rfl

theorem loadedData_parse (img : Image) (d : Data) (num : BitVec 32) (t : Text) :
    (loadedData img d num t).parsePtr =
      blockText (BlockDevice.blockGet img.buffers d.toState num).1.mem
        ((BlockDevice.blockGet img.buffers d.toState num).2 + BlockDevice.dataField) := by
  unfold loadedData
  dsimp only

theorem loadedData_rest (img : Image) (d : Data) (num : BitVec 32) (t : Text) :
    (loadedData img d num t).ds = d.ds ∧ (loadedData img d num t).forthBase = d.forthBase ∧
      (loadedData img d num t).forthState = d.forthState ∧
      (loadedData img d num t).dictLatest = d.dictLatest := ⟨rfl, rfl, rfl, rfl⟩

theorem seven_loaded (img : Image) (t : Text) : ∃ p, (∀ c ∈ p, c = chr ' ') ∧
    (loadedData img sevenData 0#32 t).parsePtr = chr '7' :: p := by
  obtain ⟨idx, haddr, hmem⟩ := seven_get img.buffers
  rw [loadedData_parse, haddr]
  refine blockText_first ?_ fun i hi hlt => ?_
  · exact hmem BlockDevice.dataField (by decide)
  · rw [Nat.add_assoc, hmem _ (Nat.add_lt_add_left hlt BlockDevice.dataField)]
    exact sevenDisk_later (Nat.lt_add_of_pos_right hi)

/-- One number, and blanks behind it. -/
theorem eval_number {v : Cell} {w p : Text} (hframes : m.frames = .eval :: F)
    (hlex : nextWord 64 m.vm.data.parsePtr = (w, p)) (hw : w ≠ [])
    (hlatest : m.vm.data.dictLatest = 0#64) (hnum : tryParseNumber m.vm.data.forthBase w = some v)
    (hmode : m.vm.data.forthState = .interpret) :
    Via (step img) (Evaluating img F) m { m.setData ((m.vm.data.at p).dsPush v) with
      frames := .eval :: F } := by
  have hnone : dictFind m.vm.data w = some 0#64 := by
    rw [dictFind, hlatest]
    rfl
  have hm : m = m.conf m.vm.data m.vm.rs m.vm.ip (.eval :: F) := by
    rw [Machine.conf, ← hframes]
  refine Via.single (evaluating_eval hframes (by rw [hlex]; exact hw)) ?_
  rw [hm]
  exact step_eval_push hlex hw hnone hnum hmode

/-- The number of block 0 is pushed, with and without the `LOAD`. -/
theorem load_included_seven : ∃ (q : Text) (m : Machine), nextWord 64 q = nextWord 64 [] ∧
    m.frames = [.eval] ∧ m.vm.data.ds = [7#64] ∧
    Via (step linearImage) (fun _ => True) (wLoad linearImage sevenMachine) m ∧
    ∃ y, Via (step linearImage) (fun _ => True) (inlineLoad linearImage sevenMachine)
      (m.setData { m.vm.data with parsePtr := q, output := y }) := by
  obtain ⟨p, hp, hparse⟩ := seven_loaded linearImage (loadBanner 0#32)
  obtain ⟨hds, hbase, hmode, hlatest⟩ :=
    loadedData_rest linearImage sevenData 0#32 (loadBanner 0#32)
  have hload : wLoad linearImage sevenMachine = ((sevenMachine.setData
      (loadedData linearImage sevenData 0#32 (loadBanner 0#32))).push (.load [])).push .eval :=
    wLoad_eq sevenMachine
  have hincluded := fun m' => @load_included linearImage sevenMachine m' [] rfl
  have hsaved : sevenMachine.vm.data.dsPop.2.parsePtr = [] := rfl
  rw [hsaved, hload] at hincluded
  rw [hload]
  generalize loadedData linearImage sevenData 0#32 (loadBanner 0#32) = d at *
  have hlex : nextWord 64 d.parsePtr = (text "7", p) := by
    rw [hparse]
    refine nextWord_spaced (s := []) (w := text "7") (by simp) (by decide) (by decide) (by decide) ?_
    cases p with
    | nil => exact Or.inl rfl
    | cons c p => exact Or.inr (congrArg some (hp c List.mem_cons_self))
  have hblank : (nextWord 64 p).1 = [] := by
    rw [nextWord_spaces fun c hc => by rw [hp c hc]; rfl]
  have hnum : tryParseNumber d.forthBase (text "7") = some 7#64 := by
    rw [hbase]
    decide
  have hpush : (d.at p).dsPush 7#64 = { d.at p with ds := [7#64] } := by
    have hnil : d.ds = [] := hds
    rw [Data.dsPush, at_ds, hnil, if_neg (by decide)]
  have hrun := @eval_number linearImage (((sevenMachine.setData d).push (.load [])).push .eval)
    [.load [], .eval] _ _ _ rfl hlex (by decide) hlatest hnum hmode
  obtain ⟨q, y, hq, -, hleft, hright⟩ := hincluded _ hrun rfl (by
    show (nextWord 64 ((d.at p).dsPush 7#64).parsePtr).1 = []
    rw [hpush]
    exact hblank)
  refine ⟨q, _, hq, rfl, ?_, hleft, _, hright⟩
  show ((d.at p).dsPush 7#64).ds = [7#64]
  rw [hpush]

end Texts

end VectorForth.Forth
