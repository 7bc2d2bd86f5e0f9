import VectorForth.Lib.StackUse
import VectorForth.Vm.Calculation
import VectorForth.Vm.Compile

/-!
# Stack comments

What a straight-line word takes off the data stack, what it leaves there and how
much room it needs on the way can be computed from its body. If the stack holds
that much, the word is a function on what it takes: it does not look below, prints
nothing and leaves the return stack as it was. With less room it complains.
-/

namespace VectorForth.Forth

open ByteMemory LabelledRun StackUse

/-! ## The stack of the machine -/

/-- The data stack, with the console as the log. -/
def dataStack : StackUse.Machine Data Cell Out where
  stack := Data.ds
  log := Data.output
  put := Data.withStack
  stack_put _ _ := rfl
  log_put _ _ := rfl
  put_put _ _ _ := rfl
  put_stack _ := rfl

/-- `d` is `d₀` with another stack and more output. -/
def Beside (d₀ d : Data) : Prop := ∃ ds o, d = d₀.tell ds o

/-- In the states beside `d₀`, the code `F` computes `g` on the top of the stack. -/
abbrev Consumes (d₀ : Data) (u : Use) (g : List Cell → List Cell) (F : Data → Option Data) : Prop :=
  Uses dataStack dataStackSize (Beside d₀) u g F

section Consumes

variable {d₀ d : Data} {u : Use} {g : List Cell → List Cell} {F : Data → Option Data}

theorem beside_self (d : Data) : Beside d d := ⟨d.ds, [], (tell_self d).symm⟩

theorem Beside.tell (h : Beside d₀ d) (ds : List Cell) (o : List Out) :
    Beside d₀ (d.tell ds o) := by
  obtain ⟨ds₀, o₀, rfl⟩ := h
  exact ⟨ds, o₀ ++ o, tell_tell⟩

/-- Code that answers with another stack and more output. -/
theorem takes_of (hreturns : ∀ d, Beside d₀ d → ∃ ds o, F d = some (d.tell ds o))
    (hfits : ∀ d top base, Beside d₀ d → d.ds = top ++ base → top.length = u.takes →
      base.length + u.peak ≤ dataStackSize →
        (g top).length = u.gives ∧ F d = some (d.withStack (g top ++ base)))
    (htells : ∀ d t top base, Beside d₀ d → d.ds = top ++ base → top.length = u.takes →
      d.ds.length ≤ dataStackSize → dataStackSize < base.length + u.peak → F d = some t →
        t.output ≠ d.output) : Consumes d₀ u g F where
  returns d hd := by
    obtain ⟨ds, o, hrun⟩ := hreturns d hd
    exact ⟨_, hrun, hd.tell ds o, List.prefix_append _ _⟩
  fits := hfits
  tells := htells

/-- What takes at least as much as it leaves always has room. -/
theorem has_room {takes gives : Nat} (hle : gives ≤ takes) {top base : List Cell}
    (hds : d.ds = top ++ base) (htop : top.length = takes) (hlen : d.ds.length ≤ dataStackSize) :
    ¬ dataStackSize < base.length + (Use.exchange takes gives).peak := by
  rw [hds, List.length_append, htop] at hlen
  show ¬ dataStackSize < base.length + max takes gives
  rw [Nat.max_eq_left hle, Nat.add_comm]
  exact Nat.not_lt.mpr hlen

end Consumes

/-! ## Pushes and pops with room -/

section Run

variable {α : Type} {d : Data} {v a b : Cell} {ds : List Cell} {k : Cell → NativeM α}
  {k' : Unit → NativeM α}

theorem pop_bind (hds : d.ds = v :: ds) : (dsPop >>= k).run d = (k v).run (d.withStack ds) := by
  have hrun : (dsPop >>= k).run d = (k d.dsPop.1).run d.dsPop.2 := rfl
  rw [hrun, dsPop_eq hds]

theorem peek_bind (hds : d.ds = v :: ds) : (dsPeek >>= k).run d = (k v).run d := by
  have hrun : (dsPeek >>= k).run d = (k (d.ds.headD 0#64)).run d := rfl
  rw [hrun, hds]
  rfl

theorem pick_bind (hds : d.ds = a :: b :: ds) : (dsPick 1 >>= k).run d = (k b).run d := by
  have hrun : (dsPick 1 >>= k).run d = (k (d.dsPick 1).1).run (d.dsPick 1).2 := rfl
  have hpick : d.dsPick 1 = (b, d) := by
    unfold Data.dsPick
    rw [hds]
    rfl
  rw [hrun, hpick]

theorem push_bind (hroom : d.ds.length < dataStackSize) :
    (dsPush v >>= k').run d = (k' ()).run (d.withStack (v :: d.ds)) := by
  have hrun : (dsPush v >>= k').run d = (k' ()).run (d.dsPush v) := rfl
  rw [hrun, dsPush_eq hroom]

theorem push_last (hroom : d.ds.length < dataStackSize) :
    (dsPush v).run d = some ((), d.withStack (v :: d.ds)) := by
  have hrun : (dsPush v).run d = some ((), d.dsPush v) := rfl
  rw [hrun, dsPush_eq hroom]

/-- A push onto a full stack complains. -/
theorem push_full {t : Data} (hfull : dataStackSize ≤ d.ds.length)
    (hrun : ((dsPush v).run d).map Prod.snd = some t) : t.output ≠ d.output := by
  have hpush : ((dsPush v).run d).map Prod.snd = some (d.dsPush v) := rfl
  obtain rfl := Option.some.inj (hpush.symm.trans hrun)
  rw [dsPush_tell, tell_output, pushMessage, if_pos hfull]
  intro h
  exact absurd (List.append_right_eq_self.mp h) (by decide)

end Run

/-! ## The primitives -/

/-- The stack comment of a primitive, without those of the words that print, divide
or look at the depth. -/
def CFun.use (f : CFun) : Option Use :=
  match f with
  | .wFetch | .wCfetch => some (.exchange 1 1)
  | .wHere | .wBase => some (.exchange 0 1)
  | _ => if f.divides then none else (shape f).map fun s => .exchange s.inputs s.outputs

section Primitives

variable {img : Image} {f : CFun} {w : NativeM Unit} {u : Use} {d₀ : Data}

/-- The outcome of native code. -/
def outcome (w : NativeM Unit) (d : Data) : Option Data := (w.run d).map Prod.snd

theorem outcome_some {d t : Data} (h : w.run d = some ((), t)) : outcome w d = some t := by
  rw [outcome, h]
  rfl

theorem Answers.returns (h : Answers w) (hsome : ∀ d, (w.run d).isSome = true) (d : Data) :
    ∃ ds o, outcome w d = some (d.tell ds o) := by
  obtain ⟨g, hg⟩ := h
  have hd := hsome d
  rw [outcome, hg] at *
  cases hr : g d.ds d.forthBase with
  | none =>
      rw [hr] at hd
      cases hd
  | some r => exact ⟨_, _, rfl⟩

theorem takes_binary (op : Cell → Cell → Cell) :
    Consumes d₀ (.exchange 2 1) (fun i => [op (i.getD 1 0#64) (i.getD 0 0#64)])
      (outcome (binary op)) := by
  refine takes_of ?_ ?_ ?_
  · intro d _
    exact (answers_binary op).returns (fun d => rfl) d
  · intro d top base _ hds htop hroom
    obtain ⟨b, a, rfl⟩ := List.length_eq_two.mp htop
    refine ⟨rfl, outcome_some ?_⟩
    have hpeak : (Use.exchange 2 1).peak = 2 := rfl
    rw [binary, pop_bind hds, pop_bind rfl, push_last]
    · rfl
    · show base.length < dataStackSize
      omega
  · intro d t top base _ hds htop hlen hover _
    exact absurd hover (has_room (by decide) hds htop hlen)

theorem takes_unary (op : Cell → Cell) :
    Consumes d₀ (.exchange 1 1) (fun i => [op (i.getD 0 0#64)]) (outcome (unary op)) := by
  refine takes_of ?_ ?_ ?_
  · intro d _
    exact (answers_unary op).returns (fun d => rfl) d
  · intro d top base _ hds htop hroom
    obtain ⟨a, rfl⟩ := List.length_eq_one_iff.mp htop
    refine ⟨rfl, outcome_some ?_⟩
    have hpeak : (Use.exchange 1 1).peak = 1 := rfl
    rw [unary, pop_bind hds, push_last]
    · rfl
    · show base.length < dataStackSize
      omega
  · intro d t top base _ hds htop hlen hover _
    exact absurd hover (has_room (by decide) hds htop hlen)

/-- A word that reads the data beside the stack at the address on top of it. -/
theorem takes_read (read : Cell → Data → Cell)
    (hread : ∀ a ds o d, read a (d.tell ds o) = read a d)
    (hw : ∀ d, w.run d = some ((), d.dsPop.2.dsPush (read d.dsPop.1 d.dsPop.2))) :
    Consumes d₀ (.exchange 1 1) (fun i => [read (i.getD 0 0#64) d₀]) (outcome w) := by
  refine takes_of ?_ ?_ ?_
  · intro d _
    refine ⟨afterPush (read d.dsPop.1 d.dsPop.2) d.ds.tail,
      popMessage d.ds ++ pushMessage d.ds.tail, outcome_some ?_⟩
    rw [hw, dsPush_tell, dsPop_tell, tell_ds, tell_tell]
  · intro d top base hd hds htop hroom
    obtain ⟨a, rfl⟩ := List.length_eq_one_iff.mp htop
    refine ⟨rfl, (outcome_some (hw d)).trans ?_⟩
    have hpeak : (Use.exchange 1 1).peak = 1 := rfl
    have hpop : d.dsPop = (a, d.withStack base) := dsPop_eq hds
    have hsame : read a (d.withStack base) = read a d₀ := by
      obtain ⟨ds₀, o₀, rfl⟩ := hd
      exact hread a base o₀ d₀
    rw [hpop]
    dsimp only
    rw [hsame, dsPush_eq (show base.length < dataStackSize by omega)]
    rfl
  · intro d t top base _ hds htop hlen hover _
    exact absurd hover (has_room (by decide) hds htop hlen)

/-- A word that puts a value beside the stack on top of it. -/
theorem takes_value (read : Data → Cell) (hread : ∀ ds o d, read (d.tell ds o) = read d)
    (hw : ∀ d, w.run d = (dsPush (read d)).run d) :
    Consumes d₀ (.exchange 0 1) (fun i => read d₀ :: i) (outcome w) := by
  refine takes_of ?_ ?_ ?_
  · intro d _
    refine ⟨afterPush (read d) d.ds, pushMessage d.ds, outcome_some ?_⟩
    rw [← dsPush_tell]
    exact hw d
  · intro d top base hd hds htop hroom
    obtain rfl := List.length_eq_zero_iff.mp htop
    refine ⟨rfl, outcome_some ?_⟩
    have hpeak : (Use.exchange 0 1).peak = 1 := rfl
    rw [List.nil_append] at hds
    have hsame : read d = read d₀ := by
      obtain ⟨ds₀, o₀, rfl⟩ := hd
      exact hread ds₀ o₀ d₀
    rw [hw, push_last (by rw [hds]; omega), hsame, hds]
    rfl
  · intro d t top base _ hds htop hlen hover hrun
    obtain rfl := List.length_eq_zero_iff.mp htop
    rw [List.nil_append] at hds
    have hpeak : (Use.exchange 0 1).peak = 1 := rfl
    rw [outcome, hw] at hrun
    exact push_full (by rw [hds]; omega) hrun

theorem shape_binary {op : Cell → Cell → Cell} (h : binaryOp f = some op) :
    shape f = some ⟨2, 1, fun i => [op (i.getD 1 0#64) (i.getD 0 0#64)]⟩ := by
  cases f <;> cases h <;> rfl

theorem shape_unary {op : Cell → Cell} (h : unaryOp f = some op) :
    shape f = some ⟨1, 1, fun i => [op (i.getD 0 0#64)]⟩ := by
  cases f <;> cases h <;> rfl

theorem wVdup_run (d : Data) : wVdup.run d = if d.ds.length < 1 then some ((), d) else
    (dsPop >>= fun top => dsPush top >>= fun _ => dsPush top).run d := by
  have hrun : wVdup.run d = (if d.ds.length < 1 then pure () else
    dsPop >>= fun top => dsPush top >>= fun _ => dsPush top : NativeM Unit).run d := rfl
  rw [hrun]
  split <;> rfl

theorem wVplus_run (d : Data) : wVplus.run d =
    if d.ds.length < 4 then (puts (text " Stack Underflow for V+\n")).run d else
      (dsPop >>= fun b1 => dsPop >>= fun b0 => dsPop >>= fun a1 => dsPop >>= fun a0 =>
        dsPush (a0 + b0) >>= fun _ => dsPush (a1 + b1)).run d := by
  have hrun : wVplus.run d = (if d.ds.length < 4 then puts (text " Stack Underflow for V+\n") else
    dsPop >>= fun b1 => dsPop >>= fun b0 => dsPop >>= fun a1 => dsPop >>= fun a0 =>
      dsPush (a0 + b0) >>= fun _ => dsPush (a1 + b1) : NativeM Unit).run d := rfl
  rw [hrun]
  split <;> rfl

/-- With room, a shuffling word puts its result in the place of what it takes. -/
theorem shuffle_fits {s : Shape} {d : Data} {top base : List Cell} (hf : f.shuffles = true)
    (hs : shape f = some s) (hw : dataWord img f = some w) (hds : d.ds = top ++ base)
    (htop : top.length = s.inputs) (hroom : base.length + max s.inputs s.outputs ≤ dataStackSize) :
    (s.result top).length = s.outputs ∧
      w.run d = some ((), d.withStack (s.result top ++ base)) := by
  have hlen : ∀ (ds : List Cell) (d : Data) (n : Nat), ds.length = base.length + n →
      base.length + n < dataStackSize → (d.withStack ds).ds.length < dataStackSize := by
    intro ds d n hds hlt
    rw [Data.withStack_ds, hds]
    exact hlt
  cases f <;> cases hf <;> cases hs <;> cases hw
  case wDup =>
    obtain ⟨x, rfl⟩ := List.length_eq_one_iff.mp htop
    replace hds : d.ds = x :: base := hds
    have hroom' : base.length + 2 ≤ dataStackSize := hroom
    have hfull : d.ds.length < dataStackSize := by
      rw [hds]
      exact hroom'
    refine ⟨rfl, ?_⟩
    rw [wDup, peek_bind hds, push_last hfull, hds]
    rfl
  case wDrop =>
    obtain ⟨x, rfl⟩ := List.length_eq_one_iff.mp htop
    replace hds : d.ds = x :: base := hds
    refine ⟨rfl, ?_⟩
    rw [wDrop, pop_bind hds]
    rfl
  case wSwap =>
    obtain ⟨y, x, rfl⟩ := List.length_eq_two.mp htop
    replace hds : d.ds = y :: x :: base := hds
    have hroom' : base.length + 2 ≤ dataStackSize := hroom
    refine ⟨rfl, ?_⟩
    rw [wSwap, pop_bind hds, pop_bind rfl, push_bind (hlen _ _ 0 rfl (by omega)),
      push_last (hlen _ _ 1 rfl (by omega))]
    rfl
  case wOver =>
    obtain ⟨y, x, rfl⟩ := List.length_eq_two.mp htop
    replace hds : d.ds = y :: x :: base := hds
    have hroom' : base.length + 3 ≤ dataStackSize := hroom
    have hfull : d.ds.length < dataStackSize := by
      rw [hds]
      exact hroom'
    refine ⟨rfl, ?_⟩
    rw [wOver, pick_bind hds, push_last hfull, hds]
    rfl
  case wRot =>
    obtain ⟨z, y, x, rfl⟩ := List.length_eq_three.mp htop
    replace hds : d.ds = z :: y :: x :: base := hds
    have hroom' : base.length + 3 ≤ dataStackSize := hroom
    refine ⟨rfl, ?_⟩
    rw [wRot, pop_bind hds, pop_bind rfl, pop_bind rfl, push_bind (hlen _ _ 0 rfl (by omega)),
      push_bind (hlen _ _ 1 rfl (by omega)), push_last (hlen _ _ 2 rfl (by omega))]
    rfl
  case wNip =>
    obtain ⟨y, x, rfl⟩ := List.length_eq_two.mp htop
    replace hds : d.ds = y :: x :: base := hds
    have hroom' : base.length + 2 ≤ dataStackSize := hroom
    refine ⟨rfl, ?_⟩
    rw [wNip, pop_bind hds, pop_bind rfl, push_last (hlen _ _ 0 rfl (by omega))]
    rfl
  case wTuck =>
    obtain ⟨y, x, rfl⟩ := List.length_eq_two.mp htop
    replace hds : d.ds = y :: x :: base := hds
    have hroom' : base.length + 3 ≤ dataStackSize := hroom
    refine ⟨rfl, ?_⟩
    rw [wTuck, pop_bind hds, pop_bind rfl, push_bind (hlen _ _ 0 rfl (by omega)),
      push_bind (hlen _ _ 1 rfl (by omega)), push_last (hlen _ _ 2 rfl (by omega))]
    rfl
  case w2dup =>
    obtain ⟨y, x, rfl⟩ := List.length_eq_two.mp htop
    replace hds : d.ds = y :: x :: base := hds
    have hroom' : base.length + 4 ≤ dataStackSize := hroom
    have hfull : d.ds.length < dataStackSize := by
      rw [hds]
      show base.length + 2 < dataStackSize
      omega
    refine ⟨rfl, ?_⟩
    rw [w2dup, peek_bind hds, pick_bind hds, push_bind hfull, hds,
      push_last (hlen _ _ 3 rfl (by omega))]
    rfl
  case w2drop =>
    obtain ⟨y, x, rfl⟩ := List.length_eq_two.mp htop
    replace hds : d.ds = y :: x :: base := hds
    refine ⟨rfl, ?_⟩
    rw [w2drop, pop_bind hds, pop_bind rfl]
    rfl
  case w2swap =>
    rcases top with _ | ⟨t, _ | ⟨z, _ | ⟨y, _ | ⟨x, _ | ⟨v, top⟩⟩⟩⟩⟩ <;> cases htop
    replace hds : d.ds = t :: z :: y :: x :: base := hds
    have hroom' : base.length + 4 ≤ dataStackSize := hroom
    refine ⟨rfl, ?_⟩
    rw [w2swap, pop_bind hds, pop_bind rfl, pop_bind rfl, pop_bind rfl,
      push_bind (hlen _ _ 0 rfl (by omega)), push_bind (hlen _ _ 1 rfl (by omega)),
      push_bind (hlen _ _ 2 rfl (by omega)), push_last (hlen _ _ 3 rfl (by omega))]
    rfl
  case wVdup =>
    obtain ⟨x, rfl⟩ := List.length_eq_one_iff.mp htop
    replace hds : d.ds = x :: base := hds
    have hroom' : base.length + 2 ≤ dataStackSize := hroom
    have hsome : ¬ d.ds.length < 1 := by simp [hds]
    refine ⟨rfl, ?_⟩
    rw [wVdup_run, if_neg hsome, pop_bind hds, push_bind (hlen _ _ 0 rfl (by omega)),
      push_last (hlen _ _ 1 rfl (by omega))]
    rfl
  case wVplus =>
    rcases top with _ | ⟨t, _ | ⟨z, _ | ⟨y, _ | ⟨x, _ | ⟨v, top⟩⟩⟩⟩⟩ <;> cases htop
    replace hds : d.ds = t :: z :: y :: x :: base := hds
    have hroom' : base.length + 4 ≤ dataStackSize := hroom
    have hsome : ¬ d.ds.length < 4 := by simp [hds]
    refine ⟨rfl, ?_⟩
    rw [wVplus_run, if_neg hsome, pop_bind hds, pop_bind rfl, pop_bind rfl, pop_bind rfl,
      push_bind (hlen _ _ 0 rfl (by omega)), push_last (hlen _ _ 1 rfl (by omega))]
    rfl

/-- Without room, a shuffling word complains. -/
theorem shuffle_tells {s : Shape} {d t : Data} {top base : List Cell} (hf : f.shuffles = true)
    (hs : shape f = some s) (hw : dataWord img f = some w) (hds : d.ds = top ++ base)
    (htop : top.length = s.inputs) (hlen : d.ds.length ≤ dataStackSize)
    (hover : dataStackSize < base.length + max s.inputs s.outputs)
    (hrun : outcome w d = some t) : t.output ≠ d.output := by
  rw [outcome] at hrun
  -- most of them leave no more than they take
  have hroom : s.outputs ≤ s.inputs → t.output ≠ d.output :=
    fun hle => absurd hover (has_room hle hds htop hlen)
  rw [hds, List.length_append, htop] at hlen
  cases f <;> cases hf <;> cases hs <;> cases hw
  case wDrop | wSwap | wRot | wNip | w2drop | w2swap | wVplus => exact hroom (by decide)
  case wDup =>
    obtain ⟨x, rfl⟩ := List.length_eq_one_iff.mp htop
    replace hds : d.ds = x :: base := hds
    have hover' : dataStackSize < base.length + 2 := hover
    rw [wDup, peek_bind hds] at hrun
    refine push_full ?_ hrun
    rw [hds]
    exact Nat.le_of_lt_succ hover'
  case wOver =>
    obtain ⟨y, x, rfl⟩ := List.length_eq_two.mp htop
    replace hds : d.ds = y :: x :: base := hds
    have hover' : dataStackSize < base.length + 3 := hover
    rw [wOver, pick_bind hds] at hrun
    refine push_full ?_ hrun
    rw [hds]
    exact Nat.le_of_lt_succ hover'
  case wTuck =>
    obtain ⟨y, x, rfl⟩ := List.length_eq_two.mp htop
    replace hds : d.ds = y :: x :: base := hds
    have hover' : dataStackSize < base.length + 3 := hover
    have hlen' : 2 + base.length ≤ dataStackSize := hlen
    rw [wTuck, pop_bind hds, pop_bind rfl, push_bind, push_bind] at hrun
    · have hfull : t.output ≠ (d.withStack (x :: y :: base)).output :=
        push_full (Nat.le_of_lt_succ hover') hrun
      exact hfull
    · show base.length + 1 < dataStackSize
      omega
    · show base.length < dataStackSize
      omega
  case wVdup =>
    obtain ⟨x, rfl⟩ := List.length_eq_one_iff.mp htop
    replace hds : d.ds = x :: base := hds
    have hover' : dataStackSize < base.length + 2 := hover
    have hlen' : 1 + base.length ≤ dataStackSize := hlen
    have hsome : ¬ d.ds.length < 1 := by simp [hds]
    rw [wVdup_run, if_neg hsome, pop_bind hds, push_bind] at hrun
    · have hfull : t.output ≠ (d.withStack (x :: base)).output :=
        push_full (Nat.le_of_lt_succ hover') hrun
      exact hfull
    · show base.length < dataStackSize
      omega
  case w2dup =>
    obtain ⟨y, x, rfl⟩ := List.length_eq_two.mp htop
    replace hds : d.ds = y :: x :: base := hds
    have hover' : dataStackSize < base.length + 4 := hover
    rw [w2dup, peek_bind hds, pick_bind hds] at hrun
    by_cases hfull : d.ds.length < dataStackSize
    · rw [push_bind hfull, hds] at hrun
      have hsecond : t.output ≠ (d.withStack (x :: y :: x :: base)).output :=
        push_full (Nat.le_of_lt_succ hover') hrun
      exact hsecond
    · -- the first of the two pushes complains already
      have hsecond : ((dsPush y).run (d.dsPush x)).map Prod.snd = some t := hrun
      obtain rfl : (d.dsPush x).dsPush y = t := Option.some.inj hsecond
      have hfirst : (d.dsPush x).output ≠ d.output := push_full (Nat.le_of_not_lt hfull) rfl
      refine ne_of_prefix ?_ ?_ (Or.inl hfirst)
      · rw [dsPush_tell]
        exact List.prefix_append _ _
      · rw [dsPush_tell (d.dsPush x)]
        exact List.prefix_append _ _

theorem takes_shuffle {s : Shape} (hf : f.shuffles = true) (hs : shape f = some s)
    (hw : dataWord img f = some w) :
    Consumes d₀ (.exchange s.inputs s.outputs) s.result (outcome w) := by
  refine takes_of ?_ ?_ ?_
  · intro d _
    refine (answers_shuffle hf hw).returns (fun d => ?_) d
    have hsome : (leaves w d).isSome = true := by
      rw [leaves_word hw hs]
      cases f <;> cases hf <;> first | rfl | (rw [stackAfter]; split <;> rfl)
    rwa [leaves, Option.isSome_map] at hsome
  · intro d top base _ hds htop hroom
    obtain ⟨hlen, hrun⟩ := shuffle_fits hf hs hw hds htop hroom
    exact ⟨hlen, outcome_some hrun⟩
  · exact fun d t top base _ hds htop hlen hover hrun =>
      shuffle_tells hf hs hw hds htop hlen hover hrun

/-- A primitive with a stack comment keeps to it. -/
theorem takes_primitive (huse : f.use = some u) (hw : dataWord img f = some w) :
    ∃ g, Consumes d₀ u g (outcome w) := by
  unfold CFun.use at huse
  split at huse
  case h_1 =>
    cases huse
    cases hw
    exact ⟨_, takes_read (fun a d => cellAt d.mem a) (fun _ _ _ _ => rfl) fun _ => rfl⟩
  case h_2 =>
    cases huse
    cases hw
    exact ⟨_, takes_read (fun a d => (d.mem a.toNat).setWidth 64) (fun _ _ _ _ => rfl)
      fun _ => rfl⟩
  case h_3 =>
    cases huse
    cases hw
    exact ⟨_, takes_value Data.dictHere (fun _ _ _ => rfl) fun _ => rfl⟩
  case h_4 =>
    cases huse
    cases hw
    exact ⟨_, takes_value (fun d => BitVec.ofNat 64 d.forthBase) (fun _ _ _ => rfl)
      fun _ => rfl⟩
  case h_5 =>
    split at huse
    case isTrue => cases huse
    case isFalse hdivides =>
      obtain ⟨s, hs, rfl⟩ := Option.map_eq_some_iff.mp huse
      rcases shape_cases hs with ⟨op, hop⟩ | ⟨op, hop⟩ | hshuffle | hdiv
      · rw [dataWord_binary hop] at hw
        obtain rfl := Option.some.inj hw
        rw [shape_binary hop] at hs
        obtain rfl := Option.some.inj hs
        exact ⟨_, takes_binary op⟩
      · rw [dataWord_unary hop] at hw
        obtain rfl := Option.some.inj hw
        rw [shape_unary hop] at hs
        obtain rfl := Option.some.inj hs
        exact ⟨_, takes_unary op⟩
      · exact ⟨_, takes_shuffle hshuffle hs hw⟩
      · exact absurd hdiv hdivides

end Primitives

/-! ## Words -/

/-- The stack comment of a word that is no colon definition. -/
def leafUse : Meaning → Option Use
  | .native f => f.use
  | .var | .const => some (.exchange 0 1)
  | .colon _ => none

/-- The stack comment of a straight-line body. -/
def bodyUse (call : Cell → Option Use) : Body → Option Use
  | .nil => some (.exchange 0 0)
  | .lit _ rest => (bodyUse call rest).map (Use.exchange 0 1).comp
  | .word e rest => (call e).bind fun u => (bodyUse call rest).map u.comp
  | _ => none

/-- The stack comment of a word whose calls nest at most `depth` deep. -/
def wordUse (words : Words) : Nat → Cell → Option Use
  | 0, e => (words e).bind leafUse
  | depth + 1, e =>
      match words e with
      | some (.colon b) => bodyUse (wordUse words depth) b
      | some k => leafUse k
      | none => none

section Words

variable {img : Image} {words : Words} {P : Set Nat} {depth : Nat} {e : Cell} {b : Body}
  {k : Meaning} {u : Use} {d₀ d : Data}

theorem use_dataWord (img : Image) {f : CFun} (huse : f.use = some u) :
    (dataWord img f).isSome = true := by
  unfold CFun.use at huse
  split at huse
  case h_1 | h_2 | h_3 | h_4 => rfl
  case h_5 =>
    split at huse
    case isTrue => cases huse
    case isFalse =>
      obtain ⟨s, hs, -⟩ := Option.map_eq_some_iff.mp huse
      cases f <;> cases hs <;> rfl

theorem takes_literal (v : Cell) :
    Consumes d₀ (.exchange 0 1) (fun i => v :: i) (fun d => some (d.dsPush v)) :=
  takes_value (w := dsPush v) (fun _ => v) (fun _ _ _ => rfl) fun _ => rfl

theorem takes_leaf (huse : leafUse k = some u) :
    ∃ g, Consumes d₀ u g (denoteLeaf img k e) := by
  cases k with
  | native f =>
      obtain ⟨w, hw⟩ := Option.isSome_iff_exists.mp (use_dataWord img huse)
      obtain ⟨g, hg⟩ : ∃ g, Consumes d₀ u g (outcome w) := takes_primitive huse hw
      refine ⟨g, ?_⟩
      have hden : denoteLeaf img (.native f) e = outcome w :=
        funext fun d => denoteLeaf_native hw
      rwa [hden]
  | var =>
      cases huse
      exact ⟨_, takes_value (w := fun d => some ((), d.dsPush (dictGetParamField d.mem e)))
        (fun d => dictGetParamField d.mem e) (fun _ _ _ => rfl) fun _ => rfl⟩
  | const =>
      cases huse
      exact ⟨_, takes_value
        (w := fun d => some ((), d.dsPush (cellAt d.mem (dictGetParamField d.mem e))))
        (fun d => cellAt d.mem (dictGetParamField d.mem e)) (fun _ _ _ => rfl) fun _ => rfl⟩
  | colon b => cases huse

theorem takes_body {call : Cell → Data → Option Data} {use : Cell → Option Use}
    (hcall : ∀ e u, use e = some u → ∃ g, Consumes d₀ u g (call e))
    (huse : bodyUse use b = some u) :
    ∃ g, Consumes d₀ u g (denoteBody call b) := by
  induction b generalizing u with
  | nil =>
      cases huse
      exact ⟨_, uses_nothing⟩
  | lit v rest ih =>
      obtain ⟨u', hrest, rfl⟩ := Option.map_eq_some_iff.mp huse
      obtain ⟨g, hg⟩ := ih hrest
      exact ⟨_, (takes_literal v).comp hg⟩
  | word e rest ih =>
      obtain ⟨u₁, hfirst, hmap⟩ := Option.bind_eq_some_iff.mp huse
      obtain ⟨u₂, hrest, rfl⟩ := Option.map_eq_some_iff.mp hmap
      obtain ⟨g₁, hg₁⟩ := hcall e u₁ hfirst
      obtain ⟨g₂, hg₂⟩ := ih hrest
      exact ⟨_, hg₁.comp hg₂⟩
  | ifThen | ifElse | untilLoop | againLoop | whileLoop | doLoop => cases huse

/-- A word keeps to its stack comment, by induction on the nesting of calls. -/
theorem takes_word (d₀ : Data) (huse : wordUse words depth e = some u) :
    ∃ g, Consumes d₀ u g (denoteWord img words depth e) := by
  induction depth generalizing e u with
  | zero =>
      obtain ⟨k, he, hk⟩ := Option.bind_eq_some_iff.mp huse
      have hden : denoteWord img words 0 e = denoteLeaf img k e :=
        funext fun d => by rw [denoteWord, he, Option.bind_some]
      rw [hden]
      exact takes_leaf hk
  | succ depth ih =>
      rw [wordUse] at huse
      split at huse
      case h_1 b he =>
        have hden : denoteWord img words (depth + 1) e =
            denoteBody (denoteWord img words depth) b :=
          funext fun d => by simp only [denoteWord, he]
        rw [hden]
        exact takes_body (fun e' u' => ih) huse
      case h_2 k hne he =>
        have hden : denoteWord img words (depth + 1) e = denoteLeaf img k e := by
          funext d
          cases k with
          | colon b => cases huse
          | native f => simp only [denoteWord, he]
          | var => simp only [denoteWord, he]
          | const => simp only [denoteWord, he]
        rw [hden]
        exact takes_leaf huse
      case h_3 => cases huse

theorem use_body {use : Cell → Option Use} (huse : bodyUse use b = some u) :
    b.straight = true ∧ ∀ e ∈ b.calls, ∃ u', use e = some u' := by
  induction b generalizing u with
  | nil => exact ⟨rfl, fun e he => absurd he List.not_mem_nil⟩
  | lit v rest ih =>
      obtain ⟨u', hrest, -⟩ := Option.map_eq_some_iff.mp huse
      exact ih hrest
  | word e rest ih =>
      obtain ⟨u₁, hfirst, hmap⟩ := Option.bind_eq_some_iff.mp huse
      obtain ⟨u₂, hrest, -⟩ := Option.map_eq_some_iff.mp hmap
      obtain ⟨hstraight, hcalls⟩ := ih hrest
      refine ⟨hstraight, ?_⟩
      intro e' he'
      rcases List.mem_cons.mp he' with rfl | he'
      · exact ⟨u₁, hfirst⟩
      · exact hcalls e' he'
  | ifThen | ifElse | untilLoop | againLoop | whileLoop | doLoop => cases huse

theorem use_nests (huse : wordUse words depth e = some u) : Nests img words depth e := by
  induction depth generalizing e u with
  | zero =>
      obtain ⟨k, he, hk⟩ := Option.bind_eq_some_iff.mp huse
      refine ⟨k, he, ?_, ?_⟩
      · cases k with
        | colon b => cases hk
        | native | var | const => rfl
      · rintro f rfl
        exact use_dataWord img hk
  | succ depth ih =>
      rw [wordUse] at huse
      split at huse
      case h_1 b he =>
        obtain ⟨hstraight, hcalls⟩ := use_body huse
        refine ⟨_, he, (fun f hf => by cases hf), ?_⟩
        rintro b' hb'
        cases hb'
        refine ⟨hstraight, fun e' he' => ?_⟩
        obtain ⟨u', hu'⟩ := hcalls e' he'
        exact ih hu'
      case h_2 k hne he =>
        refine ⟨k, he, ?_, fun b hb => absurd hb (hne b)⟩
        rintro f rfl
        exact use_dataWord img huse
      case h_3 => cases huse

theorem Beside.mem (h : Beside d₀ d) : d.mem = d₀.mem := by
  obtain ⟨ds, o, rfl⟩ := h
  rfl

theorem use_benignLeaf (huse : leafUse k = some u) : BenignLeaf img P k d := by
  rintro f w rfl hw
  obtain ⟨g, hg⟩ : ∃ g, Consumes d u g (outcome w) := takes_primitive huse hw
  obtain ⟨t, ht, hbeside, -⟩ := hg.returns d (beside_self d)
  obtain ⟨r, hrun, rfl⟩ := Option.map_eq_some_iff.mp ht
  refine ⟨r.2, hrun, fun x _ => ?_⟩
  rw [hbeside.mem]

theorem use_benignBody {call : Cell → Data → Option Data} {benign : Cell → Data → Prop}
    {use : Cell → Option Use} (hcall : ∀ e u, use e = some u → ∀ d, benign e d)
    (huse : bodyUse use b = some u) : BenignBody call benign b d := by
  induction b generalizing u d with
  | nil => trivial
  | lit v rest ih =>
      obtain ⟨u', hrest, -⟩ := Option.map_eq_some_iff.mp huse
      exact ih hrest
  | word e rest ih =>
      obtain ⟨u₁, hfirst, hmap⟩ := Option.bind_eq_some_iff.mp huse
      obtain ⟨u₂, hrest, -⟩ := Option.map_eq_some_iff.mp hmap
      exact ⟨hcall e u₁ hfirst d, fun d' _ => ih hrest⟩
  | ifThen | ifElse | untilLoop | againLoop | whileLoop | doLoop => cases huse

theorem use_benign (huse : wordUse words depth e = some u) : BenignWord img words P depth e d := by
  induction depth generalizing e u d with
  | zero =>
      intro k he
      rw [wordUse, he, Option.bind_some] at huse
      exact use_benignLeaf huse
  | succ depth ih =>
      intro k he
      rw [wordUse, he] at huse
      cases k with
      | colon b =>
          refine ⟨(fun f w hf => by cases hf), ?_⟩
          rintro b' hb'
          cases hb'
          exact use_benignBody (fun e' u' hu' d => ih hu') huse
      | native f => exact ⟨use_benignLeaf huse, fun b hb => by cases hb⟩
      | var => exact ⟨use_benignLeaf huse, fun b hb => by cases hb⟩
      | const => exact ⟨use_benignLeaf huse, fun b hb => by cases hb⟩

/-- The execution of a colon word is one of its body. -/
theorem exec_colon {cap : Nat} {c r : Bool} {s t : Local} (he : words e = some (.colon b))
    (h : Exec img words P cap c r (.call e) s t) : s.rs.length < cap ∧
      Exec img words P (cap - s.rs.length - 1) c r (.body b) ⟨s.data, []⟩ ⟨t.data, []⟩ := by
  cases h with
  | colon he' hroom hbody =>
      rw [he] at he'
      cases he'
      exact ⟨hroom, hbody⟩
  | native he' | rsNative he' | yield he' | var he' | const he' | execute he' =>
      rw [he] at he'
      cases he'

/-- **A colon word keeps to the stack comment computed from its body.** It is a
function on what it takes, prints nothing and touches nothing below if there is
room for its peak, and complains if there is not. -/
theorem word_keeps_comment (he : words e = some (.colon b))
    (huse : wordUse words depth e = some u) (hknown : Known img words P d₀.mem) :
    ∃ g : List Cell → List Cell, ∀ (m : Machine) (K : List Frame) (top base : List Cell),
      m.frames = .execute e :: K → m.vm.ip = 0#64 → Beside d₀ m.vm.data →
      m.vm.rs.length + depth ≤ returnStackSize → m.vm.data.ds = top ++ base →
      top.length = u.takes → m.vm.data.ds.length ≤ dataStackSize →
        (base.length + u.peak ≤ dataStackSize → (g top).length = u.gives ∧
          Returns img K m (m.conf (m.vm.data.withStack (g top ++ base)) m.vm.rs 0#64 K)) ∧
        (dataStackSize < base.length + u.peak → ∃ d, d.output ≠ m.vm.data.output ∧
          Returns img K m (m.conf d m.vm.rs 0#64 K)) := by
  obtain ⟨g, hg⟩ : ∃ g, Consumes d₀ u g (denoteWord img words depth e) := takes_word d₀ huse
  refine ⟨g, ?_⟩
  intro m K top base hframes hip hbeside hroom hds htop hlen
  have hmem : Known img words P m.vm.data.mem := by rwa [hbeside.mem]
  have hnests : Nests img words depth e := use_nests huse
  have hbenign : BenignWord img words P depth e m.vm.data := use_benign huse
  obtain ⟨d, hden, hexec⟩ := exec_word hnests hbenign hroom
  have hreturns : Returns img K m (m.conf d m.vm.rs 0#64 K) := by
    obtain ⟨hcap, hbody⟩ := exec_colon he hexec
    have hcap' : m.vm.rs.length < returnStackSize := hcap
    exact execute_returns hframes hmem he (by dsimp only; omega) hbody hip
  constructor
  · intro hfits
    obtain ⟨hgives, hrun⟩ := hg.fits _ top base hbeside hds htop hfits
    refine ⟨hgives, ?_⟩
    obtain rfl := Option.some.inj (hden.symm.trans hrun)
    exact hreturns
  · intro hover
    exact ⟨d, hg.tells _ d top base hbeside hds htop hlen hover hden, hreturns⟩

/-- `QUAD` is `( n -- n )` and needs one cell more on the way. -/
theorem word_keeps_comment_quad : ∃ g : List Cell → List Cell, (g [3#64]).length = 1 ∧
    Returns linearImage [.eval] squarePrompt
      (squarePrompt.conf (squarePrompt.vm.data.withStack (g [3#64] ++ [])) [] 0#64 [.eval]) := by
  have huse : wordUse squareWords 2 entryQuad = some ⟨1, 1, 2, by decide, by decide⟩ := rfl
  have hword : squareWords entryQuad = some (.colon (.word entrySq (.word entrySq .nil))) := rfl
  have hknown : Known linearImage squareWords Set.univ squarePrompt.vm.data.mem := squareWords_known
  obtain ⟨g, hg⟩ := word_keeps_comment hword huse hknown
  obtain ⟨hfits, -⟩ := hg squarePrompt [.eval] [3#64] [] rfl rfl (beside_self _) (by decide) rfl rfl
    (by decide)
  obtain ⟨hlen, hreturns⟩ := hfits (by decide)
  exact ⟨g, hlen, hreturns⟩

end Words

end VectorForth.Forth
