import VectorForth.Vm.Reentrancy

/-!
# Threaded code is composition

The denotation of a straight-line word: the effects of its cells from left to
right, a colon cell standing for its whole body. It is a function of the data
alone, by recursion on the nesting of calls, and has no return stack. The
machine computes it.
-/

namespace VectorForth.Forth

open ByteMemory LabelledRun

/-- The effects of the cells of a straight-line body, composed. -/
def denoteBody (call : Cell → Data → Option Data) : Body → Data → Option Data
  | .nil, d => some d
  | .lit v rest, d => denoteBody call rest (d.dsPush v)
  | .word e rest, d => (call e d).bind (denoteBody call rest)
  | _, _ => none

/-- No control construct at the top of the body. -/
def Body.straight : Body → Bool
  | .nil => true
  | .lit _ rest => rest.straight
  | .word _ rest => rest.straight
  | _ => false

/-- The words a body refers to. -/
def Body.calls : Body → List Cell
  | .nil => []
  | .lit _ rest => rest.calls
  | .word e rest => e :: rest.calls
  | .ifThen yes rest => yes.calls ++ rest.calls
  | .ifElse yes no rest => yes.calls ++ no.calls ++ rest.calls
  | .untilLoop body rest => body.calls ++ rest.calls
  | .againLoop body rest => body.calls ++ rest.calls
  | .whileLoop test body rest => test.calls ++ body.calls ++ rest.calls
  | .doLoop body rest => body.calls ++ rest.calls

section

variable (img : Image) (words : Words)

/-- The effect of a word that is no colon definition. -/
def denoteLeaf (k : Meaning) (e : Cell) (d : Data) : Option Data :=
  match k with
  | .native f => (dataWord img f).bind fun w => (w.run d).map Prod.snd
  | .var => some (d.dsPush (dictGetParamField d.mem e))
  | .const => some (d.dsPush (cellAt d.mem (dictGetParamField d.mem e)))
  | .colon _ => none

/-- The effect of a word whose calls nest at most `depth` deep. -/
def denoteWord : Nat → Cell → Data → Option Data
  | 0, e, d => (words e).bind fun k => denoteLeaf img k e d
  | depth + 1, e, d =>
      match words e with
      | some (.colon b) => denoteBody (denoteWord depth) b d
      | some k => denoteLeaf img k e d
      | none => none

/-- The calls of `e` nest at most `depth` deep, and every cell it runs belongs
to a straight-line colon word, a variable, a constant, or a native word that
acts on the data alone. -/
def Nests : Nat → Cell → Prop
  | 0, e => ∃ k, words e = some k ∧ k.isColon = false ∧
      ∀ f, k = .native f → (dataWord img f).isSome = true
  | depth + 1, e => ∃ k, words e = some k ∧
      (∀ f, k = .native f → (dataWord img f).isSome = true) ∧
      ∀ b, k = .colon b → b.straight = true ∧ ∀ e' ∈ b.calls, Nests depth e'

variable (P : Set Nat)

/-- Every native word that the body runs from `d` returns and leaves `P` alone. -/
def BenignBody (call : Cell → Data → Option Data) (benign : Cell → Data → Prop) :
    Body → Data → Prop
  | .nil, _ => True
  | .lit v rest, d => BenignBody call benign rest (d.dsPush v)
  | .word e rest, d => benign e d ∧ ∀ d', call e d = some d' → BenignBody call benign rest d'
  | _, _ => True

def BenignLeaf (k : Meaning) (d : Data) : Prop :=
  ∀ f w, k = .native f → dataWord img f = some w →
    ∃ d', w.run d = some ((), d') ∧ Set.EqOn d'.mem d.mem P

/-- The same for a word whose calls nest at most `depth` deep. -/
def BenignWord : Nat → Cell → Data → Prop
  | 0, e, d => ∀ k, words e = some k → BenignLeaf img P k d
  | depth + 1, e, d => ∀ k, words e = some k → BenignLeaf img P k d ∧
      ∀ b, k = .colon b → BenignBody (denoteWord img words depth) (BenignWord depth) b d

end

/-! ## The denotation is a structured execution -/

section Denotation

variable {img : Image} {words : Words} {P : Set Nat}

theorem exec_leaf {cap : Nat} {k : Meaning} {e : Cell} {d : Data} (he : words e = some k)
    (hk : k.isColon = false) (hdata : ∀ f, k = .native f → (dataWord img f).isSome = true)
    (hbenign : BenignLeaf img P k d) :
    ∃ d', denoteLeaf img k e d = some d' ∧
      ∀ L, Exec img words P cap false false (.call e) ⟨d, L⟩ ⟨d', L⟩ := by
  cases k with
  | native f =>
      obtain ⟨w, hw⟩ := Option.isSome_iff_exists.mp (hdata f rfl)
      obtain ⟨d', hrun, hkeep⟩ := hbenign f w rfl hw
      refine ⟨d', ?_, fun L => .native he hw hrun hkeep⟩
      simp only [denoteLeaf, hw, Option.bind_some, hrun, Option.map_some]
  | var => exact ⟨_, rfl, fun L => .var he⟩
  | const => exact ⟨_, rfl, fun L => .const he⟩
  | colon b => simp [Meaning.isColon] at hk

theorem exec_straight (cap : Nat) (L : List Cell) {call : Cell → Data → Option Data}
    {benign : Cell → Data → Prop} {b : Body} (hb : b.straight = true)
    (hcall : ∀ e ∈ b.calls, ∀ d, benign e d → ∃ d', call e d = some d' ∧
      Exec img words P cap false false (.call e) ⟨d, L⟩ ⟨d', L⟩)
    {d : Data} (hbenign : BenignBody call benign b d) :
    ∃ d', denoteBody call b d = some d' ∧
      Exec img words P cap false false (.body b) ⟨d, L⟩ ⟨d', L⟩ := by
  induction b generalizing d with
  | nil => exact ⟨d, rfl, .nil⟩
  | lit v rest ih =>
      obtain ⟨d', hden, hexec⟩ := ih hb hcall hbenign
      exact ⟨d', hden, .lit hexec⟩
  | word e rest ih =>
      obtain ⟨hhead, htail⟩ := hbenign
      obtain ⟨d₁, hden₁, hexec₁⟩ := hcall e (List.mem_cons_self ..) d hhead
      obtain ⟨d₂, hden₂, hexec₂⟩ :=
        ih hb (fun e' he' => hcall e' (List.mem_cons_of_mem _ he')) (htail d₁ hden₁)
      refine ⟨d₂, ?_, .word hexec₁ hexec₂⟩
      rw [denoteBody, hden₁, Option.bind_some, hden₂]
  | ifThen | ifElse | untilLoop | againLoop | whileLoop | doLoop => cases hb

/-- By induction on the nesting of calls. -/
theorem exec_word {depth cap : Nat} {e : Cell} {d : Data} {L : List Cell}
    (hnests : Nests img words depth e) (hbenign : BenignWord img words P depth e d)
    (hroom : L.length + depth ≤ cap) :
    ∃ d', denoteWord img words depth e d = some d' ∧
      Exec img words P cap false false (.call e) ⟨d, L⟩ ⟨d', L⟩ := by
  induction depth generalizing e d L cap with
  | zero =>
      obtain ⟨k, he, hk, hdata⟩ := hnests
      obtain ⟨d', hden, hexec⟩ := exec_leaf he hk hdata (hbenign k he)
      refine ⟨d', ?_, hexec L⟩
      rw [denoteWord, he, Option.bind_some, hden]
  | succ depth ih =>
      obtain ⟨k, he, hdata, hbody⟩ := hnests
      obtain ⟨hleaf, hbenignBody⟩ := hbenign k he
      cases k with
      | colon b =>
          obtain ⟨hstraight, hcalls⟩ := hbody b rfl
          obtain ⟨d', hden, hexec⟩ := exec_straight (cap - L.length - 1) [] hstraight
            (fun e' he' d₁ hd₁ => ih (hcalls e' he') hd₁ (by simp only [List.length_nil]; omega))
            (hbenignBody b rfl)
          refine ⟨d', ?_, .colon he (show L.length < cap by omega) hexec⟩
          simp only [denoteWord, he, hden]
      | native f =>
          obtain ⟨d', hden, hexec⟩ := exec_leaf he rfl hdata hleaf
          refine ⟨d', ?_, hexec L⟩
          simp only [denoteWord, he, hden]
      | var =>
          obtain ⟨d', hden, hexec⟩ := exec_leaf he rfl hdata hleaf
          refine ⟨d', ?_, hexec L⟩
          simp only [denoteWord, he, hden]
      | const =>
          obtain ⟨d', hden, hexec⟩ := exec_leaf he rfl hdata hleaf
          refine ⟨d', ?_, hexec L⟩
          simp only [denoteWord, he, hden]

/-- A native word that always returns and never stores into `P` is benign
wherever it is run. -/
theorem benignWord_of_native
    (hnative : ∀ e f w, words e = some (.native f) → dataWord img f = some w →
      ∀ d, ∃ d', w.run d = some ((), d') ∧ Set.EqOn d'.mem d.mem P)
    (depth : Nat) (e : Cell) (d : Data) : BenignWord img words P depth e d := by
  have hleaf : ∀ e k d, words e = some k → BenignLeaf img P k d := by
    rintro e k d he f w rfl hw
    exact hnative e f w he hw d
  have hbody : ∀ (call : Cell → Data → Option Data) (benign : Cell → Data → Prop),
      (∀ e d, benign e d) → ∀ b d, BenignBody call benign b d := by
    intro call benign hbenign b
    induction b with
    | nil => exact fun d => trivial
    | lit v rest ih => exact fun d => ih _
    | word e rest ih => exact fun d => ⟨hbenign e d, fun d' _ => ih d'⟩
    | ifThen | ifElse | untilLoop | againLoop | whileLoop | doLoop => exact fun d => trivial
  induction depth generalizing e d with
  | zero => exact fun k he => hleaf e k d he
  | succ depth ih => exact fun k he => ⟨hleaf e k d he, fun b _ => hbody _ _ ih b d⟩

/-- **Threaded code refines composition.** Executed with `ip = 0`, a colon word
of straight-line words returns; the data are those of its denotation, `ip` is
null again and the return stack is as before. -/
theorem threaded_code_composes {depth : Nat} {e : Cell} {b : Body} {m : Machine} {K : List Frame}
    (hframes : m.frames = .execute e :: K) (hip : m.vm.ip = 0#64)
    (hknown : Known img words P m.vm.data.mem) (he : words e = some (.colon b))
    (hnests : Nests img words depth e) (hbenign : BenignWord img words P depth e m.vm.data)
    (hroom : m.vm.rs.length + depth ≤ returnStackSize) :
    ∃ d, denoteWord img words depth e m.vm.data = some d ∧
      Returns img K m (m.conf d m.vm.rs 0#64 K) := by
  cases depth with
  | zero =>
      obtain ⟨k, he', hk, -⟩ := hnests
      rw [he] at he'
      obtain rfl := Option.some.inj he'
      simp [Meaning.isColon] at hk
  | succ depth =>
      obtain ⟨k, he', -, hbody⟩ := hnests
      rw [he] at he'
      obtain rfl := Option.some.inj he'
      obtain ⟨hstraight, hcalls⟩ := hbody b rfl
      obtain ⟨d, hden, hexec⟩ := exec_straight depth [] hstraight
        (fun e' he' d₁ hd₁ => exec_word (hcalls e' he') hd₁ (by simp)) ((hbenign _ he).2 b rfl)
      refine ⟨d, by simp only [denoteWord, he, hden], ?_⟩
      exact execute_returns hframes hknown he (by omega) hexec hip

end Denotation

/-! ## A small dictionary -/

/-- `DUP`, `*`, `SQ` with the body `DUP *`, and `QUAD` with the body `SQ SQ`. -/
def entryDup : Cell := 0xFFFF800010000000#64
def entryMul : Cell := 0xFFFF800010000020#64
def entrySq : Cell := 0xFFFF800010000040#64
def entryQuad : Cell := 0xFFFF800010000080#64

def squareWords : Words := fun e =>
  if e = entryDup then some (.native .wDup)
  else if e = entryMul then some (.native .wMul)
  else if e = entrySq then some (.colon (.word entryDup (.word entryMul .nil)))
  else if e = entryQuad then some (.colon (.word entrySq (.word entrySq .nil)))
  else none

def squareMem : Mem :=
  writeCells (writeCells (writeCells (writeCells (fun _ => 0#8)
    (entryDup.toNat + 16) [linearImage.addr .wDup])
    (entryMul.toNat + 16) [linearImage.addr .wMul])
    (entrySq.toNat + 16) [linearImage.addr .doColon, entryDup, entryMul, sentinelExit])
    (entryQuad.toNat + 16) [linearImage.addr .doColon, entrySq, entrySq, sentinelExit]

def squarePrompt : Machine where
  vm := { data := { blankData with mem := squareMem, ds := [3#64] }, rs := [], ip := 0#64 }
  frames := [.execute entryQuad, .eval]
  kbd := []
  inputBuffer := []

theorem squareWords_known : Known linearImage squareWords Set.univ squareMem := by
  intro e k h
  unfold squareWords at h
  split_ifs at h <;> cases h <;> rename_i he <;> subst he
  · exact ⟨by decide, trivial, fun _ _ _ => trivial, by decide +kernel, fun b hb => by cases hb⟩
  · exact ⟨by decide, trivial, fun _ _ _ => trivial, by decide +kernel, fun b hb => by cases hb⟩
  · refine ⟨by decide, trivial, fun _ _ _ => trivial, by decide +kernel, ?_⟩
    intro b hb
    cases hb
    exact ⟨by decide +kernel, by decide +kernel, fun _ _ _ => trivial, by decide +kernel,
      by decide +kernel, by decide +kernel, trivial⟩
  · refine ⟨by decide, trivial, fun _ _ _ => trivial, by decide +kernel, ?_⟩
    intro b hb
    cases hb
    exact ⟨by decide +kernel, by decide +kernel, fun _ _ _ => trivial, by decide +kernel,
      by decide +kernel, by decide +kernel, trivial⟩

@[simp] theorem dsPop_mem (d : Data) : d.dsPop.2.mem = d.mem := by
  unfold Data.dsPop
  split <;> rfl

theorem binary_run (f : Cell → Cell → Cell) (d : Data) :
    (binary f).run d =
      some ((), d.dsPop.2.dsPop.2.dsPush (f d.dsPop.2.dsPop.1 d.dsPop.1)) := rfl

theorem squareWords_benign (depth : Nat) (e : Cell) (d : Data) :
    BenignWord linearImage squareWords Set.univ depth e d := by
  apply benignWord_of_native
  intro e f w he hw d
  unfold squareWords at he
  split_ifs at he <;> cases he <;> cases hw
  · exact ⟨_, rfl, fun x _ => by rw [dsPush_mem]⟩
  · exact ⟨_, binary_run _ d, fun x _ => by simp⟩

theorem squareWords_nests : Nests linearImage squareWords 2 entryQuad := by
  have hleaf : ∀ e, e = entryDup ∨ e = entryMul → Nests linearImage squareWords 0 e := by
    rintro e (rfl | rfl)
    · exact ⟨_, rfl, rfl, fun f hf => by cases hf; rfl⟩
    · exact ⟨_, rfl, rfl, fun f hf => by cases hf; rfl⟩
  have hsq : Nests linearImage squareWords 1 entrySq := by
    refine ⟨_, rfl, (fun f hf => by cases hf), fun b hb => ?_⟩
    cases hb
    refine ⟨rfl, fun e he => hleaf e ?_⟩
    simpa [Body.calls] using he
  refine ⟨_, rfl, (fun f hf => by cases hf), fun b hb => ?_⟩
  cases hb
  refine ⟨rfl, fun e he => ?_⟩
  have : e = entrySq := by simpa [Body.calls] using he
  rw [this]
  exact hsq

/-- `3 QUAD` leaves 81. -/
theorem threaded_code_composes_quad :
    ∃ d, d.ds = [81#64] ∧
      Returns linearImage [.eval] squarePrompt (squarePrompt.conf d [] 0#64 [.eval]) := by
  obtain ⟨d, hden, hreturns⟩ := threaded_code_composes (m := squarePrompt) (K := [.eval])
    rfl rfl squareWords_known (e := entryQuad) rfl squareWords_nests (squareWords_benign _ _ _)
    (by decide)
  have hds : (denoteWord linearImage squareWords 2 entryQuad squarePrompt.vm.data).map Data.ds =
      some [81#64] := by rfl
  rw [hden] at hds
  exact ⟨d, Option.some.inj hds, hreturns⟩

end VectorForth.Forth
