import Mathlib.Data.List.TakeWhile
import VectorForth.Vm.ControlFlow
import VectorForth.Vm.Lookup
import VectorForth.Vm.Numerals

/-!
# `SEE` and the compiler

`SEE` prints a colon word as text, `:` compiles text to a colon word. On
straight-line code the printed text compiles to the cells it was printed from:
`SEE` walks the cells item by item and stops at the sentinel cell, and each item
is printed as a token that stands for this item again.
-/

namespace VectorForth.Forth

open ByteMemory LabelledRun

/-! ## Straight-line bodies -/

/-- What a straight-line body consists of. -/
inductive Item
  | lit (v : Cell)
  | word (entry : Cell)

def Item.cells (img : Image) : Item → List Cell
  | .lit v => [img.addr .doLiteral, v]
  | .word entry => [entry]

/-- The token that `SEE` prints. -/
def Item.text (m : Mem) : Item → Text
  | .lit v => ltoa v 10
  | .word entry => dictGetName m entry

def Item.token : Item → Token
  | .lit v => .lit v
  | .word entry => .word entry

def straight : List Item → Body
  | [] => .nil
  | .lit v :: items => .lit v (straight items)
  | .word entry :: items => .word entry (straight items)

/-- The cells of the parameter field, with the sentinel that `;` compiles. -/
def straightCells (img : Image) (items : List Item) : List Cell :=
  items.flatMap (Item.cells img) ++ [sentinelExit]

/-- Every word is followed by a blank. -/
def spaced (ws : List Text) : Text := ws.flatMap fun w => w ++ [chr ' ']

/-- The text that `SEE` prints for the entry `e`. -/
def listing (m : Mem) (e : Cell) (items : List Item) : Text :=
  text ": " ++ dictGetName m e ++ text " " ++ (spaced (items.map (Item.text m)) ++ text ";\n")

/-- What `parse_word` delivers: it is not empty and contains no white space. -/
def Unbroken (w : Text) : Prop := w ≠ [] ∧ ∀ c ∈ w, isspace c = false

section Straight

variable {img : Image} {m : Mem} {items : List Item}

theorem layout_straight (items : List Item) (a : Cell) :
    layout img (straight items) a = items.flatMap (Item.cells img) := by
  induction items generalizing a with
  | nil => rfl
  | cons i items ih => cases i <;> simp [straight, layout, Item.cells, ih]

theorem tokens_straight (items : List Item) :
    (straight items).tokens = items.map Item.token := by
  induction items with
  | nil => rfl
  | cons i items ih => cases i <;> simp [straight, Body.tokens, Item.token, ih]

theorem holes_straight (items : List Item) : (straight items).holes = 0 := by
  induction items with
  | nil => rfl
  | cons i items ih => cases i <;> simp [straight, Body.holes, ih]

theorem length_le_size (items : List Item) : items.length ≤ (straight items).size := by
  induction items with
  | nil => exact Nat.le_refl _
  | cons i items ih => cases i <;> simp [straight, Body.size] <;> omega

end Straight

/-! ## Names in the dictionary -/

section Names

variable {img : Image} {s t : Book} {op : DictOp} {ops : List DictOp} {d : Data} {name p : Text}

/-- What `dict_create` stores of a parsed name is read again as one token. -/
theorem unbroken_take {q : Text} (hlex : nextWord 64 p = (name, q)) (hname : name ≠ []) :
    Unbroken (name.take 31) := by
  obtain ⟨hfront, -⟩ := Prod.mk.inj hlex
  constructor
  · intro hnil
    rcases List.take_eq_nil_iff.mp hnil with h | h
    · cases h
    · exact hname h
  · intro c hc
    have hc' := List.mem_of_mem_take hc
    rw [← hfront] at hc'
    simpa using List.mem_takeWhile_imp (List.mem_of_mem_take hc')

theorem primitives_unbroken : ∀ p ∈ primitives, Unbroken ((text p.name).take 31) := by
  have hnames : ∀ p ∈ primitives, (text p.name).take 31 ≠ [] ∧
      ((text p.name).take 31).all (fun c => !isspace c) = true := by decide +kernel
  intro p hp
  obtain ⟨hne, hall⟩ := hnames p hp
  exact ⟨hne, fun c hc => by simpa using List.all_eq_true.mp hall c hc⟩

/-- The names that a step adds are those of the primitives, or come from the parser. -/
theorem DictStep.unbroken (hstep : DictStep img s op t)
    (hop : ∀ p, op = .primitive p → p ∈ primitives)
    (hs : ∀ k ∈ s.defs, Unbroken (k.name.take 31)) :
    ∀ k ∈ t.defs, Unbroken (k.name.take 31) := by
  cases hstep with
  | primitive _ =>
      rintro k (_ | ⟨_, hk⟩)
      · exact primitives_unbroken _ (hop _ rfl)
      · exact hs k hk
  | colon hlex hname _ | create hlex hname _ | var hlex hname _ | const hlex hname _ =>
      rintro k (_ | ⟨_, hk⟩)
      · exact unbroken_take hlex hname
      · exact hs k hk
  | @semicolon _ _ newest _ _ =>
      rintro k (_ | ⟨_, hk⟩)
      · exact hs newest (List.mem_cons_self ..)
      · exact hs k (List.mem_cons_of_mem _ hk)
  | immediate _ => exact hs
  | other _ _ _ _ => exact hs

theorem Recorded.stored {m : Mem} {hi : Nat} {e : Cell} {k : Definition} {defs : List Definition}
    (h : Recorded m hi e defs) (hk : k ∈ defs) : dictGetName m k.entry = k.name.take 31 := by
  induction h with
  | nil => cases hk
  | cons _ _ _ hname _ ih =>
      rcases List.mem_cons.mp hk with rfl | hk
      · exact hname
      · exact ih hk

/-- **The name of a word that is found is one token**, whatever has been defined
since the start. -/
theorem found_unbroken (hd : EmptyDict d) (hrun : Run (FitStep img) ⟨d, []⟩ ops s)
    (hops : ∀ p, .primitive p ∈ ops → p ∈ primitives) {w : Cell}
    (hfind : dictFind s.data name = some w) (hw : w ≠ 0#64) :
    Unbroken (dictGetName s.data.mem w) := by
  have hholds := holds_of_run hrun hd
  have hall : ∀ k ∈ s.defs, Unbroken (k.name.take 31) := by
    have hnil : ∀ k ∈ (⟨d, []⟩ : Book).defs, Unbroken (k.name.take 31) := fun k hk => by cases hk
    generalize (⟨d, []⟩ : Book) = s₀ at hrun hnil
    induction hrun with
    | nil => exact hnil
    | cons hstep _ ih =>
        have hnext := hstep.1.unbroken (fun p hp => hops p (by rw [hp]; exact List.mem_cons_self ..))
          hnil
        exact ih (fun p hp => hops p (List.mem_cons_of_mem _ hp)) hfind hholds hnext
  rw [hholds.find] at hfind
  cases hk : s.defs.find? fun k => !k.hidden && sameName (k.name.take 31) name with
  | none =>
      rw [newestBy, hk] at hfind
      exact absurd (Option.some.inj hfind).symm hw
  | some k =>
      obtain ⟨hnewest, hmem, -, -⟩ :=
        newestBy_of_find (p := fun given => sameName (given.take 31) name) hk
      rw [hnewest] at hfind
      obtain rfl := Option.some.inj hfind
      rw [hholds.recorded.stored hmem]
      exact hall k hmem

end Names

/-! ## What `SEE` prints -/

section Printing

variable {img : Image} {d s : Data} {e : Cell} {items : List Item} {name p : Text}

theorem seeFrom_end {pfa : Cell} {fuel : Nat} (hcell : cellAt s.mem pfa = sentinelExit) :
    (seeFrom img (fuel + 1) pfa).run s = some ((), s.puts (text ";\n")) := by
  simp only [seeFrom, fetchCell, bind_assoc, pure_bind, StateT.run_bind, StateT.run_get,
    Option.pure_def, Option.bind_eq_bind, Option.bind_some, hcell, if_true]
  rfl

theorem seeFrom_lit {pfa : Cell} {fuel : Nat} (hcell : cellAt s.mem pfa = img.addr .doLiteral) :
    (seeFrom img (fuel + 1) pfa).run s = (seeFrom img fuel (pfa + 16#64)).run
      (s.puts (ltoa (cellAt s.mem (pfa + 8#64)) 10 ++ [chr ' '])) := by
  simp only [seeFrom, fetchCell, bind_assoc, pure_bind, StateT.run_bind, StateT.run_get,
    Option.pure_def, Option.bind_eq_bind, Option.bind_some, hcell,
    if_neg (img.addr_ne_sentinel .doLiteral), if_true]
  rw [← puts_puts]
  rfl

theorem seeFrom_word {pfa w : Cell} {fuel : Nat} (hcell : cellAt s.mem pfa = w) (hw : InDict w) :
    (seeFrom img (fuel + 1) pfa).run s = (seeFrom img fuel (pfa + 8#64)).run
      (s.puts (dictGetName s.mem w ++ [chr ' '])) := by
  simp only [seeFrom, fetchCell, bind_assoc, pure_bind, StateT.run_bind, StateT.run_get,
    Option.pure_def, Option.bind_eq_bind, Option.bind_some, hcell, if_neg hw.ne_sentinel,
    if_neg (hw.ne_addr img .doLiteral), if_pos hw]
  rw [← puts_puts]
  rfl

/-- **The loop of `SEE`** prints one token for each item and ends at the sentinel
cell. The operand of a literal is skipped, whatever its value is. -/
theorem seeFrom_run (hin : ∀ w, .word w ∈ items → InDict w) {pfa : Cell} {fuel : Nat}
    (hfuel : items.length < fuel) (hcells : CellsAt s.mem pfa (straightCells img items)) :
    (seeFrom img fuel pfa).run s =
      some ((), s.puts (spaced (items.map (Item.text s.mem)) ++ text ";\n")) := by
  induction items generalizing s pfa fuel with
  | nil =>
      obtain ⟨fuel, rfl⟩ := Nat.exists_eq_succ_of_ne_zero (Nat.ne_of_gt hfuel)
      exact seeFrom_end hcells.1
  | cons i items ih =>
      rw [List.length_cons] at hfuel
      obtain ⟨fuel, rfl⟩ := Nat.exists_eq_succ_of_ne_zero (Nat.ne_of_gt (Nat.zero_lt_of_lt hfuel))
      have hin' : ∀ w, .word w ∈ items → InDict w := fun w hw => hin w (List.mem_cons_of_mem _ hw)
      have hfuel' : items.length < fuel := Nat.lt_of_succ_lt_succ hfuel
      have hspaced : spaced ((i :: items).map (Item.text s.mem)) =
          i.text s.mem ++ [chr ' '] ++ spaced (items.map (Item.text s.mem)) := rfl
      rw [hspaced, List.append_assoc, ← puts_puts]
      cases i with
      | lit v =>
          obtain ⟨hmarker, hvalue, hrest⟩ := hcells
          rw [offset_one] at hvalue
          rw [offset_offset] at hrest
          rw [seeFrom_lit hmarker, hvalue]
          exact ih hin' hfuel' hrest
      | word w =>
          obtain ⟨hcell, hrest⟩ := hcells
          rw [offset_one] at hrest
          rw [seeFrom_word hcell (hin w (List.mem_cons_self ..))]
          exact ih hin' hfuel' hrest

/-- **`SEE` of a colon word** ends, and prints its listing. -/
theorem wSee_run (hlex : nextWord 64 s.parsePtr = (name, p)) (hname : name ≠ [])
    (hfind : dictFind s name = some e) (he : e ≠ 0#64)
    (hcode : cellAt s.mem (dictGetCodeField s.mem e) = img.addr .doColon)
    (hin : ∀ w, .word w ∈ items → InDict w) (hlen : items.length < chainFuel)
    (hcells : CellsAt s.mem (dictGetParamField s.mem e) (straightCells img items)) :
    (wSee img).run s = some ((), (s.at p).puts (listing s.mem e items)) := by
  have hparse : (parseWord 64).run s = some (name, s.at p) := by
    have hword : (parseWord 64).run s =
        some ((nextWord 64 s.parsePtr).1, s.at (nextWord 64 s.parsePtr).2) := rfl
    rw [hword, hlex]
  have hfound : (find name).run (s.at p) = some (e, s.at p) := by
    have hlookup : (find name).run (s.at p) = (dictFind s name).map (·, s.at p) := rfl
    rw [hlookup, hfind, Option.map_some]
  have hvar : img.addr .doColon ≠ img.addr .doVariable := fun h => by cases img.addr_inj h
  have hconst : img.addr .doColon ≠ img.addr .doConstant := fun h => by cases img.addr_inj h
  have hloop := seeFrom_run (s := (s.at p).puts (text ": " ++ dictGetName s.mem e ++ text " "))
    hin hlen hcells
  rw [listing, ← puts_puts]
  refine Eq.trans ?_ hloop
  rw [wSee, StateT.run_bind, hparse, Option.bind_eq_bind, Option.bind_some, if_neg hname,
    StateT.run_bind, hfound, Option.bind_eq_bind, Option.bind_some, if_neg he]
  simp only [fetchCell, bind_assoc, pure_bind, StateT.run_bind, StateT.run_get,
    Option.pure_def, Option.bind_eq_bind, Option.bind_some]
  have hputs : ∀ t (x : Data), (puts t).run x = some ((), x.puts t) := fun _ _ => rfl
  have hcode' : cellAt ((s.at p).puts (text ": " ++ dictGetName s.mem e ++ text " ")).mem
      (dictGetCodeField s.mem e) = img.addr .doColon := hcode
  rw [show (s.at p).mem = s.mem from rfl, hputs, Option.bind_some, hcode', if_neg hvar,
    if_neg hconst, if_neg (not_not.mpr rfl)]

end Printing

/-! ## The printed text, read again -/

section Reading

variable {img : Image} {words : Words} {P : Set Nat} {d : Data} {b : Body} {m : Mem}
  {p q w : Text} {ws : List Text}

/-- A token up to the next white space is read as it stands. -/
theorem nextWord_unbroken {sp rest : Text} (hsp : ∀ c ∈ sp, isspace c = true) (hw : Unbroken w)
    (hlen : w.length ≤ 63) (hrest : ∀ c ∈ rest.head?, isspace c = true) :
    nextWord 64 (sp ++ (w ++ rest)) = (w, rest) := by
  have hblank : (w ++ rest).dropWhile isspace = w ++ rest := by
    cases w with
    | nil => exact absurd rfl hw.1
    | cons c w =>
        have hc := hw.2 c (List.mem_cons_self ..)
        rw [List.cons_append, List.dropWhile_cons_of_neg (by simp [hc])]
  have hstop : (rest.takeWhile fun c => !isspace c) = [] := by
    cases rest with
    | nil => rfl
    | cons c rest =>
        have hc := hrest c rfl
        rw [List.takeWhile_cons_of_neg (by simp [hc])]
  have hrun : ((w ++ rest).takeWhile fun c => !isspace c) = w := by
    rw [List.takeWhile_append_of_pos (by simpa using hw.2), hstop, List.append_nil]
  rw [nextWord, List.dropWhile_append_of_pos hsp, hblank, hrun, List.take_of_length_le hlen,
    List.drop_left]

theorem blank_space : ∀ c ∈ [chr ' '], isspace c = true := by decide

/-- A list of tokens, each followed by a blank, is read token by token. -/
theorem lexes_spaced (hws : ∀ w ∈ ws, Unbroken w ∧ w.length ≤ 63) :
    Lexes ([chr ' '] ++ (spaced ws ++ text ";\n")) (ws ++ [text ";"]) (text "\n") := by
  induction ws with
  | nil =>
      have hlex : nextWord 64 (text " ;\n") = (text ";", text "\n") := by decide +kernel
      exact .cons hlex (by decide) .nil
  | cons w ws ih =>
      obtain ⟨hw, hlen⟩ := hws w (List.mem_cons_self ..)
      have hblank : ∀ c ∈ ([chr ' '] ++ (spaced ws ++ text ";\n")).head?, isspace c = true := by
        rintro c ⟨⟩
        rfl
      have hnext := nextWord_unbroken blank_space hw hlen hblank
      have htext : spaced (w :: ws) ++ text ";\n" =
          w ++ ([chr ' '] ++ (spaced ws ++ text ";\n")) := by simp [spaced]
      rw [htext]
      exact .cons hnext hw.1 (ih fun w' hw' => hws w' (List.mem_cons_of_mem _ hw'))

theorem length_dictGetName (m : Mem) (e : Cell) : (dictGetName m e).length ≤ 31 := by
  have hmask : ∀ n : Byte, (n &&& fLenmask).toNat ≤ 31 := by decide
  rw [dictGetName, List.length_map, List.length_range]
  exact hmask _

theorem length_ltoa (v : Cell) : (ltoa v 10).length ≤ 63 := by
  have hdigits : ∀ n : Cell, (printed 10 n.toNat).length ≤ 20 := by
    intro n
    rw [printed, List.length_reverse, List.length_map, printedDigits]
    split
    · exact Nat.le_of_ble_eq_true rfl
    · have hlt : n.toNat < 10 ^ 20 := by omega
      exact (Nat.digits_length_le_iff (by decide) _).mpr hlt
  have hpos := hdigits v
  have hneg := hdigits (-v)
  rw [ltoa_eq (by decide) (by decide)]
  split
  · rw [List.length_cons]
    omega
  · omega

/-- The text of the item stands for the item: no word is called like the number,
and the word is found under its name, which is one token (`found_unbroken`), and
is not IMMEDIATE. -/
def Item.Legible (d : Data) : Item → Prop
  | .lit v => dictFind d (ltoa v 10) = some 0#64
  | .word w => w ≠ 0#64 ∧ dictFind d (dictGetName d.mem w) = some w ∧
      dictGetFlags d.mem w &&& fImmediate = 0#8 ∧ Unbroken (dictGetName d.mem w)

theorem Item.Legible.resolves {i : Item} (h : i.Legible d) (hbase : d.forthBase = 10) :
    Resolves words d (i.text d.mem) i.token := by
  cases i with
  | lit v =>
      have hne : ltoa v 10 ≠ [] := ltoa_ne_nil (by decide) (by decide) v
      have hnum : tryParseNumber 10 (ltoa v 10) = some v :=
        (tryParseNumber_iff (by decide) (ltoa_token (by decide) (by decide) v)).mpr
          ⟨[], _, _, rfl, .current, hne, signed_ltoa (by decide) (by decide) v⟩
      exact .lit h (by rwa [hbase])
  | word w =>
      obtain ⟨hne, hfind, hflag, -⟩ := h
      exact .word hfind hne hflag

theorem Item.Legible.unbroken {i : Item} (h : i.Legible d) :
    Unbroken (i.text d.mem) ∧ (i.text d.mem).length ≤ 63 := by
  cases i with
  | lit v =>
      have hne : ltoa v 10 ≠ [] := ltoa_ne_nil (by decide) (by decide) v
      exact ⟨⟨hne, ltoa_token (by decide) (by decide) v⟩, length_ltoa v⟩
  | word w =>
      obtain ⟨-, -, -, hname⟩ := h
      have hlen := length_dictGetName d.mem w
      exact ⟨hname, by rw [Item.text]; omega⟩

/-- Words that are found lie in the dictionary. -/
theorem Item.Legible.inDict {w : Cell} (h : (Item.word w).Legible d)
    (hd : AtPrompt img words P d) : InDict w := by
  obtain ⟨hne, hfind, -, -⟩ := h
  obtain ⟨n, hchain⟩ := hd.chain
  have hlow := hchain.base_le_found hfind hne
  have hle := hchain.found_le hfind hne
  have hhigh := hd.high
  exact ⟨hlow, by omega⟩

end Reading

/-! ## The word that is compiled -/

/-- `e` is a colon word called `name` whose parameter field holds the cells `cs`. -/
structure ColonAt (img : Image) (m : Mem) (e : Cell) (name : Text) (cs : List Cell) : Prop where
  code : cellAt m (dictGetCodeField m e) = img.addr .doColon
  name : dictGetName m e = name
  cells : CellsAt m (dictGetParamField m e) cs

section Compiling

variable {img : Image} {words : Words} {P : Set Nat} {d : Data} {b : Body} {e : Cell}
  {items : List Item} {p q name : Text}

/-- What `;` leaves is a visible colon word with the name that `:` has stored. -/
theorem Finished.colonAt {d₁ d₃ : Data} (h : Finished img b d₁ d₃ e)
    (hcreated : Created d d₁ e (img.addr .doColon) fHidden)
    (htop : d₁.dictHere.toNat < 2 ^ 64) :
    ColonAt img d₃.mem e (dictGetName d₁.mem e)
        (layout img b (dictGetParamField d₃.mem e) ++ [sentinelExit]) ∧
      dictGetFlagsLen d₃.mem e &&& fHidden = 0#8 := by
  obtain ⟨hfieldLow, hfieldHigh⟩ := hcreated.field
  have htop₁ := hcreated.top
  obtain ⟨hlen, hfield⟩ := h.fields
  have hheader : (e + 8#64).toNat = e.toNat + 8 := by
    rw [BitVec.toNat_add, BitVec.toNat_ofNat]
    omega
  have hnameAt : (e + 9#64).toNat = e.toNat + 9 := by
    rw [BitVec.toNat_add, BitVec.toNat_ofNat]
    omega
  have hparam : dictGetParamField d₃.mem e = d₁.dictHere := by
    rw [hcreated.here, dictGetParamField, dictGetParamField, hfield]
  refine ⟨⟨?_, ?_, ?_⟩, ?_⟩
  · have hcell : cellAt d₃.mem (dictGetCodeField d₁.mem e) =
        cellAt d₁.mem (dictGetCodeField d₁.mem e) := by
      rw [cellAt, cellAt, read64_congr]
      intro y hy hy'
      exact h.keep y (Or.inl (by omega)) (by omega)
    rw [hfield, hcell]
    exact hcreated.code
  · rw [dictGetName, dictGetName, hlen]
    apply List.map_congr_left
    intro i hi
    rw [List.mem_range] at hi
    exact h.keep _ (Or.inl (by omega)) (by omega)
  · rw [hparam]
    exact h.cells
  · have hmask : ∀ n : Byte, n &&& ~~~fHidden &&& fHidden = 0#8 := by decide
    rw [h.flags]
    exact hmask _

/-- A colon definition read at the prompt, with the name of the new word. The
dictionary may end in the middle of it. -/
theorem define_colonAt (m : Machine) (rs : List Cell) (ip : Cell) (F : List Frame)
    (hd : AtPrompt img words P d) (hdef : Defines words d b q)
    (hname : nextWord 64 (nextWord 64 d.parsePtr).2 = (name, p))
    (hroom : d.dictHere.toNat + 64 + 8 * (b.size + 3) < 2 ^ 64)
    (hstack : d.ds.length + b.holes ≤ dataStackSize) :
    ∃ d', Via (step img) (fun _ => True) (m.conf d rs ip (.eval :: F))
        (m.conf d' rs ip (.eval :: F)) ∧
      d'.parsePtr = q ∧ d'.output = d.output ∧ d'.forthState = .interpret ∧
      ColonAt img d'.mem d'.dictLatest (name.take 31)
        (layout img b (dictGetParamField d'.mem d'.dictLatest) ++ [sentinelExit]) ∧
      dictGetFlagsLen d'.mem d'.dictLatest &&& fHidden = 0#8 ∧
      dictVirtBase ≤ d'.dictLatest.toNat := by
  have halign := alignCell_toNat (a := d.dictHere) (by omega)
  have hlow := hd.low
  obtain ⟨p', p₂, d₁, d₂, hfirst, hbody, hlast, hd₁, hcreated, hemit, -, hlatest⟩ :=
    define_phases m rs ip F hd hdef hroom hstack
  obtain ⟨hfieldLow, hfieldHigh⟩ := hcreated.field
  have htop₁ := hcreated.top
  rw [hname] at hd₁
  dsimp only at hd₁
  have hstored : dictGetName d₁.mem (alignCell d.dictHere) = name.take 31 := by
    have hlen := length_nextWord hname
    rw [hd₁]
    exact dictCreate_stores (d := d.at p') (by rw [at_dictHere]; omega) (by omega)
  have hout : d₂.output = d.output := by
    obtain ⟨m', here, hsame⟩ := hcreated.same
    obtain ⟨m'', here', ds, hsame'⟩ := hemit.same
    subst hsame'
    rw [hsame]
    rfl
  have hemit' := hemit.sentinel hcreated.aligned_here (by omega)
  have hend := hcreated.finished (by omega) hemit' hlatest rfl
  obtain ⟨hcolon, hvisible⟩ := hend.colonAt hcreated (by omega)
  rw [hstored] at hcolon
  have hbase : dictVirtBase ≤ (alignCell d.dictHere).toNat := by omega
  rw [← hend.latest] at hcolon hvisible hbase
  exact ⟨(d₂.at q).semicolon, hfirst.trans (hbody.trans hlast), rfl, hout, rfl, hcolon, hvisible,
    hbase⟩

theorem Resolves.at {w : Text} {t : Token} (h : Resolves words d w t) (p : Text) :
    Resolves words (d.at p) w t := by
  cases h with
  | lit hfind hnum => exact .lit hfind hnum
  | word hfind he hflag => exact .word hfind he hflag
  | control hfind he hflag hword => exact .control hfind he hflag hword

/-- The printed text is a colon definition with the same body. -/
theorem listing_defines (hd : AtPrompt img words P d) (hbase : d.forthBase = 10)
    (hcolon : ∃ ec, dictFind d (text ":") = some ec ∧ words ec = some (.native .wColon))
    (hsemi : Resolves words d (text ";") (.control .wSemicolon))
    (hname : Unbroken (dictGetName d.mem e)) (hitems : ∀ i ∈ items, i.Legible d) :
    Defines words (d.at (listing d.mem e items)) (straight items) (text "\n") ∧
      ∃ p, nextWord 64 (nextWord 64 (listing d.mem e items)).2 = (dictGetName d.mem e, p) := by
  obtain ⟨ec, hfind, hword⟩ := hcolon
  have hne := (hd.known ec _ hword).inDict.ne_zero
  generalize hrest : [chr ' '] ++ (spaced (items.map (Item.text d.mem)) ++ text ";\n") = rest
  have hlisting : listing d.mem e items =
      [] ++ (text ":" ++ ([chr ' '] ++ (dictGetName d.mem e ++ rest))) := by
    have hsplit : text ": " = text ":" ++ [chr ' '] := by decide
    rw [listing, ← hrest, hsplit, show text " " = [chr ' '] from rfl]
    simp only [List.append_assoc, List.nil_append]
  have hblank : ∀ c ∈ rest.head?, isspace c = true := by
    rw [← hrest]
    rintro c ⟨⟩
    rfl
  have hfirst : nextWord 64 (listing d.mem e items) =
      (text ":", [chr ' '] ++ (dictGetName d.mem e ++ rest)) := by
    rw [hlisting]
    refine nextWord_unbroken (by simp) ⟨by decide, by decide⟩ (by decide) ?_
    rintro c ⟨⟩
    rfl
  have hlen := length_dictGetName d.mem e
  have hsecond := nextWord_unbroken blank_space hname (by omega) hblank
  have hlex : Lexes rest (items.map (Item.text d.mem) ++ [text ";"]) (text "\n") := by
    rw [← hrest]
    refine lexes_spaced fun w hw => ?_
    obtain ⟨i, hi, rfl⟩ := List.mem_map.mp hw
    exact (hitems i hi).unbroken
  have hres : List.Forall₂ (Resolves words (d.at (listing d.mem e items)))
      (items.map (Item.text d.mem)) (straight items).tokens := by
    rw [tokens_straight, List.forall₂_map_left_iff, List.forall₂_map_right_iff, List.forall₂_same]
    exact fun i hi => ((hitems i hi).resolves hbase).at _
  refine ⟨?_, rest, by rw [hfirst]; exact hsecond⟩
  exact .intro hfirst (by decide) hfind hne hword hsecond hname.1 hlex hres (hsemi.at _)

/-- **`SEE` is a left inverse of the colon compiler on straight-line code.** `SEE`
of a visible colon word ends at its sentinel cell, and evaluating the text that
it has printed compiles a word of the same name with the same cells, whatever
the room that is left. The words in the body are visible under their names and
not IMMEDIATE, no word is called like a number of the body, `:` and `;` are the
primitives. `SEE` may run in any state `s` with this dictionary, in any base. -/
theorem see_compiles_back (hd : AtPrompt img words P d) (hstack : d.ds.length ≤ dataStackSize)
    (hbase : d.forthBase = 10)
    (hcolon : ∃ ec, dictFind d (text ":") = some ec ∧ words ec = some (.native .wColon))
    (hsemi : Resolves words d (text ";") (.control .wSemicolon))
    (hword : words e = some (.colon (straight items))) (hname : Unbroken (dictGetName d.mem e))
    (hitems : ∀ i ∈ items, i.Legible d) {s : Data} (hmem : s.mem = d.mem)
    (hlatest : s.dictLatest = d.dictLatest) (hlex : nextWord 64 s.parsePtr = (name, p))
    (hgiven : name ≠ []) (hfind : dictFind d name = some e) :
    ColonAt img d.mem e (dictGetName d.mem e) (straightCells img items) ∧
    (wSee img).run s = some ((), (s.at p).puts (listing d.mem e items)) ∧
    ∀ (m : Machine) (rs : List Cell) (ip : Cell) (F : List Frame), ∃ d',
      Via (step img) (fun _ => True)
        (m.conf (d.at (listing d.mem e items)) rs ip (.eval :: F)) (m.conf d' rs ip F) ∧
      d'.output = d.output ++ (text " ok\n").map .putchar ∧
      ColonAt img d'.mem d'.dictLatest (dictGetName d.mem e) (straightCells img items) ∧
      dictFind d' (dictGetName d.mem e) = some d'.dictLatest := by
  have hentry := hd.known e _ hword
  obtain ⟨hlow, hhigh, -, hcells⟩ := hentry.body _ rfl
  have hsize := length_le_size items
  rw [layout_straight] at hcells
  have hold : ColonAt img d.mem e (dictGetName d.mem e) (straightCells img items) :=
    ⟨hentry.code, rfl, hcells⟩
  have hdictSize : dictSize = 8 * 131072 := rfl
  refine ⟨hold, ?_, ?_⟩
  · have hfound : dictFind s name = some e := by
      rw [dictFind, hmem, hlatest]
      exact hfind
    have hfuel : items.length < chainFuel := by
      unfold chainFuel
      omega
    have hrun := wSee_run hlex hgiven hfound hentry.inDict.ne_zero (by rw [hmem]; exact hold.code)
      (fun w hw => (hitems _ hw).inDict hd) hfuel (by rw [hmem]; exact hold.cells)
    rwa [hmem] at hrun
  · intro m rs ip F
    obtain ⟨hdefines, q, hheader⟩ := listing_defines hd hbase hcolon hsemi hname hitems
    have htop : dictVirtBase + 2 * dictSize + 1024 < 2 ^ 64 := by decide
    have hhere := hd.high
    obtain ⟨d₁, hvia, hparse, hout, hmode, hnew, hvisible, hnewLow⟩ :=
      define_colonAt m rs ip F (hd.at _) hdefines hheader (by rw [at_dictHere]; omega)
        (by rw [holes_straight]; exact hstack)
    have hlen := length_dictGetName d.mem e
    rw [List.take_of_length_le hlen, layout_straight] at hnew
    have hend : nextWord 64 d₁.parsePtr = ([], []) := by
      rw [hparse]
      decide +kernel
    refine ⟨(d₁.at []).puts (text " ok\n"), hvia.trans (Via.single trivial (step_eval_end hend hmode)),
      ?_, hnew, ?_⟩
    · exact congrArg (· ++ (text " ok\n").map Out.putchar) hout
    · refine dictFind_new rfl (ne_zero_of_base_le hnewLow) hvisible ?_
      have hnamed : dictGetName d₁.mem d₁.dictLatest = dictGetName d.mem e := hnew.name
      show ((dictGetName d₁.mem d₁.dictLatest).map toUpper == _) = true
      rw [hnamed]
      exact beq_self_eq_true _

end Compiling

/-! ## A literal that looks like the sentinel -/

def seeDup : Cell := 0xFFFF800010000030#64
def seeA : Cell := 0xFFFF800010000048#64

def seeItems : List Item := [.lit sentinelExit, .word seeDup]

/-- `:`, `;`, `DUP` and a colon word `A`, whose literal equals the sentinel cell. -/
def seeMem : Mem :=
  writeCells (fun _ => 0#8) entryColon.toNat
    [0#64, 0x3A01#64, linearImage.addr .wColon,
     entryColon, 0x3B81#64, linearImage.addr .wSemicolon,
     entrySemicolon, 0x50554403#64, linearImage.addr .wDup,
     seeDup, 0x4101#64, linearImage.addr .doColon,
     linearImage.addr .doLiteral, sentinelExit, seeDup, sentinelExit]

def seeData : Data :=
  { blankData with
    mem := seeMem
    dictHere := 0xFFFF800010000080#64
    dictLatest := seeA
    parsePtr := text " A" }

def seeWords : Words := fun e =>
  if e = entryColon then some (.native .wColon)
  else if e = entrySemicolon then some (.native .wSemicolon)
  else if e = seeDup then some (.native .wDup)
  else if e = seeA then some (.colon (straight seeItems))
  else none

theorem see_known : Known linearImage seeWords { x | x < 0xFFFF800010000080 } seeMem := by
  intro e k h
  unfold seeWords at h
  split_ifs at h <;> cases h <;> rename_i he <;> subst he
  · exact entryAt_native (by decide) (by decide) (by decide +kernel) (by decide +kernel)
  · exact entryAt_native (by decide) (by decide) (by decide +kernel) (by decide +kernel)
  · exact entryAt_native (by decide) (by decide) (by decide +kernel) (by decide +kernel)
  · have hcode : (dictGetCodeField seeMem seeA).toNat = 0xFFFF800010000058 := by decide +kernel
    have hparam : dictGetParamField seeMem seeA = 0xFFFF800010000060#64 := by decide +kernel
    refine ⟨by decide, by decide, ?_, by decide +kernel, ?_⟩
    · intro x _ hx
      rw [Set.mem_ofPred_eq]
      omega
    · rintro b ⟨⟩
      rw [hparam]
      refine ⟨by decide, by decide, ?_, ?_⟩
      · intro x _ hx
        exact hx
      · rw [layout_straight]
        refine ⟨?_, ?_, ?_, ?_, trivial⟩ <;> decide +kernel

theorem see_atPrompt : AtPrompt linearImage seeWords { x | x < 0xFFFF800010000080 } seeData := by
  have hlinks : cellAt seeMem seeA = seeDup ∧ cellAt seeMem seeDup = entrySemicolon ∧
      cellAt seeMem entrySemicolon = entryColon ∧ cellAt seeMem entryColon = 0#64 := by
    decide +kernel
  obtain ⟨hA, hdup, hsemi, hcolon⟩ := hlinks
  have hchain : Chain seeMem 0xFFFF800010000080 4 seeA := by
    refine .cons (by decide) (by decide +kernel) ?_
    rw [hA]
    refine .cons (by decide) (by decide +kernel) ?_
    rw [hdup]
    refine .cons (by decide) (by decide +kernel) ?_
    rw [hsemi]
    refine .cons (by decide) (by decide +kernel) ?_
    rw [hcolon]
    exact .nil
  exact ⟨rfl, see_known, fun _ hx => hx, ⟨4, hchain⟩, by decide, by decide⟩

/-- `SEE A` prints `: A -2401050966603333632 DUP ;`, and this compiles to the same cells. -/
theorem see_compiles_back_a : (wSee linearImage).run seeData =
      some ((), (seeData.at []).puts (text ": A -2401050966603333632 DUP ;\n")) ∧
    ∀ m : Machine, ∃ d', Via (step linearImage) (fun _ => True)
        (m.conf (seeData.at (text ": A -2401050966603333632 DUP ;\n")) [] 0#64 [.eval])
        (m.conf d' [] 0#64 []) ∧
      ColonAt linearImage d'.mem d'.dictLatest (text "A") (straightCells linearImage seeItems) := by
  have hcolon : ∃ ec, dictFind seeData (text ":") = some ec ∧
      seeWords ec = some (.native .wColon) := ⟨entryColon, by decide +kernel, rfl⟩
  have hsemi : Resolves seeWords seeData (text ";") (.control .wSemicolon) :=
    .control (e := entrySemicolon) (by decide +kernel) (by decide) (by decide +kernel) rfl
  have hword : seeWords seeA = some (.colon (straight seeItems)) := rfl
  have hnameA : dictGetName seeData.mem seeA = text "A" := by
    show dictGetName seeMem seeA = _
    decide +kernel
  have hnameDup : dictGetName seeData.mem seeDup = text "DUP" := by
    show dictGetName seeMem seeDup = _
    decide +kernel
  have hunbroken : Unbroken (dictGetName seeData.mem seeA) := by
    rw [hnameA]
    exact ⟨by decide, by decide⟩
  have hitems : ∀ i ∈ seeItems, i.Legible seeData := by
    intro i hi
    rcases List.mem_cons.mp hi with rfl | hi
    · show dictFind seeData (ltoa sentinelExit 10) = some 0#64
      decide +kernel
    · obtain rfl := List.mem_singleton.mp hi
      refine ⟨by decide, ?_, by decide +kernel, ?_⟩
      · rw [hnameDup]
        decide +kernel
      · rw [hnameDup]
        exact ⟨by decide, by decide⟩
  have hlex : nextWord 64 seeData.parsePtr = (text "A", []) := by decide +kernel
  have hfind : dictFind seeData (text "A") = some seeA := by decide +kernel
  have hlisting : listing seeData.mem seeA seeItems =
      text ": A -2401050966603333632 DUP ;\n" := by
    show listing seeMem seeA seeItems = _
    decide +kernel
  obtain ⟨-, hrun, hback⟩ := see_compiles_back see_atPrompt (by decide) rfl hcolon hsemi hword
    hunbroken hitems rfl rfl hlex (by decide) hfind
  rw [hlisting] at hrun
  refine ⟨hrun, fun m => ?_⟩
  obtain ⟨d', hvia, -, hnew, -⟩ := hback m [] 0#64 []
  rw [hlisting] at hvia
  rw [hnameA] at hnew
  exact ⟨d', hvia, hnew⟩

end VectorForth.Forth
