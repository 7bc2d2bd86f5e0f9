import Mathlib.Data.List.Induction
import VectorForth.Vm.Primitives

/-!
# Lookup in the start-up dictionary

A new entry is found under its name, and hides nothing else. So every primitive
is found under its own name in the dictionary of `forth_init`, and a line of
text can be evaluated there token by token.
-/

namespace VectorForth.Forth

open ByteMemory LabelledRun

/-! ## A new entry -/

theorem nameLength_toNat {name : Text} (hname : name.length < 256) :
    (nameLength name).toNat = min name.length 31 := by
  have hbyte : (BitVec.ofNat 8 name.length).toNat = name.length := by
    rw [BitVec.toNat_ofNat, Nat.mod_eq_of_lt (by omega)]
  unfold nameLength
  split <;> rename_i hcut
  · rw [gt_iff_lt, BitVec.lt_def, hbyte, BitVec.toNat_ofNat] at hcut
    rw [BitVec.toNat_ofNat]
    omega
  · rw [gt_iff_lt, BitVec.lt_def, hbyte, BitVec.toNat_ofNat] at hcut
    rw [hbyte]
    omega

/-- `dict_create` stores no more of a name than its first 31 characters. -/
theorem dictCreate_stores {d : Data} {name : Text} {flags : Byte} {code : Cell}
    (htop : d.dictHere.toNat + 64 < 2 ^ 64) (hname : name.length < 256) :
    dictGetName ((d.dictCreate name flags).dictSetCode code).mem (alignCell d.dictHere) =
      name.take 31 := by
  have he : (alignCell d.dictHere).toNat ≤ d.dictHere.toNat + 7 := by
    rw [alignCell_toNat (by omega)]
    omega
  generalize hedef : alignCell d.dictHere = e at he ⊢
  have hlen := nameLength_toNat hname
  have h8 : (e + 8#64).toNat = e.toNat + 8 := by
    rw [BitVec.toNat_add, BitVec.toNat_ofNat]
    omega
  have h9 : (e + 8#64 + 1#64).toNat = e.toNat + 9 := by
    rw [BitVec.toNat_add, h8, BitVec.toNat_ofNat]
    omega
  have h9' : (e + 9#64).toNat = e.toNat + 9 := by
    rw [BitVec.toNat_add, BitVec.toNat_ofNat]
    omega
  have hend : (e + 8#64 + 1#64 + (nameLength name).setWidth 64).toNat =
      e.toNat + 9 + (nameLength name).toNat := by
    rw [BitVec.toNat_add, h9, BitVec.toNat_setWidth]
    omega
  have hfield := alignCell_toNat (a := e + 8#64 + 1#64 + (nameLength name).setWidth 64) (by omega)
  rw [hend] at hfield
  generalize hcf : alignCell (e + 8#64 + 1#64 + (nameLength name).setWidth 64) = cf at hfield
  generalize hm : write8 (write64 d.mem e.toNat d.dictLatest.toNat) (e + 8#64).toNat
    ((flags &&& flagsMask) ||| (nameLength name &&& fLenmask)) = m
  have hmem : ((d.dictCreate name flags).dictSetCode code).mem =
      write64 (store m (e + 8#64 + 1#64).toNat (nameLength name).toNat fun i => name.getD i 0#8)
        cf.toNat code.toNat := by
    subst hm hcf hedef
    rfl
  rw [hmem]
  have hflags : dictGetNameLen (write64 (store m (e + 8#64 + 1#64).toNat (nameLength name).toNat
      fun i => name.getD i 0#8) cf.toNat code.toNat) e = nameLength name := by
    rw [dictGetNameLen, dictGetFlagsLen, write64_outside (by omega), store_outside (by omega), ← hm,
      write8_same, nameLength_masked]
  rw [dictGetName, hflags, hlen]
  apply List.ext_getElem
  · rw [List.length_map, List.length_range, List.length_take, Nat.min_comm]
  · intro i hi hi'
    rw [List.length_take] at hi'
    have hin : i < name.length := by omega
    rw [List.getElem_map, List.getElem_range, h9', write64_outside (by omega), h9]
    rw [store_inside (by omega), List.getD_eq_getElem?_getD, List.getElem?_eq_getElem hin,
      List.getElem_take]
    rfl

/-- The name that `dict_create` stores. -/
theorem dictCreate_name {d : Data} {name : Text} {flags : Byte} {code : Cell}
    (htop : d.dictHere.toNat + 64 < 2 ^ 64) (hname : name.length ≤ 31) :
    dictGetName ((d.dictCreate name flags).dictSetCode code).mem (alignCell d.dictHere) = name := by
  rw [dictCreate_stores htop (by omega), List.take_of_length_le hname]

section Lookup

variable {img : Image} {words : Words} {P : Set Nat} {d d' : Data} {e code : Cell} {flags : Byte}
  {name : Text}

/-- A walk over the entry `e` goes on with its link, in the old dictionary. -/
theorem dictFind_over {n : Nat} (hchain : Chain d.mem d.dictHere.toNat n d.dictLatest)
    (hhigh : d.dictHere.toNat ≤ dictVirtBase + dictSize) (hlatest : d'.dictLatest = e)
    (hne : e ≠ 0#64) (hlink : cellAt d'.mem e = d.dictLatest)
    (hmem : ∀ y, y < d.dictHere.toNat → d'.mem y = d.mem y)
    (hskip : ¬ (dictGetFlagsLen d'.mem e &&& fHidden = 0#8 ∧ nameMatches d'.mem e name = true)) :
    dictFind d' name = dictFind d name := by
  have hn := hchain.length_lt hhigh
  have hfuel : chainFuel = (chainFuel - 1) + 1 := by omega
  rw [dictFind, dictFind, hlatest, hfuel, dictFindFrom, if_neg hne, if_neg hskip, hlink]
  exact hchain.find_congr hmem name (by omega) (by omega)

/-- A visible entry is found under its name, in upper or lower case. -/
theorem dictFind_new (hlatest : d'.dictLatest = e) (hne : e ≠ 0#64)
    (hvisible : dictGetFlagsLen d'.mem e &&& fHidden = 0#8)
    (hmatch : nameMatches d'.mem e name = true) : dictFind d' name = some e := by
  have hfuel : chainFuel = dictSize / 8 + 1 := rfl
  rw [dictFind, hlatest, hfuel, dictFindFrom, if_neg hne, if_pos ⟨hvisible, hmatch⟩]

/-- `name` is found and stands for the native word `f`. -/
structure Finds (img : Image) (d : Data) (name : Text) (f : CFun) (flags : Byte) (e : Cell) :
    Prop where
  find : dictFind d name = some e
  low : dictVirtBase ≤ e.toNat
  header : e.toNat + 9 ≤ d.dictHere.toNat
  field : (dictGetCodeField d.mem e).toNat + 8 ≤ d.dictHere.toNat
  code : cellAt d.mem (dictGetCodeField d.mem e) = img.addr f
  flags : dictGetFlags d.mem e = flags &&& flagsMask

/-- It is found as before if the dictionary has only grown. -/
theorem Finds.keep {f : CFun} (h : Finds img d name f flags e)
    (hfind : dictFind d' name = dictFind d name) (hle : d.dictHere.toNat ≤ d'.dictHere.toNat)
    (hmem : ∀ y, y < d.dictHere.toNat → d'.mem y = d.mem y) : Finds img d' name f flags e := by
  have hheader : (e + 8#64).toNat < d.dictHere.toNat := by
    have hle := h.header
    rw [BitVec.toNat_add, BitVec.toNat_ofNat]
    omega
  have hflags : dictGetFlagsLen d'.mem e = dictGetFlagsLen d.mem e := hmem _ hheader
  have hfield : dictGetCodeField d'.mem e = dictGetCodeField d.mem e := by
    rw [dictGetCodeField, dictGetCodeField, dictGetNameLen, dictGetNameLen, hflags]
  have hcell := h.field
  refine ⟨hfind.trans h.find, h.low, le_trans h.header hle, ?_, ?_, ?_⟩
  · rw [hfield]
    exact le_trans hcell hle
  · rw [hfield, ← h.code, cellAt, cellAt, read64_congr]
    intro y _ hy
    exact hmem y (by omega)
  · rw [dictGetFlags, hflags]
    exact h.flags

/-- The text that is left plays no part in lookup. -/
theorem Finds.at {f : CFun} (h : Finds img d name f flags e) (p : Text) :
    Finds img (d.at p) name f flags e :=
  ⟨h.find, h.low, h.header, h.field, h.code, h.flags⟩

theorem AtPrompt.at (h : AtPrompt img words P d) (p : Text) : AtPrompt img words P (d.at p) :=
  ⟨h.mode, h.known, h.protect, h.chain, h.low, h.high⟩

end Lookup

/-! ## The primitives -/

/-- The primitive that is found under a name: the last one of that name. -/
def tableFind (ps : List Primitive) (name : Text) : Option Primitive :=
  ps.reverse.find? fun p => (text p.name).map toUpper == name.map toUpper

section Primitives

variable {img : Image} {words : Words} {P : Set Nat} {d : Data}

/-- What the table must be like: names fit the header, no primitive is hidden. -/
def Plain (p : Primitive) : Prop := (text p.name).length ≤ 31 ∧ p.flags &&& fHidden = 0#8

instance (p : Primitive) : Decidable (Plain p) := inferInstanceAs (Decidable (_ ∧ _))

/-- Flag bits are read back without the name length. -/
theorem flags_masked (flags n mask : Byte) (hmask : fLenmask &&& mask = 0#8) :
    ((flags &&& flagsMask) ||| (n &&& fLenmask)) &&& mask = flags &&& (flagsMask &&& mask) := by
  rw [BitVec.and_or_distrib_right, BitVec.and_assoc, BitVec.and_assoc, hmask, BitVec.and_zero,
    BitVec.or_zero]

theorem Created.flags_eq {d' : Data} {e code : Cell} {flags : Byte} (h : Created d d' e code flags) :
    dictGetFlagsLen d'.mem e &&& fHidden = flags &&& fHidden ∧
      dictGetFlags d'.mem e = flags &&& flagsMask := by
  obtain ⟨n, hn⟩ := h.flags
  rw [dictGetFlags, hn]
  exact ⟨flags_masked flags n fHidden rfl, flags_masked flags n flagsMask rfl⟩

/-- Looking up `name` after one more visible entry. -/
theorem Created.dictFind {d' : Data} {e code : Cell} {flags : Byte} {new : Text}
    (h : Created d d' e code flags) (hd : AtPrompt img words P d) (hle : d.dictHere.toNat ≤ e.toNat)
    (hvisible : flags &&& fHidden = 0#8) (hnew : dictGetName d'.mem e = new) (name : Text) :
    Forth.dictFind d' name =
      if new.map toUpper == name.map toUpper then some e else Forth.dictFind d name := by
  obtain ⟨n, hchain⟩ := hd.chain
  have hlatest : d'.dictLatest = e := by
    obtain ⟨m, here, hsame⟩ := h.same
    rw [hsame]
  have hlow := hd.low
  have hne := ne_zero_of_base_le (e := e) (by omega)
  have hmatches : nameMatches d'.mem e name = (new.map toUpper == name.map toUpper) := by
    rw [nameMatches, hnew]
  split
  · rename_i hmatch
    exact dictFind_new hlatest hne (h.flags_eq.1.trans hvisible) (hmatches.trans hmatch)
  · rename_i hmatch
    refine dictFind_over hchain hd.high hlatest hne h.link (fun y hy => h.frame y (by omega)) ?_
    rintro ⟨-, hfound⟩
    exact hmatch (hmatches.symm.trans hfound)

/-- What the start-up dictionary is like: each primitive of the table is found
under its name, other names mean what they meant before. -/
structure Table (img : Image) (ps : List Primitive) (d d' : Data) : Prop where
  found : ∀ name p, tableFind ps name = some p → ∃ e, Finds img d' name p.fn p.flags e
  other : ∀ name, tableFind ps name = none → Forth.dictFind d' name = Forth.dictFind d name
  top : d'.dictHere.toNat ≤ d.dictHere.toNat + 64 * ps.length

/-- **Every primitive is found under its name**, by induction on the table, from
its end. -/
theorem registerAll_table (ps : List Primitive) (hd : AtPrompt img words P d)
    (hplain : ∀ p ∈ ps, Plain p)
    (hroom : d.dictHere.toNat + 64 * ps.length ≤ dictVirtBase + dictSize) :
    ∃ words' P', AtPrompt img words' P' (registerAll img ps d) ∧
      Table img ps d (registerAll img ps d) := by
  induction ps using List.reverseRecOn with
  | nil =>
      refine ⟨words, P, hd, ?_, fun _ _ => rfl, by simp [registerAll]⟩
      rintro name p hfind
      cases hfind
  | append_singleton ps p ih =>
      rw [List.length_append, List.length_singleton] at hroom
      obtain ⟨words₁, P₁, hd₁, htable⟩ :=
        ih (fun q hq => hplain q (List.mem_append_left _ hq)) (by omega)
      obtain ⟨hlength, hflags⟩ := hplain p (by simp)
      have hall : registerAll img (ps ++ [p]) d =
          (registerAll img ps d).dictAddPrimitive img p.name p.fn p.flags := by
        rw [registerAll, List.foldl_append]
        rfl
      rw [hall]
      have htop₁ := htable.top
      generalize registerAll img ps d = d₁ at hd₁ htable htop₁ ⊢
      have hdictTop : dictVirtBase + dictSize + 1024 < 2 ^ 64 := by decide
      obtain ⟨d', hd', hprompt, htop⟩ := hd₁.addPrimitive p (by omega)
      rw [← hd']
      refine ⟨_, _, hprompt, ?_⟩
      have hcreated : Created d₁ d' (alignCell d₁.dictHere) (img.addr p.fn) p.flags := by
        rw [hd']
        exact dictCreate_spec (by omega)
      have hname : dictGetName d'.mem (alignCell d₁.dictHere) = text p.name := by
        rw [hd']
        exact dictCreate_name (by omega) hlength
      have halign := alignCell_toNat (a := d₁.dictHere) (by omega)
      have hlow := hd₁.low
      have hfind := hcreated.dictFind hd₁ (by omega) hflags hname
      obtain ⟨hfieldLow, hfieldHigh⟩ := hcreated.field
      have hfieldTop := hcreated.top
      have hreverse : ∀ name, tableFind (ps ++ [p]) name =
          if (text p.name).map toUpper == name.map toUpper then some p else tableFind ps name := by
        intro name
        rw [tableFind, List.reverse_append, List.reverse_singleton, List.singleton_append,
          List.find?_cons]
        split <;> rename_i hmatch <;> simp [hmatch, tableFind]
      refine ⟨?_, ?_, ?_⟩
      · rintro name q hq
        rw [hreverse] at hq
        split at hq
        · rename_i hmatch
          cases hq
          refine ⟨alignCell d₁.dictHere, ?_, by omega, by omega, by omega, hcreated.code,
            hcreated.flags_eq.2⟩
          rw [hfind, if_pos hmatch]
        · rename_i hmatch
          obtain ⟨e, he⟩ := htable.found name q hq
          refine ⟨e, he.keep ?_ (by omega) fun y hy => hcreated.frame y (by omega)⟩
          rw [hfind, if_neg hmatch]
      · rintro name hnone
        rw [hreverse] at hnone
        split at hnone
        · cases hnone
        · rename_i hmatch
          rw [hfind, if_neg hmatch]
          exact htable.other name hnone
      · rw [List.length_append, List.length_singleton]
        omega

/-- Registering primitives touches nothing but the dictionary. -/
theorem registerAll_same (ps : List Primitive) (d : Data) : ∃ m here latest,
    registerAll img ps d = { d with mem := m, dictHere := here, dictLatest := latest } := by
  induction ps generalizing d with
  | nil => exact ⟨_, _, _, rfl⟩
  | cons p ps ih =>
      obtain ⟨m, here, latest, hall⟩ := ih (d.dictAddPrimitive img p.name p.fn p.flags)
      exact ⟨m, here, latest, hall⟩

end Primitives

/-! ## Evaluating a line -/

/-- What `forth_init` leaves, of a machine that has stored nothing yet. -/
def startup (img : Image) : Data := registerPrimitives img blankData

/-- The machine that is about to evaluate a line at the first prompt. -/
def startupPrompt (img : Image) (line : Text) : Machine where
  vm := { data := (startup img).at line, rs := [], ip := 0#64 }
  frames := [.eval, .prompt, .repl]
  kbd := []
  inputBuffer := line

section Evaluation

variable {img : Image} {d d' : Data} {m : Machine} {rs : List Cell} {ip e : Cell} {F : List Frame}
  {w p : Text}

theorem startup_same (img : Image) : ∃ m here latest,
    startup img = { blankData with mem := m, dictHere := here, dictLatest := latest } := by
  unfold startup registerPrimitives
  exact registerAll_same primitives blankData

theorem startup_spec (img : Image) : ∃ words P, AtPrompt img words P (startup img) ∧
    (startup img).dictHere.toNat ≤ dictVirtBase + 64 * 128 ∧
    (∀ name p, tableFind primitives name = some p →
      ∃ e, Finds img (startup img) name p.fn p.flags e) ∧
    ∀ name, tableFind primitives name = none → dictFind (startup img) name = some 0#64 := by
  have hempty : AtPrompt img (fun _ => none) ∅ blankData := atPrompt_empty rfl rfl rfl
  have hplain : ∀ p ∈ primitives, Plain p := by decide
  have hlen : primitives.length ≤ 128 := by decide
  have hbase : blankData.dictHere.toNat = dictVirtBase := rfl
  have hstart : startup img = registerAll img primitives blankData := rfl
  have hmiss : ∀ name, dictFind blankData name = some 0#64 := fun _ => rfl
  rw [hstart]
  generalize primitives = ps at hplain hlen
  have hdict : dictVirtBase + 64 * 128 ≤ dictVirtBase + dictSize := by decide
  obtain ⟨words, P, hprompt, htable⟩ := registerAll_table ps hempty hplain (by omega)
  have htop := htable.top
  exact ⟨words, P, hprompt, by omega, htable.found, fun name hname =>
    (htable.other name hname).trans (hmiss name)⟩

/-- A number at the prompt goes to the data stack. -/
theorem step_eval_push (hlex : nextWord 64 d.parsePtr = (w, p)) (hw : w ≠ [])
    (hfind : dictFind d w = some 0#64) {v : Cell} (hnum : tryParseNumber d.forthBase w = some v)
    (hmode : d.forthState = .interpret) :
    step img (m.conf d rs ip (.eval :: F)) =
      some (m.conf ((d.at p).dsPush v) rs ip (.eval :: F)) := by
  have hfind' : dictFind { d with parsePtr := p } w = some 0#64 := hfind
  have hnot : d.forthState ≠ .compile := by
    rw [hmode]
    exact Mode.noConfusion
  simp only [step, forthEval, Machine.conf, hlex, hw, hfind', hnum, if_false, ne_eq,
    not_true_eq_false]
  rw [if_neg hnot]
  rfl

/-- The end of the line. -/
theorem step_eval_end (hlex : nextWord 64 d.parsePtr = ([], p)) (hmode : d.forthState = .interpret) :
    step img (m.conf d rs ip (.eval :: F)) = some (m.conf ((d.at p).puts (text " ok\n")) rs ip F) := by
  have hnot : d.forthState ≠ .compile := by
    rw [hmode]
    exact Mode.noConfusion
  simp only [step, forthEval, Machine.conf, hlex, if_true]
  rw [if_neg hnot]
  rfl

/-- A word that is found is executed at the prompt, and always if it is immediate. -/
theorem eval_finds {f : CFun} {flags : Byte} {g : NativeM Unit} (h : Finds img d w f flags e)
    (hlex : nextWord 64 d.parsePtr = (w, p)) (hw : w ≠ [])
    (hmode : d.forthState = .interpret ∨ flags = fImmediate) (hf : dataWord img f = some g)
    (hg : g.run (d.at p) = some ((), d')) :
    Via (step img) (fun _ => True) (m.conf d rs ip (.eval :: F)) (m.conf d' rs ip (.eval :: F)) := by
  refine step_eval_execute hlex hw h.find (ne_zero_of_base_le h.low) ?_ h.code hf hg
  rcases hmode with hmode | rfl
  · exact Or.inl hmode
  · refine Or.inr ?_
    rw [h.flags]
    decide

end Evaluation

end VectorForth.Forth
