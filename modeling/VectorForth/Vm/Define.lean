import VectorForth.Vm.Outer

/-!
# Colon definitions read from text

The outer interpreter on the text of a colon definition. `:` lays out a hidden
entry at `HERE` and turns compile state on; the tokens of the body compile its
cells above that entry; `;` ends the body and reveals the entry.
-/

namespace VectorForth.Forth

open ByteMemory LabelledRun

/-! ## The header of an entry -/

/-- The length byte of a name. -/
def nameLength (name : Text) : Byte :=
  if BitVec.ofNat 8 name.length > 31#8 then 31#8 else BitVec.ofNat 8 name.length

theorem nameLength_le (name : Text) : nameLength name ≤ 31#8 := by
  unfold nameLength
  split
  · exact BitVec.le_refl _
  · rename_i h
    exact BitVec.not_lt.mp h

theorem nameLength_masked (flags : Byte) (name : Text) :
    ((flags &&& flagsMask) ||| (nameLength name &&& fLenmask)) &&& fLenmask = nameLength name := by
  have hmask : ∀ n : Byte, n ≤ 31#8 → n &&& fLenmask = n := by decide
  have hclear : flagsMask &&& fLenmask = 0#8 := rfl
  rw [BitVec.and_or_distrib_right, BitVec.and_assoc, hclear, BitVec.and_zero, BitVec.zero_or,
    hmask _ (nameLength_le name), hmask _ (nameLength_le name)]

theorem hidden_flags (n : Byte) :
    ((fHidden &&& flagsMask) ||| (n &&& fLenmask)) &&& fHidden ≠ 0#8 := by
  revert n
  decide

/-- `d'` is `d` with a new latest entry `e`, whose code field holds `code` and
whose parameter field is empty. -/
structure Created (d d' : Data) (e code : Cell) (flags : Byte) : Prop where
  same : ∃ m here, d' = { d with mem := m, dictHere := here, dictLatest := e }
  here : d'.dictHere = dictGetParamField d'.mem e
  link : cellAt d'.mem e = d.dictLatest
  flags : ∃ n, dictGetFlagsLen d'.mem e = (flags &&& flagsMask) ||| (n &&& fLenmask)
  code : cellAt d'.mem (dictGetCodeField d'.mem e) = code
  field : e.toNat + 9 + (dictGetNameLen d'.mem e).toNat ≤ (dictGetCodeField d'.mem e).toNat ∧
    (dictGetCodeField d'.mem e).toNat ≤ e.toNat + 47
  top : d'.dictHere.toNat = (dictGetCodeField d'.mem e).toNat + 8
  aligned : Aligned (dictGetCodeField d'.mem e)
  frame : ∀ y, y < e.toNat → d'.mem y = d.mem y

theorem dictCreate_spec {d : Data} {name : Text} {flags : Byte} {code : Cell}
    (htop : d.dictHere.toNat + 64 < 2 ^ 64) :
    Created d ((d.dictCreate name flags).dictSetCode code) (alignCell d.dictHere) code flags := by
  have he : (alignCell d.dictHere).toNat ≤ d.dictHere.toNat + 7 := by
    rw [alignCell_toNat (by omega)]
    omega
  generalize hedef : alignCell d.dictHere = e at he ⊢
  have hlen : (nameLength name).toNat ≤ 31 := nameLength_le name
  have h8 : (e + 8#64).toNat = e.toNat + 8 := by
    rw [BitVec.toNat_add, BitVec.toNat_ofNat]
    omega
  have h9 : (e + 8#64 + 1#64).toNat = e.toNat + 9 := by
    rw [BitVec.toNat_add, h8, BitVec.toNat_ofNat]
    omega
  have hend : (e + 8#64 + 1#64 + (nameLength name).setWidth 64).toNat =
      e.toNat + 9 + (nameLength name).toNat := by
    rw [BitVec.toNat_add, h9, BitVec.toNat_setWidth]
    omega
  have hfield := alignCell_toNat (a := e + 8#64 + 1#64 + (nameLength name).setWidth 64) (by omega)
  rw [hend] at hfield
  generalize hcf : alignCell (e + 8#64 + 1#64 + (nameLength name).setWidth 64) = cf at hfield
  -- the four writes, one above the other
  generalize hm₁ : write64 d.mem e.toNat d.dictLatest.toNat = m₁
  generalize hm₂ : write8 m₁ (e + 8#64).toNat
    ((flags &&& flagsMask) ||| (nameLength name &&& fLenmask)) = m₂
  generalize hm₃ : store m₂ (e + 8#64 + 1#64).toNat (nameLength name).toNat
    (fun i => name.getD i 0#8) = m₃
  have hd' : (d.dictCreate name flags).dictSetCode code =
      { d with mem := write64 m₃ cf.toNat code.toNat, dictHere := cf + 8#64, dictLatest := e } := by
    subst hm₁ hm₂ hm₃ hcf hedef
    rfl
  rw [hd']
  have hflags : dictGetFlagsLen (write64 m₃ cf.toNat code.toNat) e =
      (flags &&& flagsMask) ||| (nameLength name &&& fLenmask) := by
    rw [dictGetFlagsLen, write64_outside (by omega), ← hm₃, store_outside (by omega), ← hm₂,
      write8_same]
  have hcode : dictGetCodeField (write64 m₃ cf.toNat code.toNat) e = cf := by
    have h9' : e + 9#64 = e + 8#64 + 1#64 := by rw [BitVec.add_assoc]; rfl
    rw [dictGetCodeField, dictGetNameLen, hflags, nameLength_masked, h9', hcf]
  have hbelow : ∀ y, y < (e + 8#64).toNat → write64 m₃ cf.toNat code.toNat y = m₁ y := by
    intro y hy
    rw [write64_outside (by omega), ← hm₃, store_outside (by omega), ← hm₂,
      write8_outside (by omega)]
  refine ⟨⟨_, _, rfl⟩, ?_, ?_, ⟨_, hflags⟩, ?_, ?_, ?_, ?_, ?_⟩
  · rw [dictGetParamField, hcode]
  · have hcell : cellAt (write64 m₃ cf.toNat code.toNat) e = cellAt m₁ e := by
      rw [cellAt, cellAt, read64_congr]
      intro y _ hy
      exact hbelow y (by omega)
    rw [hcell, ← hm₁, cellAt_write64_same]
  · rw [hcode, cellAt_write64_same]
  · rw [hcode, dictGetNameLen, hflags, nameLength_masked]
    omega
  · rw [hcode, BitVec.toNat_add, BitVec.toNat_ofNat]
    omega
  · rw [hcode, Aligned, hfield]
    omega
  · intro y hy
    refine (hbelow y (by omega)).trans ?_
    rw [← hm₁, write64_outside (by omega)]

/-! ## One more word -/

/-- The words after an entry `e` has been added. -/
def Words.extend (words : Words) (e : Cell) (k : Meaning) : Words :=
  fun e' => if e' = e then some k else words e'

section Extend

variable {img : Image} {words : Words} {P : Set Nat} {d : Data} {b : Body} {p : Text}

/-- A new entry above the old ones, linked to the latest of them. -/
theorem AtPrompt.extend {d' : Data} {e : Cell} {k : Meaning} (hd : AtPrompt img words P d)
    (hmode : d'.forthState = .interpret) (hlatest : d'.dictLatest = e)
    (hle : d.dictHere.toNat ≤ e.toNat) (hlink : cellAt d'.mem e = d.dictLatest)
    (hold : ∀ y, y < d.dictHere.toNat → d'.mem y = d.mem y)
    (hheader : e.toNat + 9 + (dictGetNameLen d'.mem e).toNat ≤ d'.dictHere.toNat)
    (hhigh : d'.dictHere.toNat ≤ dictVirtBase + dictSize)
    (hentry : EntryAt img (Set.Ico e.toNat d'.dictHere.toNat) d'.mem e k) :
    AtPrompt img (words.extend e k) (P ∪ Set.Ico e.toNat d'.dictHere.toNat) d' := by
  have hlow := hd.low
  refine ⟨hmode, ?_, ?_, ?_, by omega, hhigh⟩
  · intro e' k' hk
    unfold Words.extend at hk
    split at hk
    · cases hk
      subst e'
      exact hentry.mono Set.subset_union_right
    · have hentry' := (hd.known e' k' hk).congr fun y hy => hold y (hd.protect y hy)
      exact hentry'.mono Set.subset_union_left
  · intro y hy
    rcases hy with hy | ⟨_, hy⟩
    · have := hd.protect y hy
      omega
    · exact hy
  · obtain ⟨n, hchain⟩ := hd.chain
    rw [hlatest]
    refine ⟨n + 1, .cons (by omega) hheader ?_⟩
    rw [hlink]
    exact (hchain.congr hold).mono hle

end Extend

/-! ## `:` and `;` -/

section Definition

variable {img : Image} {words : Words} {P : Set Nat} {d : Data} {b : Body} {p q : Text}

theorem wColon_run {name : Text} (hlex : nextWord 64 d.parsePtr = (name, p)) (hname : name ≠ []) :
    (wColon img).run d = some ((),
      { ((d.at p).dictCreate name fHidden).dictSetCode (img.addr .doColon) with
        forthState := .compile }) := by
  have hparse : (parseWord 64).run d = some (name, d.at p) := by
    have hword : (parseWord 64).run d =
        some ((nextWord 64 d.parsePtr).1, d.at (nextWord 64 d.parsePtr).2) := rfl
    rw [hword, hlex]
  rw [wColon, StateT.run_bind, hparse, Option.bind_eq_bind, Option.bind_some, if_neg hname]
  rfl

theorem Created.aligned_here {d' : Data} {e code : Cell} {flags : Byte}
    (h : Created d d' e code flags) : Aligned d'.dictHere := by
  have htop' := h.top
  have haligned := h.aligned
  unfold Aligned at haligned ⊢
  omega

theorem wSemicolon_run (d : Data) : wSemicolon.run d = some ((),
    { (d.dictComma sentinelExit).setByte (d.dictLatest + 8#64)
        (dictGetFlagsLen (d.dictComma sentinelExit).mem d.dictLatest &&& ~~~fHidden) with
      forthState := .interpret }) := rfl

/-- The text at the parser is a colon definition with the body `b`, followed by
`q`. The words it uses are those of the dictionary. -/
inductive Defines (words : Words) (d : Data) (b : Body) (q : Text) : Prop
  | intro {colon name semi p p' : Text} {ws : List Text} {e : Cell}
      (hcolon : nextWord 64 d.parsePtr = (colon, p)) (hne : colon ≠ [])
      (hfind : dictFind d colon = some e) (he : e ≠ 0#64) (hword : words e = some (.native .wColon))
      (hname : nextWord 64 p = (name, p')) (hname' : name ≠ [])
      (hlex : Lexes p' (ws ++ [semi]) q) (hws : List.Forall₂ (Resolves words d) ws b.tokens)
      (hsemi : Resolves words d semi (.control .wSemicolon)) : Defines words d b q

theorem lexes_append {ws ws' : List Text} (h : Lexes p (ws ++ ws') q) :
    ∃ p', Lexes p ws p' ∧ Lexes p' ws' q := by
  induction ws generalizing p with
  | nil => exact ⟨p, .nil, h⟩
  | cons w ws ih =>
      cases h with
      | cons hnext hw hrest =>
          obtain ⟨p', hfirst, hsecond⟩ := ih hrest
          exact ⟨p', .cons hnext hw hfirst, hsecond⟩

/-- The header that `:` has made is that of a definition in progress. -/
theorem Created.compiling {d' : Data} {e code : Cell} (h : Created (d.at p) d' e code fHidden)
    (hle : d.dictHere.toNat ≤ e.toNat) : Compiling d e { d' with forthState := .compile } := by
  obtain ⟨n, hflags⟩ := h.flags
  have hlink := h.link
  have hframe := h.frame
  obtain ⟨m', here, rfl⟩ := h.same
  refine ⟨rfl, rfl, rfl, hlink, ?_, fun y hy => hframe y (by omega)⟩
  rw [hflags]
  exact hidden_flags n

/-- The entry of a finished definition. -/
theorem Created.entryAt {d₁ : Data} {e : Cell} {m : Mem}
    (h : Created d d₁ e (img.addr .doColon) fHidden) (hbase : dictVirtBase ≤ e.toNat)
    (htop : d₁.dictHere.toNat + 8 * (b.size + 1) ≤ dictVirtBase + dictSize)
    (hkeep : ∀ y, y < d₁.dictHere.toNat → y ≠ (e + 8#64).toNat → m y = d₁.mem y)
    (hfield : dictGetCodeField m e = dictGetCodeField d₁.mem e)
    (hcells : CellsAt m d₁.dictHere (layout img b d₁.dictHere ++ [sentinelExit])) :
    EntryAt img (Set.Ico e.toNat (d₁.dictHere.toNat + 8 * (b.size + 1))) m e (.colon b) := by
  have hdictTop := dictTop_lt
  obtain ⟨hlow, hhigh⟩ := h.field
  have htop₁ := h.top
  have hheader : (e + 8#64).toNat = e.toNat + 8 := by
    rw [BitVec.toNat_add, BitVec.toNat_ofNat]
    omega
  have hparam : dictGetParamField m e = d₁.dictHere := by
    rw [h.here, dictGetParamField, dictGetParamField, hfield]
  refine ⟨⟨hbase, by omega⟩, ?_, ?_, ?_, ?_⟩
  · rw [Set.mem_Ico]
    omega
  · rw [hfield]
    intro y hy hy'
    rw [Set.mem_Ico]
    omega
  · have hcell : cellAt m (dictGetCodeField d₁.mem e) = cellAt d₁.mem (dictGetCodeField d₁.mem e) := by
      rw [cellAt, cellAt, read64_congr]
      intro y hy hy'
      exact hkeep y (by omega) (by omega)
    rw [hfield, hcell]
    exact h.code
  · intro b' hb'
    cases hb'
    rw [hparam]
    refine ⟨by omega, htop, ?_, hcells⟩
    intro y hy hy'
    rw [Set.mem_Ico]
    omega

/-- The dictionary `d₃` after `;`: the cells of `b` and the sentinel follow the
header that `:` made in `d₁`, and the entry is revealed. -/
structure Finished (img : Image) (b : Body) (d₁ d₃ : Data) (e : Cell) : Prop where
  mode : d₃.forthState = .interpret
  latest : d₃.dictLatest = e
  here : d₃.dictHere = offset d₁.dictHere (b.size + 1)
  flags : dictGetFlagsLen d₃.mem e = dictGetFlagsLen d₁.mem e &&& ~~~fHidden
  keep : ∀ y, y < d₁.dictHere.toNat ∨ d₁.dictHere.toNat + 8 * (b.size + 1) ≤ y →
    y ≠ (e + 8#64).toNat → d₃.mem y = d₁.mem y
  cells : CellsAt d₃.mem d₁.dictHere (layout img b d₁.dictHere ++ [sentinelExit])

/-- `;`, from the cells compiled so far. -/
theorem Created.finished {d₁ d₂ d₃ : Data} {e : Cell}
    (h : Created d d₁ e (img.addr .doColon) fHidden)
    (htop : d₁.dictHere.toNat + 8 * (b.size + 1) < 2 ^ 64)
    (hemit : Emitted { d₁ with forthState := .compile } d₂ d₁.dictHere
      (layout img b d₁.dictHere ++ [sentinelExit])) (hlatest : d₂.dictLatest = e)
    (hd₃ : d₃ = { d₂.setByte (d₂.dictLatest + 8#64)
      (dictGetFlagsLen d₂.mem d₂.dictLatest &&& ~~~fHidden) with forthState := .interpret }) :
    Finished img b d₁ d₃ e := by
  obtain ⟨hfieldLow, hfieldHigh⟩ := h.field
  have htop₁ := h.top
  have hheader : (e + 8#64).toNat = e.toNat + 8 := by
    rw [BitVec.toNat_add, BitVec.toNat_ofNat]
    omega
  have hlen : (layout img b d₁.dictHere ++ [sentinelExit]).length = b.size + 1 := by
    rw [List.length_append, length_layout, List.length_singleton]
  -- memory around the body is that of the header, but for its flags
  have hframe := hemit.frame
  rw [hlen] at hframe
  have hflags₂ : dictGetFlagsLen d₂.mem e = dictGetFlagsLen d₁.mem e :=
    hframe _ (Or.inl (by omega))
  rw [hlatest] at hd₃
  subst hd₃
  constructor
  case mode => rfl
  case latest => exact hlatest
  case here =>
    show d₂.dictHere = _
    rw [hemit.here, hlen]
  case flags =>
    rw [← hflags₂]
    exact write8_same _ _ _
  case keep =>
    intro y hy hne
    exact (write8_outside hne).trans (hframe y hy)
  case cells =>
    refine hemit.cells.congr (P := { y | d₁.dictHere.toNat ≤ y }) ?_ (fun y hy _ => hy)
      (by rw [hlen]; omega)
    intro y hy
    rw [Set.mem_ofPred_eq] at hy
    exact write8_outside (by omega)

/-- The header keeps its name and its fields. -/
theorem Finished.fields {d₁ d₃ : Data} {e : Cell} (h : Finished img b d₁ d₃ e) :
    dictGetNameLen d₃.mem e = dictGetNameLen d₁.mem e ∧
      dictGetCodeField d₃.mem e = dictGetCodeField d₁.mem e := by
  have hmask : ~~~fHidden &&& fLenmask = fLenmask := rfl
  have hlen : dictGetNameLen d₃.mem e = dictGetNameLen d₁.mem e := by
    rw [dictGetNameLen, h.flags, BitVec.and_assoc, hmask, dictGetNameLen]
  exact ⟨hlen, by rw [dictGetCodeField, dictGetCodeField, hlen]⟩

/-- Memory below the entry is as before the definition. -/
theorem Finished.old {d₁ d₃ : Data} {e : Cell} (h : Finished img b d₁ d₃ e)
    (hcreated : Created d d₁ e (img.addr .doColon) fHidden) :
    ∀ y, y < e.toNat → d₃.mem y = d.mem y := by
  obtain ⟨hfieldLow, hfieldHigh⟩ := hcreated.field
  have htop₁ := hcreated.top
  intro y hy
  rw [h.keep y (Or.inl (by omega)) (by rw [BitVec.toNat_add, BitVec.toNat_ofNat]; omega)]
  exact hcreated.frame y hy

/-- The dictionary after `;` is one with one more word. -/
theorem finish_spec {d₁ d₃ : Data} {e : Cell} (hd : AtPrompt img words P d)
    (he : e.toNat = (d.dictHere.toNat + 7) / 8 * 8)
    (h : Created (d.at p) d₁ e (img.addr .doColon) fHidden)
    (htop : d₁.dictHere.toNat + 8 * (b.size + 1) ≤ dictVirtBase + dictSize)
    (hfin : Finished img b d₁ d₃ e) :
    AtPrompt img (words.extend e (.colon b)) (P ∪ Set.Ico e.toNat d₃.dictHere.toNat) d₃ := by
  have hdictTop := dictTop_lt
  have hlow := hd.low
  obtain ⟨hfieldLow, hfieldHigh⟩ := h.field
  have htop₁ := h.top
  have hend := congrArg BitVec.toNat hfin.here
  rw [offset_toNat (by omega)] at hend
  have hheader : (e + 8#64).toNat = e.toNat + 8 := by
    rw [BitVec.toNat_add, BitVec.toNat_ofNat]
    omega
  obtain ⟨hnameLen, hfield⟩ := hfin.fields
  have hentry := h.entryAt (by omega) htop (fun y hy => hfin.keep y (Or.inl hy)) hfield hfin.cells
  rw [← hend] at hentry
  have hlink : cellAt d₃.mem e = d.dictLatest := by
    have hsame : cellAt d₃.mem e = cellAt d₁.mem e := by
      rw [cellAt, cellAt, read64_congr]
      intro y _ hy
      exact hfin.keep y (Or.inl (by omega)) (by omega)
    rw [hsame]
    exact h.link
  exact hd.extend hfin.mode hfin.latest (by omega) hlink
    (fun y hy => hfin.old h y (by omega)) (by rw [hnameLen]; omega) (by omega) hentry

/-- The dictionary after `;`. -/
def Data.semicolon (d : Data) : Data :=
  { (d.dictComma sentinelExit).setByte (d.dictLatest + 8#64)
      (dictGetFlagsLen (d.dictComma sentinelExit).mem d.dictLatest &&& ~~~fHidden) with
    forthState := .interpret }

/-- **A colon definition is read in three phases**: `:` makes the header `d₁`, the
tokens of the body compile its layout and lead to `d₂`, and `;` ends it. -/
theorem define_phases (m : Machine) (rs : List Cell) (ip : Cell) (F : List Frame)
    (hd : AtPrompt img words P d) (hdef : Defines words d b q)
    (hroom : d.dictHere.toNat + 64 + 8 * (b.size + 3) < 2 ^ 64)
    (hstack : d.ds.length + b.holes ≤ dataStackSize) :
    ∃ p p₂ d₁ d₂,
      Via (step img) (fun _ => True) (m.conf d rs ip (.eval :: F))
        (m.conf { d₁ with forthState := .compile } rs ip (.eval :: F)) ∧
      Via (step img) (fun _ => True) (m.conf { d₁ with forthState := .compile } rs ip (.eval :: F))
        (m.conf (d₂.at p₂) rs ip (.eval :: F)) ∧
      Via (step img) (fun _ => True) (m.conf (d₂.at p₂) rs ip (.eval :: F))
        (m.conf (d₂.at q).semicolon rs ip (.eval :: F)) ∧
      d₁ = ((d.at p).dictCreate (nextWord 64 (nextWord 64 d.parsePtr).2).1 fHidden).dictSetCode
        (img.addr .doColon) ∧
      Created (d.at p) d₁ (alignCell d.dictHere) (img.addr .doColon) fHidden ∧
      Emitted { d₁ with forthState := .compile } d₂ d₁.dictHere (layout img b d₁.dictHere) ∧
      d₂.ds = d.ds ∧ d₂.dictLatest = alignCell d.dictHere := by
  have halign := alignCell_toNat (a := d.dictHere) (by omega)
  generalize hedef : alignCell d.dictHere = e at halign ⊢
  have hbase : dictVirtBase ≤ e.toNat := by
    have := hd.low
    omega
  have hne := ne_zero_of_base_le hbase
  obtain ⟨hcolon, hcolonNe, hfind, he, hword, hname, hnameNe, hlex, hws, hsemi⟩ := hdef
  rename_i colon name semi p p' ws eC
  -- `:` makes the header
  have hcreated : Created (d.at p') (((d.at p').dictCreate name fHidden).dictSetCode
      (img.addr .doColon)) e (img.addr .doColon) fHidden := by
    rw [← hedef]
    exact dictCreate_spec (d := d.at p') (by rw [at_dictHere]; omega)
  generalize hd₁ : ((d.at p').dictCreate name fHidden).dictSetCode (img.addr .doColon) = d₁
    at hcreated
  have hfirst : Via (step img) (fun _ => True) (m.conf d rs ip (.eval :: F))
      (m.conf { d₁ with forthState := .compile } rs ip (.eval :: F)) := by
    rw [← hd₁]
    exact step_eval_execute hcolon hcolonNe hfind he (Or.inl hd.mode) (hd.known _ _ hword).code rfl
      (wColon_run (d := d.at p) hname hnameNe)
  have hcompiling := hcreated.compiling (by omega)
  generalize hc : { d₁ with forthState := Mode.compile } = c at hfirst hcompiling
  have hsame : c.ds = d.ds ∧ c.dictHere = d₁.dictHere ∧ c.at p' = c := by
    obtain ⟨m', here, hsame⟩ := hcreated.same
    subst hc hsame
    exact ⟨rfl, rfl, rfl⟩
  obtain ⟨hds, hhere, hparse⟩ := hsame
  obtain ⟨hfieldLow, hfieldHigh⟩ := hcreated.field
  have htop₁ := hcreated.top
  -- the body
  obtain ⟨d₂, hcomp, hds₂⟩ := compile_body img b c d₁.dictHere
    ⟨hcreated.aligned_here, by omega, hhere, by rw [hds]; exact hstack⟩
  obtain ⟨p₂, hlex₁, hlex₂⟩ := lexes_append hlex
  have hbody : Via (step img) (fun _ => True) (m.conf (c.at p') rs ip (.eval :: F))
      (m.conf (d₂.at p₂) rs ip (.eval :: F)) :=
    eval_tokens hd hcompiling hne (a := d₁.dictHere) (by omega) (by omega) hcomp.run hlex₁ hws
      (fun f hf => b.tokens_compile hf)
  rw [hparse] at hbody
  have hkept := hcompiling.keep hcomp.emitted.keptBelow (by omega) (by omega)
  -- `;` ends it
  obtain ⟨hsemiLex, hsemiNe⟩ : nextWord 64 p₂ = (semi, q) ∧ semi ≠ [] := by
    cases hlex₂ with
    | cons hnext hw hrest =>
        cases hrest
        exact ⟨hnext, hw⟩
  have hlast : Via (step img) (fun _ => True) (m.conf (d₂.at p₂) rs ip (.eval :: F))
      (m.conf (d₂.at q).semicolon rs ip (.eval :: F)) :=
    eval_token hd ⟨hkept.mode, hkept.base, hkept.latest, hkept.link, hkept.hidden, hkept.mem⟩ hne
      hsemiLex hsemiNe hsemi (compileToken_control rfl (wSemicolon_run (d₂.at q)))
  have hemit := hcomp.emitted
  rw [← hc] at hfirst hbody hemit
  have hheader : (nextWord 64 (nextWord 64 d.parsePtr).2).1 = name := by rw [hcolon, hname]
  exact ⟨p', p₂, d₁, d₂, hfirst, hbody, hlast, by rw [hheader, hd₁], hcreated, hemit,
    hds₂.trans hds, hkept.latest⟩

/-- `;` adds the sentinel cell to those of the body. -/
theorem Emitted.sentinel {c d₂ : Data} {a : Cell} (ha : Aligned a)
    (htop : a.toNat + 8 * (b.size + 3) < 2 ^ 64) (h : Emitted c d₂ a (layout img b a)) :
    Emitted c (d₂.dictComma sentinelExit) a (layout img b a ++ [sentinelExit]) := by
  have hsize := length_layout img b a
  have hend : (offset a b.size).toNat = a.toNat + 8 * b.size := offset_toNat (by omega)
  have hcomma : Emitted d₂ (d₂.dictComma sentinelExit) (offset a (layout img b a).length)
      [sentinelExit] := by
    rw [hsize]
    exact emitted_comma (ha.offset (by omega)) (by omega) (by rw [h.here, hsize]) sentinelExit
  exact h.append (by rw [hsize, List.length_singleton]; omega) hcomma

/-- **A colon definition compiles to the layout of its body**, and leaves the
interpreter at the prompt with one more word. -/
theorem define_spec (m : Machine) (rs : List Cell) (ip : Cell) (F : List Frame)
    (hd : AtPrompt img words P d) (hdef : Defines words d b q)
    (hroom : d.dictHere.toNat + 64 + 8 * (b.size + 1) ≤ dictVirtBase + dictSize)
    (hstack : d.ds.length + b.holes ≤ dataStackSize) :
    ∃ d', Via (step img) (fun _ => True) (m.conf d rs ip (.eval :: F)) (m.conf d' rs ip (.eval :: F)) ∧
      d'.parsePtr = q ∧ d'.ds = d.ds ∧ d'.output = d.output ∧ d'.dictLatest = alignCell d.dictHere ∧
      AtPrompt img (words.extend (alignCell d.dictHere) (.colon b))
        (P ∪ Set.Ico (alignCell d.dictHere).toNat d'.dictHere.toNat) d' := by
  have hdictTop : dictVirtBase + dictSize + 1024 < 2 ^ 64 := by decide
  have halign := alignCell_toNat (a := d.dictHere) (by omega)
  obtain ⟨p, p₂, d₁, d₂, hfirst, hbody, hlast, -, hcreated, hemit, hds, hlatest⟩ :=
    define_phases m rs ip F hd hdef (by omega) hstack
  obtain ⟨hfieldLow, hfieldHigh⟩ := hcreated.field
  have htop₁ := hcreated.top
  have hemit' := hemit.sentinel hcreated.aligned_here (by omega)
  have hfinish := finish_spec hd halign hcreated (by omega)
    (hcreated.finished (by omega) hemit' hlatest rfl)
  refine ⟨_, hfirst.trans (hbody.trans hlast), rfl, hds, ?_, hlatest, ?_⟩
  · obtain ⟨m', here, hsame⟩ := hcreated.same
    obtain ⟨m'', here', ds, hsame'⟩ := hemit.same
    subst hsame hsame'
    rfl
  · exact ⟨hfinish.mode, hfinish.known, hfinish.protect, hfinish.chain, hfinish.low, hfinish.high⟩

end Definition

end VectorForth.Forth
