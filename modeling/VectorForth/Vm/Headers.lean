import VectorForth.Vm.Startup

/-!
# Headers decode to what was encoded

`dict_create` lays a header out while it advances `HERE`; the accessors find the
fields again from the entry and its length bits. What they return does not depend
on the flag bits beside the length.
-/

namespace VectorForth.Forth

open ByteMemory

def dictGetLink (m : Mem) (entry : Cell) : Cell :=
  let link := cellAt m entry
  if link ≠ 0#64 then link else 0#64

theorem dictGetLink_eq (m : Mem) (entry : Cell) : dictGetLink m entry = cellAt m entry := by
  rw [dictGetLink]
  split
  · rfl
  · rename_i hnull
    exact (not_not.mp hnull).symm

/-! ## Flag bits -/

/-- The flags byte of an entry, changed by `f`. -/
def Data.changeFlags (d : Data) (entry : Cell) (f : Byte → Byte) : Data :=
  d.setByte (entry + 8#64) (f (dictGetFlagsLen d.mem entry))

/-- `^= flag`, `|= flag` and `&= ~flag`. -/
def toggles (flag : Byte) : List (Byte → Byte) := [(· ^^^ flag), (· ||| flag), (· &&& ~~~flag)]

theorem wImmediate_changeFlags (d : Data) : wImmediate.run d = some ((),
    if d.dictLatest ≠ 0#64 then d.changeFlags d.dictLatest (· ^^^ fImmediate) else d) := rfl

theorem wSemicolon_changeFlags (d : Data) : wSemicolon.run d = some ((),
    { (d.dictComma sentinelExit).changeFlags d.dictLatest (· &&& ~~~fHidden) with
      forthState := .interpret }) := rfl

theorem toggles_length {flag : Byte} {f : Byte → Byte} (hflag : flag &&& fLenmask = 0#8)
    (hf : f ∈ toggles flag) (b : Byte) : f b &&& fLenmask = b &&& fLenmask := by
  rw [toggles, List.mem_cons, List.mem_cons, List.mem_singleton] at hf
  rcases hf with rfl | rfl | rfl
  · show (b ^^^ flag) &&& fLenmask = _
    have hsplit : (b ^^^ flag) &&& fLenmask = (b &&& fLenmask) ^^^ (flag &&& fLenmask) := by
      ext i hi
      simp only [BitVec.getElem_and, BitVec.getElem_xor]
      cases b[i] <;> cases flag[i] <;> cases fLenmask[i] <;> rfl
    rw [hsplit, hflag, BitVec.xor_zero]
  · show (b ||| flag) &&& fLenmask = _
    rw [BitVec.and_or_distrib_right, hflag, BitVec.or_zero]
  · show b &&& ~~~flag &&& fLenmask = _
    have hkept : ∀ c : Byte, c &&& fLenmask = 0#8 → ~~~c &&& fLenmask = fLenmask := by decide
    rw [BitVec.and_assoc, hkept flag hflag]

/-! ## What the accessors return -/

/-- The entry `e` of `d'`, read back: it was made by `dict_create` and `dict_set_code`
in `d`. -/
structure Decodes (d d' : Data) (e : Cell) (name : Text) (flags : Byte) (code : Cell) : Prop where
  latest : d'.dictLatest = e
  link : dictGetLink d'.mem e = d.dictLatest
  flags : dictGetFlags d'.mem e = flags &&& flagsMask ∧
    (flags &&& fLenmask = 0#8 → dictGetFlags d'.mem e = flags)
  nameLen : (dictGetNameLen d'.mem e).toNat = name.length
  name : dictGetName d'.mem e = name
  code : cellAt d'.mem (dictGetCodeField d'.mem e) = code
  param : dictGetParamField d'.mem e = d'.dictHere
  below : ∀ y, y < d.dictHere.toNat → d'.mem y = d.mem y

/-- The entry has the same link, name and fields in both memories. -/
structure SameEntry (m m' : Mem) (e : Cell) : Prop where
  link : dictGetLink m' e = dictGetLink m e
  name : dictGetName m' e = dictGetName m e
  code : dictGetCodeField m' e = dictGetCodeField m e
  param : dictGetParamField m' e = dictGetParamField m e

section Headers

variable {d : Data} {name : Text} {flags code : Byte} {e : Cell} {f : Byte → Byte}

/-- A flags byte that keeps its length bits changes nothing else that is read. -/
theorem changeFlags_sameEntry (d : Data) (e : Cell) (hf : ∀ b, f b &&& fLenmask = b &&& fLenmask) :
    SameEntry d.mem (d.changeFlags e f).mem e := by
  have hlt := e.isLt
  have h8 : (e + 8#64).toNat = (e.toNat + 8) % 2 ^ 64 := BitVec.toNat_add ..
  have h9 : (e + 9#64).toNat = (e.toNat + 9) % 2 ^ 64 := BitVec.toNat_add ..
  have hbyte : dictGetFlagsLen (d.changeFlags e f).mem e = f (dictGetFlagsLen d.mem e) :=
    write8_same ..
  have hother : ∀ y, y ≠ (e + 8#64).toNat → (d.changeFlags e f).mem y = d.mem y :=
    fun y hy => write8_outside hy
  have hlen : dictGetNameLen (d.changeFlags e f).mem e = dictGetNameLen d.mem e := by
    rw [dictGetNameLen, hbyte, hf]
    rfl
  have hmax : ∀ b : Byte, (b &&& fLenmask).toNat ≤ 31 := by decide
  have hcode : dictGetCodeField (d.changeFlags e f).mem e = dictGetCodeField d.mem e := by
    rw [dictGetCodeField, hlen]
    rfl
  constructor
  case link =>
    rw [dictGetLink_eq, dictGetLink_eq, cellAt, cellAt, read64_congr]
    intro y hlow hhigh
    exact hother y (by omega)
  case name =>
    rw [dictGetName, dictGetName, hlen]
    apply List.map_congr_left
    intro i hi
    have hi31 := hmax (dictGetFlagsLen d.mem e)
    rw [List.mem_range, dictGetNameLen] at hi
    exact hother _ (by omega)
  case code => exact hcode
  case param => rw [dictGetParamField, hcode, dictGetParamField]

/-- The header that `dict_create` and `dict_set_code` write. -/
theorem dictCreate_decodes (flags : Byte) (code : Cell) (hname : name.length ≤ 31)
    (htop : d.dictHere.toNat + 64 < 2 ^ 64) :
    Decodes d ((d.dictCreate name flags).dictSetCode code) (alignCell d.dictHere) name flags
      code := by
  have hcreated : Created d ((d.dictCreate name flags).dictSetCode code) (alignCell d.dictHere)
      code flags := dictCreate_spec htop
  have hstored : dictGetName ((d.dictCreate name flags).dictSetCode code).mem
      (alignCell d.dictHere) = name := dictCreate_name htop hname
  have halign : (alignCell d.dictHere).toNat = (d.dictHere.toNat + 7) / 8 * 8 :=
    alignCell_toNat (by omega)
  generalize (d.dictCreate name flags).dictSetCode code = d' at hcreated hstored
  generalize alignCell d.dictHere = e at hcreated hstored halign
  obtain ⟨hfound, hflags⟩ := hcreated.flags_eq
  constructor
  case latest =>
    obtain ⟨m, here, hsame⟩ := hcreated.same
    rw [hsame]
  case link => rw [dictGetLink_eq, hcreated.link]
  case flags =>
    have hkept : ∀ b : Byte, b &&& fLenmask = 0#8 → b &&& flagsMask = b := by decide
    refine ⟨hflags, ?_⟩
    intro hclear
    rw [hflags, hkept flags hclear]
  case nameLen =>
    have hlength := congrArg List.length hstored
    rwa [dictGetName, List.length_map, List.length_range] at hlength
  case name => exact hstored
  case code => exact hcreated.code
  case param => exact hcreated.here.symm
  case below =>
    intro y hy
    exact hcreated.frame y (by omega)

/-- **Word headers decode to what was encoded.** -/
theorem header_decodes (flags : Byte) (code : Cell) (hname : name.length ≤ 31)
    (htop : d.dictHere.toNat + 64 < 2 ^ 64) :
    (∃ e, Decodes d ((d.dictCreate name flags).dictSetCode code) e name flags code) ∧
      ∀ later : Data, ∀ flag ∈ [fImmediate, fHidden], ∀ f ∈ toggles flag, ∀ e,
        SameEntry later.mem (later.changeFlags e f).mem e := by
  refine ⟨⟨_, dictCreate_decodes flags code hname htop⟩, ?_⟩
  rintro later flag hflag f hf e
  have hclear : ∀ b ∈ [fImmediate, fHidden], b &&& fLenmask = 0#8 := by decide
  exact changeFlags_sameEntry later e (toggles_length (hclear flag hflag) hf)

end Headers

/-- `DUP`, at the base of the dictionary. -/
theorem header_decodes_dup :
    (∃ e, Decodes blankData ((blankData.dictCreate (text "DUP") fImmediate).dictSetCode 0x1000#64) e
      (text "DUP") fImmediate 0x1000#64) ∧
      ∀ later : Data, ∀ flag ∈ [fImmediate, fHidden], ∀ f ∈ toggles flag, ∀ e,
        SameEntry later.mem (later.changeFlags e f).mem e :=
  header_decodes fImmediate 0x1000#64 (by decide) (by decide)

end VectorForth.Forth
