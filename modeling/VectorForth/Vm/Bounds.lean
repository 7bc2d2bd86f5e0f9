import Mathlib.Order.Interval.Set.Basic
import VectorForth.Vm.Startup

/-!
# Where the dictionary is written

`dict_create`, `dict_set_code`, `dict_comma` and `dict_c_comma` write from `HERE`
on and move it. None of them looks at the end of the region that `dict_init` maps:
what they write is inside as long as `HERE` is, and they never refuse.
-/

namespace VectorForth.Forth

open ByteMemory LabelledRun

/-! ## Calls -/

/-- A call of one of the four writers, `ALLOT`, or anything that leaves `HERE`
where it is. -/
inductive DictCall
  | create (name : Text) (flags : Byte)
  | setCode (code : Cell)
  | comma (v : Cell)
  | cComma (b : Byte)
  | allot (n : Cell)
  | other

def DictCall.writer : DictCall → Bool
  | .allot _ | .other => false
  | _ => true

/-- The bytes that a call writes. -/
def DictCall.writes (d : Data) : DictCall → Set Nat
  | .create name _ =>
      Set.Ico (alignCell d.dictHere).toNat
        ((alignCell d.dictHere).toNat + 9 + (nameLength name).toNat)
  | .setCode _ => Set.Ico d.dictHere.toNat (d.dictHere.toNat + 8)
  | .comma _ => Set.Ico (alignCell d.dictHere).toNat ((alignCell d.dictHere).toNat + 8)
  | .cComma _ => {d.dictHere.toNat}
  | .allot _ | .other => ∅

inductive WriterStep : Data → DictCall → Data → Prop
  | create {d : Data} {name : Text} {flags : Byte} :
      WriterStep d (.create name flags) (d.dictCreate name flags)
  | setCode {d : Data} {code : Cell} : WriterStep d (.setCode code) (d.dictSetCode code)
  | comma {d : Data} {v : Cell} : WriterStep d (.comma v) (d.dictComma v)
  | cComma {d : Data} {b : Byte} : WriterStep d (.cComma b) (d.dictCComma b)
  | allot {d : Data} {n : Cell} : WriterStep d (.allot n) { d with dictHere := d.dictHere + n }
  | other {d d' : Data} (hhere : d'.dictHere = d.dictHere) : WriterStep d .other d'

/-- The region that `dict_init` maps. -/
def dictRegion : Set Nat := Set.Ico dictVirtBase (dictVirtBase + dictSize)

/-- `HERE` is in the region or right at its end. -/
def HereInside (d : Data) : Prop :=
  dictVirtBase ≤ d.dictHere.toNat ∧ d.dictHere.toNat ≤ dictVirtBase + dictSize

/-- A call that leaves `HERE` inside, with the bytes that have been written so far. -/
def InsideStep (s : Data × Set Nat) (c : DictCall) (t : Data × Set Nat) : Prop :=
  WriterStep s.1 c t.1 ∧ HereInside t.1 ∧ t.2 = s.2 ∪ c.writes s.1

/-! ## No call is refused -/

section Calls

variable {d d' : Data} {c : DictCall}

/-- Alignment moves an address by less than 8. -/
theorem alignCell_eq_add (a : Cell) : ∃ k : Nat, k < 8 ∧ alignCell a = a + BitVec.ofNat 64 k := by
  have hsum := Masks.and_not_add_and (a + 7#64) 7#64
  have hseven : ((a + 7#64) &&& 7#64).toNat = (a + 7#64).toNat % 8 :=
    Masks.toNat_and_mask (k := 3) _ (by decide)
  refine ⟨7 - ((a + 7#64) &&& 7#64).toNat, by omega, ?_⟩
  have hback : BitVec.ofNat 64 (7 - ((a + 7#64) &&& 7#64).toNat) = 7#64 - ((a + 7#64) &&& 7#64) := by
    apply BitVec.eq_of_toNat_eq
    rw [BitVec.toNat_sub, BitVec.toNat_ofNat, BitVec.toNat_ofNat]
    omega
  rw [hback, alignCell]
  generalize (a + 7#64) &&& 7#64 = r at hsum
  generalize (a + 7#64) &&& ~~~7#64 = s at hsum ⊢
  apply BitVec.eq_of_toNat_eq
  have hnat := congrArg BitVec.toNat hsum
  rw [BitVec.toNat_add, BitVec.toNat_add, BitVec.toNat_ofNat] at hnat
  rw [BitVec.toNat_add, BitVec.toNat_sub, BitVec.toNat_ofNat]
  omega

theorem add_ofNat_ne {a : Cell} {n : Nat} (hpos : 0 < n) (hlt : n < 2 ^ 64) :
    a + BitVec.ofNat 64 n ≠ a := by
  intro h
  have hnat := congrArg BitVec.toNat h
  rw [BitVec.toNat_add, BitVec.toNat_ofNat] at hnat
  omega

/-- Every writer moves `HERE`, and `dict_create` moves `LATEST`, wherever they are. -/
theorem WriterStep.not_refused (h : WriterStep d c d') (hc : c.writer = true) :
    d'.dictHere ≠ d.dictHere ∧
      ∀ name flags, c = .create name flags → d'.dictLatest = alignCell d.dictHere := by
  obtain ⟨k, hk, halign⟩ := alignCell_eq_add d.dictHere
  cases h with
  | @create name flags =>
      refine ⟨?_, fun _ _ _ => rfl⟩
      have hhere : (d.dictCreate name flags).dictHere =
          alignCell (alignCell d.dictHere + 8#64 + 1#64 + (nameLength name).setWidth 64) := rfl
      obtain ⟨j, hj, halign'⟩ :=
        alignCell_eq_add (alignCell d.dictHere + 8#64 + 1#64 + (nameLength name).setWidth 64)
      have hlen : (nameLength name).toNat ≤ 31 := nameLength_le name
      have hwidth : (nameLength name).setWidth 64 = BitVec.ofNat 64 (nameLength name).toNat := by
        apply BitVec.eq_of_toNat_eq
        rw [BitVec.toNat_setWidth, BitVec.toNat_ofNat]
      rw [hhere, halign', halign, hwidth]
      have hadd : d.dictHere + BitVec.ofNat 64 k + 8#64 + 1#64 +
          BitVec.ofNat 64 (nameLength name).toNat + BitVec.ofNat 64 j =
          d.dictHere + BitVec.ofNat 64 (k + 8 + 1 + (nameLength name).toNat + j) := by
        simp only [BitVec.ofNat_add, BitVec.add_assoc]
      rw [hadd]
      exact add_ofNat_ne (by omega) (by omega)
  | setCode => exact ⟨add_ofNat_ne (n := 8) (by omega) (by omega), by rintro _ _ ⟨⟩⟩
  | @comma v =>
      refine ⟨?_, by rintro _ _ ⟨⟩⟩
      have hhere : (d.dictComma v).dictHere = alignCell d.dictHere + 8#64 := rfl
      have hadd : d.dictHere + BitVec.ofNat 64 k + 8#64 = d.dictHere + BitVec.ofNat 64 (k + 8) := by
        rw [BitVec.ofNat_add, BitVec.add_assoc]
      rw [hhere, halign, hadd]
      exact add_ofNat_ne (by omega) (by omega)
  | cComma => exact ⟨add_ofNat_ne (n := 1) (by omega) (by omega), by rintro _ _ ⟨⟩⟩
  | allot | other => cases hc

/-! ## What is written lies where `HERE` is -/

/-- A call writes nothing but its bytes. -/
theorem WriterStep.frame (h : WriterStep d c d') (hd : HereInside d) (hc : c.writer = true) {y : Nat}
    (hy : y ∉ c.writes d) : d'.mem y = d.mem y := by
  have hdictTop : dictVirtBase + dictSize + 1024 < 2 ^ 64 := by decide
  obtain ⟨hlow, hhigh⟩ := hd
  have halign := alignCell_toNat (a := d.dictHere) (by omega)
  cases h with
  | @create name flags =>
      rw [DictCall.writes, Set.mem_Ico, not_and_or, not_le, not_lt] at hy
      have h8 : (alignCell d.dictHere + 8#64).toNat = (alignCell d.dictHere).toNat + 8 := by
        rw [BitVec.toNat_add, BitVec.toNat_ofNat]
        omega
      have h9 : (alignCell d.dictHere + 8#64 + 1#64).toNat = (alignCell d.dictHere).toNat + 9 := by
        rw [BitVec.toNat_add, h8, BitVec.toNat_ofNat]
        omega
      have hmem : (d.dictCreate name flags).mem =
          store (write8 (write64 d.mem (alignCell d.dictHere).toNat d.dictLatest.toNat)
            (alignCell d.dictHere + 8#64).toNat
            ((flags &&& flagsMask) ||| (nameLength name &&& fLenmask)))
            (alignCell d.dictHere + 8#64 + 1#64).toNat (nameLength name).toNat
            (fun i => name.getD i 0#8) := rfl
      rw [hmem, store_outside (by omega), write8_outside (by omega), write64_outside (by omega)]
  | setCode =>
      rw [DictCall.writes, Set.mem_Ico, not_and_or, not_le, not_lt] at hy
      exact write64_outside hy
  | comma =>
      rw [DictCall.writes, Set.mem_Ico, not_and_or, not_le, not_lt] at hy
      exact write64_outside hy
  | cComma => exact write8_outside hy
  | allot | other => cases hc

/-- The bytes of a call lie between `HERE` before it and `HERE` after it. -/
theorem WriterStep.writes_between (h : WriterStep d c d') (hd : HereInside d) :
    c.writes d ⊆ Set.Ico d.dictHere.toNat d'.dictHere.toNat := by
  have hdictTop : dictVirtBase + dictSize + 1024 < 2 ^ 64 := by decide
  obtain ⟨hlow, hhigh⟩ := hd
  have halign := alignCell_toNat (a := d.dictHere) (by omega)
  cases h with
  | @create name flags =>
      have hlen : (nameLength name).toNat ≤ 31 := nameLength_le name
      have hend : (alignCell d.dictHere + 8#64 + 1#64 + (nameLength name).setWidth 64).toNat =
          (alignCell d.dictHere).toNat + 9 + (nameLength name).toNat := by
        simp only [BitVec.toNat_add, BitVec.toNat_ofNat, BitVec.toNat_setWidth]
        omega
      have hhere : (d.dictCreate name flags).dictHere =
          alignCell (alignCell d.dictHere + 8#64 + 1#64 + (nameLength name).setWidth 64) := rfl
      have hfield := alignCell_toNat
        (a := alignCell d.dictHere + 8#64 + 1#64 + (nameLength name).setWidth 64) (by omega)
      rw [← hhere, hend] at hfield
      rw [DictCall.writes, hfield]
      exact Set.Ico_subset_Ico (by omega) (by omega)
  | @setCode code =>
      have hhere : (d.dictSetCode code).dictHere.toNat = d.dictHere.toNat + 8 := by
        have hset : (d.dictSetCode code).dictHere = d.dictHere + 8#64 := rfl
        rw [hset, BitVec.toNat_add, BitVec.toNat_ofNat]
        omega
      rw [DictCall.writes, hhere]
  | @comma v =>
      have hhere : (d.dictComma v).dictHere.toNat = (alignCell d.dictHere).toNat + 8 := by
        have hset : (d.dictComma v).dictHere = alignCell d.dictHere + 8#64 := rfl
        rw [hset, BitVec.toNat_add, BitVec.toNat_ofNat]
        omega
      rw [DictCall.writes, hhere]
      exact Set.Ico_subset_Ico (by omega) (le_refl _)
  | @cComma b =>
      have hhere : (d.dictCComma b).dictHere.toNat = d.dictHere.toNat + 1 := by
        have hset : (d.dictCComma b).dictHere = d.dictHere + 1#64 := rfl
        rw [hset, BitVec.toNat_add, BitVec.toNat_ofNat]
        omega
      rw [DictCall.writes, hhere, Set.singleton_subset_iff, Set.mem_Ico]
      omega
  | allot | other => exact Set.empty_subset _

end Calls

/-! ## Runs -/

section Runs

variable {img : Image} {d : Data} {written : Set Nat} {calls : List DictCall}

theorem startup_inside (img : Image) : HereInside (startup img) := by
  obtain ⟨words, P, hprompt, -, -, -⟩ := startup_spec img
  exact ⟨hprompt.low, hprompt.high⟩

theorem InsideStep.keeps {s t : Data × Set Nat} {c : DictCall}
    (hs : HereInside s.1 ∧ s.2 ⊆ dictRegion) (h : InsideStep s c t) :
    HereInside t.1 ∧ t.2 ⊆ dictRegion := by
  obtain ⟨hcall, hinside, hwritten⟩ := h
  refine ⟨hinside, ?_⟩
  rw [hwritten]
  refine Set.union_subset hs.2 ?_
  exact (hcall.writes_between hs.1).trans (Set.Ico_subset_Ico hs.1.1 hinside.2)

/-- **The writers stay in the region as long as `HERE` does**, in every run from
`forth_init`. A call that does not fit is carried out all the same. -/
theorem dict_writes_inside (hrun : Run InsideStep (startup img, ∅) calls (d, written)) :
    written ⊆ dictRegion ∧ ∀ c d', WriterStep d c d' → c.writer = true →
      (d'.dictHere ≠ d.dictHere ∧
        ∀ name flags, c = .create name flags → d'.dictLatest = alignCell d.dictHere) ∧
      ∀ y, y ∉ c.writes d → d'.mem y = d.mem y := by
  obtain ⟨hinside, hwritten⟩ := hrun.invariant
    (I := fun s => HereInside s.1 ∧ s.2 ⊆ dictRegion) (fun _ _ _ hs hstep => hstep.keeps hs)
    ⟨startup_inside img, Set.empty_subset _⟩
  refine ⟨hwritten, ?_⟩
  intro c d' hcall hc
  exact ⟨hcall.not_refused hc, fun y hy => hcall.frame hinside hc hy⟩

theorem inside_comma (hlow : dictVirtBase ≤ d.dictHere.toNat)
    (hroom : d.dictHere.toNat + 16 ≤ dictVirtBase + dictSize) (v : Cell) :
    HereInside (d.dictComma v) := by
  have hdictTop : dictVirtBase + dictSize + 1024 < 2 ^ 64 := by decide
  have halign := alignCell_toNat (a := d.dictHere) (by omega)
  have hhere : (d.dictComma v).dictHere.toNat = (alignCell d.dictHere).toNat + 8 := by
    have hset : (d.dictComma v).dictHere = alignCell d.dictHere + 8#64 := rfl
    rw [hset, BitVec.toNat_add, BitVec.toNat_ofNat]
    omega
  exact ⟨by omega, by omega⟩

/-- One cell compiled after `forth_init`. -/
theorem dict_writes_inside_comma :
    (DictCall.comma 7#64).writes (startup linearImage) ⊆ dictRegion := by
  obtain ⟨words, P, hprompt, htop, -, -⟩ := startup_spec linearImage
  have hroom : dictVirtBase + 64 * 128 + 16 ≤ dictVirtBase + dictSize := by decide
  have hinside := inside_comma hprompt.low (le_trans (Nat.add_le_add_right htop 16) hroom) 7#64
  have hstep : InsideStep (startup linearImage, ∅) (.comma 7#64)
      ((startup linearImage).dictComma 7#64,
        ∅ ∪ (DictCall.comma 7#64).writes (startup linearImage)) := ⟨.comma, hinside, rfl⟩
  have hwritten := (dict_writes_inside (.cons hstep (.nil _))).1
  rwa [Set.empty_union] at hwritten

/-- `ALLOT` to the end of the region and one cell more: it is written beyond the
end, and `HERE` moves on. -/
theorem comma_beyond_end : ∃ n d, Run WriterStep (startup linearImage) [.allot n] d ∧
    WriterStep d (.comma 7#64) (d.dictComma 7#64) ∧
    (DictCall.comma 7#64).writes d = Set.Ico (dictVirtBase + dictSize) (dictVirtBase + dictSize + 8) ∧
    ¬ (DictCall.comma 7#64).writes d ⊆ dictRegion ∧ (d.dictComma 7#64).dictHere ≠ d.dictHere := by
  have hend : (BitVec.ofNat 64 (dictVirtBase + dictSize)).toNat = dictVirtBase + dictSize := by decide
  have halign : alignCell (BitVec.ofNat 64 (dictVirtBase + dictSize)) =
      BitVec.ofNat 64 (dictVirtBase + dictSize) := by decide
  refine ⟨BitVec.ofNat 64 (dictVirtBase + dictSize) - (startup linearImage).dictHere, _,
    .cons .allot (.nil _), .comma, ?_⟩
  generalize hd : ({ startup linearImage with dictHere := (startup linearImage).dictHere +
    (BitVec.ofNat 64 (dictVirtBase + dictSize) - (startup linearImage).dictHere) } : Data) = d
  have hhere : d.dictHere = BitVec.ofNat 64 (dictVirtBase + dictSize) := by
    rw [← hd]
    dsimp only
    rw [BitVec.add_comm, BitVec.sub_add_cancel]
  have hwrites : (DictCall.comma 7#64).writes d =
      Set.Ico (dictVirtBase + dictSize) (dictVirtBase + dictSize + 8) := by
    rw [DictCall.writes, hhere, halign, hend]
  refine ⟨hwrites, ?_, (WriterStep.comma.not_refused rfl).1⟩
  rw [hwrites]
  intro hsub
  obtain ⟨-, hlt⟩ := hsub (Set.mem_Ico.mpr ⟨le_refl _, Nat.lt_add_of_pos_right (by decide)⟩)
  exact lt_irrefl _ hlt

end Runs

end VectorForth.Forth
