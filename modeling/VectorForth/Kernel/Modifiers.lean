import VectorForth.Kernel.Keyboard

/-!
# Modifiers and the keys that are held

The handler keeps one flag for both shift keys and tests Caps Lock in two places.
Beside it stands what the hands do: which keys are down and how often Caps Lock
has been pressed. The flag of the driver is the state of the hands until a shift
key is released while the other one is down, and the case of a letter is wrong
when shift and Caps Lock are both on.
-/

namespace VectorForth.Keyboard

open ByteMemory Forth

/-! ## Keys and their codes -/

/-- A key of scancode set 1: its code, and whether `E0` comes before it. No key
has the code `E0 3A`. -/
structure Key where
  code : BitVec 7
  extended : Bool
  known : extended = true → code ≠ 0x3A#7
  deriving DecidableEq

/-- A make or a break code, typematic repeats included. The code of Pause has no break. -/
inductive KeyEvent
  | make (k : Key)
  | release (k : Key)
  | pause
  deriving DecidableEq

def Key.before (k : Key) : List Byte := if k.extended then [0xE0#8] else []

/-- The bytes that the keyboard sends. -/
def KeyEvent.codes : KeyEvent → List Byte
  | .make k => k.before ++ [k.code.setWidth 8]
  | .release k => k.before ++ [k.code.setWidth 8 ||| 0x80#8]
  | .pause => [0xE1#8, 0x1D#8, 0x45#8, 0xE1#8, 0x9D#8, 0xC5#8]

def leftShift : Key := ⟨0x2A#7, false, by decide⟩
def rightShift : Key := ⟨0x36#7, false, by decide⟩
def leftCtrl : Key := ⟨0x1D#7, false, by decide⟩
def rightCtrl : Key := ⟨0x1D#7, true, by decide⟩
def leftAlt : Key := ⟨0x38#7, false, by decide⟩
def rightAlt : Key := ⟨0x38#7, true, by decide⟩
def capsLockKey : Key := ⟨0x3A#7, false, by decide⟩

/-- The three rows of letters. -/
def letterCodes : List (BitVec 7) :=
  (List.range 10).map (BitVec.ofNat 7 <| 0x10 + ·) ++ (List.range 9).map (BitVec.ofNat 7 <| 0x1E + ·) ++
    (List.range 7).map (BitVec.ofNat 7 <| 0x2C + ·)

def Key.IsLetter (k : Key) : Prop := k.extended = false ∧ k.code ∈ letterCodes

/-- The hands: the keys that are down, and the presses of Caps Lock. -/
structure Hands where
  down : Key → Bool
  capsToggled : Nat

def noHands : Hands where
  down := fun _ => false
  capsToggled := 0

def Hands.after (h : Hands) : KeyEvent → Hands
  | .make k =>
      { down := Function.update h.down k true
        capsToggled := if k = capsLockKey then h.capsToggled + 1 else h.capsToggled }
  | .release k => { h with down := Function.update h.down k false }
  | .pause => h

def Hands.shift (h : Hands) : Bool := h.down leftShift || h.down rightShift

def Hands.ctrl (h : Hands) : Bool := h.down leftCtrl || h.down rightCtrl

def Hands.alt (h : Hands) : Bool := h.down leftAlt || h.down rightAlt

def Hands.caps (h : Hands) : Bool := h.capsToggled % 2 = 1

/-! ## The driver on a key -/

/-- The handler on a sequence of codes: the flags, and what goes to `kbd_buffer_put`. -/
def decodeAll (codes : List Byte) (m : Modifiers) : Modifiers × List Byte :=
  codes.foldl (fun r scancode =>
    let (m, c) := decodeScancode scancode r.1
    (m, r.2 ++ c.toList)) (m, [])

/-- The hands and the flags of the driver. -/
structure Typing where
  hands : Hands
  modifiers : Modifiers

def Typing.after (t : Typing) (e : KeyEvent) : Typing where
  hands := t.hands.after e
  modifiers := (decodeAll e.codes t.modifiers).1

/-- The characters that the driver hands on. -/
def Typing.chars (t : Typing) (e : KeyEvent) : List Byte := (decodeAll e.codes t.modifiers).2

def startTyping : Typing := ⟨noHands, initialDriver.modifiers⟩

/-- What is promised of one code: the flag follows the shift keys, and a letter has
the case that shift and Caps Lock together ask for. -/
structure Follows (t : Typing) (e : KeyEvent) : Prop where
  shift : (t.after e).modifiers.shiftPressed = (t.after e).hands.shift
  letter : ∀ k, e = .make k → k.IsLetter → t.hands.ctrl = false → t.hands.alt = false →
    ((∃ c, t.chars e = [c] ∧ isUpper c = true) ↔ xor t.hands.shift t.hands.caps = true)

/-- Every code of the sequence is followed. -/
def FollowsAll : Typing → List KeyEvent → Prop
  | _, [] => True
  | t, e :: es => Follows t e ∧ FollowsAll (t.after e) es

def Key.IsShiftCode (k : Key) : Prop := k.code = 0x2A#7 ∨ k.code = 0x36#7

instance (k : Key) : Decidable k.IsShiftCode := inferInstanceAs (Decidable (_ ∨ _))

/-- A code that the driver gets right. The codes `E0 2A` and `E0 36`, which some keys
send around their own, count as shift keys for the driver. -/
structure Harmless (h : Hands) (e : KeyEvent) : Prop where
  /-- A shift code is released only when no shift key stays down. -/
  release : ∀ k, e = .release k → k.IsShiftCode → (h.after e).shift = false
  make : ∀ k, e = .make k → k.IsShiftCode → (h.after e).shift = true
  /-- No letter is pressed with shift down and Caps Lock on. -/
  letter : ∀ k, e = .make k → k.IsLetter → h.ctrl = false → h.alt = false →
    ¬ (h.shift = true ∧ h.caps = true)

def HarmlessAll : Hands → List KeyEvent → Prop
  | _, [] => True
  | h, e :: es => Harmless h e ∧ HarmlessAll (h.after e) es

/-! ## One code -/

section Codes

variable {t : Typing} {h : Hands} {m : Modifiers} {k : Key} {e : KeyEvent}

theorem decodeAll_before (k : Key) (codes : List Byte) (m : Modifiers) :
    decodeAll (k.before ++ codes) m = decodeAll codes m := by
  have hprefix : decodeScancode 0xE0#8 m = (m, none) := rfl
  unfold Key.before
  split
  · rw [decodeAll, List.singleton_append, List.foldl_cons, hprefix]
    rfl
  · rfl

theorem decodeScancode_make (code : BitVec 7) (m : Modifiers) :
    decodeScancode (code.setWidth 8) m = pressKey (code.setWidth 8) m := by
  have hlow : ∀ code : BitVec 7, code.setWidth 8 &&& 0x80#8 = 0#8 := by decide
  rw [decodeScancode, if_neg (not_not.mpr (hlow code))]

theorem decodeScancode_release (code : BitVec 7) (m : Modifiers) :
    decodeScancode (code.setWidth 8 ||| 0x80#8) m = (releaseKey (code.setWidth 8) m, none) := by
  have hhigh : ∀ code : BitVec 7, (code.setWidth 8 ||| 0x80#8) &&& 0x80#8 ≠ 0#8 ∧
      (code.setWidth 8 ||| 0x80#8) &&& 0x7F#8 = code.setWidth 8 := by decide
  rw [decodeScancode, if_pos (hhigh code).1, (hhigh code).2]

theorem decodeAll_make (k : Key) (m : Modifiers) :
    decodeAll (KeyEvent.make k).codes m =
      ((pressKey (k.code.setWidth 8) m).1, (pressKey (k.code.setWidth 8) m).2.toList) := by
  rw [KeyEvent.codes, decodeAll_before, decodeAll, List.foldl_cons, decodeScancode_make]
  rfl

theorem decodeAll_release (k : Key) (m : Modifiers) :
    decodeAll (KeyEvent.release k).codes m = (releaseKey (k.code.setWidth 8) m, []) := by
  rw [KeyEvent.codes, decodeAll_before, decodeAll, List.foldl_cons, decodeScancode_release]
  rfl

/-- The codes of the modifiers, in eight bits. -/
theorem setWidth_eq_iff (a b : BitVec 7) : a.setWidth 8 = b.setWidth 8 ↔ a = b := by
  have ha := a.isLt
  have hb := b.isLt
  constructor
  · intro heq
    have hnat := congrArg BitVec.toNat heq
    rw [BitVec.toNat_setWidth, BitVec.toNat_setWidth] at hnat
    exact BitVec.eq_of_toNat_eq (by omega)
  · exact fun heq => heq ▸ rfl

/-- The flags after a make code. -/
theorem pressKey_flags (code : BitVec 7) (m : Modifiers) :
    (pressKey (code.setWidth 8) m).1 =
      { shiftPressed := m.shiftPressed || decide (code = 0x2A#7 ∨ code = 0x36#7)
        ctrlPressed := m.ctrlPressed || decide (code = 0x1D#7)
        altPressed := m.altPressed || decide (code = 0x38#7)
        capsLock := xor m.capsLock (decide (code = 0x3A#7)) } := by
  have hleft : code.setWidth 8 = 0x2A#8 ↔ code = 0x2A#7 := setWidth_eq_iff code 0x2A#7
  have hright : code.setWidth 8 = 0x36#8 ↔ code = 0x36#7 := setWidth_eq_iff code 0x36#7
  have hctrl : code.setWidth 8 = 0x1D#8 ↔ code = 0x1D#7 := setWidth_eq_iff code 0x1D#7
  have halt : code.setWidth 8 = 0x38#8 ↔ code = 0x38#7 := setWidth_eq_iff code 0x38#7
  have hcaps : code.setWidth 8 = 0x3A#8 ↔ code = 0x3A#7 := setWidth_eq_iff code 0x3A#7
  rw [pressKey]
  simp only [hleft, hright, hctrl, halt, hcaps]
  split_ifs with h₁ h₂ h₃ h₄ h₅
  · rcases h₁ with rfl | rfl <;> simp
  · subst h₂
    simp
  · subst h₃
    simp
  · subst h₄
    simp
  · simp [h₁, h₂, h₃, h₄]
  · simp [h₁, h₂, h₃, h₄]
  · simp [h₁, h₂, h₃, h₄]

theorem releaseKey_flags (code : BitVec 7) (m : Modifiers) :
    releaseKey (code.setWidth 8) m =
      { shiftPressed := m.shiftPressed && !decide (code = 0x2A#7 ∨ code = 0x36#7)
        ctrlPressed := m.ctrlPressed && !decide (code = 0x1D#7)
        altPressed := m.altPressed && !decide (code = 0x38#7)
        capsLock := m.capsLock } := by
  have hleft : code.setWidth 8 = 0x2A#8 ↔ code = 0x2A#7 := setWidth_eq_iff code 0x2A#7
  have hright : code.setWidth 8 = 0x36#8 ↔ code = 0x36#7 := setWidth_eq_iff code 0x36#7
  have hctrl : code.setWidth 8 = 0x1D#8 ↔ code = 0x1D#7 := setWidth_eq_iff code 0x1D#7
  have halt : code.setWidth 8 = 0x38#8 ↔ code = 0x38#7 := setWidth_eq_iff code 0x38#7
  rw [releaseKey]
  simp only [hleft, hright, hctrl, halt]
  split_ifs with h₁ h₂ h₃
  · rcases h₁ with rfl | rfl <;> simp
  · subst h₂
    simp
  · subst h₃
    simp
  · simp [h₁, h₂, h₃]

/-- With Ctrl up, the case of a letter is upper if shift or Caps Lock is on. -/
theorem pressKey_letter {code : BitVec 7} (hcode : code ∈ letterCodes) (m : Modifiers)
    (hctrl : m.ctrlPressed = false) :
    ∃ c, (pressKey (code.setWidth 8) m).2 = some c ∧
      isUpper c = (m.shiftPressed || m.capsLock) := by
  have hall : ∀ code ∈ letterCodes, ∀ s a l : Bool,
      (pressKey (code.setWidth 8) ⟨s, false, a, l⟩).2.map isUpper = some (s || l) := by decide +kernel
  obtain ⟨s, c, a, l⟩ := m
  obtain rfl : c = false := hctrl
  exact Option.map_eq_some_iff.mp (hall code hcode s a l)

theorem decodeAll_pause (m : Modifiers) :
    decodeAll KeyEvent.pause.codes m = ({ m with ctrlPressed := false }, []) := by
  obtain ⟨s, c, a, l⟩ := m
  cases s <;> cases c <;> cases a <;> cases l <;> decide

end Codes

/-! ## Hands and flags -/

section Following

variable {t : Typing} {h : Hands} {k : Key} {e : KeyEvent} {es : List KeyEvent}

theorem Key.eq_iff {k k' : Key} : k = k' ↔ k.code = k'.code ∧ k.extended = k'.extended := by
  obtain ⟨code, extended, _⟩ := k
  obtain ⟨code', extended', _⟩ := k'
  simp

theorem make_shift (h : Hands) (k : Key) :
    (h.after (.make k)).shift = (h.shift || decide (k = leftShift ∨ k = rightShift)) := by
  simp only [Hands.shift, Hands.after, Function.update_apply, eq_comm (b := k)]
  by_cases hleft : k = leftShift <;> by_cases hright : k = rightShift <;> simp [hleft, hright]

theorem make_ctrl (h : Hands) (k : Key) :
    (h.after (.make k)).ctrl = (h.ctrl || decide (k = leftCtrl ∨ k = rightCtrl)) := by
  simp only [Hands.ctrl, Hands.after, Function.update_apply, eq_comm (b := k)]
  by_cases hleft : k = leftCtrl <;> by_cases hright : k = rightCtrl <;> simp [hleft, hright]

/-- A key that is no shift key changes nothing about them. -/
theorem release_shift (h : Hands) (hk : k ≠ leftShift ∧ k ≠ rightShift) :
    (h.after (.release k)).shift = h.shift := by
  simp only [Hands.shift, Hands.after]
  rw [Function.update_of_ne hk.1.symm, Function.update_of_ne hk.2.symm]

theorem release_ctrl (h : Hands) (hk : k ≠ leftCtrl ∧ k ≠ rightCtrl) :
    (h.after (.release k)).ctrl = h.ctrl := by
  simp only [Hands.ctrl, Hands.after]
  rw [Function.update_of_ne hk.1.symm, Function.update_of_ne hk.2.symm]

theorem ne_shift (hk : ¬ k.IsShiftCode) : k ≠ leftShift ∧ k ≠ rightShift := by
  constructor
  · rintro rfl
    exact hk (Or.inl rfl)
  · rintro rfl
    exact hk (Or.inr rfl)

/-- Both Ctrl keys have one code. -/
theorem ctrl_iff (k : Key) : k.code = 0x1D#7 ↔ k = leftCtrl ∨ k = rightCtrl := by
  rw [Key.eq_iff, Key.eq_iff]
  cases hk : k.extended <;> simp [leftCtrl, rightCtrl]

theorem caps_iff (k : Key) : k.code = 0x3A#7 ↔ k = capsLockKey := by
  rw [Key.eq_iff]
  constructor
  · intro hcode
    refine ⟨hcode, ?_⟩
    cases hk : k.extended with
    | false => rfl
    | true => exact absurd hcode (k.known hk)
  · exact fun hboth => hboth.1

/-- The flags that never go wrong. -/
structure Kept (t : Typing) : Prop where
  caps : t.modifiers.capsLock = t.hands.caps
  ctrl : t.hands.ctrl = false → t.modifiers.ctrlPressed = false

theorem Kept.after (ht : Kept t) (e : KeyEvent) : Kept (t.after e) := by
  cases e with
  | make k =>
      have hmods : (t.after (.make k)).modifiers = _ :=
        (congrArg Prod.fst (decodeAll_make k t.modifiers)).trans (pressKey_flags k.code t.modifiers)
      constructor
      case caps =>
        rw [hmods, ht.caps]
        show xor t.hands.caps (decide (k.code = 0x3A#7)) = (t.hands.after (.make k)).caps
        by_cases hk : k = capsLockKey
        · rw [decide_eq_true ((caps_iff k).mpr hk)]
          rcases Nat.mod_two_eq_zero_or_one t.hands.capsToggled with hmod | hmod
          · simp [Hands.after, Hands.caps, hk, hmod, Nat.add_mod]
          · simp [Hands.after, Hands.caps, hk, hmod, Nat.add_mod]
        · have hcode : ¬ k.code = 0x3A#7 := fun hcode => hk ((caps_iff k).mp hcode)
          simp [Hands.after, Hands.caps, hcode, hk]
      case ctrl =>
        intro hup
        have hup' : (t.hands.after (.make k)).ctrl = false := hup
        rw [make_ctrl, Bool.or_eq_false_iff, decide_eq_false_iff_not, ← ctrl_iff] at hup'
        rw [hmods]
        simp [ht.ctrl hup'.1, hup'.2]
  | release k =>
      have hmods : (t.after (.release k)).modifiers = _ :=
        (congrArg Prod.fst (decodeAll_release k t.modifiers)).trans
          (releaseKey_flags k.code t.modifiers)
      constructor
      case caps =>
        rw [hmods]
        exact ht.caps
      case ctrl =>
        intro hup
        rw [hmods]
        by_cases hcode : k.code = 0x1D#7
        · simp [hcode]
        · have hk : k ≠ leftCtrl ∧ k ≠ rightCtrl := by
            rw [ctrl_iff, not_or] at hcode
            exact hcode
          have hup' : t.hands.ctrl = false := (release_ctrl t.hands hk).symm.trans hup
          simp [ht.ctrl hup']
  | pause =>
      have hmods : (t.after .pause).modifiers = { t.modifiers with ctrlPressed := false } :=
        congrArg Prod.fst (decodeAll_pause t.modifiers)
      constructor
      case caps =>
        rw [hmods]
        exact ht.caps
      case ctrl =>
        intro _
        rw [hmods]

/-- The shift flag after one code, from a state where it is right. -/
theorem shift_follows_iff (hshift : t.modifiers.shiftPressed = t.hands.shift) (e : KeyEvent) :
    (t.after e).modifiers.shiftPressed = (t.after e).hands.shift ↔
      (∀ k, e = .release k → k.IsShiftCode → (t.hands.after e).shift = false) ∧
        ∀ k, e = .make k → k.IsShiftCode → (t.hands.after e).shift = true := by
  cases e with
  | make k =>
      have hmods : (t.after (.make k)).modifiers = _ :=
        (congrArg Prod.fst (decodeAll_make k t.modifiers)).trans (pressKey_flags k.code t.modifiers)
      have hflag : (t.after (.make k)).modifiers.shiftPressed =
          (t.hands.shift || decide k.IsShiftCode) := by
        rw [hmods, ← hshift]
        rfl
      rw [hflag]
      constructor
      · intro heq
        refine ⟨fun _ hrelease => KeyEvent.noConfusion hrelease, ?_⟩
        rintro _ ⟨⟩ hcode
        exact heq.symm.trans (by simp [hcode])
      · rintro ⟨-, hmake⟩
        by_cases hcode : k.IsShiftCode
        · simp only [hcode, decide_true, Bool.or_true]
          exact (hmake k rfl hcode).symm
        · have hk := ne_shift hcode
          show _ = (t.hands.after (.make k)).shift
          rw [make_shift]
          simp [hcode, hk.1, hk.2]
  | release k =>
      have hmods : (t.after (.release k)).modifiers = _ :=
        (congrArg Prod.fst (decodeAll_release k t.modifiers)).trans
          (releaseKey_flags k.code t.modifiers)
      have hflag : (t.after (.release k)).modifiers.shiftPressed =
          (t.hands.shift && !decide k.IsShiftCode) := by
        rw [hmods, ← hshift]
        rfl
      rw [hflag]
      constructor
      · intro heq
        refine ⟨?_, fun _ hmake => KeyEvent.noConfusion hmake⟩
        rintro _ ⟨⟩ hcode
        exact heq.symm.trans (by simp [hcode])
      · rintro ⟨hrelease, -⟩
        by_cases hcode : k.IsShiftCode
        · simp only [hcode, decide_true, Bool.not_true, Bool.and_false]
          exact (hrelease k rfl hcode).symm
        · show _ = (t.hands.after (.release k)).shift
          rw [release_shift t.hands (ne_shift hcode)]
          simp [hcode]
  | pause =>
      have hmods : (t.after .pause).modifiers = { t.modifiers with ctrlPressed := false } :=
        congrArg Prod.fst (decodeAll_pause t.modifiers)
      rw [hmods]
      exact iff_of_true hshift
        ⟨fun _ hrelease => KeyEvent.noConfusion hrelease, fun _ hmake => KeyEvent.noConfusion hmake⟩

/-- One letter. -/
theorem letter_follows_iff (ht : Kept t) (hshift : t.modifiers.shiftPressed = t.hands.shift)
    (hk : k.IsLetter) (hctrl : t.hands.ctrl = false) :
    ((∃ c, t.chars (.make k) = [c] ∧ isUpper c = true) ↔
        xor t.hands.shift t.hands.caps = true) ↔
      ¬ (t.hands.shift = true ∧ t.hands.caps = true) := by
  obtain ⟨c, hc, hupper⟩ := pressKey_letter hk.2 t.modifiers (ht.ctrl hctrl)
  have hchars : t.chars (.make k) = [c] := by
    rw [Typing.chars, decodeAll_make, hc]
    rfl
  have hcase : (∃ c, t.chars (.make k) = [c] ∧ isUpper c = true) ↔
      (t.hands.shift || t.hands.caps) = true := by
    rw [← hshift, ← ht.caps, ← hupper, hchars]
    constructor
    · rintro ⟨c', heq, hc'⟩
      obtain rfl := List.singleton_inj.mp heq
      exact hc'
    · exact fun hc' => ⟨c, rfl, hc'⟩
  rw [hcase]
  cases t.hands.shift <;> cases t.hands.caps <;> decide

theorem follows_iff (ht : Kept t) (hshift : t.modifiers.shiftPressed = t.hands.shift) :
    Follows t e ↔ Harmless t.hands e := by
  have hflag := shift_follows_iff hshift e
  constructor
  · intro hf
    obtain ⟨hrelease, hmake⟩ := hflag.mp hf.shift
    refine ⟨hrelease, hmake, fun k he hk hctrl halt => ?_⟩
    have hletter := hf.letter k he hk hctrl halt
    subst he
    exact (letter_follows_iff ht hshift hk hctrl).mp hletter
  · intro hh
    refine ⟨hflag.mpr ⟨hh.release, hh.make⟩, fun k he hk hctrl halt => ?_⟩
    have hletter := hh.letter k he hk hctrl halt
    subst he
    exact (letter_follows_iff ht hshift hk hctrl).mpr hletter

/-- By induction on the sequence; the flag is right wherever it has been followed. -/
theorem followsAll_iff (ht : Kept t) (hshift : t.modifiers.shiftPressed = t.hands.shift)
    (es : List KeyEvent) : FollowsAll t es ↔ HarmlessAll t.hands es := by
  induction es generalizing t with
  | nil => exact Iff.rfl
  | cons e es ih =>
      have hone : Follows t e ↔ Harmless t.hands e := follows_iff ht hshift
      constructor
      · rintro ⟨hf, hrest⟩
        exact ⟨hone.mp hf, (ih (ht.after e) hf.shift).mp hrest⟩
      · rintro ⟨hh, hrest⟩
        have hf := hone.mpr hh
        exact ⟨hf, (ih (ht.after e) hf.shift).mpr hrest⟩

/-- **The flags follow the keys exactly in the harmless sequences**: no shift key is
released while the other one is down, and no letter is pressed with shift down and
Caps Lock on. -/
theorem modifiers_follow_iff (es : List KeyEvent) :
    FollowsAll startTyping es ↔ HarmlessAll noHands es :=
  followsAll_iff ⟨rfl, fun _ => rfl⟩ rfl es

end Following

/-- Both shift keys, then one of them up. -/
def twoShifts : List KeyEvent := [.make leftShift, .make rightShift, .release leftShift]

/-- The flag is clear with a shift key down. -/
theorem twoShifts_lost : ¬ FollowsAll startTyping twoShifts := by
  rintro ⟨-, -, hlast, -⟩
  exact absurd hlast.shift (by decide)

end VectorForth.Keyboard
