import VectorForth.Vm.Machine

/-!
# Colon bodies and their cells

The structured syntax of a colon body, the cells it stands for, and what it
means for a word to be in memory. `layout` is the reference: it says where
every cell goes and where every branch leads, and knows nothing about the
words that compile it.
-/

namespace VectorForth.Forth

open ByteMemory

/-- A colon body. Every construct carries what follows it. -/
inductive Body
  | nil
  | lit (v : Cell) (rest : Body)
  | word (entry : Cell) (rest : Body)
  | ifThen (yes rest : Body)
  | ifElse (yes no rest : Body)
  | untilLoop (body rest : Body)
  | againLoop (body rest : Body)
  | whileLoop (test body rest : Body)
  | doLoop (body rest : Body)

/-- The number of cells. -/
def Body.size : Body → Nat
  | .nil => 0
  | .lit _ rest => 2 + rest.size
  | .word _ rest => 1 + rest.size
  | .ifThen yes rest => 2 + yes.size + rest.size
  | .ifElse yes no rest => 2 + yes.size + 2 + no.size + rest.size
  | .untilLoop body rest => body.size + 2 + rest.size
  | .againLoop body rest => body.size + 2 + rest.size
  | .whileLoop test body rest => test.size + 2 + body.size + 2 + rest.size
  | .doLoop body rest => 1 + body.size + 2 + rest.size

/-- The address `n` cells after `a`. -/
def offset (a : Cell) (n : Nat) : Cell := a + BitVec.ofNat 64 (8 * n)

section Layout

variable (img : Image)

/-- The cells of a body that starts at `a`. -/
def layout : Body → Cell → List Cell
  | .nil, _ => []
  | .lit v rest, a => img.addr .doLiteral :: v :: layout rest (offset a 2)
  | .word entry rest, a => entry :: layout rest (offset a 1)
  | .ifThen yes rest, a =>
      let after := offset a (2 + yes.size)
      img.addr .rt0branch :: after :: (layout yes (offset a 2) ++ layout rest after)
  | .ifElse yes no rest, a =>
      let other := offset a (2 + yes.size + 2)
      let after := offset a (2 + yes.size + 2 + no.size)
      img.addr .rt0branch :: other :: (layout yes (offset a 2) ++
        img.addr .rtBranch :: after :: (layout no other ++ layout rest after))
  | .untilLoop body rest, a =>
      layout body a ++ img.addr .rt0branch :: a :: layout rest (offset a (body.size + 2))
  | .againLoop body rest, a =>
      layout body a ++ img.addr .rtBranch :: a :: layout rest (offset a (body.size + 2))
  | .whileLoop test body rest, a =>
      let after := offset a (test.size + 2 + body.size + 2)
      layout test a ++ img.addr .rt0branch :: after ::
        (layout body (offset a (test.size + 2)) ++ img.addr .rtBranch :: a :: layout rest after)
  | .doLoop body rest, a =>
      img.addr .rtDo :: (layout body (offset a 1) ++
        img.addr .rtLoop :: offset a 1 :: layout rest (offset a (1 + body.size + 2)))

theorem length_layout (b : Body) (a : Cell) : (layout img b a).length = b.size := by
  induction b generalizing a <;> simp [layout, Body.size, *] <;> omega

end Layout

/-! ## Cells in memory -/

/-- The cells from `a` on. -/
def CellsAt (m : Mem) (a : Cell) : List Cell → Prop
  | [] => True
  | c :: cs => cellAt m a = c ∧ CellsAt m (offset a 1) cs

theorem offset_zero (a : Cell) : offset a 0 = a := by simp [offset]

theorem offset_offset (a : Cell) (i j : Nat) : offset (offset a i) j = offset a (i + j) := by
  rw [offset, offset, offset, Nat.mul_add, BitVec.ofNat_add, BitVec.add_assoc]

theorem offset_one (a : Cell) : offset a 1 = a + 8#64 := rfl

theorem offset_toNat {a : Cell} {n : Nat} (h : a.toNat + 8 * n < 2 ^ 64) :
    (offset a n).toNat = a.toNat + 8 * n := by
  rw [offset, BitVec.toNat_add, BitVec.toNat_ofNat]
  omega

theorem cellsAt_append {m : Mem} {a : Cell} {cs ds : List Cell} :
    CellsAt m a (cs ++ ds) ↔ CellsAt m a cs ∧ CellsAt m (offset a cs.length) ds := by
  induction cs generalizing a with
  | nil => simp [CellsAt, offset_zero]
  | cons c cs ih =>
      simp only [List.cons_append, CellsAt, ih, offset_offset, List.length_cons, and_assoc]
      rw [Nat.add_comm 1 cs.length]

/-- The cells `cs` stored from `a` on. -/
def writeCells (m : Mem) (a : Nat) : List Cell → Mem
  | [] => m
  | c :: cs => writeCells (write64 m a c.toNat) (a + 8) cs

/-- The `n` bytes from `a` on are in `P`. -/
def Within (P : Set Nat) (a n : Nat) : Prop := ∀ x, a ≤ x → x < a + n → x ∈ P

theorem Within.mono {P : Set Nat} {a n b k : Nat} (h : Within P a n) (hab : a ≤ b)
    (hkn : b + k ≤ a + n) : Within P b k :=
  fun x h₁ h₂ => h x (by omega) (by omega)

theorem cellAt_congr {P : Set Nat} {m m' : Mem} {a : Cell} (h : Set.EqOn m' m P)
    (ha : Within P a.toNat 8) : cellAt m' a = cellAt m a := by
  rw [cellAt, cellAt, read64_congr fun x h₁ h₂ => h (ha x h₁ h₂)]

theorem CellsAt.congr {P : Set Nat} {m m' : Mem} {a : Cell} {cs : List Cell}
    (h : Set.EqOn m' m P) (ha : Within P a.toNat (8 * cs.length))
    (htop : a.toNat + 8 * cs.length < 2 ^ 64) (hcs : CellsAt m a cs) : CellsAt m' a cs := by
  induction cs generalizing a with
  | nil => trivial
  | cons c cs ih =>
      rw [List.length_cons] at ha htop
      have hnext : (offset a 1).toNat = a.toNat + 8 := offset_toNat (by omega)
      refine ⟨?_, ih ?_ (by omega) hcs.2⟩
      · rw [cellAt_congr h (ha.mono (Nat.le_refl _) (by omega))]
        exact hcs.1
      · rw [hnext]
        exact ha.mono (by omega) (by omega)

/-! ## Words in memory -/

/-- What a word of the dictionary is. -/
inductive Meaning
  | native (f : CFun)
  | var
  | const
  | colon (body : Body)

def Meaning.code (img : Image) : Meaning → Cell
  | .native f => img.addr f
  | .var => img.addr .doVariable
  | .const => img.addr .doConstant
  | .colon _ => img.addr .doColon

/-- The words a piece of code may refer to. -/
abbrev Words : Type := Cell → Option Meaning

/-- The entry `e` is the word `k`, and the bytes that say so are in `P`: the
byte with the name length, the code field, and the cells of a colon body. -/
structure EntryAt (img : Image) (P : Set Nat) (m : Mem) (e : Cell) (k : Meaning) : Prop where
  inDict : InDict e
  header : (e + 8#64).toNat ∈ P
  codeField : Within P (dictGetCodeField m e).toNat 8
  code : cellAt m (dictGetCodeField m e) = k.code img
  body : ∀ b, k = .colon b →
    dictVirtBase ≤ (dictGetParamField m e).toNat ∧
    (dictGetParamField m e).toNat + 8 * (b.size + 1) ≤ dictVirtBase + dictSize ∧
    Within P (dictGetParamField m e).toNat (8 * (b.size + 1)) ∧
    CellsAt m (dictGetParamField m e) (layout img b (dictGetParamField m e) ++ [sentinelExit])

/-- The words are in memory, protected by `P`. -/
def Known (img : Image) (words : Words) (P : Set Nat) (m : Mem) : Prop :=
  ∀ e k, words e = some k → EntryAt img P m e k

theorem dictTop_lt : dictVirtBase + dictSize < 2 ^ 64 := by decide

theorem EntryAt.fields {img : Image} {P : Set Nat} {m m' : Mem} {e : Cell} {k : Meaning}
    (h : EntryAt img P m e k) (hm : Set.EqOn m' m P) :
    dictGetCodeField m' e = dictGetCodeField m e ∧
      dictGetParamField m' e = dictGetParamField m e := by
  have hlen : dictGetNameLen m' e = dictGetNameLen m e := by
    rw [dictGetNameLen, dictGetNameLen, dictGetFlagsLen, dictGetFlagsLen, hm h.header]
  have hfield : dictGetCodeField m' e = dictGetCodeField m e := by
    rw [dictGetCodeField, dictGetCodeField, hlen]
  exact ⟨hfield, by rw [dictGetParamField, dictGetParamField, hfield]⟩

theorem EntryAt.congr {img : Image} {P : Set Nat} {m m' : Mem} {e : Cell} {k : Meaning}
    (h : EntryAt img P m e k) (hm : Set.EqOn m' m P) : EntryAt img P m' e k := by
  obtain ⟨hfield, hparam⟩ := h.fields hm
  refine ⟨h.inDict, h.header, ?_, ?_, ?_⟩
  · rw [hfield]
    exact h.codeField
  · rw [hfield, cellAt_congr hm h.codeField]
    exact h.code
  · intro b hb
    obtain ⟨hlow, hhigh, hin, hcells⟩ := h.body b hb
    have htop := dictTop_lt
    rw [hparam]
    have hlen : (layout img b (dictGetParamField m e) ++ [sentinelExit]).length = b.size + 1 := by
      rw [List.length_append, length_layout]
      rfl
    exact ⟨hlow, hhigh, hin, hcells.congr hm (by rwa [hlen]) (by rw [hlen]; omega)⟩

theorem EntryAt.mono {img : Image} {P P' : Set Nat} {m : Mem} {e : Cell} {k : Meaning}
    (h : EntryAt img P m e k) (hP : P ⊆ P') : EntryAt img P' m e k := by
  refine ⟨h.inDict, hP h.header, fun x h₁ h₂ => hP (h.codeField x h₁ h₂), h.code, ?_⟩
  intro b hb
  obtain ⟨hlow, hhigh, hin, hcells⟩ := h.body b hb
  exact ⟨hlow, hhigh, fun x h₁ h₂ => hP (hin x h₁ h₂), hcells⟩

/-- Stores outside `P` leave the words alone. -/
theorem Known.congr {img : Image} {words : Words} {P : Set Nat} {m m' : Mem}
    (h : Known img words P m) (hm : Set.EqOn m' m P) : Known img words P m' :=
  fun e k he => (h e k he).congr hm

end VectorForth.Forth
