import VectorForth.Lib.Overlap

/-!
# `memmove` and `strncpy`

Two loops of `string.c` on memory. `memmove` chooses the direction that never
overwrites a byte it has still to read. `strncpy` stores the terminator it stops
at without counting it, and so pads one byte too far.
-/

namespace VectorForth.Strings

open ByteMemory

/-! ## memmove -/

/-- How the bytes of a memory are read and written: a driver may keep more than the
bytes. -/
structure Access (σ : Type*) where
  load : σ → Nat → Byte
  store : σ → Nat → Byte → σ

/-- A memory that is its bytes. -/
def bytes : Access Mem := ⟨fun m a => m a, write8⟩

section Moves

variable {σ : Type*} (io : Access σ)

/-- `while (n--) *d++ = *s++`. -/
def moveUp : Nat → Nat → Nat → σ → σ
  | 0, _, _, v => v
  | n + 1, d, s, v => moveUp n (d + 1) (s + 1) (io.store v d (io.load v s))

/-- `while (n--) *--d = *--s`. -/
def moveDown : Nat → Nat → Nat → σ → σ
  | 0, _, _, v => v
  | n + 1, d, s, v => moveDown n (d - 1) (s - 1) (io.store v (d - 1) (io.load v (s - 1)))

/-- `memmove`: the pointer it returns and the memory. -/
def memmoveOn (v : σ) (dest src n : Nat) : Nat × σ :=
  (dest, if dest < src then moveUp io n dest src v else moveDown io n (dest + n) (src + n) v)

end Moves

def memmove (m : Mem) (dest src n : Nat) : Nat × Mem := memmoveOn bytes m dest src n

theorem moveUp_bytes (n d s : Nat) (m : Mem) : moveUp bytes n d s m = copy m d s n := by
  induction n generalizing d s m with
  | zero => rfl
  | succ n ih => rw [moveUp, ih, copy]; rfl

theorem moveDown_bytes (n d s : Nat) (m : Mem) : moveDown bytes n d s m = copyDown m d s n := by
  induction n generalizing d s m with
  | zero => rfl
  | succ n ih => rw [moveDown, ih, copyDown]; rfl

theorem memmove_eq_store (m : Mem) (dest src n : Nat) :
    memmove m dest src n = (dest, store m dest n fun i => m (src + i)) := by
  rw [memmove, memmoveOn]
  split
  · rename_i hlt
    rw [moveUp_bytes, copy_below hlt.le]
  · rename_i hge
    rw [moveDown_bytes, copyDown_eq_store (Nat.le_of_not_lt hge)]

/-- **`memmove` is a simultaneous copy.** -/
theorem memmove_simultaneous (m : Mem) (dest src n : Nat) :
    (∀ i < n, (memmove m dest src n).2 (dest + i) = m (src + i)) ∧
      ∀ x, x < dest ∨ dest + n ≤ x → (memmove m dest src n).2 x = m x := by
  rw [memmove_eq_store]
  constructor
  · intro i hi
    show store m dest n (fun i => m (src + i)) (dest + i) = _
    rw [store_inside hi]
  · intro x hx
    show store m dest n (fun i => m (src + i)) x = _
    rw [store_outside hx]

/-! ## strncpy -/

/-- `while (n && (*d++ = *src++)) n--`: the values of `d` and `n` behind it, and the
memory. -/
def copyString (m : Mem) (d src : Nat) : Nat → Nat × Nat × Mem
  | 0 => (d, 0, m)
  | n + 1 =>
      let c := m src
      let m := write8 m d c
      if c = 0#8 then (d + 1, n + 1, m) else copyString m (d + 1) (src + 1) n

/-- `strncpy`: the pointer it returns and the memory. The second loop is
`while (n--) *d++ = '\0'`. -/
def strncpy (m : Mem) (dest src n : Nat) : Nat × Mem :=
  let (d, n, m) := copyString m dest src n
  (dest, fill m d 0#8 n)

/-- The string at `src` has `len` characters before its terminator. -/
structure StringAt (m : Mem) (src len : Nat) : Prop where
  char : ∀ i < len, m (src + i) ≠ 0#8
  nul : m (src + len) = 0#8

/-- The first `n` bytes at `dest` are those of the string at `src`, padded with NULs,
and the bytes behind them are the old ones. -/
structure WritesExactly (m : Mem) (dest src len n : Nat) (m' : Mem) : Prop where
  copied : ∀ i < n, m' (dest + i) = if i < len then m (src + i) else 0#8
  behind : ∀ x, dest + n ≤ x → m' x = m x

section Strncpy

variable {m : Mem} {dest src len n k : Nat}

/-- The first loop runs out of `n` when it meets no NUL. -/
theorem copyString_all (h : ∀ i < n, copy m dest src n (dest + i) ≠ 0#8) :
    copyString m dest src n = (dest + n, 0, copy m dest src n) := by
  induction n generalizing m dest src with
  | zero => rfl
  | succ n ih =>
      have hfirst : copy m dest src (n + 1) (dest + 0) = m src := by
        rw [Nat.add_zero dest, copy, copy_outside (by omega), write8_same]
      have hne : m src ≠ 0#8 := hfirst ▸ h 0 (by omega)
      have hrest : ∀ i < n, copy (write8 m dest (m src)) (dest + 1) (src + 1) n (dest + 1 + i) ≠
          0#8 := by
        intro i hi
        have hnext := h (i + 1) (by omega)
        rwa [copy, show dest + (i + 1) = dest + 1 + i by omega] at hnext
      rw [copyString, if_neg hne, ih hrest, copy, Nat.add_right_comm, Nat.add_assoc]

/-- It stops behind the first NUL that it copies, and does not count it. -/
theorem copyString_nul (hk : k < n) (h : ∀ i < k, copy m dest src (k + 1) (dest + i) ≠ 0#8)
    (hnul : copy m dest src (k + 1) (dest + k) = 0#8) :
    copyString m dest src n = (dest + k + 1, n - k, copy m dest src (k + 1)) := by
  induction k generalizing m dest src n with
  | zero =>
      obtain ⟨n, rfl⟩ := Nat.exists_eq_add_of_lt hk
      have hzero : m src = 0#8 := by
        rwa [copy, copy, Nat.add_zero, write8_same] at hnul
      rw [Nat.zero_add, copyString, if_pos hzero]
      rfl
  | succ k ih =>
      obtain ⟨n, rfl⟩ := Nat.exists_eq_add_of_lt (Nat.zero_lt_of_lt hk)
      have hfirst : copy m dest src (k + 1 + 1) (dest + 0) = m src := by
        rw [Nat.add_zero dest, copy, copy_outside (by omega), write8_same]
      have hne : m src ≠ 0#8 := hfirst ▸ h 0 (by omega)
      have hshift : ∀ i, copy m dest src (k + 1 + 1) (dest + (i + 1)) =
          copy (write8 m dest (m src)) (dest + 1) (src + 1) (k + 1) (dest + 1 + i) := by
        intro i
        rw [copy, show dest + (i + 1) = dest + 1 + i by omega]
      have hnext : copyString (write8 m dest (m src)) (dest + 1) (src + 1) n =
          (dest + 1 + k + 1, n - k,
            copy (write8 m dest (m src)) (dest + 1) (src + 1) (k + 1)) :=
        ih (by omega) (fun i hi => hshift i ▸ h (i + 1) (by omega)) (hshift k ▸ hnul)
      rw [Nat.zero_add, copyString, if_neg hne, hnext,
        show dest + 1 + k + 1 = dest + (k + 1) + 1 by omega, show n + 1 - (k + 1) = n - k by omega]
      rfl

/-- All of the `n` bytes are copied. -/
theorem strncpy_all (h : ∀ i < n, copy m dest src n (dest + i) ≠ 0#8) :
    (strncpy m dest src n).2 = copy m dest src n := by
  rw [strncpy, copyString_all h]
  rfl

/-- The string fits: the padding goes on to `dest[n]`. -/
theorem strncpy_short (hs : StringAt m src len) (hlen : len < n)
    (hapart : dest ≤ src ∨ src + len < dest) :
    (strncpy m dest src n).2 =
      store m dest (n + 1) fun i => if i < len then m (src + i) else 0#8 := by
  have hcopy : copy m dest src (len + 1) = store m dest (len + 1) fun i => m (src + i) :=
    copy_eq_store (by omega)
  have hloop : copyString m dest src n =
      (dest + len + 1, n - len, copy m dest src (len + 1)) := by
    apply copyString_nul hlen
    · intro i hi
      rw [hcopy, store_inside (by omega)]
      exact hs.char i hi
    · rw [hcopy, store_inside (by omega)]
      exact hs.nul
  rw [strncpy, hloop]
  dsimp only
  rw [hcopy]
  funext x
  rw [fill_apply]
  have hcopied : ∀ i < len + 1,
      store m dest (len + 1) (fun i => m (src + i)) (dest + i) = m (src + i) :=
    fun i hi => store_inside hi
  by_cases hin : dest ≤ x ∧ x < dest + (n + 1)
  · obtain ⟨i, rfl⟩ := Nat.exists_eq_add_of_le hin.1
    have hpadded : store m dest (n + 1) (fun i => if i < len then m (src + i) else 0#8) (dest + i) =
        if i < len then m (src + i) else 0#8 := store_inside (by omega)
    rw [hpadded]
    by_cases hi : i < len
    · rw [if_neg (by omega), if_pos hi, hcopied i (by omega)]
    · rw [if_neg hi]
      by_cases hpad : i = len
      · subst hpad
        rw [if_neg (by omega), hcopied i (by omega)]
        exact hs.nul
      · rw [if_pos (by omega)]
  · rw [if_neg (by omega), store_outside (by omega), store_outside (by omega)]

/-- The string fills the `n` bytes and what is copied repeats where it is overwritten, or
it is shorter, is not overwritten, and the byte behind the `n` bytes is NUL already. -/
def FillsExactly (m : Mem) (dest src len n : Nat) : Prop :=
  if n ≤ len then src < dest → ∀ i, dest + i < src + n → m (dest + i) = m (src + i)
  else ¬ (src < dest ∧ dest ≤ src + len) ∧ m (dest + n) = 0#8

/-- **When `strncpy` writes exactly `n` bytes.** -/
theorem strncpy_exact_iff (hs : StringAt m src len) :
    WritesExactly m dest src len n (strncpy m dest src n).2 ↔ FillsExactly m dest src len n := by
  rw [FillsExactly]
  split
  · -- no terminator among the first `n` bytes
    rename_i hlong
    have hall : ∀ i < n, copy m dest src n (dest + i) ≠ 0#8 := by
      intro i hi
      by_cases hlt : src < dest
      · exact copy_repeats (P := (· ≠ 0#8)) hlt (fun k hk _ => hs.char k (by omega)) hi
      · rw [copy_below (Nat.le_of_not_lt hlt), store_inside hi]
        exact hs.char i (by omega)
    rw [strncpy_all hall]
    have hcopied : WritesExactly m dest src len n (copy m dest src n) ↔
        ∀ i < n, copy m dest src n (dest + i) = m (src + i) := by
      constructor
      · intro h i hi
        rw [h.copied i hi, if_pos (by omega)]
      · intro h
        constructor
        case copied =>
          intro i hi
          rw [h i hi, if_pos (by omega)]
        case behind =>
          intro x hx
          exact copy_outside (Or.inr hx)
    rw [hcopied]
    by_cases hlt : src < dest
    · rw [copy_eq_iff hlt]
      exact ⟨fun h _ => h, fun h => h hlt⟩
    · have hstore := copy_below (m := m) (n := n) (Nat.le_of_not_lt hlt)
      rw [hstore]
      exact ⟨fun _ h => absurd h hlt, fun _ i hi => store_inside hi⟩
  · rename_i hshort
    by_cases hover : src < dest ∧ dest ≤ src + len
    · -- the terminator is overwritten before it is read
      have hall : ∀ i < n, copy m dest src n (dest + i) ≠ 0#8 := fun i hi =>
        copy_repeats (P := (· ≠ 0#8)) hover.1 (fun k _ hk => hs.char k (by omega)) hi
      rw [strncpy_all hall]
      constructor
      · intro h
        have hnul := h.copied len (by omega)
        rw [if_neg (by omega)] at hnul
        exact absurd hnul (hall len (by omega))
      · rintro ⟨hnot, -⟩
        exact absurd hover hnot
    · rw [strncpy_short hs (by omega) (by omega)]
      constructor
      · intro h
        have hbehind := h.behind (dest + n) (by omega)
        rw [store_inside (by omega), if_neg (by omega)] at hbehind
        exact ⟨hover, hbehind.symm⟩
      · rintro ⟨-, hnul⟩
        constructor
        case copied =>
          intro i hi
          exact store_inside (by omega)
        case behind =>
          intro x hx
          by_cases hlast : x = dest + n
          · subst hlast
            rw [store_inside (by omega), if_neg (by omega), hnul]
          · exact store_outside (by omega)

end Strncpy

/-! ### Two fields and a buffer of two bytes -/

/-- The string `"Forth"` at address 0, a NUL at address 24, and `x` in the other bytes
from address 8 on. -/
def fieldMem : Mem := fun a =>
  if a < 8 then [0x46#8, 0x6F#8, 0x72#8, 0x74#8, 0x68#8].getD a 0#8
  else if a = 24 then 0#8 else 0x78#8

theorem fieldMem_string : StringAt fieldMem 0 5 where
  char := by decide
  nul := by decide

/-- A field of four bytes at address 8 is filled, and one of eight bytes at address 16
is padded, with the NUL behind it. -/
theorem strncpy_exact_fields :
    WritesExactly fieldMem 8 0 5 4 (strncpy fieldMem 8 0 4).2 ∧
      WritesExactly fieldMem 16 0 5 8 (strncpy fieldMem 16 0 8).2 := by
  constructor
  · refine (strncpy_exact_iff fieldMem_string).mpr ?_
    rw [FillsExactly, if_pos (by decide)]
    intro _ i hi
    omega
  · refine (strncpy_exact_iff fieldMem_string).mpr ?_
    rw [FillsExactly, if_neg (by decide)]
    decide

/-- The string `"A"` at address 0, and `x` in every byte of the destination at 8. -/
def sampleMem : Mem := fun a => if a = 0 then 0x41#8 else if a < 8 then 0#8 else 0x78#8

theorem sampleMem_string : StringAt sampleMem 0 1 where
  char i hi := by
    obtain rfl : i = 0 := by omega
    decide
  nul := by decide

/-- A shorter one: `dest[2]` is stored to. -/
theorem strncpy_writes_beyond : ¬ ∀ (m : Mem) (dest src len n : Nat), StringAt m src len →
    WritesExactly m dest src len n (strncpy m dest src n).2 := by
  intro h
  have hbehind := (h sampleMem 8 0 1 2 sampleMem_string).behind 10 (by decide)
  exact absurd hbehind (by decide)

end VectorForth.Strings
