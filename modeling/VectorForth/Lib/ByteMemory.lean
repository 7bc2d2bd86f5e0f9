import Mathlib.Data.BitVec
import Mathlib.Logic.Function.Basic
import Mathlib.Tactic.Ring

/-!
# Byte-addressed memory

Memory is a total function from addresses to bytes. A machine word is a
little-endian run of bytes, read and written one byte at a time. The lemmas
are of three kinds: what a write stores, what it leaves alone, and when two
memories give the same read.
-/

namespace ByteMemory

abbrev Byte : Type := BitVec 8

/-- Byte-addressed memory. -/
abbrev Mem : Type := Nat → Byte

/-- The little-endian value of the `n` bytes at `a`. -/
def readLE (m : Mem) (a : Nat) : Nat → Nat
  | 0 => 0
  | n + 1 => (m a).toNat + 256 * readLE m (a + 1) n

/-- Store the low `n` bytes of `v` at `a`, least significant first. -/
def writeLE (m : Mem) (a : Nat) : Nat → Nat → Mem
  | 0, _ => m
  | n + 1, v => Function.update (writeLE m (a + 1) n (v / 256)) a (BitVec.ofNat 8 v)

def read64 (m : Mem) (a : Nat) : Nat := readLE m a 8

def write64 (m : Mem) (a v : Nat) : Mem := writeLE m a 8 v

def read32 (m : Mem) (a : Nat) : Nat := readLE m a 4

def write32 (m : Mem) (a v : Nat) : Mem := writeLE m a 4 v

def write8 (m : Mem) (a : Nat) (b : Byte) : Mem := Function.update m a b

/-- `n` bytes from `a` on, all set to `b`. -/
def fill (m : Mem) (a : Nat) (b : Byte) : Nat → Mem
  | 0 => m
  | n + 1 => fill (write8 m a b) (a + 1) b n

/-- Copy `n` bytes from `src` to `dst`, lowest address first. -/
def copy (m : Mem) (dst src : Nat) : Nat → Mem
  | 0 => m
  | n + 1 => copy (write8 m dst (m src)) (dst + 1) (src + 1) n

/-- The bytes `f 0, …, f (n - 1)` stored at `a`. -/
def store (m : Mem) (a n : Nat) (f : Nat → Byte) : Mem :=
  fun x => if a ≤ x ∧ x < a + n then f (x - a) else m x

/-- The two memories hold the same bytes in `[a, a + n)`. -/
def AgreeOn (m m' : Mem) (a n : Nat) : Prop :=
  ∀ x, a ≤ x → x < a + n → m x = m' x

/-! ## Reads -/

@[simp] theorem read64_zero (a : Nat) : read64 (fun _ => 0#8) a = 0 := by simp [read64, readLE]

theorem readLE_congr {m m' : Mem} {a n : Nat} (h : AgreeOn m m' a n) :
    readLE m a n = readLE m' a n := by
  induction n generalizing a with
  | zero => rfl
  | succ n ih =>
      have hhead : m a = m' a := h a (Nat.le_refl _) (by omega)
      have htail : AgreeOn m m' (a + 1) n := fun x h₁ h₂ => h x (by omega) (by omega)
      rw [readLE, readLE, hhead, ih htail]

theorem read64_congr {m m' : Mem} {a : Nat} (h : AgreeOn m m' a 8) :
    read64 m a = read64 m' a :=
  readLE_congr h

/-- The same bytes at another address are the same number. -/
theorem readLE_move {m m' : Mem} {a b n : Nat} (h : ∀ i < n, m (a + i) = m' (b + i)) :
    readLE m a n = readLE m' b n := by
  induction n generalizing a b with
  | zero => rfl
  | succ n ih =>
      have hhead : m a = m' b := h 0 (by omega)
      have htail : ∀ i < n, m (a + 1 + i) = m' (b + 1 + i) := by
        intro i hi
        rw [Nat.add_right_comm a, Nat.add_right_comm b]
        exact h (i + 1) (by omega)
      rw [readLE, readLE, hhead, ih htail]

theorem readLE_add (m : Mem) (a n k : Nat) :
    readLE m a (n + k) = readLE m a n + 256 ^ n * readLE m (a + n) k := by
  induction n generalizing a with
  | zero => rw [Nat.zero_add, readLE, Nat.pow_zero, Nat.one_mul, Nat.zero_add, Nat.add_zero]
  | succ n ih =>
      rw [Nat.add_right_comm n 1 k, readLE, readLE, ih, show a + 1 + n = a + (n + 1) by omega,
        Nat.pow_succ]
      ring

theorem AgreeOn.mono {m m' : Mem} {a n b k : Nat} (h : AgreeOn m m' a n)
    (hab : a ≤ b) (hkn : b + k ≤ a + n) : AgreeOn m m' b k :=
  fun x h₁ h₂ => h x (by omega) (by omega)

theorem AgreeOn.symm {m m' : Mem} {a n : Nat} (h : AgreeOn m m' a n) : AgreeOn m' m a n :=
  fun x h₁ h₂ => (h x h₁ h₂).symm

theorem AgreeOn.trans {m m' m'' : Mem} {a n : Nat} (h : AgreeOn m m' a n)
    (h' : AgreeOn m' m'' a n) : AgreeOn m m'' a n :=
  fun x h₁ h₂ => (h x h₁ h₂).trans (h' x h₁ h₂)

/-! ## Writes -/

/-- A write leaves every byte outside its run alone. -/
theorem writeLE_outside {m : Mem} {a n v x : Nat} (h : x < a ∨ a + n ≤ x) :
    writeLE m a n v x = m x := by
  induction n generalizing a v with
  | zero => rfl
  | succ n ih =>
      have hne : x ≠ a := by omega
      rw [writeLE, Function.update_of_ne hne, ih (by omega)]

theorem write64_outside {m : Mem} {a v x : Nat} (h : x < a ∨ a + 8 ≤ x) :
    write64 m a v x = m x :=
  writeLE_outside h

theorem write32_outside {m : Mem} {a v x : Nat} (h : x < a ∨ a + 4 ≤ x) :
    write32 m a v x = m x :=
  writeLE_outside h

theorem write8_outside {m : Mem} {a x : Nat} {b : Byte} (h : x ≠ a) :
    write8 m a b x = m x :=
  Function.update_of_ne h _ _

@[simp] theorem write8_same (m : Mem) (a : Nat) (b : Byte) : write8 m a b a = b :=
  Function.update_self ..

/-- Reading back what was written gives the value, truncated to the run. -/
theorem readLE_writeLE (m : Mem) (a n v : Nat) :
    readLE (writeLE m a n v) a n = v % 256 ^ n := by
  induction n generalizing m a v with
  | zero => simp [readLE, Nat.mod_one]
  | succ n ih =>
      have hagree : AgreeOn (writeLE m a (n + 1) v) (writeLE m (a + 1) n (v / 256)) (a + 1) n := by
        intro x h₁ _
        rw [writeLE, Function.update_of_ne (by omega)]
      have hhead : writeLE m a (n + 1) v a = BitVec.ofNat 8 v := by
        rw [writeLE, Function.update_self]
      rw [readLE, readLE_congr hagree, ih, hhead, BitVec.toNat_ofNat]
      change v % 256 + 256 * (v / 256 % 256 ^ n) = v % 256 ^ (n + 1)
      rw [Nat.pow_succ, Nat.mul_comm (256 ^ n) 256, Nat.mod_mul]

@[simp] theorem read64_write64 (m : Mem) (a v : Nat) :
    read64 (write64 m a v) a = v % 2 ^ 64 :=
  readLE_writeLE m a 8 v

theorem read64_write64_of_lt {m : Mem} {a v : Nat} (h : v < 2 ^ 64) :
    read64 (write64 m a v) a = v := by
  rw [read64_write64, Nat.mod_eq_of_lt h]

theorem agreeOn_writeLE {m : Mem} {a n v b k : Nat} (h : b + k ≤ a ∨ a + n ≤ b) :
    AgreeOn (writeLE m a n v) m b k :=
  fun _ h₁ h₂ => writeLE_outside (by omega)

theorem read64_write64_of_disjoint {m : Mem} {a b v : Nat} (h : b + 8 ≤ a ∨ a + 8 ≤ b) :
    read64 (write64 m a v) b = read64 m b :=
  readLE_congr (agreeOn_writeLE h)

theorem read64_write8_of_disjoint {m : Mem} {a b : Nat} {v : Byte}
    (h : b + 8 ≤ a ∨ a < b) : read64 (write8 m a v) b = read64 m b :=
  readLE_congr fun _ h₁ h₂ => write8_outside (by omega)

/-! ## Block operations -/

theorem fill_apply (m : Mem) (a : Nat) (b : Byte) (n x : Nat) :
    fill m a b n x = if a ≤ x ∧ x < a + n then b else m x := by
  induction n generalizing m a with
  | zero => rw [fill, if_neg (by omega)]
  | succ n ih =>
      rw [fill, ih]
      by_cases hx : x = a
      · subst hx
        rw [if_neg (by omega), write8_same, if_pos (by omega)]
      · rw [write8_outside hx]
        exact if_congr (by omega) rfl rfl

theorem fill_outside {m : Mem} {a : Nat} {b : Byte} {n x : Nat} (h : x < a ∨ a + n ≤ x) :
    fill m a b n x = m x := by
  rw [fill_apply, if_neg (by omega)]

theorem store_outside {m : Mem} {a n x : Nat} {f : Nat → Byte} (h : x < a ∨ a + n ≤ x) :
    store m a n f x = m x := by
  rw [store, if_neg (by omega)]

theorem store_inside {m : Mem} {a n i : Nat} {f : Nat → Byte} (h : i < n) :
    store m a n f (a + i) = f i := by
  rw [store, if_pos (by omega), Nat.add_sub_cancel_left]

theorem copy_outside {m : Mem} {dst src n x : Nat} (h : x < dst ∨ dst + n ≤ x) :
    copy m dst src n x = m x := by
  induction n generalizing m dst src with
  | zero => rfl
  | succ n ih => rw [copy, ih (by omega), write8_outside (by omega)]

/-- A forward copy between disjoint runs delivers the source bytes. -/
theorem copy_inside {m : Mem} {dst src n : Nat} (hdisj : src + n ≤ dst ∨ dst + n ≤ src)
    {i : Nat} (hi : i < n) : copy m dst src n (dst + i) = m (src + i) := by
  induction n generalizing m dst src i with
  | zero => omega
  | succ n ih =>
      rw [copy]
      cases i with
      | zero =>
          rw [copy_outside (by omega)]
          exact write8_same ..
      | succ i =>
          have hstep : copy (write8 m dst (m src)) (dst + 1) (src + 1) n (dst + 1 + i) =
              write8 m dst (m src) (src + 1 + i) := ih (by omega) (by omega)
          rw [show dst + (i + 1) = dst + 1 + i by omega, hstep,
            write8_outside (by omega), show src + (i + 1) = src + 1 + i by omega]

/-! ## The same writes to two memories -/

/-- `w` was made from `m` and `w'` from `m'` by the same writes: a byte is the
same in both, or was written in neither. -/
def SameWrites (m m' w w' : Mem) : Prop :=
  ∀ x, w' x = w x ∨ (w x = m x ∧ w' x = m' x)

section SameWrites

variable {m m' w w' v v' : Mem}

theorem SameWrites.refl (m m' : Mem) : SameWrites m m' m m' := fun _ => Or.inr ⟨rfl, rfl⟩

theorem SameWrites.trans (h : SameWrites m m' w w') (h' : SameWrites w w' v v') :
    SameWrites m m' v v' := by
  intro x
  rcases h' x with hv | ⟨hv, hv'⟩
  · exact Or.inl hv
  · rcases h x with hw | ⟨hw, hw'⟩
    · exact Or.inl (hv'.trans (hw.trans hv.symm))
    · exact Or.inr ⟨hv.trans hw, hv'.trans hw'⟩

/-- Where the two memories agreed before the writes they agree afterwards. -/
theorem SameWrites.agreeOn {a n : Nat} (h : SameWrites m m' w w') (hagree : AgreeOn m m' a n) :
    AgreeOn w w' a n := by
  intro x hx hx'
  rcases h x with hw | ⟨hw, hw'⟩
  · exact hw.symm
  · rw [hw, hw', hagree x hx hx']

theorem sameWrites_write8 (m m' : Mem) (a : Nat) (b : Byte) :
    SameWrites m m' (write8 m a b) (write8 m' a b) := by
  intro x
  rcases eq_or_ne x a with rfl | hx
  · exact Or.inl (by rw [write8_same, write8_same])
  · exact Or.inr ⟨write8_outside hx, write8_outside hx⟩

theorem sameWrites_writeLE (m m' : Mem) (a n v : Nat) :
    SameWrites m m' (writeLE m a n v) (writeLE m' a n v) := by
  induction n generalizing a v with
  | zero => exact .refl m m'
  | succ n ih =>
      rw [writeLE, writeLE]
      exact (ih (a + 1) (v / 256)).trans (sameWrites_write8 _ _ a _)

theorem sameWrites_store (m m' : Mem) (a n : Nat) (f : Nat → Byte) :
    SameWrites m m' (store m a n f) (store m' a n f) := by
  intro x
  unfold store
  split
  · exact Or.inl rfl
  · exact Or.inr ⟨rfl, rfl⟩

end SameWrites

end ByteMemory
