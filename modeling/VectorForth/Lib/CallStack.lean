import VectorForth.Lib.ByteMemory

/-!
# A processor with a stack

Registers, a stack pointer that grows downward, an instruction pointer and the
flags, and the instructions that a context switch is made of. Pushing a list of
registers leaves their values on the stack (`Framed`), and popping the list
backwards from such a frame loads them, whichever processor pushed it.
-/

namespace CallStack

open ByteMemory

abbrev Word : Type := BitVec 64

/-- The bits of the flags that `popf` can change. The others are fixed: bit 1 is
set, and the rest is clear. -/
def flagBits : Word := 0x247FD5#64

structure Flags where
  word : Word
  fixed : (word &&& flagBits) ||| 2#64 = word

theorem fixed_load (w : Word) :
    (((w &&& flagBits) ||| 2#64) &&& flagBits) ||| 2#64 = (w &&& flagBits) ||| 2#64 := by
  have hclear : 2#64 &&& flagBits = 0#64 := by decide
  rw [BitVec.and_or_distrib_right, hclear, BitVec.and_assoc, BitVec.and_self, BitVec.or_zero]

def Flags.load (w : Word) : Flags := ⟨(w &&& flagBits) ||| 2#64, fixed_load w⟩

theorem Flags.load_word (f : Flags) : Flags.load f.word = f := by
  obtain ⟨w, hfixed⟩ := f
  simp only [Flags.load, hfixed]

/-- Whether interrupts are enabled. -/
def Flags.interrupts (f : Flags) : Bool := f.word.getLsbD 9

/-- The registers `ρ`, beside the stack pointer. -/
structure Cpu (ρ : Type) where
  reg : ρ → Word
  sp : Word
  ip : Word
  flags : Flags

inductive Instr (ρ : Type)
  | pushf
  | push (r : ρ)
  | pop (r : ρ)
  | popf
  /-- `mov [a], sp`. -/
  | saveSp (a : ρ)
  /-- `mov sp, r`. -/
  | loadSp (r : ρ)
  | ret

variable {ρ : Type}

def pushWord (c : Cpu ρ) (m : Mem) (w : Word) : Cpu ρ × Mem :=
  ({ c with sp := c.sp - 8#64 }, write64 m (c.sp - 8#64).toNat w.toNat)

/-- Push the words, the first of them first. -/
def pushWords (c : Cpu ρ) (m : Mem) : List Word → Cpu ρ × Mem
  | [] => (c, m)
  | w :: ws => pushWords (pushWord c m w).1 (pushWord c m w).2 ws

/-- The word number `k` from `a` on. -/
def wordAt (m : Mem) (a : Word) (k : Nat) : Word := BitVec.ofNat 64 (read64 m (a.toNat + 8 * k))

/-- The word on top of the stack. -/
def top (c : Cpu ρ) (m : Mem) : Word := BitVec.ofNat 64 (read64 m c.sp.toNat)

section Exec

variable [DecidableEq ρ]

def exec (c : Cpu ρ) (m : Mem) : Instr ρ → Cpu ρ × Mem
  | .pushf => pushWord c m c.flags.word
  | .push r => pushWord c m (c.reg r)
  | .pop r => ({ c with reg := Function.update c.reg r (top c m), sp := c.sp + 8#64 }, m)
  | .popf => ({ c with flags := Flags.load (top c m), sp := c.sp + 8#64 }, m)
  | .saveSp a => (c, write64 m (c.reg a).toNat c.sp.toNat)
  | .loadSp r => ({ c with sp := c.reg r }, m)
  | .ret => ({ c with ip := top c m, sp := c.sp + 8#64 }, m)

def run (c : Cpu ρ) (m : Mem) : List (Instr ρ) → Cpu ρ × Mem
  | [] => (c, m)
  | i :: is => run (exec c m i).1 (exec c m i).2 is

/-- `call`, to code that is then run by `run`. -/
def call (c : Cpu ρ) (m : Mem) (ret : Word) : Cpu ρ × Mem := pushWord c m ret

theorem run_append (is js : List (Instr ρ)) (c : Cpu ρ) (m : Mem) :
    run c m (is ++ js) = run (run c m is).1 (run c m is).2 js := by
  induction is generalizing c m with
  | nil => rfl
  | cons i is ih => exact ih _ _

end Exec

/-! ## Frames -/

/-- The words `ws` lie at `a` and above. -/
def Framed (m : Mem) : Nat → List Word → Prop
  | _, [] => True
  | a, w :: ws => read64 m a = w.toNat ∧ Framed m (a + 8) ws

variable {c : Cpu ρ} {m m' : Mem} {a n : Nat} {w : Word} {ws : List Word}

theorem Framed.congr (h : Framed m a ws)
    (hm : ∀ x, a ≤ x → x < a + 8 * ws.length → m' x = m x) : Framed m' a ws := by
  induction ws generalizing a with
  | nil => trivial
  | cons w ws ih =>
      rw [List.length_cons] at hm
      constructor
      · rw [← h.1]
        exact read64_congr fun x h₁ h₂ => hm x (by omega) (by omega)
      · exact ih h.2 fun x h₁ h₂ => hm x (by omega) (by omega)

theorem framed_append (xs ys : List Word) (a : Nat) :
    Framed m a (xs ++ ys) ↔ Framed m a xs ∧ Framed m (a + 8 * xs.length) ys := by
  induction xs generalizing a with
  | nil => simp [Framed]
  | cons x xs ih =>
      rw [List.cons_append, Framed, Framed, ih, and_assoc, List.length_cons, Nat.mul_succ,
        Nat.add_comm (8 * xs.length), Nat.add_assoc]

/-- What a push has done: one more word in the frame, and no other byte written. -/
theorem pushWord_framed (h : Framed m c.sp.toNat ws) (hroom : 8 ≤ c.sp.toNat) :
    (pushWord c m w).1.sp.toNat = c.sp.toNat - 8 ∧
      Framed (pushWord c m w).2 (c.sp.toNat - 8) (w :: ws) ∧
      ∀ x, x < c.sp.toNat - 8 ∨ c.sp.toNat ≤ x → (pushWord c m w).2 x = m x := by
  have hlt := c.sp.isLt
  have hsp : (c.sp - 8#64).toNat = c.sp.toNat - 8 := by
    rw [BitVec.toNat_sub, BitVec.toNat_ofNat]
    omega
  have hkept : ∀ x, x < c.sp.toNat - 8 ∨ c.sp.toNat ≤ x →
      write64 m (c.sp.toNat - 8) w.toNat x = m x := fun x hx => write64_outside (by omega)
  have hmem : (pushWord c m w).2 = write64 m (c.sp.toNat - 8) w.toNat := by rw [pushWord, hsp]
  rw [hmem]
  refine ⟨hsp, ⟨read64_write64_of_lt w.isLt, ?_⟩, hkept⟩
  rw [Nat.sub_add_cancel hroom]
  exact h.congr fun x hx _ => hkept x (Or.inr hx)

theorem top_framed (h : Framed m c.sp.toNat (w :: ws)) : top c m = w := by
  rw [top, h.1, BitVec.ofNat_toNat, BitVec.setWidth_eq]

/-- Each word of a frame, read by its number. -/
theorem Framed.wordAt {b : Word} {k : Nat} (h : Framed m b.toNat ws) (hk : k < ws.length) :
    CallStack.wordAt m b k = ws[k] := by
  have hread : ∀ (ws : List Word) (a k : Nat) (hk : k < ws.length), Framed m a ws →
      read64 m (a + 8 * k) = ws[k].toNat := by
    intro ws
    induction ws with
    | nil =>
        intro a k hk
        cases hk
    | cons w ws ih =>
        rintro a k hk ⟨hfirst, hrest⟩
        cases k with
        | zero => exact hfirst
        | succ k =>
            have hnext := ih (a + 8) k (Nat.lt_of_succ_lt_succ hk) hrest
            rw [Nat.add_assoc, Nat.add_comm 8] at hnext
            exact hnext
  rw [CallStack.wordAt, hread ws _ k hk h, BitVec.ofNat_toNat, BitVec.setWidth_eq]

/-- A list of words is pushed: the last of them ends up lowest. -/
theorem pushWords_framed (vs : List Word) (h : Framed m c.sp.toNat ws)
    (hroom : 8 * vs.length ≤ c.sp.toNat) :
    ∃ m', pushWords c m vs = ({ c with sp := c.sp - BitVec.ofNat 64 (8 * vs.length) }, m') ∧
      Framed m' (c.sp.toNat - 8 * vs.length) (vs.reverse ++ ws) ∧
      ∀ x, x < c.sp.toNat - 8 * vs.length ∨ c.sp.toNat ≤ x → m' x = m x := by
  induction vs generalizing c m ws with
  | nil =>
      refine ⟨m, ?_, h, fun _ _ => rfl⟩
      simp [pushWords]
  | cons v vs ih =>
      rw [List.length_cons] at hroom
      obtain ⟨hsp, hframe, hkept⟩ := pushWord_framed (w := v) h (by omega)
      rw [← hsp] at hframe
      obtain ⟨m', hrun, hframe', hkept'⟩ := ih hframe (by omega)
      refine ⟨m', ?_, ?_, ?_⟩
      · refine hrun.trans ?_
        have hsub : (pushWord c m v).1.sp - BitVec.ofNat 64 (8 * vs.length) =
            c.sp - BitVec.ofNat 64 (8 * (v :: vs).length) := by
          rw [List.length_cons, Nat.mul_succ, BitVec.ofNat_add]
          show c.sp - 8#64 - _ = _
          rw [BitVec.sub_sub, BitVec.add_comm]
        rw [hsub]
        rfl
      · rw [hsp] at hframe'
        rw [List.length_cons, List.reverse_cons, List.append_assoc, Nat.mul_succ, Nat.add_comm,
          ← Nat.sub_sub]
        exact hframe'
      · rintro x hx
        rw [List.length_cons] at hx
        rw [hkept' x (by omega), hkept x (by omega)]

/-- The stack pointer above the word on top. -/
theorem Framed.next (h : Framed m c.sp.toNat (w :: ws)) (hend : c.sp.toNat + 8 < 2 ^ 64) :
    Framed m (c.sp + 8#64).toNat ws := by
  have hsp : (c.sp + 8#64).toNat = c.sp.toNat + 8 := by
    rw [BitVec.toNat_add, BitVec.toNat_ofNat]
    omega
  rw [hsp]
  exact h.2

/-! ## Saving and restoring registers -/

/-- `pushf`, and then the registers `rs`. -/
def save (rs : List ρ) : List (Instr ρ) := .pushf :: rs.map .push

/-- Back in the opposite order, and to the return address below them. -/
def restore (rs : List ρ) : List (Instr ρ) := rs.reverse.map .pop ++ [.popf, .ret]

/-- The frame of a processor that is to go on at `ip`. -/
def frame (rs : List ρ) (reg : ρ → Word) (flags ip : Word) : List Word :=
  rs.reverse.map reg ++ [flags, ip]

theorem length_frame (rs : List ρ) (reg : ρ → Word) (flags ip : Word) :
    (frame rs reg flags ip).length = rs.length + 2 := by
  simp [frame]

section Save

variable [DecidableEq ρ] {rs : List ρ}

theorem run_push_eq (rs : List ρ) (c : Cpu ρ) (m : Mem) :
    run c m (rs.map .push) = pushWords c m (rs.map c.reg) := by
  induction rs generalizing c m with
  | nil => rfl
  | cons r rs ih => exact ih _ _

/-- A list of registers is pushed: the last of them ends up lowest. -/
theorem run_push (rs : List ρ) (h : Framed m c.sp.toNat ws) (hroom : 8 * rs.length ≤ c.sp.toNat) :
    ∃ m', run c m (rs.map .push) = ({ c with sp := c.sp - BitVec.ofNat 64 (8 * rs.length) }, m') ∧
      Framed m' (c.sp.toNat - 8 * rs.length) (rs.reverse.map c.reg ++ ws) ∧
      ∀ x, x < c.sp.toNat - 8 * rs.length ∨ c.sp.toNat ≤ x → m' x = m x := by
  have hlen : (rs.map c.reg).length = rs.length := List.length_map _
  have hpushed := pushWords_framed (rs.map c.reg) h (by rwa [hlen])
  rwa [hlen, ← List.map_reverse, ← run_push_eq] at hpushed

/-- A list of registers is popped from the values that `f` gives them. -/
theorem run_pop {f : ρ → Word} (h : Framed m c.sp.toNat (rs.map f ++ ws))
    (hend : c.sp.toNat + 8 * rs.length < 2 ^ 64) :
    run c m (rs.map .pop) = ({ c with
      reg := fun r => if r ∈ rs then f r else c.reg r
      sp := c.sp + BitVec.ofNat 64 (8 * rs.length) }, m) ∧
    Framed m (c.sp + BitVec.ofNat 64 (8 * rs.length)).toNat ws := by
  induction rs generalizing c with
  | nil =>
      refine ⟨?_, ?_⟩
      · simp [run]
      · simpa using h
  | cons r rs ih =>
      rw [List.length_cons] at hend
      rw [List.map_cons, List.cons_append] at h
      have hnext := h.next (by omega)
      have hsp : (c.sp + 8#64).toNat = c.sp.toNat + 8 := by
        rw [BitVec.toNat_add, BitVec.toNat_ofNat]
        omega
      have hadd : c.sp + 8#64 + BitVec.ofNat 64 (8 * rs.length) =
          c.sp + BitVec.ofNat 64 (8 * (r :: rs).length) := by
        rw [List.length_cons, Nat.mul_succ, BitVec.ofNat_add, BitVec.add_assoc,
          BitVec.add_comm (8#64)]
      obtain ⟨hrun, hframe⟩ := ih (c := { c with
        reg := Function.update c.reg r (f r)
        sp := c.sp + 8#64 }) hnext (by dsimp only; omega)
      dsimp only at hrun hframe
      rw [hadd] at hrun hframe
      refine ⟨?_, hframe⟩
      rw [List.map_cons, run, exec, top_framed h, hrun]
      congr 2
      funext r'
      by_cases hmem : r' ∈ rs
      · rw [if_pos hmem, if_pos (List.mem_cons_of_mem _ hmem)]
      · rw [if_neg hmem]
        by_cases heq : r' = r
        · subst heq
          rw [Function.update_self, if_pos (List.mem_cons_self ..)]
        · rw [Function.update_of_ne heq, if_neg]
          rw [List.mem_cons, not_or]
          exact ⟨heq, hmem⟩

/-- **What a call saves.** -/
theorem call_save (rs : List ρ) (hroom : 8 * (rs.length + 2) ≤ c.sp.toNat) (ret : Word) :
    ∃ m', run (call c m ret).1 (call c m ret).2 (save rs) =
        ({ c with sp := c.sp - BitVec.ofNat 64 (8 * (rs.length + 2)) }, m') ∧
      Framed m' (c.sp.toNat - 8 * (rs.length + 2)) (frame rs c.reg c.flags.word ret) ∧
      ∀ x, x < c.sp.toNat - 8 * (rs.length + 2) ∨ c.sp.toNat ≤ x → m' x = m x := by
  have hempty : Framed m c.sp.toNat [] := trivial
  obtain ⟨hsp, hframe, hkept⟩ := pushWord_framed (w := ret) hempty (by omega)
  rw [← hsp] at hframe
  obtain ⟨hsp', hframe', hkept'⟩ := pushWord_framed (w := c.flags.word) hframe (by omega)
  rw [← hsp'] at hframe'
  obtain ⟨m', hrun, hframe'', hkept''⟩ := run_push rs hframe' (by omega)
  refine ⟨m', ?_, ?_, ?_⟩
  · refine hrun.trans ?_
    have hsub : c.sp - 8#64 - 8#64 - BitVec.ofNat 64 (8 * rs.length) =
        c.sp - BitVec.ofNat 64 (8 * (rs.length + 2)) := by
      rw [BitVec.sub_sub, BitVec.sub_sub, Nat.mul_add, Nat.add_comm, BitVec.ofNat_add,
        ← BitVec.add_assoc]
      rfl
    show (({ c with sp := c.sp - 8#64 - 8#64 - BitVec.ofNat 64 (8 * rs.length) } : Cpu ρ), m') = _
    rw [hsub]
  · have haddr : (pushWord (pushWord c m ret).1 (pushWord c m ret).2 c.flags.word).1.sp.toNat -
        8 * rs.length = c.sp.toNat - 8 * (rs.length + 2) := by omega
    rw [haddr] at hframe''
    exact hframe''
  · rintro x hx
    rw [hkept'' x (by omega), hkept' x (by omega), hkept x (by omega)]

/-- **What is restored from a frame.** -/
theorem run_restore {reg : ρ → Word} {flags ip : Word} (rs : List ρ)
    (h : Framed m c.sp.toNat (frame rs reg flags ip))
    (hend : c.sp.toNat + 8 * (rs.length + 2) ≤ 2 ^ 64) :
    run c m (restore rs) = ({
      reg := fun r => if r ∈ rs then reg r else c.reg r
      sp := c.sp + BitVec.ofNat 64 (8 * (rs.length + 2))
      ip := ip
      flags := Flags.load flags }, m) := by
  obtain ⟨hrun, hframe⟩ := run_pop h (by rw [List.length_reverse]; omega)
  rw [List.length_reverse] at hrun hframe
  have hsp : (c.sp + BitVec.ofNat 64 (8 * rs.length)).toNat = c.sp.toNat + 8 * rs.length := by
    rw [BitVec.toNat_add, BitVec.toNat_ofNat]
    omega
  have hsp' : (c.sp + BitVec.ofNat 64 (8 * rs.length) + 8#64).toNat =
      c.sp.toNat + 8 * rs.length + 8 := by
    rw [BitVec.toNat_add, hsp, BitVec.toNat_ofNat]
    omega
  rw [restore, run_append, hrun]
  simp only [run, exec, top]
  obtain ⟨hflags, hip, -⟩ := hframe
  rw [hsp] at hflags hip
  rw [hsp', hsp, hflags, hip]
  simp only [BitVec.ofNat_toNat, BitVec.setWidth_eq, List.mem_reverse, Cpu.mk.injEq, Prod.mk.injEq,
    and_true, true_and]
  rw [Nat.mul_add, BitVec.ofNat_add, BitVec.add_assoc, BitVec.add_assoc]
  rfl

end Save

end CallStack
