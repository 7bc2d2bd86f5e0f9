import VectorForth.Lib.CallStack
import VectorForth.Lib.Masks

/-!
# Interrupt entry and exit

The stubs of `isr.asm`: what the processor pushes, what a stub pushes above it, the
call of the C handler and the way back to `iretq`. The frame and the restored
registers agree with `interrupt_frame_t` for every stack pointer. The stack pointer
at the call does not: the stub aligns it for the first instruction of the handler,
where the ABI counts from the `call`.
-/

namespace VectorForth.Interrupts

open ByteMemory CallStack

/-- The general registers, beside `rsp`. -/
inductive Gpr
  | rax
  | rbx
  | rcx
  | rdx
  | rsi
  | rdi
  | rbp
  | r8
  | r9
  | r10
  | r11
  | r12
  | r13
  | r14
  | r15
  deriving DecidableEq

/-! ## What the processor does -/

/-- The exceptions for which the processor pushes an error code. -/
def errorVectors : List Nat := [8, 10, 11, 12, 13, 14, 17, 21, 29, 30]

/-- What the processor saves. -/
structure Saved where
  errCode : Word
  rip : Word
  cs : Word
  rflags : Word
  rsp : Word
  ss : Word

/-- The five words that `iretq` loads. -/
def Saved.words (s : Saved) : List Word := [s.rip, s.cs, s.rflags, s.rsp, s.ss]

/-- The error code of an interrupt, zero where there is none. -/
def errorCode (vector : Nat) (s : Saved) : Word :=
  if vector ∈ errorVectors then s.errCode else 0#64

/-- The words on the stack when the stub begins. -/
def hardwareFrame (vector : Nat) (s : Saved) : List Word :=
  if vector ∈ errorVectors then s.errCode :: s.words else s.words

/-- What the processor saves of `c`. -/
def savedOf (c : Cpu Gpr) (cs ss errCode : Word) : Saved :=
  { errCode := errCode, rip := c.ip, cs := cs, rflags := c.flags.word, rsp := c.sp, ss := ss }

/-- The delivery of an interrupt: the frame begins at a multiple of 16. -/
def deliver (vector : Nat) (cs ss errCode : Word) (c : Cpu Gpr) (m : Mem) : Cpu Gpr × Mem :=
  pushWords { c with sp := c.sp &&& ~~~15#64 } m
    (hardwareFrame vector (savedOf c cs ss errCode)).reverse

def iretq (c : Cpu Gpr) (m : Mem) : Cpu Gpr :=
  { c with
    ip := wordAt m c.sp 0
    flags := Flags.load (wordAt m c.sp 2)
    sp := wordAt m c.sp 3 }

/-! ## isr.asm -/

def setReg (c : Cpu Gpr) (r : Gpr) (v : Word) : Cpu Gpr :=
  { c with reg := Function.update c.reg r v }

/-- The macros that make the stubs of the exceptions. -/
inductive StubMacro
  | isrNoerr
  | isrErr
  deriving DecidableEq

/-- Their lines, from vector 0 on. -/
def isrStubs : List StubMacro :=
  [.isrNoerr, .isrNoerr, .isrNoerr, .isrNoerr, .isrNoerr, .isrNoerr, .isrNoerr, .isrNoerr,
   .isrErr, .isrNoerr, .isrErr, .isrErr, .isrErr, .isrErr, .isrErr, .isrNoerr,
   .isrNoerr, .isrErr, .isrNoerr, .isrNoerr, .isrNoerr, .isrErr, .isrNoerr, .isrNoerr,
   .isrNoerr, .isrNoerr, .isrNoerr, .isrNoerr, .isrNoerr, .isrErr, .isrErr, .isrNoerr]

/-- `ISR_NOERR`, `ISR_ERR` and `IRQ`, which begins like `ISR_NOERR`. -/
def stubHead (vector : Nat) (c : Cpu Gpr) (m : Mem) : Cpu Gpr × Mem :=
  if isrStubs[vector]? = some .isrErr then pushWord c m (BitVec.ofNat 64 vector)
  else
    let (c, m) := pushWord c m 0#64
    pushWord c m (BitVec.ofNat 64 vector)

def saveAll : List (Instr Gpr) :=
  [.push .rax, .push .rbx, .push .rcx, .push .rdx, .push .rsi, .push .rdi, .push .rbp, .push .r8,
   .push .r9, .push .r10, .push .r11, .push .r12, .push .r13, .push .r14, .push .r15]

def restoreAll : List (Instr Gpr) :=
  [.pop .r15, .pop .r14, .pop .r13, .pop .r12, .pop .r11, .pop .r10, .pop .r9, .pop .r8,
   .pop .rbp, .pop .rdi, .pop .rsi, .pop .rdx, .pop .rcx, .pop .rbx, .pop .rax]

/-- The common stub up to its `call`. `isr_common_stub` and `irq_common_stub` only
differ in the handler. -/
def commonEntry (c : Cpu Gpr) (m : Mem) : Cpu Gpr × Mem :=
  let (c, m) := run c m saveAll
  let c := setReg c .rdi c.sp
  let c := setReg c .rbp c.sp
  let c := { c with sp := c.sp &&& ~~~15#64 }
  ({ c with sp := c.sp - 8#64 }, m)

/-- The common stub behind its `call`, up to `iretq`. -/
def commonExit (c : Cpu Gpr) (m : Mem) : Cpu Gpr × Mem :=
  let (c, m) := run { c with sp := c.reg .rbp } m restoreAll
  ({ c with sp := c.sp + 16#64 }, m)

/-- A C handler, from its first instruction to where it has returned. -/
abbrev Handler : Type := Cpu Gpr → Mem → Cpu Gpr × Mem

/-- Just before the `call`. -/
def atCall (vector : Nat) (c : Cpu Gpr) (m : Mem) : Cpu Gpr × Mem :=
  let (c, m) := stubHead vector c m
  commonEntry c m

/-- At the first instruction of the handler. -/
def atHandler (vector : Nat) (ret : Word) (c : Cpu Gpr) (m : Mem) : Cpu Gpr × Mem :=
  let (c, m) := atCall vector c m
  call c m ret

/-- At `iretq`. -/
def atIretq (vector : Nat) (handler : Handler) (ret : Word) (c : Cpu Gpr) (m : Mem) :
    Cpu Gpr × Mem :=
  let (c, m) := atHandler vector ret c m
  let (c, m) := handler c m
  commonExit c m

/-! ## interrupt_frame_t -/

structure InterruptFrame where
  r15 : Word
  r14 : Word
  r13 : Word
  r12 : Word
  r11 : Word
  r10 : Word
  r9 : Word
  r8 : Word
  rbp : Word
  rdi : Word
  rsi : Word
  rdx : Word
  rcx : Word
  rbx : Word
  rax : Word
  intNo : Word
  errCode : Word
  rip : Word
  cs : Word
  rflags : Word
  rsp : Word
  ss : Word

/-- The packed record at `a`. -/
def frameAt (m : Mem) (a : Word) : InterruptFrame where
  r15 := wordAt m a 0
  r14 := wordAt m a 1
  r13 := wordAt m a 2
  r12 := wordAt m a 3
  r11 := wordAt m a 4
  r10 := wordAt m a 5
  r9 := wordAt m a 6
  r8 := wordAt m a 7
  rbp := wordAt m a 8
  rdi := wordAt m a 9
  rsi := wordAt m a 10
  rdx := wordAt m a 11
  rcx := wordAt m a 12
  rbx := wordAt m a 13
  rax := wordAt m a 14
  intNo := wordAt m a 15
  errCode := wordAt m a 16
  rip := wordAt m a 17
  cs := wordAt m a 18
  rflags := wordAt m a 19
  rsp := wordAt m a 20
  ss := wordAt m a 21

/-- The record that the handler should be given. -/
def interruptFrame (vector : Nat) (s : Saved) (reg : Gpr → Word) : InterruptFrame where
  r15 := reg .r15
  r14 := reg .r14
  r13 := reg .r13
  r12 := reg .r12
  r11 := reg .r11
  r10 := reg .r10
  r9 := reg .r9
  r8 := reg .r8
  rbp := reg .rbp
  rdi := reg .rdi
  rsi := reg .rsi
  rdx := reg .rdx
  rcx := reg .rcx
  rbx := reg .rbx
  rax := reg .rax
  intNo := BitVec.ofNat 64 vector
  errCode := errorCode vector s
  rip := s.rip
  cs := s.cs
  rflags := s.rflags
  rsp := s.rsp
  ss := s.ss

/-! ## What the stub presents and restores -/

/-- The address of the saved `rip`, for a stub that begins in `c`. -/
def ripAt (vector : Nat) (c : Cpu Gpr) : Word :=
  if vector ∈ errorVectors then c.sp + 8#64 else c.sp

/-- The stub begins: the processor has pushed its frame, and there is room below. -/
structure Entered (vector : Nat) (s : Saved) (c : Cpu Gpr) (m : Mem) : Prop where
  framed : Framed m c.sp.toNat (hardwareFrame vector s)
  room : 160 ≤ c.sp.toNat
  high : c.sp.toNat + 48 ≤ 2 ^ 64

def calleeSaved : List Gpr := [.rbx, .rbp, .r12, .r13, .r14, .r15]

/-- The handler, begun in `c`, returns to its caller, keeps the registers that are the
caller's, and does not write to the frame it is given. -/
structure ObeysAbi (handler : Handler) (c : Cpu Gpr) (m : Mem) : Prop where
  sp : (handler c m).1.sp = c.sp + 8#64
  ip : (handler c m).1.ip = top c m
  kept : ∀ r ∈ calleeSaved, (handler c m).1.reg r = c.reg r
  frame : ∀ x, (c.reg .rdi).toNat ≤ x → x < (c.reg .rdi).toNat + 176 → (handler c m).2 x = m x

/-- The handler is given the interrupted state, and it is there again at `iretq`. -/
structure Restores (vector : Nat) (handler : Handler) (ret : Word) (s : Saved) (c : Cpu Gpr)
    (m : Mem) : Prop where
  presents : frameAt (atHandler vector ret c m).2 ((atHandler vector ret c m).1.reg .rdi) =
    interruptFrame vector s c.reg
  registers : ∀ r, (atIretq vector handler ret c m).1.reg r = c.reg r
  atRip : (atIretq vector handler ret c m).1.sp = ripAt vector c
  saved : Framed (atIretq vector handler ret c m).2 (ripAt vector c).toNat s.words

/-- And the handler is called with an aligned stack. -/
structure Transparent (vector : Nat) (handler : Handler) (ret : Word) (s : Saved) (c : Cpu Gpr)
    (m : Mem) : Prop extends Restores vector handler ret s c m where
  aligned : (atCall vector c m).1.sp.toNat % 16 = 0

/-- The registers in the order in which they are pushed. -/
def registers : List Gpr :=
  [.rax, .rbx, .rcx, .rdx, .rsi, .rdi, .rbp, .r8, .r9, .r10, .r11, .r12, .r13, .r14, .r15]

theorem saveAll_eq : saveAll = registers.map .push := rfl

theorem restoreAll_eq : restoreAll = registers.reverse.map .pop := rfl

theorem mem_registers (r : Gpr) : r ∈ registers := by
  cases r <;> decide

/-- The words of an `interrupt_frame_t`. -/
def frameWords (vector : Nat) (s : Saved) (reg : Gpr → Word) : List Word :=
  registers.reverse.map reg ++ BitVec.ofNat 64 vector :: errorCode vector s :: s.words

section Stub

variable {vector : Nat} {handler : Handler} {ret a : Word} {s : Saved} {c : Cpu Gpr} {m : Mem}
  {reg : Gpr → Word} {ws : List Word}

/-- The fields of the record are the words in this order. -/
theorem frameAt_words (h : Framed m a.toNat (frameWords vector s reg)) :
    frameAt m a = interruptFrame vector s reg := by
  have hword : ∀ k < 22, wordAt m a k = (frameWords vector s reg).getD k 0#64 := by
    intro k hk
    have hlen : k < (frameWords vector s reg).length := hk
    rw [h.wordAt hlen, List.getD_eq_getElem?_getD, List.getElem?_eq_getElem hlen,
      Option.getD_some]
  unfold frameAt
  simp (disch := decide) only [hword]
  rfl

/-- The stubs without a zero of their own are those of the exceptions with an error code. -/
theorem isrStubs_iff (vector : Nat) :
    isrStubs[vector]? = some .isrErr ↔ vector ∈ errorVectors := by
  by_cases hlt : vector < 32
  · have hall : ∀ v < 32, isrStubs[v]? = some .isrErr ↔ v ∈ errorVectors := by decide
    exact hall vector hlt
  · rw [List.getElem?_eq_none (Nat.not_lt.mp hlt)]
    refine iff_of_false (by simp) fun hmem => hlt ?_
    have hall : ∀ v ∈ errorVectors, v < 32 := by decide
    exact hall vector hmem

theorem ripAt_toNat (h : Entered vector s c m) :
    c.sp.toNat ≤ (ripAt vector c).toNat ∧ (ripAt vector c).toNat ≤ c.sp.toNat + 8 := by
  have hhigh := h.high
  unfold ripAt
  split
  · rw [BitVec.toNat_add, BitVec.toNat_ofNat]
    omega
  · omega

theorem stubHead_spec (h : Entered vector s c m) :
    ∃ m', stubHead vector c m = ({ c with sp := ripAt vector c - 16#64 }, m') ∧
      Framed m' ((ripAt vector c).toNat - 16)
        (BitVec.ofNat 64 vector :: errorCode vector s :: s.words) := by
  have hframed := h.framed
  have hroom := h.room
  have hhigh := h.high
  unfold stubHead
  simp only [isrStubs_iff]
  unfold ripAt errorCode hardwareFrame at *
  by_cases hv : vector ∈ errorVectors
  · -- the error code lies there already
    rw [if_pos hv] at hframed ⊢
    rw [if_pos hv, if_pos hv]
    obtain ⟨m', hrun, hframe, -⟩ :=
      pushWords_framed [BitVec.ofNat 64 vector] hframed (by show 8 * 1 ≤ _; omega)
    have hrip : (c.sp + 8#64).toNat = c.sp.toNat + 8 := by
      rw [BitVec.toNat_add, BitVec.toNat_ofNat]
      omega
    have hsp : c.sp + 8#64 - 16#64 = c.sp - 8#64 := by bv_omega
    refine ⟨m', ?_, ?_⟩
    · rw [hsp]
      exact hrun
    · rw [hrip]
      exact hframe
  · rw [if_neg hv] at hframed ⊢
    rw [if_neg hv, if_neg hv]
    obtain ⟨m', hrun, hframe, -⟩ :=
      pushWords_framed [0#64, BitVec.ofNat 64 vector] hframed (by show 8 * 2 ≤ _; omega)
    exact ⟨m', hrun, hframe⟩

theorem commonEntry_spec (h : Framed m c.sp.toNat ws) (hroom : 120 ≤ c.sp.toNat) :
    ∃ m', commonEntry c m =
        ({ setReg (setReg c .rdi (c.sp - 120#64)) .rbp (c.sp - 120#64) with
            sp := ((c.sp - 120#64) &&& ~~~15#64) - 8#64 }, m') ∧
      Framed m' (c.sp.toNat - 120) (registers.reverse.map c.reg ++ ws) := by
  obtain ⟨m', hrun, hframe, -⟩ := run_push registers h hroom
  refine ⟨m', ?_, hframe⟩
  rw [commonEntry, saveAll_eq, hrun]
  rfl

/-- Where the record begins. -/
def frameBase (vector : Nat) (c : Cpu Gpr) : Word := ripAt vector c - 136#64

theorem frameBase_toNat (h : Entered vector s c m) :
    (frameBase vector c).toNat = (ripAt vector c).toNat - 136 ∧
      24 ≤ (frameBase vector c).toNat := by
  have hrip := ripAt_toNat h
  have hroom := h.room
  have hlt := (ripAt vector c).isLt
  rw [frameBase, BitVec.toNat_sub, BitVec.toNat_ofNat]
  omega

/-- The state at the call. -/
theorem atCall_spec (h : Entered vector s c m) :
    ∃ m', atCall vector c m =
        ({ setReg (setReg c .rdi (frameBase vector c)) .rbp (frameBase vector c) with
            sp := (frameBase vector c &&& ~~~15#64) - 8#64 }, m') ∧
      Framed m' (frameBase vector c).toNat (frameWords vector s c.reg) := by
  obtain ⟨m₁, hhead, hframed⟩ := stubHead_spec h
  have hrip := ripAt_toNat h
  have hroom := h.room
  have hlt := (ripAt vector c).isLt
  have hsp : (ripAt vector c - 16#64).toNat = (ripAt vector c).toNat - 16 := by
    rw [BitVec.toNat_sub, BitVec.toNat_ofNat]
    omega
  rw [← hsp] at hframed
  obtain ⟨m₂, hentry, hframed'⟩ := commonEntry_spec (c := { c with sp := ripAt vector c - 16#64 })
    hframed (by show 120 ≤ (ripAt vector c - 16#64).toNat; omega)
  have hbase : ripAt vector c - 16#64 - 120#64 = frameBase vector c := by
    rw [frameBase, BitVec.sub_sub]
    rfl
  refine ⟨m₂, ?_, ?_⟩
  · rw [atCall, hhead]
    refine hentry.trans ?_
    show (({ setReg (setReg c .rdi (ripAt vector c - 16#64 - 120#64)) .rbp
      (ripAt vector c - 16#64 - 120#64) with
        sp := ((ripAt vector c - 16#64 - 120#64) &&& ~~~15#64) - 8#64 } : Cpu Gpr), m₂) = _
    rw [hbase]
  · have haddr : (ripAt vector c - 16#64).toNat - 120 = (frameBase vector c).toNat := by
      have hto := frameBase_toNat h
      omega
    rw [← haddr]
    exact hframed'

/-- Aligned, and eight less. -/
theorem realigned (x : Word) : ((x &&& ~~~15#64) - 8#64).toNat % 16 = 8 := by
  have hmask : (x &&& ~~~15#64).toNat = x.toNat / 2 ^ 4 * 2 ^ 4 :=
    Masks.toNat_and_not_mask (k := 4) x (by decide)
  rw [BitVec.toNat_sub, hmask, BitVec.toNat_ofNat]
  omega

/-- The stack pointer at the call, whatever it was before. -/
theorem atCall_sp (vector : Nat) (c : Cpu Gpr) (m : Mem) :
    (atCall vector c m).1.sp.toNat % 16 = 8 :=
  realigned _

/-- The state at the first instruction of the handler. -/
theorem atHandler_spec (h : Entered vector s c m) (ret : Word) :
    (atHandler vector ret c m).1.reg .rdi = frameBase vector c ∧
      (atHandler vector ret c m).1.reg .rbp = frameBase vector c ∧
      Framed (atHandler vector ret c m).2 (frameBase vector c).toNat
        (frameWords vector s c.reg) := by
  obtain ⟨m', hcall, hframed⟩ := atCall_spec h
  rw [atHandler, hcall]
  refine ⟨rfl, rfl, ?_⟩
  -- the return address lies below the record
  have hbase := (frameBase_toNat h).2
  have hlt := (frameBase vector c).isLt
  have hmask : (frameBase vector c &&& ~~~15#64).toNat =
      (frameBase vector c).toNat / 2 ^ 4 * 2 ^ 4 := Masks.toNat_and_not_mask (k := 4) _ (by decide)
  have hsp : ((frameBase vector c &&& ~~~15#64) - 8#64 - 8#64).toNat + 8 ≤
      (frameBase vector c).toNat := by
    rw [BitVec.toNat_sub, BitVec.toNat_sub, hmask, BitVec.toNat_ofNat]
    omega
  refine hframed.congr fun x hlow _ => write64_outside ?_
  show _ ∨ ((frameBase vector c &&& ~~~15#64) - 8#64 - 8#64).toNat + 8 ≤ x
  omega

/-- The way back, from a handler that has left the record as it was. -/
theorem commonExit_spec (h : Framed m (c.reg .rbp).toNat (frameWords vector s reg))
    (hhigh : (c.reg .rbp).toNat + 136 < 2 ^ 64) :
    commonExit c m = ({ c with reg := reg, sp := c.reg .rbp + 136#64 }, m) ∧
      Framed m ((c.reg .rbp).toNat + 136) s.words := by
  have hframe : Framed m ({ c with sp := c.reg .rbp } : Cpu Gpr).sp.toNat
      (registers.reverse.map reg ++ BitVec.ofNat 64 vector :: errorCode vector s :: s.words) := h
  obtain ⟨hrun, -⟩ := run_pop hframe (by show (c.reg .rbp).toNat + 8 * 15 < _; omega)
  have hreg : (fun r => if r ∈ registers.reverse then reg r else c.reg r) = reg := by
    funext r
    rw [if_pos (List.mem_reverse.mpr (mem_registers r))]
  constructor
  · rw [commonExit, restoreAll_eq, hrun]
    show (({ c with
      reg := fun r => if r ∈ registers.reverse then reg r else c.reg r
      sp := c.reg .rbp + 120#64 + 16#64 } : Cpu Gpr), m) = _
    rw [hreg, BitVec.add_assoc]
    rfl
  · have hsplit : frameWords vector s reg = (registers.reverse.map reg ++
        [BitVec.ofNat 64 vector, errorCode vector s]) ++ s.words := by
      rw [frameWords, List.append_assoc]
      rfl
    rw [hsplit, framed_append] at h
    exact h.2

/-- Everything but the alignment. -/
theorem restores (h : Entered vector s c m)
    (habi : ObeysAbi handler (atHandler vector ret c m).1 (atHandler vector ret c m).2) :
    Restores vector handler ret s c m := by
  obtain ⟨hrdi, hrbp, hframed⟩ := atHandler_spec h ret
  obtain ⟨hbase, hlow⟩ := frameBase_toNat h
  have hlt := (ripAt vector c).isLt
  -- the record behind the handler
  have hkept : (handler (atHandler vector ret c m).1 (atHandler vector ret c m).2).1.reg .rbp =
      frameBase vector c := (habi.kept .rbp (by decide)).trans hrbp
  have hframed' : Framed (handler (atHandler vector ret c m).1 (atHandler vector ret c m).2).2
      (frameBase vector c).toNat (frameWords vector s c.reg) := by
    refine hframed.congr fun x hx hx' => ?_
    exact habi.frame x (by rw [hrdi]; exact hx) (by rw [hrdi]; exact hx')
  obtain ⟨hexit, hsaved⟩ := commonExit_spec (c := (handler (atHandler vector ret c m).1
    (atHandler vector ret c m).2).1) (by rw [hkept]; exact hframed') (by rw [hkept]; omega)
  have hiretq : atIretq vector handler ret c m = commonExit
      (handler (atHandler vector ret c m).1 (atHandler vector ret c m).2).1
      (handler (atHandler vector ret c m).1 (atHandler vector ret c m).2).2 := rfl
  have hrip : frameBase vector c + 136#64 = ripAt vector c := by
    rw [frameBase, BitVec.sub_add_cancel]
  constructor
  case presents =>
    rw [hrdi]
    exact frameAt_words hframed
  case registers =>
    intro r
    rw [hiretq, hexit]
  case atRip =>
    rw [hiretq, hexit]
    show _ + 136#64 = _
    rw [hkept, hrip]
  case saved =>
    rw [hiretq, hexit]
    rw [hkept] at hsaved
    have haddr : (frameBase vector c).toNat + 136 = (ripAt vector c).toNat := by omega
    rwa [haddr] at hsaved

/-- **No interrupt calls its handler as the ABI wants it**; all the rest is there, as far
as the handler obeys the ABI. -/
theorem interrupt_not_transparent (vector : Nat) (handler : Handler) (ret : Word) (s : Saved)
    (c : Cpu Gpr) (m : Mem) :
    ¬ Transparent vector handler ret s c m ∧ (atCall vector c m).1.sp.toNat % 16 = 8 ∧
      (Entered vector s c m →
        ObeysAbi handler (atHandler vector ret c m).1 (atHandler vector ret c m).2 →
        Restores vector handler ret s c m) := by
  have hsp := atCall_sp vector c m
  refine ⟨?_, hsp, restores⟩
  intro h
  have haligned := h.aligned
  omega

/-! ## From the interrupted program and back to it -/

/-- What the processor pushes is what the stub begins with. -/
theorem deliver_entered (vector : Nat) (cs ss errCode : Word) (m : Mem) (hroom : 224 ≤ c.sp.toNat) :
    Entered vector (savedOf c cs ss errCode) (deliver vector cs ss errCode c m).1
        (deliver vector cs ss errCode c m).2 ∧
      (deliver vector cs ss errCode c m).1.reg = c.reg := by
  have hlt := c.sp.isLt
  have hmask : (c.sp &&& ~~~15#64).toNat = c.sp.toNat / 2 ^ 4 * 2 ^ 4 :=
    Masks.toNat_and_not_mask (k := 4) _ (by decide)
  generalize hs : savedOf c cs ss errCode = s
  have hlen : (hardwareFrame vector s).length = 5 ∨ (hardwareFrame vector s).length = 6 := by
    unfold hardwareFrame
    split
    · exact Or.inr rfl
    · exact Or.inl rfl
  have hempty : Framed m ({ c with sp := c.sp &&& ~~~15#64 } : Cpu Gpr).sp.toNat [] := trivial
  obtain ⟨m', hpush, hframed, -⟩ := pushWords_framed (hardwareFrame vector s).reverse hempty (by
    rw [List.length_reverse]
    show _ ≤ (c.sp &&& ~~~15#64).toNat
    omega)
  rw [List.length_reverse, List.reverse_reverse, List.append_nil] at hframed
  rw [List.length_reverse] at hpush
  have hsp : ((c.sp &&& ~~~15#64) - BitVec.ofNat 64 (8 * (hardwareFrame vector s).length)).toNat =
      (c.sp &&& ~~~15#64).toNat - 8 * (hardwareFrame vector s).length := by
    rw [BitVec.toNat_sub, BitVec.toNat_ofNat]
    omega
  rw [deliver, hs, hpush]
  refine ⟨?_, rfl⟩
  constructor
  case framed =>
    show Framed m' ((c.sp &&& ~~~15#64) - _).toNat _
    rw [hsp]
    exact hframed
  case room =>
    show 160 ≤ ((c.sp &&& ~~~15#64) - BitVec.ofNat 64 (8 * (hardwareFrame vector s).length)).toNat
    omega
  case high =>
    show ((c.sp &&& ~~~15#64) - BitVec.ofNat 64 (8 * (hardwareFrame vector s).length)).toNat + 48 ≤ _
    omega

/-- **The interrupted program goes on as if nothing had happened**, as far as the
processor is concerned. -/
theorem interrupt_resumes {cs ss errCode : Word} (hroom : 224 ≤ c.sp.toNat)
    (habi : ObeysAbi handler
      (atHandler vector ret (deliver vector cs ss errCode c m).1
        (deliver vector cs ss errCode c m).2).1
      (atHandler vector ret (deliver vector cs ss errCode c m).1
        (deliver vector cs ss errCode c m).2).2) :
    iretq (atIretq vector handler ret (deliver vector cs ss errCode c m).1
        (deliver vector cs ss errCode c m).2).1
      (atIretq vector handler ret (deliver vector cs ss errCode c m).1
        (deliver vector cs ss errCode c m).2).2 = c := by
  obtain ⟨hentered, hreg⟩ := deliver_entered vector cs ss errCode m hroom
  have hback := restores hentered habi
  obtain ⟨-, hregisters, hrip, hsaved⟩ := hback
  generalize atIretq vector handler ret (deliver vector cs ss errCode c m).1
    (deliver vector cs ss errCode c m).2 = last at hregisters hrip hsaved ⊢
  rw [← hrip] at hsaved
  have hip : wordAt last.2 last.1.sp 0 = c.ip := hsaved.wordAt (show 0 < 5 by decide)
  have hflags : wordAt last.2 last.1.sp 2 = c.flags.word := hsaved.wordAt (show 2 < 5 by decide)
  have hsp : wordAt last.2 last.1.sp 3 = c.sp := hsaved.wordAt (show 3 < 5 by decide)
  rw [iretq, hip, hflags, hsp, Flags.load_word]
  have hregs : last.1.reg = c.reg := funext fun r => (hregisters r).trans (congrFun hreg r)
  rw [hregs]

end Stub

/-! ## The timer -/

/-- A handler that returns at once. -/
def returnsAtOnce : Handler := fun c m => ({ c with sp := c.sp + 8#64, ip := top c m }, m)

theorem returnsAtOnce_obeys (c : Cpu Gpr) (m : Mem) : ObeysAbi returnsAtOnce c m :=
  ⟨rfl, rfl, fun _ _ => rfl, fun _ _ _ => rfl⟩

/-- Zeros everywhere, and a stack pointer that is a multiple of 16. -/
def idleCpu : Cpu Gpr where
  reg := fun _ => 0#64
  sp := 0x8000#64
  ip := 0#64
  flags := Flags.load 0#64

def zeroSaved : Saved where
  errCode := 0#64
  rip := 0#64
  cs := 0#64
  rflags := 0#64
  rsp := 0#64
  ss := 0#64

theorem timer_entered : Entered 32 zeroSaved idleCpu (fun _ => 0#8) where
  framed := by
    refine ⟨?_, ?_, ?_, ?_, ?_, trivial⟩
    all_goals decide
  room := by decide
  high := by decide

/-- The timer interrupt, with a handler that does nothing. -/
theorem timer_misaligned : ¬ ∀ (vector : Nat) (handler : Handler) (ret : Word) (s : Saved)
    (c : Cpu Gpr) (m : Mem), vector < 48 → Entered vector s c m →
    ObeysAbi handler (atHandler vector ret c m).1 (atHandler vector ret c m).2 →
    Transparent vector handler ret s c m := by
  intro h
  have haligned := (h 32 returnsAtOnce 0#64 zeroSaved idleCpu (fun _ => 0#8) (by decide)
    timer_entered (returnsAtOnce_obeys _ _)).aligned
  have hsp := atCall_sp 32 idleCpu (fun _ => 0#8)
  omega

end VectorForth.Interrupts
