import VectorForth.Vm.Dictionary

/-!
# The native words

The C functions of `forth.c` whose addresses occur in code fields and compiled
cells, and the bodies of those that only act on `Data`. The ones that use the
return stack or the instruction pointer, re-enter the interpreter or switch
tasks are given with the machine.

Machine integers wrap; shift counts are taken modulo 64 and a quotient that
does not fit raises the divide exception, as on the processor.
-/

namespace VectorForth.Forth

open ByteMemory

/-- The C functions that the interpreter knows by address. -/
inductive CFun
  | doColon | doLiteral | doVariable | doConstant
  | rtBranch | rt0branch | rtDo | rtLoop
  | wDup | wDrop | wSwap | wOver | wRot | wNip | wTuck | w2dup | w2drop | w2swap | wQdup | wDepth
  | wPlus | wMinus | wMul | wDiv | wMod | wDivmod | wNegate | wAbs | wMin | wMax
  | w1plus | w1minus | w2star | w2slash
  | wAnd | wOr | wXor | wInvert | wLshift | wRshift
  | wEq | wNeq | wLt | wGt | wLe | wGe | w0eq | w0lt | w0gt
  | wToR | wFromR | wRFetch | wI
  | wFetch | wStore | wCfetch | wCstore | wPlusStore
  | wHere | wAllot | wComma | wCComma
  | wDot | wUDot | wDotS | wEmit | wCr | wSpace | wSpaces | wType | wDotQuote | wParen | wDotHex
  | wColon | wSemicolon | wCreate | wVariable | wConstant | wImmediate | wTick | wExecute | wSee
  | wLoad | wIf | wElse | wThen | wBegin | wUntil | wAgain | wWhile | wRepeat | wDo | wLoop
  | wFork | wYield | wBlock | wUpdate | wFlush | wWords | wBye | wClear | wDecimal | wHex | wBase
  | wStatus | wDump | wEdit | wVdup | wVplus
  deriving DecidableEq

/-- Where the linker put things: the kernel image lies below the dictionary,
and two functions have two addresses. -/
structure Image where
  addr : CFun → Cell
  /-- The function at an address. -/
  decode : Cell → Option CFun
  buffers : Nat
  decode_addr : ∀ f, decode (addr f) = some f
  addr_of_decode : ∀ {c f}, decode c = some f → addr f = c
  addr_range : ∀ f, 0xFFFF800000100000 ≤ (addr f).toNat ∧ (addr f).toNat < 0xFFFF800000200000

/-- The functions 16 bytes apart, in the order above. -/
def linearAddr (f : CFun) : Cell := BitVec.ofNat 64 (0xFFFF800000100000 + 16 * f.ctorIdx)

def linearDecode (c : Cell) : Option CFun :=
  if linearAddr (CFun.ofNat ((c.toNat - 0xFFFF800000100000) / 16)) = c then
    some (CFun.ofNat ((c.toNat - 0xFFFF800000100000) / 16))
  else none

theorem CFun.index_lt (f : CFun) : f.ctorIdx < 128 := by cases f <;> decide

theorem CFun.ofNat_index (f : CFun) : CFun.ofNat f.ctorIdx = f := by cases f <;> rfl

theorem linearAddr_toNat (f : CFun) :
    (linearAddr f).toNat = 0xFFFF800000100000 + 16 * f.ctorIdx := by
  have := f.index_lt
  rw [linearAddr, BitVec.toNat_ofNat, Nat.mod_eq_of_lt (by omega)]

def linearImage : Image where
  addr := linearAddr
  decode := linearDecode
  buffers := 0xFFFF800000140000
  decode_addr f := by
    have hindex : ((linearAddr f).toNat - 0xFFFF800000100000) / 16 = f.ctorIdx := by
      rw [linearAddr_toNat]
      omega
    rw [linearDecode, hindex, CFun.ofNat_index, if_pos rfl]
  addr_of_decode := by
    intro c f h
    unfold linearDecode at h
    split at h
    · cases h
      assumption
    · cases h
  addr_range f := by
    have := f.index_lt
    rw [linearAddr_toNat]
    omega

def flag (b : Bool) : Cell := if b then -1#64 else 0#64

/-! ## Stack -/

def wDup : NativeM Unit := do dsPush (← dsPeek)
def wDrop : NativeM Unit := do let _ ← dsPop
def wSwap : NativeM Unit := do let b ← dsPop; let a ← dsPop; dsPush b; dsPush a
def wOver : NativeM Unit := do dsPush (← dsPick 1)
def wRot : NativeM Unit := do
  let c ← dsPop; let b ← dsPop; let a ← dsPop; dsPush b; dsPush c; dsPush a
def wNip : NativeM Unit := do let t ← dsPop; let _ ← dsPop; dsPush t
def wTuck : NativeM Unit := do let b ← dsPop; let a ← dsPop; dsPush b; dsPush a; dsPush b
def w2dup : NativeM Unit := do let b ← dsPeek; let a ← dsPick 1; dsPush a; dsPush b
def w2drop : NativeM Unit := do let _ ← dsPop; let _ ← dsPop
def w2swap : NativeM Unit := do
  let d ← dsPop; let c ← dsPop; let b ← dsPop; let a ← dsPop
  dsPush c; dsPush d; dsPush a; dsPush b
def wQdup : NativeM Unit := do let t ← dsPeek; if t ≠ 0#64 then dsPush t
def wDepth : NativeM Unit := do dsPush (BitVec.ofNat 64 (← get).ds.length)

/-! ## Arithmetic -/

/-- Pop `b`, then `a`, and push `f a b`. -/
def binary (f : Cell → Cell → Cell) : NativeM Unit := do
  let b ← dsPop; let a ← dsPop; dsPush (f a b)

def unary (f : Cell → Cell) : NativeM Unit := do dsPush (f (← dsPop))

/-- `idiv` faults when the quotient does not fit. -/
def idiv (a b : Cell) : NativeM (Cell × Cell) :=
  if a = BitVec.intMin 64 ∧ b = -1#64 then hang else return (a.sdiv b, a.srem b)

def wPlus : NativeM Unit := binary (· + ·)
def wMinus : NativeM Unit := binary (· - ·)
def wMul : NativeM Unit := binary (· * ·)
def wDiv : NativeM Unit := do
  let b ← dsPop
  if b = 0#64 then do puts (text " Div/0!\n"); dsPush 0#64
  else do let a ← dsPop; dsPush (← idiv a b).1
def wMod : NativeM Unit := do
  let b ← dsPop
  if b = 0#64 then do puts (text " Div/0!\n"); dsPush 0#64
  else do let a ← dsPop; dsPush (← idiv a b).2
def wDivmod : NativeM Unit := do
  let b ← dsPop
  if b = 0#64 then do puts (text " Div/0!\n"); dsPush 0#64; dsPush 0#64
  else do
    let a ← dsPop
    let (q, r) ← idiv a b
    dsPush r
    dsPush q
def wNegate : NativeM Unit := unary (-·)
def wAbs : NativeM Unit := unary fun v => if v.slt 0#64 then -v else v
def wMin : NativeM Unit := binary fun a b => if a.slt b then a else b
def wMax : NativeM Unit := binary fun a b => if b.slt a then a else b
def w1plus : NativeM Unit := unary (· + 1#64)
def w1minus : NativeM Unit := unary (· - 1#64)
def w2star : NativeM Unit := unary (· <<< 1)
def w2slash : NativeM Unit := unary (BitVec.sshiftRight · 1)

def wAnd : NativeM Unit := binary (· &&& ·)
def wOr : NativeM Unit := binary (· ||| ·)
def wXor : NativeM Unit := binary (· ^^^ ·)
def wInvert : NativeM Unit := unary (~~~ ·)
def wLshift : NativeM Unit := binary fun v n => v <<< (n.toNat % 64)
def wRshift : NativeM Unit := binary fun v n => v >>> (n.toNat % 64)
def wEq : NativeM Unit := binary fun a b => flag (a == b)
def wNeq : NativeM Unit := binary fun a b => flag (a != b)
def wLt : NativeM Unit := binary fun a b => flag (a.slt b)
def wGt : NativeM Unit := binary fun a b => flag (b.slt a)
def wLe : NativeM Unit := binary fun a b => flag (a.sle b)
def wGe : NativeM Unit := binary fun a b => flag (b.sle a)
def w0eq : NativeM Unit := unary fun v => flag (v == 0#64)
def w0lt : NativeM Unit := unary fun v => flag (v.slt 0#64)
def w0gt : NativeM Unit := unary fun v => flag (BitVec.slt 0#64 v)

/-! ## SIMD -/

def wVdup : NativeM Unit := do
  if (← get).ds.length < 1 then return ()
  let top ← dsPop
  -- punpcklqdq puts the quadword in both halves
  dsPush top
  dsPush top

def wVplus : NativeM Unit := do
  if (← get).ds.length < 4 then puts (text " Stack Underflow for V+\n")
  else
    let b1 ← dsPop; let b0 ← dsPop
    let a1 ← dsPop; let a0 ← dsPop
    dsPush (a0 + b0)
    dsPush (a1 + b1)

/-! ## Memory -/

def wFetch : NativeM Unit := do dsPush (← fetchCell (← dsPop))
def wStore : NativeM Unit := do let a ← dsPop; let v ← dsPop; storeCell a v
def wCfetch : NativeM Unit := do dsPush ((← fetchByte (← dsPop)).setWidth 64)
def wCstore : NativeM Unit := do
  let a ← dsPop; let v ← dsPop; modify (·.setByte a (v.setWidth 8))
def wPlusStore : NativeM Unit := do
  let a ← dsPop; let v ← dsPop; storeCell a ((← fetchCell a) + v)

def wHere : NativeM Unit := do dsPush (← get).dictHere
def wAllot : NativeM Unit := do
  let n ← dsPop; modify fun d => { d with dictHere := d.dictHere + n }
def wComma : NativeM Unit := do let v ← dsPop; modify (·.dictComma v)
def wCComma : NativeM Unit := do let v ← dsPop; modify (·.dictCComma (v.setWidth 8))

/-! ## Output -/

def vgaPutHex (value : Cell) : NativeM Unit := do
  let buf := ultoa value.toNat 16
  puts (text "0x" ++ List.replicate (16 - buf.length) (chr '0') ++ buf)

def wDot : NativeM Unit := do
  let v ← dsPop; puts (ltoa v (← get).forthBase); putchar (chr ' ')
def wUDot : NativeM Unit := do
  let v ← dsPop; puts (ultoa v.toNat (← get).forthBase); putchar (chr ' ')
def wDotS : NativeM Unit := do
  let ds := (← get).ds
  puts (text "<" ++ itoa (BitVec.ofNat 32 ds.length) 10 ++ text "> ")
  puts (ds.reverse.flatMap fun v => ltoa v 10 ++ [chr ' '])
def wEmit : NativeM Unit := do let c ← dsPop; putchar (c.setWidth 8)
def wCr : NativeM Unit := putchar (chr '\n')
def wSpace : NativeM Unit := putchar (chr ' ')
def wSpaces : NativeM Unit := do
  let n ← dsPop; puts (List.replicate n.toInt.toNat (chr ' '))
def wType : NativeM Unit := do
  let len ← dsPop; let a ← dsPop
  let m := (← get).mem
  puts ((List.range len.toInt.toNat).map fun i => m (a.toNat + i))
def wDotQuote : NativeM Unit := do puts (← parseUntil (chr '"') 128)
def wParen : NativeM Unit := do let _ ← parseUntil (chr ')') 256
def wDotHex : NativeM Unit := do vgaPutHex (← dsPop); putchar (chr ' ')

def wWords : NativeM Unit := dictListWords
def wBye : NativeM Unit := do puts (text "\nSystem halted.\n"); hang
def wClear : NativeM Unit := modify fun d => { d with output := d.output ++ [.clear] }
def wDecimal : NativeM Unit := modify fun d => { d with forthBase := 10 }
def wHex : NativeM Unit := modify fun d => { d with forthBase := 16 }
def wBase : NativeM Unit := do dsPush (BitVec.ofNat 64 (← get).forthBase)

def wStatus : NativeM Unit := do
  let d ← get
  puts (text "=== System Status ===\n")
  puts (text "Ticks:       " ++ ultoa d.kernelTicks.toNat 10 ++ text "\n")
  puts (text "Dict HERE:   ")
  vgaPutHex d.dictHere
  putchar (chr '\n')
  puts (text "Stack depth: " ++ itoa (BitVec.ofNat 32 d.ds.length) 10 ++ text "\n")
  puts (text "State:       " ++
    text (if d.forthState = .compile then "COMPILE" else "INTERPRET") ++ text "\n")

/-- One byte of `w_dump`, with what surrounds it at the ends of a line. -/
def dumpByte (m : Mem) (addr : Cell) (i : Nat) : NativeM Unit := do
  if i % 16 = 0 then
    vgaPutHex (addr + BitVec.ofNat 64 i)
    puts (text ": ")
  let b := m (addr.toNat + i)
  if b < 16#8 then putchar (chr '0')
  puts (utoa (b.setWidth 32) 16)
  putchar (chr ' ')
  if i % 16 = 15 then
    puts (text " | ")
    puts ((List.range 16).map fun j =>
      let c := m (addr.toNat + (i - 15) + j)
      if 32#8 ≤ c ∧ c < 127#8 then c else chr '.')
    putchar (chr '\n')

def wDump : NativeM Unit := do
  let count ← dsPop
  let addr ← dsPop
  let m := (← get).mem
  let n := count.toInt.toNat
  (List.range n).forM (dumpByte m addr)
  if count.srem 16#64 ≠ 0#64 then putchar (chr '\n')

/-! ## Defining words and the compiler -/

section Compiler

variable (img : Image)

def wColon : NativeM Unit := do
  let name ← parseWord 64
  if name = [] then return ()
  modify (·.dictCreate name fHidden)
  modify (·.dictSetCode (img.addr .doColon))
  modify fun d => { d with forthState := .compile }

def wSemicolon : NativeM Unit := do
  modify (·.dictComma sentinelExit)
  modify fun d =>
    d.setByte (d.dictLatest + 8#64) (dictGetFlagsLen d.mem d.dictLatest &&& ~~~fHidden)
  modify fun d => { d with forthState := .interpret }

def wCreate : NativeM Unit := do
  let name ← parseWord 64
  if name = [] then return ()
  modify (·.dictCreate name 0#8)
  modify (·.dictSetCode (img.addr .doVariable))

def wVariable : NativeM Unit := do
  wCreate img
  modify (·.dictComma 0#64)

def wConstant : NativeM Unit := do
  let name ← parseWord 64
  if name = [] then return ()
  modify (·.dictCreate name 0#8)
  modify (·.dictSetCode (img.addr .doConstant))
  let v ← dsPop
  modify (·.dictComma v)

def wImmediate : NativeM Unit := modify fun d =>
  if d.dictLatest ≠ 0#64 then
    d.setByte (d.dictLatest + 8#64) (dictGetFlagsLen d.mem d.dictLatest ^^^ fImmediate)
  else d

def find (name : Text) : NativeM Cell := fun d => (dictFind d name).map (·, d)

def wTick : NativeM Unit := do
  let name ← parseWord 64
  if name = [] then return ()
  let entry ← find name
  if entry ≠ 0#64 then dsPush entry
  else puts (name ++ text " ? Not found\n")

/-- The listing loop of `w_see` from `pfa` on. -/
def seeFrom : Nat → Cell → NativeM Unit
  | 0, _ => hang
  | fuel + 1, pfa => do
      let cell ← fetchCell pfa
      if cell = sentinelExit then puts (text ";\n")
      else if cell = img.addr .doLiteral then
        let v ← fetchCell (pfa + 8#64)
        puts (ltoa v 10)
        putchar (chr ' ')
        seeFrom fuel (pfa + 16#64)
      else
        if InDict cell then
          puts (dictGetName (← get).mem cell)
          putchar (chr ' ')
        else puts (text "??? ")
        seeFrom fuel (pfa + 8#64)

def wSee : NativeM Unit := do
  let name ← parseWord 64
  if name = [] then return ()
  let entry ← find name
  if entry = 0#64 then puts (text " ? Not found\n")
  else
    let m := (← get).mem
    puts (text ": " ++ dictGetName m entry ++ text " ")
    let code ← fetchCell (dictGetCodeField m entry)
    if code = img.addr .doVariable then puts (text "VARIABLE\n")
    else if code = img.addr .doConstant then puts (text "CONSTANT\n")
    else if code ≠ img.addr .doColon then puts (text "<native>\n")
    else seeFrom img chainFuel (dictGetParamField m entry)

def wIf : NativeM Unit := do
  modify (·.dictComma (img.addr .rt0branch))
  dsPush (← get).dictHere
  modify (·.dictComma 0#64)

def wElse : NativeM Unit := do
  modify (·.dictComma (img.addr .rtBranch))
  let e := (← get).dictHere
  modify (·.dictComma 0#64)
  let hole ← dsPop
  modify fun d => d.setCell hole d.dictHere
  dsPush e

def wThen : NativeM Unit := do
  let hole ← dsPop
  modify fun d => d.setCell hole d.dictHere

def wBegin : NativeM Unit := do dsPush (← get).dictHere

def wUntil : NativeM Unit := do
  let b ← dsPop
  modify (·.dictComma (img.addr .rt0branch))
  modify (·.dictComma b)

def wAgain : NativeM Unit := do
  let b ← dsPop
  modify (·.dictComma (img.addr .rtBranch))
  modify (·.dictComma b)

def wWhile : NativeM Unit := do
  modify (·.dictComma (img.addr .rt0branch))
  dsPush (← get).dictHere
  modify (·.dictComma 0#64)

def wRepeat : NativeM Unit := do
  let w ← dsPop
  let b ← dsPop
  modify (·.dictComma (img.addr .rtBranch))
  modify (·.dictComma b)
  modify fun d => d.setCell w d.dictHere

def wDo : NativeM Unit := do
  modify (·.dictComma (img.addr .rtDo))
  dsPush (← get).dictHere

def wLoop : NativeM Unit := do
  let d ← dsPop
  modify (·.dictComma (img.addr .rtLoop))
  modify (·.dictComma d)

/-! ## Blocks -/

/-- `block_get`, returning the address of the block. -/
def blockGet (blockNum : BitVec 32) : NativeM Nat := fun d =>
  let (s, block) := BlockDevice.blockGet img.buffers d.toState blockNum
  some (block, { d with toState := s })

def wBlock : NativeM Unit := do
  let blk ← blockGet img ((← dsPop).setWidth 32)
  dsPush (BitVec.ofNat 64 (blk + BlockDevice.dataField))

def wUpdate : NativeM Unit := modify fun d =>
  { d with toState := BlockDevice.blockUpdate d.toState }

def wFlush : NativeM Unit := modify fun d =>
  { d with toState := BlockDevice.blockFlush img.buffers d.toState }

/-! ## Tasks -/

/-- `task_create`: the new task goes to the end of the ring. -/
def taskCreate (d : Data) (entry : Frame) : BitVec 32 × Data :=
  (d.nextPid,
    { d with
      tasks := d.tasks ++ [{ pid := d.nextPid, state := .ready, frames := [entry, .taskExit] }]
      nextPid := d.nextPid + 1#32 })

def wFork : NativeM Unit := do
  let xt ← dsPop
  modify fun d => { d with forkTargetXt := xt }
  let pid ← modifyGet (taskCreate · .wrapper)
  dsPush (pid.setWidth 64)

/-- The words that act on `Data` alone. -/
def dataWord : CFun → Option (NativeM Unit)
  | .wDup => some wDup | .wDrop => some wDrop | .wSwap => some wSwap | .wOver => some wOver
  | .wRot => some wRot | .wNip => some wNip | .wTuck => some wTuck | .w2dup => some w2dup
  | .w2drop => some w2drop | .w2swap => some w2swap | .wQdup => some wQdup
  | .wDepth => some wDepth
  | .wPlus => some wPlus | .wMinus => some wMinus | .wMul => some wMul | .wDiv => some wDiv
  | .wMod => some wMod | .wDivmod => some wDivmod | .wNegate => some wNegate | .wAbs => some wAbs
  | .wMin => some wMin | .wMax => some wMax | .w1plus => some w1plus | .w1minus => some w1minus
  | .w2star => some w2star | .w2slash => some w2slash
  | .wAnd => some wAnd | .wOr => some wOr | .wXor => some wXor | .wInvert => some wInvert
  | .wLshift => some wLshift | .wRshift => some wRshift
  | .wEq => some wEq | .wNeq => some wNeq | .wLt => some wLt | .wGt => some wGt
  | .wLe => some wLe | .wGe => some wGe | .w0eq => some w0eq | .w0lt => some w0lt
  | .w0gt => some w0gt
  | .wFetch => some wFetch | .wStore => some wStore | .wCfetch => some wCfetch
  | .wCstore => some wCstore | .wPlusStore => some wPlusStore
  | .wHere => some wHere | .wAllot => some wAllot | .wComma => some wComma
  | .wCComma => some wCComma
  | .wDot => some wDot | .wUDot => some wUDot | .wDotS => some wDotS | .wEmit => some wEmit
  | .wCr => some wCr | .wSpace => some wSpace | .wSpaces => some wSpaces | .wType => some wType
  | .wDotQuote => some wDotQuote | .wParen => some wParen | .wDotHex => some wDotHex
  | .wColon => some (wColon img) | .wSemicolon => some wSemicolon
  | .wCreate => some (wCreate img) | .wVariable => some (wVariable img)
  | .wConstant => some (wConstant img) | .wImmediate => some wImmediate | .wTick => some wTick
  | .wSee => some (wSee img)
  | .wIf => some (wIf img) | .wElse => some (wElse img) | .wThen => some wThen
  | .wBegin => some wBegin | .wUntil => some (wUntil img) | .wAgain => some (wAgain img)
  | .wWhile => some (wWhile img) | .wRepeat => some (wRepeat img) | .wDo => some (wDo img)
  | .wLoop => some (wLoop img)
  | .wBlock => some (wBlock img) | .wUpdate => some wUpdate | .wFlush => some (wFlush img)
  | .wWords => some wWords | .wBye => some wBye | .wClear => some wClear
  | .wDecimal => some wDecimal | .wHex => some wHex | .wBase => some wBase
  | .wStatus => some wStatus | .wDump => some wDump | .wFork => some wFork
  | .wVdup => some wVdup | .wVplus => some wVplus
  | _ => none

end Compiler

end VectorForth.Forth
