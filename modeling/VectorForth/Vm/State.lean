import VectorForth.Fs.BlockDevice

/-!
# The state of the Forth virtual machine

The machine state is split by what a native word may touch: `Data` is what the
words that neither branch nor use the return stack see, `Vm` adds the return
stack and the instruction pointer of `stack.c`. Stacks are lists, top first,
bounded by the sizes of the C arrays. Memory is flat: two virtual addresses
never name the same byte. The C stack of a task is a list of frames.
-/

namespace VectorForth.Forth

open ByteMemory

abbrev Cell : Type := BitVec 64

def dictVirtBase : Nat := 0xFFFF800010000000
def dictSize : Nat := 1024 * 1024
def dataStackSize : Nat := 256
def returnStackSize : Nat := 256

/-- The cell that ends a colon body. -/
def sentinelExit : Cell := 0xDEADC0DE00000000#64

/-- A NUL-terminated text, without its terminator. -/
abbrev Text : Type := List Byte

def chr (c : Char) : Byte := BitVec.ofNat 8 c.toNat

def text (s : String) : Text := s.toList.map chr

/-- What reaches the console. -/
inductive Out
  | putchar (c : Byte)
  | clear
  deriving DecidableEq

inductive Mode
  | interpret
  | compile
  deriving DecidableEq

/-- An active C function. -/
inductive Frame
  /-- `forth_execute(entry)`, about to start. -/
  | execute (entry : Cell)
  /-- The loop of `forth_inner`. -/
  | inner
  /-- The loop of `forth_eval`. -/
  | eval
  /-- `w_load`, after its `forth_eval`. -/
  | load (savedPtr : Text)
  /-- `run_editor`, at the top of its loop and waiting for a key. -/
  | editor (blk : Nat) (blockNum : BitVec 32) (cursor : Nat)
  | editorKey (blk : Nat) (blockNum : BitVec 32) (cursor : Nat)
  /-- `forth_thread_wrapper`. -/
  | wrapper
  | taskExit
  /-- `while (1) hlt()`. -/
  | halt
  /-- The loop of `background_worker`. -/
  | worker
  /-- The loop of `forth_run`, and `forth_run` after a line was evaluated. -/
  | repl
  | prompt
  deriving DecidableEq

inductive TaskState
  | running
  | ready
  | dead
  deriving DecidableEq

structure Task where
  pid : BitVec 32
  state : TaskState
  /-- The C stack it was switched away from. -/
  frames : List Frame
  deriving DecidableEq

/-- `tasks` is the ring in the order of the `next` pointers and `current` the
index of `current_task`. -/
structure Data extends BlockDevice.State where
  dictHere : Cell
  dictLatest : Cell
  ds : List Cell
  forthState : Mode
  forthBase : Nat
  parsePtr : Text
  forkTargetXt : Cell
  output : List Out
  tasks : List Task
  current : Nat
  nextPid : BitVec 32

/-- Nothing stored anywhere, no task. -/
def blankData : Data where
  mem := fun _ => 0#8
  buffers := fun _ => {}
  mostRecentBuffer := 0
  kernelTicks := 0#64
  disk := fun _ _ => 0#8
  serialLog := []
  dictHere := BitVec.ofNat 64 dictVirtBase
  dictLatest := 0#64
  ds := []
  forthState := .interpret
  forthBase := 10
  parsePtr := []
  forkTargetXt := 0#64
  output := []
  tasks := []
  current := 0
  nextPid := 1#32

structure Vm where
  data : Data
  rs : List Cell
  ip : Cell

/-! ## Memory cells -/

def cellAt (m : Mem) (a : Cell) : Cell := BitVec.ofNat 64 (read64 m a.toNat)

def Data.setCell (d : Data) (a v : Cell) : Data :=
  { d with mem := write64 d.mem a.toNat v.toNat }

def Data.setByte (d : Data) (a : Cell) (b : Byte) : Data :=
  { d with mem := write8 d.mem a.toNat b }

/-! ## Console -/

def Data.puts (d : Data) (t : Text) : Data := { d with output := d.output ++ t.map .putchar }

theorem puts_nil (d : Data) : d.puts [] = d := by rw [Data.puts, List.map_nil, List.append_nil]

theorem puts_puts (d : Data) (t t' : Text) : (d.puts t).puts t' = d.puts (t ++ t') := by
  rw [Data.puts, Data.puts, Data.puts, List.append_assoc, List.map_append]

/-! ## Data stack -/

def Data.dsPush (d : Data) (v : Cell) : Data :=
  if d.ds.length ≥ dataStackSize then d.puts (text " Data Stack Overflow!\n")
  else { d with ds := v :: d.ds }

def Data.dsPop (d : Data) : Cell × Data :=
  match d.ds with
  | [] => (0#64, d.puts (text " Stack Underflow!\n"))
  | v :: ds => (v, { d with ds := ds })

def Data.dsPeek (d : Data) : Cell := d.ds.headD 0#64

def Data.dsPick (d : Data) (n : Nat) : Cell × Data :=
  match d.ds[n]? with
  | none => (0#64, d.puts (text " Invalid PICK!\n"))
  | some v => (v, d)

/-! ## Return stack -/

def Vm.rsPush (vm : Vm) (v : Cell) : Vm :=
  if vm.rs.length ≥ returnStackSize then
    { vm with data := vm.data.puts (text " Return Stack Overflow!\n") }
  else { vm with rs := v :: vm.rs }

def Vm.rsPop (vm : Vm) : Cell × Vm :=
  match vm.rs with
  | [] => (0#64, { vm with data := vm.data.puts (text " Return Stack Underflow!\n") })
  | v :: rs => (v, { vm with rs := rs })

def Vm.rsPeek (vm : Vm) : Cell := vm.rs.headD 0#64

/-! ## Instruction pointer -/

def Vm.ipFetchAdvance (vm : Vm) : Cell × Vm :=
  (cellAt vm.data.mem vm.ip, { vm with ip := vm.ip + 8#64 })

/-! ## Native code

A native word runs in `NativeM`; `none` means that it never returns to its
caller (it halts the processor, or loops). -/

abbrev NativeM : Type → Type := StateT Data Option

def dsPush (v : Cell) : NativeM Unit := modify (·.dsPush v)
def dsPop : NativeM Cell := modifyGet Data.dsPop
def dsPeek : NativeM Cell := do return (← get).dsPeek
def dsPick (n : Nat) : NativeM Cell := modifyGet (·.dsPick n)
def puts (t : Text) : NativeM Unit := modify (·.puts t)
def putchar (c : Byte) : NativeM Unit := puts [c]
def fetchCell (a : Cell) : NativeM Cell := do return cellAt (← get).mem a
def storeCell (a v : Cell) : NativeM Unit := modify (·.setCell a v)
def fetchByte (a : Cell) : NativeM Byte := do return (← get).mem a.toNat

/-- Never returns. -/
def hang {α : Type} : NativeM α := failure

end VectorForth.Forth
