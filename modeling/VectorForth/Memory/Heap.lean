import VectorForth.Lib.ByteMemory
import VectorForth.Memory.Pmm

/-!
# The kernel heap

`kernel/memory/heap.c`: a singly linked list of blocks in flat memory, a header
of 32 bytes before every payload. Sizes and addresses are the machine's 64-bit
words, so the additions below wrap exactly where the C expressions do.
-/

namespace VectorForth.Heap

open ByteMemory

abbrev Word : Type := BitVec 64

def heapPhysStart : Word := 0x300000#64
def heapVirtStart : Word := 0xFFFF800000300000#64
def heapInitialSize : Word := 0x100000#64
def heapMagic : Word := 0xDEADBEEFCAFEBABE#64
def heapHeaderSize : Word := 32#64
def heapMinBlock : Word := 64#64

inductive SerialOut
  | puts (text : String)
  | putHex (value : Word)
  deriving DecidableEq

structure State where
  mem : Mem
  heapHead : Word
  heapEnd : Word
  heapTotal : Word
  heapUsed : Word
  pmm : Pmm.State
  serialLog : List SerialOut

/-- Why a call does not return. -/
inductive Stop
  /-- `kernel_panic(text)`. -/
  | panic (text : String)
  /-- A loop along links that never ends. -/
  | hang
  deriving DecidableEq

/-! ## The fields of a `heap_block_t` -/

def word (m : Mem) (a : Word) : Word := BitVec.ofNat 64 (read64 m a.toNat)
def setWord (m : Mem) (a v : Word) : Mem := write64 m a.toNat v.toNat

def size (m : Mem) (block : Word) : Word := word m block
def next (m : Mem) (block : Word) : Word := word m (block + 8#64)
def magic (m : Mem) (block : Word) : Word := word m (block + 16#64)
def free (m : Mem) (block : Word) : Byte := m (block + 24#64).toNat

def setSize (m : Mem) (block v : Word) : Mem := setWord m block v
def setNext (m : Mem) (block v : Word) : Mem := setWord m (block + 8#64) v
def setMagic (m : Mem) (block v : Word) : Mem := setWord m (block + 16#64) v
def setFree (m : Mem) (block : Word) (v : Byte) : Mem := write8 m (block + 24#64).toNat v

/-! ## heap.c -/

def heapInit (s : State) : State :=
  let m := setSize s.mem heapVirtStart (heapInitialSize - heapHeaderSize)
  let m := setNext m heapVirtStart 0#64
  let m := setMagic m heapVirtStart heapMagic
  let m := setFree m heapVirtStart 1#8
  { mem := m
    heapHead := heapVirtStart
    heapEnd := heapVirtStart + heapInitialSize
    heapTotal := heapInitialSize
    heapUsed := 0#64
    pmm := Pmm.pmmMarkRegionUsed s.pmm heapPhysStart heapInitialSize
    serialLog := s.serialLog ++
      [.puts "Heap: Initialized at ", .putHex heapVirtStart, .puts ", size=1MB\n"] }

def heapSplit (m : Mem) (block n : Word) : Mem :=
  if size m block ≤ n + heapHeaderSize + heapMinBlock then m
  else
    let newBlock := block + heapHeaderSize + n
    let m := setSize m newBlock (size m block - n - heapHeaderSize)
    let m := setNext m newBlock (next m block)
    let m := setMagic m newBlock heapMagic
    let m := setFree m newBlock 1#8
    let m := setSize m block n
    setNext m block newBlock

/-- A walk over more blocks than the heap has room for never ends. -/
def walkFuel : Nat := 0x8001

/-- The loop of `heap_coalesce`. -/
def heapCoalesceFrom : Nat → Mem → Word → Option Mem
  | 0, _, _ => none
  | fuel + 1, m, block =>
      if block = 0#64 ∨ next m block = 0#64 then some m
      else if free m block ≠ 0#8 ∧ free m (next m block) ≠ 0#8 then
        let m := setSize m block (size m block + (heapHeaderSize + size m (next m block)))
        let m := setNext m block (next m (next m block))
        heapCoalesceFrom fuel m block
      else heapCoalesceFrom fuel m (next m block)

def heapCoalesce (s : State) : Except Stop State :=
  match heapCoalesceFrom walkFuel s.mem s.heapHead with
  | some m => .ok { s with mem := m }
  | none => .error .hang

/-- The loop of `kmalloc`. -/
def kmallocFrom (s : State) (n : Word) : Nat → Word → Except Stop (State × Word)
  | 0, _ => .error .hang
  | fuel + 1, block =>
      if block = 0#64 then .error (.panic "Heap: Out of memory!")
      else if magic s.mem block ≠ heapMagic then .error (.panic "Heap corruption detected!")
      else if free s.mem block ≠ 0#8 ∧ n ≤ size s.mem block then
        let m := heapSplit s.mem block n
        let m := setFree m block 0#8
        .ok ({ s with mem := m, heapUsed := s.heapUsed + size m block }, block + heapHeaderSize)
      else kmallocFrom s n fuel (next s.mem block)

/-- `(size + 15) & ~15`. -/
def roundUp (n : Word) : Word := (n + 15#64) &&& ~~~15#64

def kmalloc (s : State) (n : Word) : Except Stop (State × Word) :=
  if n = 0#64 then .ok (s, 0#64) else kmallocFrom s (roundUp n) walkFuel s.heapHead

def kcalloc (s : State) (count n : Word) : Except Stop (State × Word) := do
  let total := count * n
  let (s, ptr) ← kmalloc s total
  if ptr ≠ 0#64 then .ok ({ s with mem := fill s.mem ptr.toNat 0#8 total.toNat }, ptr)
  else .ok (s, ptr)

def kfree (s : State) (ptr : Word) : Except Stop State :=
  if ptr = 0#64 then .ok s
  else
    let block := ptr - heapHeaderSize
    if magic s.mem block ≠ heapMagic then .error (.panic "Heap: Invalid free pointer!")
    else if free s.mem block ≠ 0#8 then
      .ok { s with serialLog := s.serialLog ++ [.puts "Heap: Double free detected!\n"] }
    else
      heapCoalesce { s with
        mem := setFree s.mem block 1#8
        heapUsed := s.heapUsed - size s.mem block }

def krealloc (s : State) (ptr newSize : Word) : Except Stop (State × Word) := do
  if ptr = 0#64 then kmalloc s newSize
  else if newSize = 0#64 then
    let s ← kfree s ptr
    .ok (s, 0#64)
  else
    let block := ptr - heapHeaderSize
    if magic s.mem block ≠ heapMagic then .error (.panic "Heap: Invalid realloc pointer!")
    else if newSize ≤ size s.mem block then .ok (s, ptr)
    else
      let (s, newPtr) ← kmalloc s newSize
      if newPtr ≠ 0#64 then
        let s ← kfree { s with
          mem := copy s.mem newPtr.toNat ptr.toNat (size s.mem block).toNat } ptr
        .ok (s, newPtr)
      else .ok (s, newPtr)

/-- The raw pointer is stored in the word before the aligned one. -/
def kmallocAligned (s : State) (n alignment : Word) : Except Stop (State × Word) := do
  let total := n + alignment + 8#64
  let (s, raw) ← kmalloc s total
  if raw = 0#64 then .ok (s, 0#64)
  else
    let addr := raw + 8#64
    let aligned := (addr + alignment - 1#64) &&& ~~~(alignment - 1#64)
    .ok ({ s with mem := setWord s.mem (aligned - 8#64) raw }, aligned)

end VectorForth.Heap
