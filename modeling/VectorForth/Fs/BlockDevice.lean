import Mathlib.Data.List.FinRange
import VectorForth.Lib.ByteMemory

/-!
# The block device and its buffer cache

`block_device.c`: eight buffers of one 1024-byte block each over a disk of
512-byte sectors. The bookkeeping of a buffer is a record; its block lives in
memory, at the address `block_get` hands out. The disk is ideal: a sector
holds the last 512 bytes written to it.
-/

namespace VectorForth.BlockDevice

open ByteMemory

abbrev numBuffers : Nat := 8

instance : NeZero numBuffers := ⟨by decide⟩

def blockSize : Nat := 1024
def blockDataSize : Nat := 1008
def sectorSize : Nat := 512
def diskBlockOffsetSectors : BitVec 32 := 1024#32

/-- Offsets of `header.crc` and `data` in a `block_t`. -/
def crcField : Nat := 12
def dataField : Nat := 16

/-- `sizeof(block_buffer_t)` and the offset of its `block`. -/
def bufferSize : Nat := 1040
def blockField : Nat := 16

/-- The bookkeeping part of a `block_buffer_t`. -/
structure Buffer where
  blockNum : BitVec 32 := 0#32
  dirty : Bool := false
  valid : Bool := false
  lastUsed : BitVec 64 := 0#64

/-- Sectors by number; a sector is its bytes at the offsets below 512. -/
abbrev Disk : Type := BitVec 32 → Nat → Byte

structure State where
  mem : Mem
  buffers : Fin numBuffers → Buffer
  mostRecentBuffer : Fin numBuffers
  kernelTicks : BitVec 64
  disk : Disk
  serialLog : List String

/-- `&buffers[i].block`, for `buffers` at `base`. -/
def blockAddr (base : Nat) (i : Fin numBuffers) : Nat := base + bufferSize * i + blockField

/-! ## CRC32 -/

def crcBit (crc : BitVec 32) : BitVec 32 :=
  (crc >>> 1) ^^^ (0xEDB88320#32 &&& -(crc &&& 1#32))

def crcByte (crc : BitVec 32) (b : Byte) : BitVec 32 :=
  Nat.fold 8 (fun _ _ c => crcBit c) (crc ^^^ b.setWidth 32)

def calculateCrc32 (m : Mem) (data length : Nat) : BitVec 32 :=
  ~~~ Nat.fold length (fun i _ crc => crcByte crc (m (data + i))) 0xFFFFFFFF#32

/-! ## Sectors -/

def startSector (blockNum : BitVec 32) : BitVec 32 := diskBlockOffsetSectors + blockNum * 2#32

def ataWriteSector (s : State) (lba : BitVec 32) (buf : Nat) : State :=
  { s with disk := Function.update s.disk lba fun o => s.mem (buf + o) }

def ataReadSector (s : State) (lba : BitVec 32) (buf : Nat) : State :=
  { s with mem := store s.mem buf sectorSize (s.disk lba) }

/-! ## The cache -/

def State.setBuffer (s : State) (i : Fin numBuffers) (b : Buffer) : State :=
  { s with buffers := Function.update s.buffers i b }

def blockInit (base : Nat) (s : State) : State :=
  { s with mem := fill s.mem base 0#8 (bufferSize * numBuffers), buffers := fun _ => {} }

def writeBufferToDisk (base : Nat) (s : State) (idx : Fin numBuffers) : State :=
  if !(s.buffers idx).valid || !(s.buffers idx).dirty then s
  else
    let block := blockAddr base idx
    let crc := calculateCrc32 s.mem (block + dataField) blockDataSize
    let s := { s with mem := write32 s.mem (block + crcField) crc.toNat }
    let start := startSector (s.buffers idx).blockNum
    let s := ataWriteSector s start block
    let s := ataWriteSector s (start + 1#32) (block + sectorSize)
    s.setBuffer idx { s.buffers idx with dirty := false }

/-- The buffer that already holds the block. -/
def findBuffer (s : State) (blockNum : BitVec 32) : Option (Fin numBuffers) :=
  (List.finRange numBuffers).find? fun i =>
    (s.buffers i).valid && (s.buffers i).blockNum == blockNum

/-- The replacement loop: the first invalid buffer ends it, a strictly older
`last_used` moves the candidate. -/
def oldestFrom (s : State) : List (Fin numBuffers) → Fin numBuffers → BitVec 64 → Fin numBuffers
  | [], oldestIdx, _ => oldestIdx
  | i :: rest, oldestIdx, oldestTime =>
      if !(s.buffers i).valid then i
      else if (s.buffers i).lastUsed < oldestTime then oldestFrom s rest i (s.buffers i).lastUsed
      else oldestFrom s rest oldestIdx oldestTime

def oldestBuffer (s : State) : Fin numBuffers :=
  oldestFrom s (List.finRange numBuffers) 0 0xFFFFFFFFFFFFFFFF#64

/-- The CRC check after a load only warns. -/
def verifyCrc (base : Nat) (s : State) (idx : Fin numBuffers) : State :=
  let block := blockAddr base idx
  let expected := calculateCrc32 s.mem (block + dataField) blockDataSize
  let stored := read32 s.mem (block + crcField)
  { s with serialLog :=
      if stored ≠ 0 ∧ stored ≠ expected.toNat then
        s.serialLog ++ ["FS WARNING: CRC mismatch on block load!\n"]
      else s.serialLog }

/-- The miss path once the victim `idx` is chosen. -/
def loadBlock (base : Nat) (s : State) (idx : Fin numBuffers) (blockNum : BitVec 32) : State :=
  let s := writeBufferToDisk base s idx
  let start := startSector blockNum
  let block := blockAddr base idx
  let s := ataReadSector s start block
  let s := ataReadSector s (start + 1#32) (block + sectorSize)
  let s := verifyCrc base s idx
  { s.setBuffer idx
      { blockNum := blockNum, valid := true, dirty := false, lastUsed := s.kernelTicks } with
    mostRecentBuffer := idx }

/-- `block_get`: the new state and the address of the block. -/
def blockGet (base : Nat) (s : State) (blockNum : BitVec 32) : State × Nat :=
  match findBuffer s blockNum with
  | some i =>
      ({ s.setBuffer i { s.buffers i with lastUsed := s.kernelTicks } with mostRecentBuffer := i },
        blockAddr base i)
  | none =>
      let idx := oldestBuffer s
      (loadBlock base s idx blockNum, blockAddr base idx)

def blockUpdate (s : State) : State :=
  if (s.buffers s.mostRecentBuffer).valid then
    s.setBuffer s.mostRecentBuffer { s.buffers s.mostRecentBuffer with dirty := true }
  else s

def blockFlush (base : Nat) (s : State) : State :=
  (List.finRange numBuffers).foldl (writeBufferToDisk base) s

end VectorForth.BlockDevice
