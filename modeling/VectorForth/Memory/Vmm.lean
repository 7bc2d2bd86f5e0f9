import VectorForth.Lib.ByteMemory
import Mathlib.Data.BitVec

/-!
# Virtual memory manager

`kernel/memory/vmm.c` over physical memory, with a table named by its physical
address, as the processor names it. The kernel goes through pointers of that value
(`Memory/Pointers.lean`), which is the same while the tables lie in the identity
mapping. The page allocator is a parameter; it has no result when it panics. The
TLB is not modelled.
-/

namespace VectorForth.Vmm

open ByteMemory

abbrev Word : Type := BitVec 64

def pageSize : Nat := 4096

def ptePresent : Word := 1#64
def pteWritable : Word := 2#64
def pteHuge : Word := 0x80#64
def pteAddrMask : Word := 0x000FFFFFFFFFF000#64

/-- Physical memory, `cr3` and the page allocator. -/
structure State (P : Type) where
  mem : Mem
  cr3 : Word
  pmm : P

def entry (m : Mem) (table index : Word) : Word :=
  BitVec.ofNat 64 (read64 m (table + 8#64 * index).toNat)

def setEntry (m : Mem) (table index v : Word) : Mem :=
  write64 m (table + 8#64 * index).toNat v.toNat

def pml4Index (virt : Word) : Word := (virt >>> 39) &&& 0x1FF#64
def pdptIndex (virt : Word) : Word := (virt >>> 30) &&& 0x1FF#64
def pdIndex (virt : Word) : Word := (virt >>> 21) &&& 0x1FF#64
def ptIndex (virt : Word) : Word := (virt >>> 12) &&& 0x1FF#64

section Vmm

variable {P : Type} (pmmAllocPage : P → Option (Word × P))

def getPml4 (s : State P) : Word := s.cr3 &&& pteAddrMask

/-- The table that the entry names, made when there is none; NULL when the allocator
returns no page. -/
def vmmGetOrCreateTable (s : State P) (table index flags : Word) : Option (State P × Word) :=
  if entry s.mem table index &&& ptePresent = 0#64 then do
    let (phys, pmm) ← pmmAllocPage s.pmm
    if phys = 0#64 then some ({ s with pmm := pmm }, 0#64)
    else
      let m := fill s.mem phys.toNat 0#8 pageSize
      let m := setEntry m table index (phys ||| flags ||| ptePresent ||| pteWritable)
      some ({ s with mem := m, pmm := pmm }, entry m table index &&& pteAddrMask)
  else some (s, entry s.mem table index &&& pteAddrMask)

def vmmMapPage (s : State P) (virt phys flags : Word) : Option (State P × Int) := do
  let (s, pdpt) ← vmmGetOrCreateTable pmmAllocPage s (getPml4 s) (pml4Index virt)
    (ptePresent ||| pteWritable)
  if pdpt = 0#64 then some (s, -1)
  else
    let (s, pd) ← vmmGetOrCreateTable pmmAllocPage s pdpt (pdptIndex virt)
      (ptePresent ||| pteWritable)
    if pd = 0#64 then some (s, -1)
    else
      let (s, pt) ← vmmGetOrCreateTable pmmAllocPage s pd (pdIndex virt)
        (ptePresent ||| pteWritable)
      if pt = 0#64 then some (s, -1)
      else
        let m := setEntry s.mem pt (ptIndex virt) ((phys &&& pteAddrMask) ||| flags ||| ptePresent)
        some ({ s with mem := m }, 0)

def vmmUnmapPage (s : State P) (virt : Word) : State P :=
  let pml4 := getPml4 s
  let i4 := pml4Index virt
  if entry s.mem pml4 i4 &&& ptePresent = 0#64 then s
  else
    let pdpt := entry s.mem pml4 i4 &&& pteAddrMask
    let i3 := pdptIndex virt
    if entry s.mem pdpt i3 &&& ptePresent = 0#64 then s
    else
      let pd := entry s.mem pdpt i3 &&& pteAddrMask
      let i2 := pdIndex virt
      if entry s.mem pd i2 &&& ptePresent = 0#64 then s
      else if entry s.mem pd i2 &&& pteHuge ≠ 0#64 then
        { s with mem := setEntry s.mem pd i2 0#64 }
      else
        let pt := entry s.mem pd i2 &&& pteAddrMask
        { s with mem := setEntry s.mem pt (ptIndex virt) 0#64 }

def vmmGetPhys (s : State P) (virt : Word) : Word :=
  let pml4 := getPml4 s
  let i4 := pml4Index virt
  if entry s.mem pml4 i4 &&& ptePresent = 0#64 then -1#64
  else
    let pdpt := entry s.mem pml4 i4 &&& pteAddrMask
    let i3 := pdptIndex virt
    if entry s.mem pdpt i3 &&& ptePresent = 0#64 then -1#64
    else if entry s.mem pdpt i3 &&& pteHuge ≠ 0#64 then
      (entry s.mem pdpt i3 &&& pteAddrMask) ||| (virt &&& 0x3FFFFFFF#64)
    else
      let pd := entry s.mem pdpt i3 &&& pteAddrMask
      let i2 := pdIndex virt
      if entry s.mem pd i2 &&& ptePresent = 0#64 then -1#64
      else if entry s.mem pd i2 &&& pteHuge ≠ 0#64 then
        (entry s.mem pd i2 &&& pteAddrMask) ||| (virt &&& 0x1FFFFF#64)
      else
        let pt := entry s.mem pd i2 &&& pteAddrMask
        let i1 := ptIndex virt
        if entry s.mem pt i1 &&& ptePresent = 0#64 then -1#64
        else (entry s.mem pt i1 &&& pteAddrMask) ||| (virt &&& 0xFFF#64)

/-- The loop of `vmm_map_range`, with the pages still to map. -/
def vmmMapRangeFrom (virtStart physStart flags : Word) :
    Nat → Word → State P → Option (State P × Int)
  | 0, _, s => some (s, 0)
  | k + 1, i, s => do
      let (s, ret) ← vmmMapPage pmmAllocPage s (virtStart + i * 4096#64) (physStart + i * 4096#64)
        flags
      if ret ≠ 0 then some (s, ret)
      else vmmMapRangeFrom virtStart physStart flags k (i + 1#64) s

def vmmMapRange (s : State P) (virtStart physStart size flags : Word) : Option (State P × Int) :=
  let pages := (size + 4096#64 - 1#64) / 4096#64
  vmmMapRangeFrom pmmAllocPage virtStart physStart flags pages.toNat 0#64 s

def vmmIsMapped (s : State P) (virt : Word) : Bool := vmmGetPhys s virt != -1#64

end Vmm

/-! ## The boot page tables (`boot/paging.asm`) -/

def pml4Addr : Nat := 0x70000
def pdptIdentAddr : Nat := 0x71000
def pdIdentAddr : Nat := 0x72000
def pdptHigherAddr : Nat := 0x73000
def pdHigherAddr : Nat := 0x74000

def pageRw : Nat := 0x3
def pageRwHuge : Nat := 0x83

/-- The two `mov dword` that write a table entry. -/
def movEntry (m : Mem) (a eax : Nat) : Mem := write32 (write32 m a eax) (a + 4) 0

def setupPaging (m : Mem) : Mem :=
  let m := fill m pml4Addr 0#8 (5 * 4096)
  let m := movEntry m (pml4Addr + 0 * 8) (pdptIdentAddr ||| pageRw)
  let m := movEntry m (pml4Addr + 256 * 8) (pdptHigherAddr ||| pageRw)
  let m := movEntry m (pdptIdentAddr + 0 * 8) (pdIdentAddr ||| pageRw)
  let m := movEntry m (pdIdentAddr + 0 * 8) (0x000000 ||| pageRwHuge)
  let m := movEntry m (pdIdentAddr + 1 * 8) (0x200000 ||| pageRwHuge)
  let m := movEntry m (pdptHigherAddr + 0 * 8) (pdHigherAddr ||| pageRw)
  -- `edi` and `eax` move on by an entry and by 2 MB
  (List.range 16).foldl
    (fun m i => movEntry m (pdHigherAddr + i * 8) (pageRwHuge + i * 0x200000)) m

/-- The machine after `setup_paging` has loaded `cr3`. -/
def bootState {P : Type} (m : Mem) (pmm : P) : State P where
  mem := setupPaging m
  cr3 := BitVec.ofNat 64 pml4Addr
  pmm := pmm

end VectorForth.Vmm
