import VectorForth.Lib.Run
import Mathlib.Data.BitVec
import Mathlib.Logic.Function.Basic

/-!
# Physical memory manager

A bitmap of 4 KB pages, one bit a page, set when the page is in use
(`kernel/memory/pmm.c`). Arguments are the machine's 64-bit words, so the
roundings below wrap exactly where the C expressions do. A panic halts the
machine: an operation that panics has no result.
-/

namespace VectorForth.Pmm

abbrev Word : Type := BitVec 64

def pageSize : Nat := 4096

/-- `PMM_MAX_MEMORY`: the bitmap covers 4 GB. -/
def pmmMaxMemory : Nat := 4 * 1024 * 1024 * 1024

/-- `E820_USABLE`. -/
def e820Usable : BitVec 32 := 1

structure E820Entry where
  base : Word
  length : Word
  type : BitVec 32
deriving DecidableEq

/-- The static variables of `pmm.c`. -/
structure State where
  bitmap : Nat → BitVec 8
  totalPages : Nat
  usedPages : Word
  totalMemory : Nat

/-! ## Bitmap primitives -/

def bitmapSet (s : State) (page : Nat) : State :=
  { s with
    bitmap := Function.update s.bitmap (page / 8)
      (s.bitmap (page / 8) ||| (1#8 <<< (page % 8))) }

def bitmapClear (s : State) (page : Nat) : State :=
  { s with
    bitmap := Function.update s.bitmap (page / 8)
      (s.bitmap (page / 8) &&& ~~~(1#8 <<< (page % 8))) }

def bitmapTest (s : State) (page : Nat) : Bool :=
  (s.bitmap (page / 8) &&& (1#8 <<< (page % 8))) != 0#8

/-- `bitmap32[i]`: the bitmap read as little-endian 32-bit words. -/
def bitmap32 (s : State) (i : Nat) : BitVec 32 :=
  s.bitmap (4 * i + 3) ++ s.bitmap (4 * i + 2) ++ s.bitmap (4 * i + 1) ++ s.bitmap (4 * i)

/-- The inner loop of `bitmap_find_free`: the first free bit of word `i`. -/
def findFreeInWord (s : State) (i : Nat) : Option Nat :=
  ((List.range 32).map fun bit => i * 32 + bit).find?
    fun page => decide (page < s.totalPages) && !bitmapTest s page

/-- Only whole 32-bit words are searched; `none` is the source's `(u64)-1`. -/
def bitmapFindFree (s : State) : Option Nat :=
  (List.range (s.totalPages / 32)).findSome? fun i =>
    if bitmap32 s i != 0xFFFFFFFF#32 then findFreeInWord s i else none

/-- The loop of `bitmap_find_free_region` from page `i` on, with `n` pages to go. -/
def findRegionFrom (s : State) (count : Word) :
    (n i consecutive start : Nat) → Option Nat
  | 0, _, _, _ => none
  | n + 1, i, consecutive, start =>
      if bitmapTest s i then findRegionFrom s count n (i + 1) 0 start
      else
        let start' := if consecutive = 0 then i else start
        if count.toNat ≤ consecutive + 1 then some start'
        else findRegionFrom s count n (i + 1) (consecutive + 1) start'

def bitmapFindFreeRegion (s : State) (count : Word) : Option Nat :=
  findRegionFrom s count s.totalPages 0 0 0

/-! ## Marking one page -/

/-- Set the bit and count the page, without looking at the old bit. -/
def takePage (s : State) (page : Nat) : State :=
  { bitmapSet s page with usedPages := s.usedPages + 1 }

/-- `if (bitmap_test(page)) { bitmap_clear(page); pmm_used_pages--; }` -/
def releasePage (s : State) (page : Nat) : State :=
  if bitmapTest s page then { bitmapClear s page with usedPages := s.usedPages - 1 } else s

/-- The guarded body of the marking loop. -/
def reservePage (s : State) (page : Nat) : State :=
  if page < s.totalPages && !bitmapTest s page then takePage s page else s

/-! ## Allocation -/

def pmmAllocPage (s : State) : Option (Nat × State) :=
  match bitmapFindFree s with
  | none => none
  | some page => some (page * pageSize, takePage s page)

def pmmAllocPages (s : State) (count : Word) : Option (Nat × State) :=
  match bitmapFindFreeRegion s count with
  | none => none
  | some start =>
      some (start * pageSize, count.toNat.fold (fun i _ t => takePage t (start + i)) s)

def pmmFreePage (s : State) (physAddr : Word) : State :=
  let page := physAddr.toNat / pageSize
  if s.totalPages ≤ page then s else releasePage s page

/-- The page index `start_page + i` is a 64-bit sum. -/
def pmmFreePages (s : State) (physAddr count : Word) : State :=
  count.toNat.fold
    (fun i _ t =>
      let page := (physAddr.toNat / pageSize + i) % 2 ^ 64
      if page < t.totalPages then releasePage t page else t) s

/-! ## Marking regions -/

def pmmMarkRegionUsed (s : State) (base length : Word) : State :=
  let startPage := base.toNat / pageSize
  let pageCount := (length + 4095#64).toNat / pageSize
  pageCount.fold (fun i _ t => reservePage t (startPage + i)) s

/-- The loop runs while `page < end_page && page < pmm_total_pages`. -/
def pmmMarkRegionFree (s : State) (base length : Word) : State :=
  let startPage := (base + 4095#64).toNat / pageSize
  let endPage := (base + length).toNat / pageSize
  (min endPage s.totalPages - startPage).fold
    (fun i _ t => releasePage t (startPage + i)) s

/-! ## Initialisation -/

def pmmTotalMemory (mmap : List E820Entry) : Nat :=
  let highest := mmap.foldl
    (fun total e =>
      let last := (e.base + e.length).toNat
      if total < last ∧ e.type = e820Usable then last else total) 0
  if pmmMaxMemory < highest then pmmMaxMemory else highest

/-- `PMM_BITMAP_PHYS`. -/
def pmmBitmapPhys : Nat := 0x200000

def bitmapBytes (totalPages : Nat) : Nat :=
  if totalPages % 8 = 0 then totalPages / 8 else totalPages / 8 + 1

/-- Everything used: the state after `memset(pmm_bitmap, 0xFF, bitmap_bytes)`.
`old` is what the bitmap memory held before. -/
def pmmAllUsed (old : Nat → BitVec 8) (mmap : List E820Entry) : State :=
  let totalMemory := pmmTotalMemory mmap
  let totalPages := totalMemory / pageSize
  { bitmap := fun i => if i < bitmapBytes totalPages then 0xFF#8 else old i
    totalPages := totalPages
    usedPages := BitVec.ofNat 64 totalPages
    totalMemory := totalMemory }

def markUsable (s : State) (mmap : List E820Entry) : State :=
  mmap.foldl
    (fun t e => if e.type = e820Usable then pmmMarkRegionFree t e.base e.length else t) s

/-- The reservations at the end of `pmm_init`: the first 512 KB, the kernel
image and the bitmap itself. -/
def reserveCritical (s : State) : State :=
  let bitmapPages := (bitmapBytes s.totalPages + pageSize - 1) / pageSize
  let s₁ := pmmMarkRegionUsed s 0x0#64 0x80000#64
  let s₂ := pmmMarkRegionUsed s₁ 0x100000#64 0x100000#64
  pmmMarkRegionUsed s₂ (BitVec.ofNat 64 pmmBitmapPhys) (BitVec.ofNat 64 (bitmapPages * pageSize))

def pmmInit (old : Nat → BitVec 8) (mmap : List E820Entry) : State :=
  reserveCritical (markUsable (pmmAllUsed old mmap) mmap)

def pmmGetFreeMemory (s : State) : Word :=
  (BitVec.ofNat 64 s.totalPages - s.usedPages) * BitVec.ofNat 64 pageSize

end VectorForth.Pmm
