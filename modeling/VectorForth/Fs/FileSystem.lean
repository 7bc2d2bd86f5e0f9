import VectorForth.Lib.Bitmap
import VectorForth.Fs.BlockKept

/-!
# The file system

`filesystem.c` over the block cache: the superblock, the allocation bitmap and
the allocator. The bitmap is kept in the data of blocks 2 and 3, a bit for every
block of the disk; `fs_alloc_block` looks at block 2 only.
-/

namespace VectorForth.BlockDevice

open ByteMemory LabelledRun Bitmap

/-! ## filesystem.c -/

def fsMagic : Nat := 0x48545246

/-- The offset of `header.type` in a `block_t`. -/
def typeField : Nat := 0

def superblock : BitVec 32 := 1#32
def bitmapBlock : BitVec 32 := 2#32

def State.log (s : State) (text : String) : State := { s with serialLog := s.serialLog ++ [text] }

def fsFormat (base : Nat) (s : State) : State :=
  let s := s.log "FS: Formatting empty disk...\n"
  -- superblock
  let (s, sb) := blockGet base s superblock
  let mem := fill s.mem (sb + dataField) 0#8 blockDataSize
  let mem := write32 mem (sb + typeField) fsMagic
  let mem := write32 mem (sb + dataField) 10000
  let s := blockUpdate { s with mem := mem }
  -- bitmap, with blocks 0 to 4 in use
  let (s, bitmap) := blockGet base s bitmapBlock
  let mem := fill s.mem (bitmap + dataField) 0#8 blockDataSize
  let mem := write8 mem (bitmap + dataField) 0x1F#8
  let s := blockUpdate { s with mem := mem }
  (blockFlush base s).log "FS: Format complete.\n"

def fsInit (base : Nat) (s : State) : State :=
  let (s, sb) := blockGet base s superblock
  if read32 s.mem (sb + typeField) ≠ fsMagic then fsFormat base s
  else s.log "FS: Valid Superblock found.\n"

/-- The inner loop: the first bit that is 0. -/
def freeBit (b : Byte) : Option Nat :=
  (List.range 8).find? fun bit => !((b &&& (1#8 <<< bit)) != 0#8)

/-- The outer loop: the first byte with such a bit. -/
def searchBitmap (m : Mem) (data : Nat) : Option (Nat × Nat) :=
  (List.range blockDataSize).findSome? fun byte =>
    if m (data + byte) ≠ 0xFF#8 then (freeBit (m (data + byte))).map fun bit => (byte, bit)
    else none

/-- `fs_alloc_block`; an error is the text of a kernel panic. -/
def fsAllocBlock (base : Nat) (s : State) : Except String (State × BitVec 32) :=
  let (s, bitmap) := blockGet base s bitmapBlock
  match searchBitmap s.mem (bitmap + dataField) with
  | some (byte, bit) =>
      let mem := write8 s.mem (bitmap + dataField + byte)
        (s.mem (bitmap + dataField + byte) ||| (1#8 <<< bit))
      .ok (blockUpdate { s with mem := mem }, BitVec.ofNat 32 (byte * 8 + bit))
  | none => .error "FS: Disk Full!"

/-! ## The search -/

/-- The blocks that a bitmap block has bits for. -/
def bitsPerBlock : Nat := blockDataSize * 8

section Search

variable {m : Mem} {data byte bit : Nat} {b : Byte}

theorem freeBit_some (h : freeBit b = some bit) :
    bit < 8 ∧ b.getLsbD bit = false ∧ ∀ j < bit, b.getLsbD j = true := by
  rw [freeBit, List.find?_range_eq_some] at h
  obtain ⟨hclear, hlt, hbefore⟩ := h
  rw [List.mem_range] at hlt
  rw [and_mask_ne_zero hlt] at hclear
  refine ⟨hlt, by simpa using hclear, ?_⟩
  intro j hj
  have hset := hbefore j hj
  rw [and_mask_ne_zero (by omega)] at hset
  simpa using hset

theorem freeBit_none (h : freeBit b = none) : ∀ j < 8, b.getLsbD j = true := by
  intro j hj
  have hset := List.find?_eq_none.mp h j (List.mem_range.mpr hj)
  rw [and_mask_ne_zero hj] at hset
  simpa using hset

/-- The bitmap whose bytes are stored at `data`. -/
def bitsAt (m : Mem) (data : Nat) : Nat → Byte := fun i => m (data + i)

/-- The search ends at the lowest free block. -/
theorem searchBitmap_some (h : searchBitmap m data = some (byte, bit)) :
    byte < blockDataSize ∧ bit < 8 ∧ bitAt (bitsAt m data) (byte * 8 + bit) = false ∧
      ∀ k < byte * 8 + bit, bitAt (bitsAt m data) k = true := by
  obtain ⟨i, hi, hfound, hbefore⟩ := findSome?_range h
  split at hfound
  · obtain ⟨bit', hbit', heq⟩ := Option.map_eq_some_iff.mp hfound
    obtain ⟨rfl, rfl⟩ := Prod.mk.inj heq
    obtain ⟨hlt, hclear, hlow⟩ := freeBit_some hbit'
    refine ⟨hi, hlt, ?_, ?_⟩
    · rw [bitAt_byte hlt]
      exact hclear
    · intro k hk
      have hsplit : k = k / 8 * 8 + k % 8 := by omega
      rw [hsplit, bitAt_byte (Nat.mod_lt _ (by decide))]
      rcases Nat.lt_or_ge (k / 8) i with hbyte | hbyte
      · -- a byte before the one found is all ones
        have hnone := hbefore (k / 8) hbyte
        split at hnone
        · rw [Option.map_eq_none_iff] at hnone
          exact freeBit_none hnone _ (Nat.mod_lt _ (by decide))
        · rename_i hfull
          rw [bitsAt, not_ne_iff.mp hfull]
          exact getLsbD_full (Nat.mod_lt _ (by decide))
      · have hsame : k / 8 = i := by omega
        rw [hsame]
        exact hlow _ (by omega)
  · cases hfound

/-- Nothing is found only if every bit is set. -/
theorem searchBitmap_none (h : searchBitmap m data = none) :
    ∀ k < bitsPerBlock, bitAt (bitsAt m data) k = true := by
  intro k hk
  have hsize : bitsPerBlock = blockDataSize * 8 := rfl
  have hsplit : k = k / 8 * 8 + k % 8 := by omega
  have hnone := findSome?_range_none h (k / 8) (by omega)
  rw [hsplit, bitAt_byte (Nat.mod_lt _ (by decide))]
  split at hnone
  · rw [Option.map_eq_none_iff] at hnone
    exact freeBit_none hnone _ (Nat.mod_lt _ (by decide))
  · rename_i hfull
    rw [bitsAt, not_ne_iff.mp hfull]
    exact getLsbD_full (Nat.mod_lt _ (by decide))

end Search

/-! ## The bitmap block -/

section Alloc

variable {base : Nat} {s s' : State} {n : BitVec 32} {contents : Nat → Byte}

/-- Bit `k` of the data of a block. -/
def usedIn (contents : Nat → Byte) (k : Nat) : Bool := bitAt (fun i => contents (dataField + i)) k

theorem payload_data {i : Nat} (hi : i < blockDataSize) : Payload (dataField + i) := by
  have hdata : blockDataSize = 1008 := rfl
  have hsize : blockSize = 1024 := rfl
  have hfield : dataField = 16 := rfl
  have hcrc : crcField = 12 := rfl
  constructor <;> omega

theorem usedIn_congr {c c' : Nat → Byte} (h : ∀ o, Payload o → c o = c' o) {k : Nat}
    (hk : k < bitsPerBlock) : usedIn c k = usedIn c' k := by
  have hsize : bitsPerBlock = blockDataSize * 8 := rfl
  rw [usedIn, usedIn, bitAt, bitAt, h _ (payload_data (by omega))]

theorem bitmapBlock_lt : bitmapBlock.toNat < blockLimit := by decide

theorem superblock_lt : superblock.toNat < blockLimit := by decide

/-- The block that `block_get` shows, byte for byte. -/
theorem Kept.shown (h : Kept base s n contents) (hok : CacheOk s) (hn : n.toNat < blockLimit)
    {o : Nat} (ho : Payload o) :
    (blockGet base s n).1.mem ((blockGet base s n).2 + o) = contents o :=
  h.view hok hn ho

/-- The bitmap that the allocator searches. -/
theorem bitAt_shown (h : Kept base s bitmapBlock contents) (hok : CacheOk s) {k : Nat}
    (hk : k < bitsPerBlock) :
    bitAt (bitsAt (blockGet base s bitmapBlock).1.mem
        ((blockGet base s bitmapBlock).2 + dataField)) k = usedIn contents k := by
  have hsize : bitsPerBlock = blockDataSize * 8 := rfl
  rw [usedIn, bitAt, bitAt, bitsAt, Nat.add_assoc,
    h.shown hok bitmapBlock_lt (payload_data (by omega))]

/-- `data[byte] |= 1 << bit` in the block at `ptr`. -/
def markBit (byte bit : Nat) (mem : Mem) (ptr : Nat) : Mem :=
  write8 mem (ptr + dataField + byte) (mem (ptr + dataField + byte) ||| (1#8 <<< bit))

/-- What a call that returns `n` has done. -/
structure Allocated (base : Nat) (s : State) (contents : Nat → Byte) (s' : State) (n : BitVec 32) :
    Prop where
  lt : n.toNat < bitsPerBlock
  free : usedIn contents n.toNat = false
  first : ∀ k < n.toNat, usedIn contents k = true
  ok : CacheOk s'
  marked : ∃ contents', Kept base s' bitmapBlock contents' ∧ ∀ k < bitsPerBlock,
    usedIn contents' k = (decide (k = n.toNat) || usedIn contents k)
  other : ∀ m c, m ≠ bitmapBlock → m.toNat < blockLimit → Kept base s m c → Kept base s' m c

/-- `fs_alloc_block` returns the lowest free block and marks it, and nothing else. -/
theorem fsAllocBlock_ok (hok : CacheOk s) (h : Kept base s bitmapBlock contents)
    (halloc : fsAllocBlock base s = .ok (s', n)) : Allocated base s contents s' n := by
  unfold fsAllocBlock at halloc
  dsimp only at halloc
  generalize hsearch : searchBitmap (blockGet base s bitmapBlock).1.mem
    ((blockGet base s bitmapBlock).2 + dataField) = found at halloc
  rcases found with _ | ⟨byte, bit⟩
  · cases halloc
  · obtain ⟨rfl, rfl⟩ := Prod.mk.inj (Except.ok.inj halloc)
    obtain ⟨hbyte, hbit, hclear, hlow⟩ := searchBitmap_some hsearch
    have hsize : bitsPerBlock = blockDataSize * 8 := rfl
    have hdata : blockDataSize = 1008 := rfl
    have hfield : dataField = 16 := rfl
    have hblock : blockSize = 1024 := rfl
    have hnum : (BitVec.ofNat 32 (byte * 8 + bit)).toNat = byte * 8 + bit := by
      rw [BitVec.toNat_ofNat, Nat.mod_eq_of_lt (by omega)]
    have hwithin : WithinBlock (markBit byte bit) := by
      intro mem ptr x hx
      exact write8_outside (by omega)
    have hre : Rewritten base s bitmapBlock _ (rewriteBlock base s bitmapBlock (markBit byte bit)) :=
      rewritten hok bitmapBlock_lt hwithin
    constructor
    case lt => omega
    case free =>
      rw [hnum, ← bitAt_shown h hok (by omega)]
      exact hclear
    case first =>
      intro k hk
      rw [hnum] at hk
      rw [← bitAt_shown h hok (by omega)]
      exact hlow k hk
    case ok => exact hre.ok
    case other => exact hre.other
    case marked =>
      refine ⟨_, hre.kept, ?_⟩
      intro k hk
      rw [hnum, ← bitAt_shown h hok hk]
      have hdiv : (byte * 8 + bit) / 8 = byte := by omega
      have hmod : (byte * 8 + bit) % 8 = bit := by omega
      have hset := bitAt_set (bitsAt (blockGet base s bitmapBlock).1.mem
        ((blockGet base s bitmapBlock).2 + dataField)) (byte * 8 + bit) k
      simp only [hdiv, hmod] at hset
      refine Eq.trans (congrArg (bitAt · k) ?_) hset
      funext i
      dsimp only
      rw [← Nat.add_assoc, markBit]
      by_cases hi : i = byte
      · subst hi
        rw [Function.update_self, write8_same]
        rfl
      · rw [Function.update_of_ne hi, write8_outside (by omega)]
        rfl

/-- A panic means that the whole of block 2 is in use. -/
theorem fsAllocBlock_error {e : String} (hok : CacheOk s) (h : Kept base s bitmapBlock contents)
    (halloc : fsAllocBlock base s = .error e) :
    e = "FS: Disk Full!" ∧ ∀ k < bitsPerBlock, usedIn contents k = true := by
  unfold fsAllocBlock at halloc
  dsimp only at halloc
  generalize hsearch : searchBitmap (blockGet base s bitmapBlock).1.mem
    ((blockGet base s bitmapBlock).2 + dataField) = found at halloc
  rcases found with _ | ⟨byte, bit⟩
  · refine ⟨(Except.error.inj halloc).symm, ?_⟩
    intro k hk
    rw [← bitAt_shown h hok hk]
    exact searchBitmap_none hsearch k hk
  · cases halloc

end Alloc

/-! ## The formatted disk -/

section Format

variable {base : Nat} {s : State} {contents : Nat → Byte}

/-- What the superblock of the disk records as its number of blocks. -/
def totalBlocks (base : Nat) (s : State) : Nat :=
  read32 (blockGet base s superblock).1.mem ((blockGet base s superblock).2 + dataField)

def formattedSuperblock (mem : Mem) (sb : Nat) : Mem :=
  write32 (write32 (fill mem (sb + dataField) 0#8 blockDataSize) (sb + typeField) fsMagic)
    (sb + dataField) 10000

def formattedBitmap (mem : Mem) (bitmap : Nat) : Mem :=
  write8 (fill mem (bitmap + dataField) 0#8 blockDataSize) (bitmap + dataField) 0x1F#8

theorem CacheOk.log (h : CacheOk s) (text : String) : CacheOk (s.log text) :=
  ⟨h.unique, h.inRange⟩

theorem Kept.log {n : BitVec 32} (h : Kept base s n contents) (text : String) :
    Kept base (s.log text) n contents :=
  ⟨h.cached, h.synced⟩

/-- The blocks 1 and 2 after `fs_format`, as the cache holds them. -/
structure Formatted (base : Nat) (s : State) : Prop where
  ok : CacheOk s
  bitmap : ∃ contents, Kept base s bitmapBlock contents ∧
    ∀ k < bitsPerBlock, usedIn contents k = decide (k < 5)
  magic : read32 (blockGet base s superblock).1.mem
    ((blockGet base s superblock).2 + typeField) = fsMagic
  total : totalBlocks base s = 10000

/-- Five blocks are in use on a formatted disk. -/
theorem usedIn_formatted (mem : Mem) (bitmap : Nat) {k : Nat} (hk : k < bitsPerBlock) :
    usedIn (fun o => formattedBitmap mem bitmap (bitmap + o)) k = decide (k < 5) := by
  have hsize : bitsPerBlock = blockDataSize * 8 := rfl
  rw [usedIn, bitAt, formattedBitmap]
  rcases Nat.eq_zero_or_pos (k / 8) with hbyte | hbyte
  · have hreserved : ∀ j < 8, (0x1F#8).getLsbD (j % 8) = decide (j < 5) := by decide
    rw [hbyte, Nat.add_zero, write8_same]
    exact hreserved k (by omega)
  · rw [write8_outside (by omega), ← Nat.add_assoc, fill_apply, if_pos (by omega)]
    have hlarge : ¬ k < 5 := by omega
    simp [hlarge]

theorem formattedSuperblock_within : WithinBlock formattedSuperblock := by
  intro mem sb x h
  have hdata : blockDataSize = 1008 := rfl
  have hsize : blockSize = 1024 := rfl
  have hfield : dataField = 16 := rfl
  have htype : typeField = 0 := rfl
  rw [formattedSuperblock, write32_outside (by omega), write32_outside (by omega),
    fill_outside (by omega)]

theorem formattedBitmap_within : WithinBlock formattedBitmap := by
  intro mem bitmap x h
  have hdata : blockDataSize = 1008 := rfl
  have hsize : blockSize = 1024 := rfl
  have hfield : dataField = 16 := rfl
  rw [formattedBitmap, write8_outside (by omega), fill_outside (by omega)]

theorem read32_total (mem : Mem) (sb : Nat) :
    read32 (formattedSuperblock mem sb) (sb + dataField) = 10000 := by
  rw [formattedSuperblock, read32, write32, readLE_writeLE]
  rfl

theorem read32_magic (mem : Mem) (sb : Nat) :
    read32 (formattedSuperblock mem sb) (sb + typeField) = fsMagic := by
  have hagree : AgreeOn (formattedSuperblock mem sb)
      (write32 (fill mem (sb + dataField) 0#8 blockDataSize) (sb + typeField) fsMagic)
      (sb + typeField) 4 :=
    agreeOn_writeLE (Or.inl (Nat.add_le_add_left (by decide) sb))
  rw [read32, readLE_congr hagree, write32, readLE_writeLE]
  rfl

/-- A field of a block, as `block_get` shows it. -/
theorem Kept.read32 {n : BitVec 32} {mem : Mem} {ptr field : Nat}
    (h : Kept base s n fun o => mem (ptr + o)) (hok : CacheOk s) (hn : n.toNat < blockLimit)
    (hfield : ∀ i < 4, Payload (field + i)) :
    ByteMemory.read32 (blockGet base s n).1.mem ((blockGet base s n).2 + field) =
      ByteMemory.read32 mem (ptr + field) := by
  refine readLE_move ?_
  intro i hi
  rw [Nat.add_assoc, h.shown hok hn (hfield i hi), Nat.add_assoc]

theorem fsFormat_eq (base : Nat) (s : State) :
    fsFormat base s = (blockFlush base (rewriteBlock base
      (rewriteBlock base (s.log "FS: Formatting empty disk...\n") superblock formattedSuperblock)
      bitmapBlock formattedBitmap)).log "FS: Format complete.\n" :=
  rfl

/-- `fs_format` leaves a superblock and a bitmap with five blocks in use. -/
theorem fsFormat_formatted (hok : CacheOk s) : Formatted base (fsFormat base s) := by
  rw [fsFormat_eq]
  have hsuper : Rewritten base _ _ _ (rewriteBlock base (s.log "FS: Formatting empty disk...\n")
      superblock formattedSuperblock) :=
    rewritten (hok.log _) superblock_lt formattedSuperblock_within
  generalize rewriteBlock base (s.log "FS: Formatting empty disk...\n") superblock
    formattedSuperblock = s₁ at hsuper ⊢
  have hbitmap : Rewritten base _ _ _ (rewriteBlock base s₁ bitmapBlock formattedBitmap) :=
    rewritten hsuper.ok bitmapBlock_lt formattedBitmap_within
  generalize rewriteBlock base s₁ bitmapBlock formattedBitmap = s₂ at hbitmap ⊢
  have hkept := hbitmap.other superblock _ (by decide) superblock_lt hsuper.kept
  obtain ⟨hok', hbits⟩ := kept_flush bitmapBlock_lt hbitmap.ok hbitmap.kept
  obtain ⟨-, hsuper'⟩ := kept_flush superblock_lt hbitmap.ok hkept
  have hlog := hok'.log "FS: Format complete.\n"
  constructor
  case ok => exact hlog
  case bitmap => exact ⟨_, hbits.log _, fun k hk => usedIn_formatted _ _ hk⟩
  case magic =>
    refine ((hsuper'.log _).read32 hlog superblock_lt ?_).trans (read32_magic _ _)
    decide
  case total =>
    refine ((hsuper'.log _).read32 hlog superblock_lt ?_).trans (read32_total _ _)
    decide

/-- The other blocks stay as they are. -/
theorem fsFormat_other {n : BitVec 32} (hok : CacheOk s) (h : Kept base s n contents)
    (hn : n.toNat < blockLimit) (hsuper : n ≠ superblock) (hbitmap : n ≠ bitmapBlock) :
    Kept base (fsFormat base s) n contents := by
  rw [fsFormat_eq]
  have hfirst : Rewritten base _ _ _ (rewriteBlock base (s.log "FS: Formatting empty disk...\n")
      superblock formattedSuperblock) :=
    rewritten (hok.log _) superblock_lt formattedSuperblock_within
  have hsecond : Rewritten base _ _ _ (rewriteBlock base _ bitmapBlock formattedBitmap) :=
    rewritten hfirst.ok bitmapBlock_lt formattedBitmap_within
  have hkept := hsecond.other n _ hbitmap hn (hfirst.other n _ hsuper hn (h.log _))
  exact (kept_flush hn hsecond.ok hkept).2.log _

/-- `fs_init` finds the superblock that `fs_format` left. -/
theorem fsInit_formatted (h : Formatted base s) :
    fsInit base s = (blockGet base s superblock).1.log "FS: Valid Superblock found.\n" :=
  if_neg (not_not_intro h.magic)

end Format

/-! ## The allocator among the other clients -/

structure Volume where
  cache : State
  /-- What `fs_alloc_block` has returned, the last first. -/
  allocated : List (BitVec 32)

inductive VolumeOp
  | alloc
  | get (n : BitVec 32)
  | write (x : Nat) (b : Byte)
  | update
  | flush
  | tick (t : BitVec 64)

/-- Calls in any order. The clients write where they like, but for the buffer of
the bitmap. -/
inductive VolumeStep (base : Nat) : Volume → VolumeOp → Volume → Prop
  | alloc {v : Volume} {s' : State} {n : BitVec 32} (h : fsAllocBlock base v.cache = .ok (s', n)) :
      VolumeStep base v .alloc { cache := s', allocated := n :: v.allocated }
  | get {v : Volume} {n : BitVec 32} (hn : n.toNat < blockLimit) :
      VolumeStep base v (.get n) { v with cache := (blockGet base v.cache n).1 }
  | write {v : Volume} {x : Nat} {b : Byte} (hx : AwayFrom base v.cache bitmapBlock x) :
      VolumeStep base v (.write x b)
        { v with cache := { v.cache with mem := write8 v.cache.mem x b } }
  | update {v : Volume} : VolumeStep base v .update { v with cache := blockUpdate v.cache }
  | flush {v : Volume} : VolumeStep base v .flush { v with cache := blockFlush base v.cache }
  | tick {v : Volume} {t : BitVec 64} :
      VolumeStep base v (.tick t) { v with cache := { v.cache with kernelTicks := t } }

/-- A disk that `fs_format` has just written. -/
def FreshVolume (base : Nat) (v : Volume) : Prop :=
  ∃ s, CacheOk s ∧ v.cache = fsFormat base s ∧ v.allocated = []

/-- The bitmap has the five reserved blocks and those that were returned. -/
structure Volume.Inv (base : Nat) (v : Volume) : Prop where
  ok : CacheOk v.cache
  bitmap : ∃ contents, Kept base v.cache bitmapBlock contents ∧ ∀ k < bitsPerBlock,
    usedIn contents k = true ↔ k < 5 ∨ ∃ n ∈ v.allocated, n.toNat = k
  nodup : v.allocated.Nodup
  unreserved : ∀ n ∈ v.allocated, 5 ≤ n.toNat

section Volume

variable {base : Nat} {v v' : Volume} {op : VolumeOp} {ops : List VolumeOp}

theorem FreshVolume.inv (h : FreshVolume base v) : v.Inv base := by
  obtain ⟨s, hok, hcache, halloc⟩ := h
  have hformat : Formatted base v.cache := by
    rw [hcache]
    exact fsFormat_formatted hok
  obtain ⟨contents, hkept, hbits⟩ := hformat.bitmap
  constructor
  case ok => exact hformat.ok
  case bitmap =>
    refine ⟨contents, hkept, ?_⟩
    intro k hk
    rw [hbits k hk, halloc]
    simp
  case nodup =>
    rw [halloc]
    exact List.nodup_nil
  case unreserved =>
    rw [halloc]
    exact fun n hn => absurd hn List.not_mem_nil

/-- A step of another client keeps the bitmap. -/
theorem Volume.Inv.client {s' : State} (h : v.Inv base) (hok : CacheOk s')
    (hkept : ∀ contents, Kept base v.cache bitmapBlock contents → Kept base s' bitmapBlock contents) :
    Volume.Inv base { v with cache := s' } := by
  obtain ⟨contents, hold, hbits⟩ := h.bitmap
  exact ⟨hok, ⟨contents, hkept _ hold, hbits⟩, h.nodup, h.unreserved⟩

theorem Volume.Inv.alloc {s' : State} {n : BitVec 32} (h : v.Inv base)
    (halloc : fsAllocBlock base v.cache = .ok (s', n)) :
    Volume.Inv base { cache := s', allocated := n :: v.allocated } := by
  obtain ⟨contents, hkept, hbits⟩ := h.bitmap
  have hcall := fsAllocBlock_ok h.ok hkept halloc
  -- the block found is clear in the bitmap, so it is neither reserved nor returned before
  have hnew : ¬ (n.toNat < 5 ∨ ∃ m ∈ v.allocated, m.toNat = n.toNat) := by
    rw [← hbits _ hcall.lt, hcall.free]
    exact Bool.false_ne_true
  obtain ⟨hreserved, hreturned⟩ := not_or.mp hnew
  obtain ⟨contents', hkept', hmarked⟩ := hcall.marked
  constructor
  case ok => exact hcall.ok
  case bitmap =>
    refine ⟨contents', hkept', ?_⟩
    intro k hk
    rw [hmarked k hk, Bool.or_eq_true, decide_eq_true_eq, hbits k hk]
    constructor
    · rintro (rfl | hlow | ⟨m, hm, rfl⟩)
      · exact Or.inr ⟨n, List.mem_cons_self .., rfl⟩
      · exact Or.inl hlow
      · exact Or.inr ⟨m, List.mem_cons_of_mem _ hm, rfl⟩
    · rintro (hlow | ⟨m, hm, rfl⟩)
      · exact Or.inr (Or.inl hlow)
      · rcases List.mem_cons.mp hm with rfl | hm
        · exact Or.inl rfl
        · exact Or.inr (Or.inr ⟨m, hm, rfl⟩)
  case nodup =>
    refine List.nodup_cons.mpr ⟨?_, h.nodup⟩
    intro hmem
    exact hreturned ⟨n, hmem, rfl⟩
  case unreserved =>
    intro m hm
    rcases List.mem_cons.mp hm with rfl | hm
    · omega
    · exact h.unreserved m hm

theorem VolumeStep.inv (h : v.Inv base) (hstep : VolumeStep base v op v') : v'.Inv base := by
  cases hstep with
  | alloc halloc => exact h.alloc halloc
  | get hn => exact h.client (h.ok.get hn) fun _ hk => hk.get h.ok bitmapBlock_lt _
  | write hx =>
      refine h.client ⟨h.ok.unique, h.ok.inRange⟩ ?_
      intro contents hk
      refine hk.congr ?_
      intro i hi hnum o ho
      have haway := hx i hi hnum
      obtain ⟨hlt, -⟩ := ho
      exact write8_outside (by omega)
  | update => exact h.client h.ok.update fun _ hk => hk.update
  | flush => exact h.client h.ok.flush fun _ hk => (kept_flush bitmapBlock_lt h.ok hk).2
  | tick => exact h.client ⟨h.ok.unique, h.ok.inRange⟩ fun _ hk => ⟨hk.cached, hk.synced⟩

theorem Volume.reachable (h₀ : FreshVolume base v) (hrun : Run (VolumeStep base) v ops v') :
    v'.Inv base :=
  hrun.invariant (I := Volume.Inv base) (fun _ _ _ h hstep => hstep.inv h) h₀.inv

/-- **No block is allocated twice**, and none of the reserved ones, whatever the
other clients do between the calls. -/
theorem allocated_once (h₀ : FreshVolume base v) (hrun : Run (VolumeStep base) v ops v') :
    v'.allocated.Nodup ∧ ∀ n ∈ v'.allocated, 5 ≤ n.toNat :=
  ⟨(Volume.reachable h₀ hrun).nodup, (Volume.reachable h₀ hrun).unreserved⟩

end Volume

/-! ## The whole disk -/

/-- The allocation bit of block `k`. The bitmap runs on from block 2 into block 3. -/
def marked (base : Nat) (s : State) (k : Nat) : Bool :=
  usedIn (view base s (bitmapBlock + BitVec.ofNat 32 (k / bitsPerBlock))) (k % bitsPerBlock)

/-- The allocator gives up only when `total` blocks are in use, and returns a free
one until then. -/
structure AllocatesAll (base : Nat) (s : State) (total : Nat) : Prop where
  full : fsAllocBlock base s = .error "FS: Disk Full!" → ∀ k < total, marked base s k = true
  free : (∃ k < total, marked base s k = false) → ∃ s' n, fsAllocBlock base s = .ok (s', n) ∧
    n.toNat < total ∧ marked base s n.toNat = false

section WholeDisk

variable {base : Nat} {s : State} {v v₀ : Volume} {ops : List VolumeOp} {contents : Nat → Byte}

theorem marked_low (hok : CacheOk s) (h : Kept base s bitmapBlock contents) {k : Nat}
    (hk : k < bitsPerBlock) : marked base s k = usedIn contents k := by
  rw [marked, Nat.div_eq_of_lt hk, Nat.mod_eq_of_lt hk]
  exact usedIn_congr (fun o ho => h.view hok bitmapBlock_lt ho) hk

theorem allocatesAll_iff {total : Nat} (hok : CacheOk s) (h : Kept base s bitmapBlock contents)
    (htotal : bitsPerBlock ≤ total) :
    AllocatesAll base s total ↔
      (∃ k < bitsPerBlock, marked base s k = false) ∨ ∀ k < total, marked base s k = true := by
  constructor
  · intro hall
    cases halloc : fsAllocBlock base s with
    | error e =>
        obtain ⟨rfl, -⟩ := fsAllocBlock_error hok h halloc
        exact Or.inr (hall.full halloc)
    | ok r =>
        have hcall := fsAllocBlock_ok hok h halloc
        exact Or.inl ⟨r.2.toNat, hcall.lt, (marked_low hok h hcall.lt).trans hcall.free⟩
  · rintro (⟨k, hk, hfree⟩ | hfull)
    · -- the search of block 2 succeeds
      cases halloc : fsAllocBlock base s with
      | error e =>
          obtain ⟨-, hused⟩ := fsAllocBlock_error hok h halloc
          rw [marked_low hok h hk, hused k hk] at hfree
          cases hfree
      | ok r =>
          obtain ⟨s', n⟩ := r
          have hcall := fsAllocBlock_ok hok h halloc
          have hclear := (marked_low hok h hcall.lt).trans hcall.free
          refine ⟨fun hpanic => ?_, fun _ => ⟨s', n, halloc, hcall.lt.trans_le htotal, hclear⟩⟩
          rw [halloc] at hpanic
          cases hpanic
    · refine ⟨fun _ => hfull, ?_⟩
      rintro ⟨k, hk, hfree⟩
      rw [hfull k hk] at hfree
      cases hfree

/-- **The allocator uses the whole disk exactly when block 2 has a bit to give, or
when no block is left**: the bits in block 3 are never looked at. -/
theorem whole_disk_iff (h₀ : FreshVolume base v₀) (hrun : Run (VolumeStep base) v₀ ops v) :
    AllocatesAll base v.cache (totalBlocks base v₀.cache) ↔
      (∃ k < bitsPerBlock, marked base v.cache k = false) ∨
        ∀ k < totalBlocks base v₀.cache, marked base v.cache k = true := by
  have h := Volume.reachable h₀ hrun
  obtain ⟨contents, hkept, -⟩ := h.bitmap
  obtain ⟨s, hok, hcache, -⟩ := h₀
  refine allocatesAll_iff h.ok hkept ?_
  rw [hcache, (fsFormat_formatted hok).total]
  decide

end WholeDisk

/-! ### The disk is full after 8059 blocks -/

/-- The lowest blocks are in use, `j` of them returned, and block 3 is blank. -/
structure Filled (base : Nat) (s : State) (j : Nat) : Prop where
  ok : CacheOk s
  bitmap : ∃ contents, Kept base s bitmapBlock contents ∧
    ∀ k < bitsPerBlock, usedIn contents k = decide (k < 5 + j)
  rest : Kept base s 3#32 fun _ => 0#8

section Filled

variable {base : Nat} {s : State} {j : Nat}

theorem Filled.alloc (h : Filled base s j) (hj : 5 + j < bitsPerBlock) :
    ∃ s' n, fsAllocBlock base s = .ok (s', n) ∧ Filled base s' (j + 1) := by
  obtain ⟨contents, hkept, hbits⟩ := h.bitmap
  cases halloc : fsAllocBlock base s with
  | error e =>
      obtain ⟨-, hused⟩ := fsAllocBlock_error h.ok hkept halloc
      have hset := (hbits _ hj).symm.trans (hused _ hj)
      simp at hset
  | ok r =>
      obtain ⟨s', n⟩ := r
      have hcall := fsAllocBlock_ok h.ok hkept halloc
      -- the lowest clear bit is the next one
      have hge : ¬ n.toNat < 5 + j := by
        have hfree := (hbits _ hcall.lt).symm.trans hcall.free
        simpa using hfree
      have hle : ¬ 5 + j < n.toNat := by
        intro hlt
        have hset := (hbits _ hj).symm.trans (hcall.first _ hlt)
        simp at hset
      have hn : n.toNat = 5 + j := by omega
      refine ⟨s', n, rfl, hcall.ok, ?_, hcall.other _ _ (by decide) (by decide) h.rest⟩
      obtain ⟨contents', hkept', hmarked⟩ := hcall.marked
      refine ⟨contents', hkept', ?_⟩
      intro k hk
      rw [hmarked k hk, hbits k hk, hn, ← Bool.decide_or]
      exact decide_eq_decide.mpr (by omega)

theorem Filled.run {v₀ : Volume} (h₀ : Filled base v₀.cache 0) (hj : 5 + j ≤ bitsPerBlock) :
    ∃ v, Run (VolumeStep base) v₀ (List.replicate j .alloc) v ∧ Filled base v.cache j := by
  induction j with
  | zero => exact ⟨v₀, .nil v₀, h₀⟩
  | succ j ih =>
      obtain ⟨v, hrun, hfilled⟩ := ih (by omega)
      obtain ⟨s', n, halloc, hfilled'⟩ := hfilled.alloc (by omega)
      refine ⟨{ cache := s', allocated := n :: v.allocated }, ?_, hfilled'⟩
      rw [List.replicate_succ']
      exact hrun.snoc (.alloc halloc)

/-- With the 8064 bits of block 2 in use the allocator panics, though the bits in
block 3 are clear. -/
theorem Filled.panic (h : Filled base s j) (hj : bitsPerBlock ≤ 5 + j) :
    fsAllocBlock base s = .error "FS: Disk Full!" ∧ marked base s bitsPerBlock = false := by
  obtain ⟨contents, hkept, hbits⟩ := h.bitmap
  constructor
  · cases halloc : fsAllocBlock base s with
    | error e =>
        obtain ⟨rfl, -⟩ := fsAllocBlock_error h.ok hkept halloc
        rfl
    | ok r =>
        have hcall := fsAllocBlock_ok h.ok hkept halloc
        have hlt := hcall.lt
        have hfree := (hbits _ hlt).symm.trans hcall.free
        rw [decide_eq_false_iff_not] at hfree
        omega
  · have hpayload : Payload (dataField + 0) := by decide
    have hview : view base s 3#32 (dataField + 0) = 0#8 := h.rest.view h.ok (by decide) hpayload
    exact congrArg (BitVec.getLsbD · 0) hview

end Filled

/-- A zeroed disk that has just been formatted. -/
def blankVolume : Volume where
  cache := fsFormat 0x1000 blankSession.cache
  allocated := []

theorem blankCache_ok : CacheOk blankSession.cache :=
  ⟨fun _ _ hi => absurd hi Bool.false_ne_true, fun _ hi => absurd hi Bool.false_ne_true⟩

theorem blankVolume_fresh : FreshVolume 0x1000 blankVolume :=
  ⟨blankSession.cache, blankCache_ok, rfl, rfl⟩

theorem blankVolume_cache : blankVolume.cache = fsFormat 0x1000 blankSession.cache := rfl

theorem blankVolume_formatted : Formatted 0x1000 blankVolume.cache := by
  rw [blankVolume_cache]
  exact fsFormat_formatted blankCache_ok

theorem blankVolume_filled : Filled 0x1000 blankVolume.cache 0 := by
  have hblank : Kept 0x1000 blankSession.cache 3#32 fun _ => 0#8 := by
    constructor
    case cached => exact fun _ hi => absurd hi Bool.false_ne_true
    case synced =>
      intro _ o _
      simp [diskBlock, blankSession]
  refine ⟨blankVolume_formatted.ok, blankVolume_formatted.bitmap, ?_⟩
  rw [blankVolume_cache]
  exact fsFormat_other blankCache_ok hblank (by decide) (by decide) (by decide)

/-- Two blocks from the fresh disk. -/
theorem allocated_once_blank :
    ∃ v, Run (VolumeStep 0x1000) blankVolume [.alloc, .alloc] v ∧
      v.allocated.Nodup ∧ ∀ n ∈ v.allocated, 5 ≤ n.toNat := by
  obtain ⟨v, hrun, -⟩ := blankVolume_filled.run (j := 2) (by decide)
  exact ⟨v, hrun, allocated_once blankVolume_fresh hrun⟩

theorem whole_disk_blank :
    AllocatesAll 0x1000 blankVolume.cache (totalBlocks 0x1000 blankVolume.cache) := by
  refine (whole_disk_iff blankVolume_fresh (.nil _)).mpr (Or.inl ⟨5, by decide, ?_⟩)
  obtain ⟨contents, hkept, hbits⟩ := blankVolume_filled.bitmap
  rw [marked_low blankVolume_filled.ok hkept (by decide), hbits 5 (by decide)]
  rfl

/-- The call after 8059 blocks panics, with block 8064 of 10000 free. -/
theorem panics_with_free_blocks :
    ∃ v, Run (VolumeStep 0x1000) blankVolume (List.replicate 8059 .alloc) v ∧
      fsAllocBlock 0x1000 v.cache = .error "FS: Disk Full!" ∧
      marked 0x1000 v.cache 8064 = false ∧
      ¬ AllocatesAll 0x1000 v.cache (totalBlocks 0x1000 blankVolume.cache) := by
  obtain ⟨v, hrun, hfilled⟩ := blankVolume_filled.run (j := 8059) (by decide)
  obtain ⟨hpanic, hfree⟩ := hfilled.panic (by decide)
  refine ⟨v, hrun, hpanic, hfree, ?_⟩
  intro hall
  have hlt : bitsPerBlock < totalBlocks 0x1000 blankVolume.cache := by
    rw [blankVolume_formatted.total]
    decide
  rw [hall.full hpanic bitsPerBlock hlt] at hfree
  cases hfree

end VectorForth.BlockDevice
