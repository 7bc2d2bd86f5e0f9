import VectorForth.Fs.BlockCache
import VectorForth.Lib.Crc

/-!
# What the checksum detects

`calculate_crc32` is the feedback register of `Lib.Crc`, started with ones and
read inverted. So it tells contents apart that differ within 32 consecutive bits.
A block goes to the disk with its checksum, and `block_get` compares; but a
stored checksum of zero stands for a block that has none.
-/

namespace VectorForth.BlockDevice

open ByteMemory

/-! ## The register -/

def crcPolynomial : BitVec 32 := 0xEDB88320#32

/-- The bits of a byte in the order of the routine. -/
def byteBits (b : Byte) : List Bool := (List.range 8).map b.getLsbD

/-- Bit `k` of the bytes at `a`. -/
def messageBit (m : Mem) (a k : Nat) : Bool := (m (a + k / 8)).getLsbD (k % 8)

def bitStream (m : Mem) (a n : Nat) : List Bool := (List.range (8 * n)).map (messageBit m a)

section Register

variable {m m' : Mem} {a a' n : Nat}

theorem crcBit_eq (crc : BitVec 32) : crcBit crc = Crc.shift crcPolynomial crc := by
  have hmask : -(crc &&& 1#32) = if crc.getLsbD 0 then BitVec.allOnes 32 else 0#32 := by
    rw [BitVec.and_one_eq_setWidth_ofBool_getLsbD]
    cases crc.getLsbD 0 <;> rfl
  rw [crcBit, hmask, Crc.shift, crcPolynomial]
  split <;> simp

theorem word_byteBits (b : Byte) : (Crc.word (byteBits b) : BitVec 32) = b.setWidth 32 := by
  apply BitVec.eq_of_getLsbD_eq
  intro i hi
  rw [Crc.getLsbD_word hi, BitVec.getLsbD_setWidth, byteBits]
  by_cases h : i < 8
  · rw [List.getD_eq_getElem _ _ (by simpa using h)]
    simp [hi]
  · rw [List.getD_eq_default _ _ (by simpa using h), BitVec.getLsbD_of_ge b i (by omega)]
    simp

/-- Eight shifts of the register with the byte in it feed the bits of the byte. -/
theorem crcByte_eq (crc : BitVec 32) (b : Byte) :
    crcByte crc b = Crc.feed crcPolynomial crc (byteBits b) := by
  have hlen : (byteBits b).length = 8 := by rw [byteBits, List.length_map, List.length_range]
  rw [Crc.feed_eq_iterate (by omega), word_byteBits, hlen, crcByte]
  simp only [Nat.fold, crcBit_eq]
  rfl

theorem bitStream_succ (m : Mem) (a n : Nat) :
    bitStream m a (n + 1) = bitStream m a n ++ byteBits (m (a + n)) := by
  rw [bitStream, bitStream, Nat.mul_succ, List.range_add, List.map_append, List.map_map, byteBits]
  congr 1
  apply List.map_congr_left
  intro i hi
  rw [List.mem_range] at hi
  have hdiv : (8 * n + i) / 8 = n := by omega
  have hmod : (8 * n + i) % 8 = i := by omega
  rw [Function.comp_apply, messageBit, hdiv, hmod]

/-- **The routine feeds the bits of its bytes to the register.** -/
theorem calculateCrc32_eq (m : Mem) (a n : Nat) :
    calculateCrc32 m a n = ~~~ Crc.feed crcPolynomial 0xFFFFFFFF#32 (bitStream m a n) := by
  have hfold : Nat.fold n (fun i _ crc => crcByte crc (m (a + i))) 0xFFFFFFFF#32 =
      Crc.feed crcPolynomial 0xFFFFFFFF#32 (bitStream m a n) := by
    induction n with
    | zero => rfl
    | succ n ih => rw [Nat.fold_succ, ih, crcByte_eq, bitStream_succ, Crc.feed_append]
  rw [calculateCrc32, hfold]

theorem getElem?_bitStream {k : Nat} (hk : k < 8 * n) :
    (bitStream m a n)[k]? = some (messageBit m a k) := by
  rw [bitStream, List.getElem?_map, List.getElem?_range hk, Option.map_some]

/-- Bytes that differ, differ in a bit. -/
theorem bitAt_ne {i : Nat} (h : m (a + i) ≠ m' (a' + i)) :
    ∃ j < 8, messageBit m a (8 * i + j) ≠ messageBit m' a' (8 * i + j) := by
  by_contra hall
  apply h
  apply BitVec.eq_of_getLsbD_eq
  intro j hj
  by_contra hbit
  refine hall ⟨j, hj, ?_⟩
  have hdiv : (8 * i + j) / 8 = i := by omega
  have hmod : (8 * i + j) % 8 = j := by omega
  rwa [messageBit, messageBit, hdiv, hmod]

/-- The two strings differ, and only within 32 consecutive bits. -/
structure Burst (m : Mem) (a : Nat) (m' : Mem) (a' n : Nat) : Prop where
  differ : ∃ i < n, m (a + i) ≠ m' (a' + i)
  within : ∃ s, ∀ k, k < 8 * n → messageBit m a k ≠ messageBit m' a' k → s ≤ k ∧ k < s + 32

theorem Burst.crc_ne (h : Burst m a m' a' n) : calculateCrc32 m a n ≠ calculateCrc32 m' a' n := by
  obtain ⟨i, hi, hbyte⟩ := h.differ
  obtain ⟨s, hs⟩ := h.within
  obtain ⟨j, hj, hbit⟩ := bitAt_ne hbyte
  have hlen : ∀ m a, (bitStream m a n).length = 8 * n := by simp [bitStream]
  have hbits : bitStream m a n ≠ bitStream m' a' n := by
    intro heq
    have hget := congrArg (fun l : List Bool => l[8 * i + j]?) heq
    rw [getElem?_bitStream (by omega), getElem?_bitStream (by omega)] at hget
    exact hbit (Option.some.inj hget)
  have hfeed : Crc.feed crcPolynomial 0xFFFFFFFF#32 (bitStream m a n) ≠
      Crc.feed crcPolynomial 0xFFFFFFFF#32 (bitStream m' a' n) := by
    refine Crc.feed_ne rfl ((hlen m a).trans (hlen m' a').symm) hbits s fun k hk hdiff => ?_
    rw [hlen] at hk
    rw [getElem?_bitStream hk, getElem?_bitStream hk] at hdiff
    exact hs k hk fun hsame => hdiff (congrArg some hsame)
  rw [calculateCrc32_eq, calculateCrc32_eq]
  exact fun heq => hfeed (BitVec.not_inj.mp heq)

/-- Strings that differ in four consecutive bytes differ in a burst. -/
theorem burst_of_bytes {s : Nat} (hdiffer : ∃ i < n, m (a + i) ≠ m' (a' + i))
    (hsame : ∀ i < n, (i < s ∨ s + 4 ≤ i) → m (a + i) = m' (a' + i)) : Burst m a m' a' n := by
  refine ⟨hdiffer, 8 * s, fun k hk hbit => ?_⟩
  by_contra hout
  have hbyte := hsame (k / 8) (by omega) (by omega)
  rw [messageBit, messageBit, hbyte] at hbit
  exact hbit rfl

/-- **The checksum detects every burst**: strings of one length that differ, but
only within 32 consecutive bits, have different checksums; in particular strings
that differ only within four consecutive bytes. -/
theorem crc32_detects_burst (m m' : Mem) (a a' n : Nat) (hdiffer : ∃ i < n, m (a + i) ≠ m' (a' + i))
    (hwindow : (∃ s, ∀ k, k < 8 * n → messageBit m a k ≠ messageBit m' a' k → s ≤ k ∧ k < s + 32) ∨
      ∃ s, ∀ i < n, (i < s ∨ s + 4 ≤ i) → m (a + i) = m' (a' + i)) :
    calculateCrc32 m a n ≠ calculateCrc32 m' a' n := by
  rcases hwindow with hbits | ⟨s, hbytes⟩
  · exact Burst.crc_ne ⟨hdiffer, hbits⟩
  · exact (burst_of_bytes hdiffer hbytes).crc_ne

theorem crc32_detects_burst_byte :
    calculateCrc32 (fun _ => 0#8) 0 1008 ≠ calculateCrc32 (write8 (fun _ => 0#8) 500 1#8) 0 1008 := by
  refine crc32_detects_burst _ _ 0 0 1008 ⟨500, by decide, by simp⟩ (Or.inr ⟨500, fun i _ hi => ?_⟩)
  rw [write8_outside (by omega)]

end Register

/-! ## Saved blocks -/

/-- `block_get` reads block `n` from a disk that holds `d` by then. -/
def ReadsFrom (base : Nat) (t : State) (n : BitVec 32) (d : Disk) : Prop :=
  findBuffer t n = none ∧ (writeBufferToDisk base t (oldestBuffer t)).disk = d

/-- `block_get` takes the CRC-mismatch branch. -/
def Warns (base : Nat) (t : State) (n : BitVec 32) : Prop :=
  (blockGet base t n).1.serialLog = t.serialLog ++ ["FS WARNING: CRC mismatch on block load!\n"]

/-- The stored header of block `n` is that of `d`. -/
def SameHeader (d d' : Disk) (n : BitVec 32) : Prop :=
  ∀ o < dataField, diskBlock d' n o = diskBlock d n o

/-- The checksum of the stored data. -/
def storedCrc (d : Disk) (n : BitVec 32) : BitVec 32 :=
  calculateCrc32 (diskBlock d n) dataField blockDataSize

section Saved

variable {base : Nat} {s t : State} {idx : Fin numBuffers} {n : BitVec 32} {d : Disk}

@[simp] theorem writeBufferToDisk_serialLog :
    (writeBufferToDisk base s idx).serialLog = s.serialLog := by
  unfold writeBufferToDisk
  split <;> rfl

/-- The bytes of a read block are those on the disk. -/
theorem calculateCrc32_move {m m' : Mem} {a a' k : Nat} (h : ∀ i < k, m (a + i) = m' (a' + i)) :
    calculateCrc32 m a k = calculateCrc32 m' a' k := by
  have hbits : bitStream m a k = bitStream m' a' k := by
    apply List.map_congr_left
    intro j hj
    rw [List.mem_range] at hj
    rw [messageBit, messageBit, h (j / 8) (by omega)]
  rw [calculateCrc32_eq, calculateCrc32_eq, hbits]

/-- **The check of `block_get`**: the stored checksum is not zero and is not that
of the data. -/
theorem warns_iff (h : ReadsFrom base t n d) : Warns base t n ↔
    read32 (diskBlock d n) crcField ≠ 0 ∧ read32 (diskBlock d n) crcField ≠ (storedCrc d n).toNat := by
  obtain ⟨hmiss, rfl⟩ := h
  have hself : ∀ o, o < blockSize → (loadBlock base t (oldestBuffer t) n).mem
      (blockAddr base (oldestBuffer t) + o) =
      diskBlock (writeBufferToDisk base t (oldestBuffer t)).disk n o := fun o ho => loadBlock_mem_self ho
  have hstored : read32 (loadBlock base t (oldestBuffer t) n).mem
      (blockAddr base (oldestBuffer t) + crcField) =
      read32 (diskBlock (writeBufferToDisk base t (oldestBuffer t)).disk n) crcField := by
    apply readLE_move
    intro i hi
    rw [Nat.add_assoc]
    exact hself _ (by unfold crcField blockSize; omega)
  have hdata : calculateCrc32 (loadBlock base t (oldestBuffer t) n).mem
      (blockAddr base (oldestBuffer t) + dataField) blockDataSize =
      storedCrc (writeBufferToDisk base t (oldestBuffer t)).disk n := by
    apply calculateCrc32_move
    intro i hi
    rw [Nat.add_assoc]
    exact hself _ (by unfold dataField blockSize blockDataSize at *; omega)
  have hlog : (loadBlock base t (oldestBuffer t) n).serialLog =
      if read32 (diskBlock (writeBufferToDisk base t (oldestBuffer t)).disk n) crcField ≠ 0 ∧
          read32 (diskBlock (writeBufferToDisk base t (oldestBuffer t)).disk n) crcField ≠
            (storedCrc (writeBufferToDisk base t (oldestBuffer t)).disk n).toNat then
        t.serialLog ++ ["FS WARNING: CRC mismatch on block load!\n"]
      else t.serialLog := by
    rw [← hstored, ← hdata]
    simp only [loadBlock, verifyCrc, ataReadSector, State.setBuffer, writeBufferToDisk_serialLog]
  rw [Warns, blockGet, hmiss]
  dsimp only
  rw [hlog]
  split
  · rename_i hwarn
    exact iff_of_true rfl hwarn
  · rename_i hquiet
    exact iff_of_false (by simp) hquiet

/-- What a write-back leaves on the disk: the block, with its checksum in the header. -/
theorem written_spec (hv : (s.buffers idx).valid = true) (hd : (s.buffers idx).dirty = true)
    (hn : (s.buffers idx).blockNum = n) :
    read32 (diskBlock (writeBufferToDisk base s idx).disk n) crcField =
        (calculateCrc32 s.mem (blockAddr base idx + dataField) blockDataSize).toNat ∧
      storedCrc (writeBufferToDisk base s idx).disk n =
        calculateCrc32 s.mem (blockAddr base idx + dataField) blockDataSize := by
  have hself : ∀ o, diskBlock (writeBufferToDisk base s idx).disk n o =
      (writeBufferToDisk base s idx).mem (blockAddr base idx + o) := by
    intro o
    rw [← hn]
    exact diskBlock_writeBufferToDisk_self hv hd o
  constructor
  · have hread : read32 (diskBlock (writeBufferToDisk base s idx).disk n) crcField =
        read32 (writeBufferToDisk base s idx).mem (blockAddr base idx + crcField) := by
      apply readLE_move
      intro i _
      rw [hself, Nat.add_assoc]
    have hmod : ∀ v : BitVec 32, v.toNat % 256 ^ 4 = v.toNat := fun v =>
      Nat.mod_eq_of_lt v.isLt
    rw [hread, writeBufferToDisk_dirty_mem hv hd, read32, write32, readLE_writeLE, hmod]
  · apply calculateCrc32_move
    intro i _
    rw [hself, ← Nat.add_assoc]
    apply writeBufferToDisk_mem
    unfold crcField dataField
    omega

/-- The stored block with one bit of its data changed. -/
def spoiled (d : Disk) (n : BitVec 32) : Disk :=
  Function.update d (startSector n) fun o =>
    if o = dataField then d (startSector n) o ^^^ 1#8 else d (startSector n) o

theorem diskBlock_spoiled (d : Disk) (n : BitVec 32) (o : Nat) :
    diskBlock (spoiled d n) n o =
      if o = dataField then diskBlock d n o ^^^ 1#8 else diskBlock d n o := by
  have hdata : dataField < sectorSize := by decide
  rw [diskBlock, diskBlock, spoiled]
  split
  · rw [Function.update_self]
  · rw [Function.update_of_ne (startSector_ne_next n).symm, if_neg (by omega)]

theorem spoiled_sameHeader (d : Disk) (n : BitVec 32) : SameHeader d (spoiled d n) n := by
  intro o ho
  rw [diskBlock_spoiled, if_neg (by omega)]

theorem spoiled_burst (d : Disk) (n : BitVec 32) :
    Burst (diskBlock d n) dataField (diskBlock (spoiled d n) n) dataField blockDataSize := by
  apply burst_of_bytes (s := 0)
  · refine ⟨0, by decide, ?_⟩
    rw [Nat.add_zero, diskBlock_spoiled, if_pos rfl]
    intro h
    have hbit := congrArg (fun b : Byte => b.getLsbD 0) h
    simp at hbit
  · intro i _ hi
    rw [diskBlock_spoiled, if_neg (by omega)]

/-- An empty cache over the disk. -/
def State.emptied (s : State) (d : Disk) : State := { s with buffers := fun _ => {}, disk := d }

theorem readsFrom_emptied (s : State) (d : Disk) (n : BitVec 32) :
    ReadsFrom base (s.emptied d) n d := by
  refine ⟨?_, ?_⟩
  · rw [findBuffer, List.find?_eq_none]
    intro i _
    simp [State.emptied]
  · rw [writeBufferToDisk_clean (by simp [State.emptied])]
    rfl

/-- A burst in the stored data is reported exactly when the checksum is not the
marker of an empty block. -/
theorem burst_warns_iff (hv : (s.buffers idx).valid = true) (hd : (s.buffers idx).dirty = true)
    (hn : (s.buffers idx).blockNum = n) (hread : ReadsFrom base t n d)
    (hheader : SameHeader (writeBufferToDisk base s idx).disk d n)
    (hburst : Burst (diskBlock (writeBufferToDisk base s idx).disk n) dataField (diskBlock d n)
      dataField blockDataSize) :
    Warns base t n ↔
      calculateCrc32 s.mem (blockAddr base idx + dataField) blockDataSize ≠ 0#32 := by
  obtain ⟨hstored, hcrc⟩ := @written_spec base _ _ _ hv hd hn
  have hsame : read32 (diskBlock d n) crcField =
      read32 (diskBlock (writeBufferToDisk base s idx).disk n) crcField := by
    apply readLE_move
    intro i hi
    exact hheader _ (by unfold crcField dataField; omega)
  have hne : storedCrc (writeBufferToDisk base s idx).disk n ≠ storedCrc d n := hburst.crc_ne
  rw [hcrc] at hne
  rw [warns_iff hread, hsame, hstored]
  constructor
  · rintro ⟨hzero, -⟩ h
    rw [h] at hzero
    exact hzero rfl
  · intro h
    exact ⟨fun hz => h (BitVec.eq_of_toNat_eq hz), fun heq => hne (BitVec.eq_of_toNat_eq heq)⟩

/-- What is promised of the block in buffer `idx` when it has been saved: the next
`block_get` that reads it reports every burst in its stored data, and is quiet if
nothing has changed. -/
structure Guarded (base : Nat) (s : State) (idx : Fin numBuffers) : Prop where
  reported : ∀ t d, ReadsFrom base t (s.buffers idx).blockNum d →
    SameHeader (writeBufferToDisk base s idx).disk d (s.buffers idx).blockNum →
    Burst (diskBlock (writeBufferToDisk base s idx).disk (s.buffers idx).blockNum) dataField
      (diskBlock d (s.buffers idx).blockNum) dataField blockDataSize →
    Warns base t (s.buffers idx).blockNum
  quiet : ∀ t d, ReadsFrom base t (s.buffers idx).blockNum d →
    (∀ o < blockSize, diskBlock d (s.buffers idx).blockNum o =
      diskBlock (writeBufferToDisk base s idx).disk (s.buffers idx).blockNum o) →
    ¬ Warns base t (s.buffers idx).blockNum

/-- An unchanged block is never reported. -/
theorem unchanged_quiet (hv : (s.buffers idx).valid = true) (hd : (s.buffers idx).dirty = true)
    (hn : (s.buffers idx).blockNum = n) (hread : ReadsFrom base t n d)
    (hsame : ∀ o < blockSize, diskBlock d n o = diskBlock (writeBufferToDisk base s idx).disk n o) :
    ¬ Warns base t n := by
  obtain ⟨hstored, hcrc⟩ := @written_spec base _ _ _ hv hd hn
  have hstored' : read32 (diskBlock d n) crcField =
      read32 (diskBlock (writeBufferToDisk base s idx).disk n) crcField := by
    apply readLE_move
    intro i hi
    exact hsame _ (by unfold crcField blockSize; omega)
  have hcrc' : storedCrc d n = storedCrc (writeBufferToDisk base s idx).disk n := by
    apply calculateCrc32_move
    intro i hi
    exact hsame _ (by unfold dataField blockSize blockDataSize at *; omega)
  rw [warns_iff hread, hstored', hcrc', hstored, hcrc]
  exact fun hboth => hboth.2 rfl

/-- **A saved block is guarded exactly when its checksum is not zero**, the marker
of a block that has none. -/
theorem guarded_iff (hv : (s.buffers idx).valid = true) (hd : (s.buffers idx).dirty = true) :
    Guarded base s idx ↔
      calculateCrc32 s.mem (blockAddr base idx + dataField) blockDataSize ≠ 0#32 := by
  constructor
  · intro h
    have hread : ReadsFrom base _ _ _ := readsFrom_emptied s
      (spoiled (writeBufferToDisk base s idx).disk (s.buffers idx).blockNum)
      (s.buffers idx).blockNum
    have hwarns := h.reported _ _ hread (spoiled_sameHeader _ _) (spoiled_burst _ _)
    exact (burst_warns_iff hv hd rfl hread (spoiled_sameHeader _ _) (spoiled_burst _ _)).mp hwarns
  · intro h
    constructor
    case reported =>
      intro t d hread hheader hburst
      exact (burst_warns_iff hv hd rfl hread hheader hburst).mpr h
    case quiet =>
      intro t d hread hsame
      exact unchanged_quiet hv hd rfl hread hsame

end Saved

/-- Block 5 in buffer 0, dirty, with these bytes. -/
def savedBlock (bytes : Nat → Byte) : State where
  mem := fun x => bytes (x - (blockAddr 0 0 + dataField))
  buffers := fun _ => { blockNum := 5#32, valid := true, dirty := true }
  mostRecentBuffer := 0
  kernelTicks := 0#64
  disk := fun _ _ => 0#8
  serialLog := []

/-- A block that begins with a one is guarded. -/
theorem guarded_iff_one : Guarded 0 (savedBlock fun i => if i = 0 then 1#8 else 0#8) 0 :=
  (guarded_iff rfl rfl).mpr (by decide +kernel)

/-- `FF FF FF FF`, zeros, and `62 F5 26 92`: the checksum is zero. -/
def zeroCrc (i : Nat) : Byte :=
  if i < 4 then 0xFF#8
  else if i = 1004 then 0x62#8
  else if i = 1005 then 0xF5#8
  else if i = 1006 then 0x26#8
  else if i = 1007 then 0x92#8
  else 0#8

/-- A flipped bit in this block is not reported. -/
theorem zeroCrc_unguarded : ¬ Guarded 0 (savedBlock zeroCrc) 0 := by
  intro h
  have hread : ReadsFrom 0 _ 5#32 _ := readsFrom_emptied (savedBlock zeroCrc)
    (spoiled (writeBufferToDisk 0 (savedBlock zeroCrc) 0).disk 5#32) 5#32
  have hwarns := h.reported _ _ hread (spoiled_sameHeader _ _) (spoiled_burst _ _)
  have hvalid : ((savedBlock zeroCrc).buffers 0).valid = true := rfl
  have hcrc := (burst_warns_iff hvalid rfl rfl hread (spoiled_sameHeader _ _)
    (spoiled_burst _ _)).mp hwarns
  exact hcrc (by decide +kernel)

end VectorForth.BlockDevice
