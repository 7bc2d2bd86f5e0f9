import VectorForth.Lib.Run
import VectorForth.Fs.BlockDevice

/-!
# The block cache is transparent

The abstract device is a plain map from block numbers to contents. A session
is the cache together with that map and with what the client may still do:
the block it was last given, and whether it has written to it since the last
`block_update`. `Coherent` relates the two; every operation keeps it.

The checksum bytes of a header belong to the cache, not to the client, so the
comparison is on payload offsets only.
-/

namespace VectorForth.BlockDevice

open ByteMemory LabelledRun

/-- The offsets a client may write: `type`, `prev`, `next` and the data area. -/
def Payload (o : Nat) : Prop := o < blockSize ∧ ¬ (crcField ≤ o ∧ o < crcField + 4)

instance (o : Nat) : Decidable (Payload o) := inferInstanceAs (Decidable (_ ∧ _))

/-- Block numbers whose two sectors a 28-bit sector address can name. -/
def blockLimit : Nat := 2 ^ 27 - 512

/-- Byte `o` of block `n` on the disk. -/
def diskBlock (d : Disk) (n : BitVec 32) (o : Nat) : Byte :=
  if o < sectorSize then d (startSector n) o else d (startSector n + 1#32) (o - sectorSize)

/-! ## Sectors and buffers do not overlap -/

theorem startSector_toNat {n : BitVec 32} (h : n.toNat < blockLimit) :
    (startSector n).toNat = 1024 + 2 * n.toNat := by
  have hlim : blockLimit = 2 ^ 27 - 512 := rfl
  simp only [startSector, diskBlockOffsetSectors, BitVec.toNat_add, BitVec.toNat_mul,
    BitVec.toNat_ofNat]
  omega

theorem startSector_succ_toNat {n : BitVec 32} (h : n.toNat < blockLimit) :
    (startSector n + 1#32).toNat = 1025 + 2 * n.toNat := by
  have hlim : blockLimit = 2 ^ 27 - 512 := rfl
  rw [BitVec.toNat_add, startSector_toNat h, BitVec.toNat_ofNat]
  omega

theorem startSector_ne {n m : BitVec 32} (hn : n.toNat < blockLimit) (hm : m.toNat < blockLimit)
    (hne : n ≠ m) : startSector n ≠ startSector m := by
  intro h
  apply hne
  apply BitVec.eq_of_toNat_eq
  have := congrArg BitVec.toNat h
  rw [startSector_toNat hn, startSector_toNat hm] at this
  omega

theorem startSector_succ_ne {n m : BitVec 32} (hn : n.toNat < blockLimit)
    (hm : m.toNat < blockLimit) (hne : n ≠ m) : startSector n + 1#32 ≠ startSector m + 1#32 := by
  intro h
  apply startSector_ne hn hm hne
  simpa using h

/-- A first sector is even, a second one odd. -/
theorem startSector_ne_succ {n m : BitVec 32} (hn : n.toNat < blockLimit)
    (hm : m.toNat < blockLimit) : startSector n ≠ startSector m + 1#32 := by
  intro h
  have := congrArg BitVec.toNat h
  rw [startSector_toNat hn, startSector_succ_toNat hm] at this
  omega

theorem blockAddr_disjoint (base : Nat) {i j : Fin numBuffers} (h : i ≠ j) :
    blockAddr base i + blockSize ≤ blockAddr base j ∨
      blockAddr base j + blockSize ≤ blockAddr base i := by
  have hne : (i : Nat) ≠ j := fun hij => h (Fin.ext hij)
  simp only [blockAddr, bufferSize, blockField, blockSize]
  omega

/-! ## What one write-back does -/

section WriteBack

variable {base : Nat} {s : State} {idx : Fin numBuffers}

@[simp] theorem State.setBuffer_mem (s : State) (i : Fin numBuffers) (b : Buffer) :
    (s.setBuffer i b).mem = s.mem := rfl

@[simp] theorem State.setBuffer_disk (s : State) (i : Fin numBuffers) (b : Buffer) :
    (s.setBuffer i b).disk = s.disk := rfl

@[simp] theorem State.setBuffer_mostRecent (s : State) (i : Fin numBuffers) (b : Buffer) :
    (s.setBuffer i b).mostRecentBuffer = s.mostRecentBuffer := rfl

theorem State.setBuffer_same (s : State) (i : Fin numBuffers) (b : Buffer) :
    (s.setBuffer i b).buffers i = b :=
  Function.update_self ..

theorem State.setBuffer_other {s : State} {i j : Fin numBuffers} {b : Buffer} (h : j ≠ i) :
    (s.setBuffer i b).buffers j = s.buffers j :=
  Function.update_of_ne h ..

theorem writeBufferToDisk_clean (h : ¬ ((s.buffers idx).valid = true ∧ (s.buffers idx).dirty = true)) :
    writeBufferToDisk base s idx = s := by
  rw [writeBufferToDisk, if_pos]
  cases hv : (s.buffers idx).valid <;> cases hd : (s.buffers idx).dirty <;> simp_all

theorem writeBufferToDisk_dirty_mem (hv : (s.buffers idx).valid = true)
    (hd : (s.buffers idx).dirty = true) :
    (writeBufferToDisk base s idx).mem = write32 s.mem (blockAddr base idx + crcField)
      (calculateCrc32 s.mem (blockAddr base idx + dataField) blockDataSize).toNat := by
  rw [writeBufferToDisk, if_neg (by simp [hv, hd])]
  rfl

/-- A dirty buffer goes to the two sectors of its block. -/
theorem writeBufferToDisk_dirty_disk (hv : (s.buffers idx).valid = true)
    (hd : (s.buffers idx).dirty = true) :
    (writeBufferToDisk base s idx).disk =
      Function.update
        (Function.update s.disk (startSector (s.buffers idx).blockNum) fun o =>
          (writeBufferToDisk base s idx).mem (blockAddr base idx + o))
        (startSector (s.buffers idx).blockNum + 1#32) fun o =>
          (writeBufferToDisk base s idx).mem (blockAddr base idx + sectorSize + o) := by
  rw [writeBufferToDisk_dirty_mem hv hd, writeBufferToDisk, if_neg (by simp [hv, hd])]
  rfl

theorem writeBufferToDisk_dirty_buffers (hv : (s.buffers idx).valid = true)
    (hd : (s.buffers idx).dirty = true) :
    (writeBufferToDisk base s idx).buffers =
      Function.update s.buffers idx { s.buffers idx with dirty := false } := by
  rw [writeBufferToDisk, if_neg (by simp [hv, hd])]
  rfl

/-- Only the checksum bytes of the written block change. -/
theorem writeBufferToDisk_mem {x : Nat}
    (h : x < blockAddr base idx + crcField ∨ blockAddr base idx + crcField + 4 ≤ x) :
    (writeBufferToDisk base s idx).mem x = s.mem x := by
  by_cases hdirty : (s.buffers idx).valid = true ∧ (s.buffers idx).dirty = true
  · rw [writeBufferToDisk_dirty_mem hdirty.1 hdirty.2]
    exact write32_outside h
  · rw [writeBufferToDisk_clean hdirty]

theorem writeBufferToDisk_payload {i : Fin numBuffers} {o : Nat} (ho : Payload o) :
    (writeBufferToDisk base s idx).mem (blockAddr base i + o) = s.mem (blockAddr base i + o) := by
  have hsize : blockSize = 1024 := rfl
  have hcrc : crcField = 12 := rfl
  have hlt := ho.1
  have hout := ho.2
  apply writeBufferToDisk_mem
  by_cases h : i = idx
  · subst h
    omega
  · rcases blockAddr_disjoint base h with h | h
    · exact Or.inl (by omega)
    · exact Or.inr (by omega)

@[simp] theorem writeBufferToDisk_mostRecent :
    (writeBufferToDisk base s idx).mostRecentBuffer = s.mostRecentBuffer := by
  unfold writeBufferToDisk
  split <;> rfl

theorem writeBufferToDisk_buffers (i : Fin numBuffers) :
    (writeBufferToDisk base s idx).buffers i =
      if i = idx ∧ (s.buffers idx).valid = true then { s.buffers i with dirty := false }
      else s.buffers i := by
  by_cases hdirty : (s.buffers idx).valid = true ∧ (s.buffers idx).dirty = true
  · rw [writeBufferToDisk_dirty_buffers hdirty.1 hdirty.2]
    by_cases h : i = idx
    · subst h
      rw [Function.update_self, if_pos ⟨rfl, hdirty.1⟩]
    · rw [Function.update_of_ne h, if_neg (fun hc => h hc.1)]
  · rw [writeBufferToDisk_clean hdirty]
    split
    · rename_i h
      obtain ⟨rfl, hv⟩ := h
      have hd : (s.buffers i).dirty = false := by simpa [hv] using hdirty
      rw [← hd]
    · rfl

@[simp] theorem writeBufferToDisk_valid (i : Fin numBuffers) :
    ((writeBufferToDisk base s idx).buffers i).valid = (s.buffers i).valid := by
  rw [writeBufferToDisk_buffers]
  split <;> rfl

@[simp] theorem writeBufferToDisk_blockNum (i : Fin numBuffers) :
    ((writeBufferToDisk base s idx).buffers i).blockNum = (s.buffers i).blockNum := by
  rw [writeBufferToDisk_buffers]
  split <;> rfl

theorem startSector_ne_next (n : BitVec 32) : startSector n ≠ startSector n + 1#32 := by
  intro h
  have hnat := congrArg BitVec.toNat h
  rw [BitVec.toNat_add, BitVec.toNat_ofNat] at hnat
  omega

/-- The two sectors of the written block hold the buffer. -/
theorem diskBlock_writeBufferToDisk_self (hv : (s.buffers idx).valid = true)
    (hd : (s.buffers idx).dirty = true) (o : Nat) :
    diskBlock (writeBufferToDisk base s idx).disk (s.buffers idx).blockNum o =
      (writeBufferToDisk base s idx).mem (blockAddr base idx + o) := by
  rw [diskBlock, writeBufferToDisk_dirty_disk hv hd]
  split
  · rw [Function.update_of_ne (startSector_ne_next _), Function.update_self]
  · rename_i ho
    rw [Function.update_self, Nat.add_assoc, Nat.add_sub_cancel' (Nat.le_of_not_lt ho)]

/-- No other block on the disk changes. -/
theorem diskBlock_writeBufferToDisk_other {n : BitVec 32} (hn : n.toNat < blockLimit)
    (hidx : (s.buffers idx).valid = true → (s.buffers idx).blockNum.toNat < blockLimit)
    (h : ¬ ((s.buffers idx).valid = true ∧ (s.buffers idx).dirty = true ∧
      (s.buffers idx).blockNum = n)) (o : Nat) :
    diskBlock (writeBufferToDisk base s idx).disk n o = diskBlock s.disk n o := by
  by_cases hdirty : (s.buffers idx).valid = true ∧ (s.buffers idx).dirty = true
  · have hne : n ≠ (s.buffers idx).blockNum := fun hc => h ⟨hdirty.1, hdirty.2, hc.symm⟩
    have hm := hidx hdirty.1
    rw [diskBlock, diskBlock, writeBufferToDisk_dirty_disk hdirty.1 hdirty.2]
    rw [Function.update_of_ne (startSector_ne_succ hn hm),
      Function.update_of_ne (startSector_ne hn hm hne),
      Function.update_of_ne (startSector_succ_ne hn hm hne),
      Function.update_of_ne (startSector_ne_succ hm hn).symm]
  · rw [writeBufferToDisk_clean hdirty]

end WriteBack

/-! ## Coherence -/

/-- The cache holds `contents`. `pending` says that the client has written to
the most recent buffer since the last `block_update`. -/
structure Coherent (base : Nat) (s : State) (contents : BitVec 32 → Nat → Byte)
    (pending : Prop) : Prop where
  unique : ∀ i j, (s.buffers i).valid = true → (s.buffers j).valid = true →
    (s.buffers i).blockNum = (s.buffers j).blockNum → i = j
  inRange : ∀ i, (s.buffers i).valid = true → (s.buffers i).blockNum.toNat < blockLimit
  cached : ∀ i, (s.buffers i).valid = true → ∀ o, Payload o →
    s.mem (blockAddr base i + o) = contents (s.buffers i).blockNum o
  synced : ∀ n : BitVec 32, n.toNat < blockLimit →
    (∀ i, (s.buffers i).valid = true → (s.buffers i).blockNum = n →
      (s.buffers i).dirty = false ∧ ¬ (pending ∧ i = s.mostRecentBuffer)) →
    ∀ o, Payload o → diskBlock s.disk n o = contents n o

section Operations

variable {base : Nat} {s : State} {contents : BitVec 32 → Nat → Byte} {pending : Prop}

theorem writeBufferToDisk_coherent (h : Coherent base s contents pending) (idx : Fin numBuffers) :
    Coherent base (writeBufferToDisk base s idx) contents pending where
  unique i j hi hj hij := by
    simp only [writeBufferToDisk_valid, writeBufferToDisk_blockNum] at hi hj hij
    exact h.unique i j hi hj hij
  inRange i hi := by
    simp only [writeBufferToDisk_valid, writeBufferToDisk_blockNum] at hi ⊢
    exact h.inRange i hi
  cached i hi o ho := by
    rw [writeBufferToDisk_valid] at hi
    rw [writeBufferToDisk_payload ho, writeBufferToDisk_blockNum]
    exact h.cached i hi o ho
  synced n hn hclean o ho := by
    simp only [writeBufferToDisk_valid, writeBufferToDisk_blockNum,
      writeBufferToDisk_mostRecent] at hclean
    by_cases hidx : (s.buffers idx).valid = true ∧ (s.buffers idx).dirty = true ∧
        (s.buffers idx).blockNum = n
    · obtain ⟨hv, hd, rfl⟩ := hidx
      rw [diskBlock_writeBufferToDisk_self hv hd, writeBufferToDisk_payload ho]
      exact h.cached idx hv o ho
    · rw [diskBlock_writeBufferToDisk_other hn (h.inRange idx) hidx]
      apply h.synced n hn _ o ho
      intro i hv hnum
      obtain ⟨hd, hpend⟩ := hclean i hv hnum
      refine ⟨?_, hpend⟩
      by_cases hi : i = idx
      · subst hi
        have : ¬ (s.buffers i).dirty = true := fun hd' => hidx ⟨hv, hd', hnum⟩
        simpa using this
      · rwa [writeBufferToDisk_buffers, if_neg (fun hc => hi hc.1)] at hd

/-- After a pass over the buffers in `l`, none of them is dirty. -/
theorem flushList_coherent (h : Coherent base s contents pending) (l : List (Fin numBuffers)) :
    Coherent base (l.foldl (writeBufferToDisk base) s) contents pending ∧
    (l.foldl (writeBufferToDisk base) s).mostRecentBuffer = s.mostRecentBuffer ∧
    ∀ i, (((l.foldl (writeBufferToDisk base) s).buffers i).valid = (s.buffers i).valid ∧
      ((l.foldl (writeBufferToDisk base) s).buffers i).blockNum = (s.buffers i).blockNum) ∧
      ((i ∈ l ∨ (s.buffers i).dirty = false) → (s.buffers i).valid = true →
        ((l.foldl (writeBufferToDisk base) s).buffers i).dirty = false) := by
  induction l generalizing s with
  | nil =>
      refine ⟨h, rfl, fun i => ⟨⟨rfl, rfl⟩, ?_⟩⟩
      intro hi _
      simpa using hi
  | cons j l ih =>
      obtain ⟨hcoh, hmost, hbuf⟩ := ih (writeBufferToDisk_coherent h j)
      refine ⟨hcoh, by simpa using hmost, ?_⟩
      intro i
      obtain ⟨⟨hvalid, hnum⟩, hclean⟩ := hbuf i
      rw [writeBufferToDisk_valid] at hvalid hclean
      rw [writeBufferToDisk_blockNum] at hnum
      refine ⟨⟨hvalid, hnum⟩, fun hi hv => hclean ?_ hv⟩
      rw [writeBufferToDisk_buffers]
      by_cases hij : i = j
      · subst hij
        rw [if_pos ⟨rfl, hv⟩]
        exact Or.inr rfl
      · rw [if_neg (fun hc => hij hc.1)]
        rcases hi with hi | hi
        · exact Or.inl ((List.mem_cons.mp hi).resolve_left hij)
        · exact Or.inr hi

/-- A flush leaves the contents of every block on the disk, but for the one
with writes that no `block_update` has announced. -/
theorem blockFlush_synced (h : Coherent base s contents pending) {n : BitVec 32}
    (hn : n.toNat < blockLimit)
    (hpend : pending → (s.buffers s.mostRecentBuffer).valid = true →
      (s.buffers s.mostRecentBuffer).blockNum ≠ n) {o : Nat} (ho : Payload o) :
    diskBlock (blockFlush base s).disk n o = contents n o := by
  obtain ⟨hcoh, hmost, hbuf⟩ := flushList_coherent h (List.finRange numBuffers)
  apply hcoh.synced n hn _ o ho
  intro i hv hnum
  obtain ⟨⟨hvalid, hnum'⟩, hclean⟩ := hbuf i
  rw [hvalid] at hv
  rw [hnum'] at hnum
  refine ⟨hclean (Or.inl (List.mem_finRange i)) hv, ?_⟩
  rintro ⟨hp, hi⟩
  rw [hmost] at hi
  subst hi
  exact hpend hp hv hnum

theorem blockUpdate_coherent (h : Coherent base s contents pending) :
    Coherent base (blockUpdate s) contents False := by
  have hbuf : ∀ i, ((blockUpdate s).buffers i).valid = (s.buffers i).valid ∧
      ((blockUpdate s).buffers i).blockNum = (s.buffers i).blockNum ∧
      (((blockUpdate s).buffers i).dirty = false → (s.buffers i).valid = true →
        (s.buffers i).dirty = false ∧ i ≠ s.mostRecentBuffer) := by
    intro i
    unfold blockUpdate
    split
    · by_cases hi : i = s.mostRecentBuffer
      · subst hi
        rw [State.setBuffer_same]
        exact ⟨rfl, rfl, by simp⟩
      · rw [State.setBuffer_other hi]
        exact ⟨rfl, rfl, fun hd _ => ⟨hd, hi⟩⟩
    · rename_i hinv
      refine ⟨rfl, rfl, fun hd hv => ⟨hd, ?_⟩⟩
      rintro rfl
      exact hinv hv
  have hmem : (blockUpdate s).mem = s.mem := by unfold blockUpdate; split <;> rfl
  have hdisk : (blockUpdate s).disk = s.disk := by unfold blockUpdate; split <;> rfl
  refine ⟨?_, ?_, ?_, ?_⟩
  · intro i j hi hj hij
    rw [(hbuf i).1] at hi
    rw [(hbuf j).1] at hj
    rw [(hbuf i).2.1, (hbuf j).2.1] at hij
    exact h.unique i j hi hj hij
  · intro i hi
    rw [(hbuf i).1] at hi
    rw [(hbuf i).2.1]
    exact h.inRange i hi
  · intro i hi o ho
    rw [(hbuf i).1] at hi
    rw [hmem, (hbuf i).2.1]
    exact h.cached i hi o ho
  · intro n hn hclean o ho
    rw [hdisk]
    apply h.synced n hn _ o ho
    intro i hv hnum
    obtain ⟨hd, -⟩ := hclean i (by rw [(hbuf i).1]; exact hv) (by rw [(hbuf i).2.1]; exact hnum)
    obtain ⟨hd', hi⟩ := (hbuf i).2.2 hd hv
    exact ⟨hd', fun hc => hi hc.2⟩

/-! ### Loading a block -/

theorem findBuffer_some {n : BitVec 32} {i : Fin numBuffers} (h : findBuffer s n = some i) :
    (s.buffers i).valid = true ∧ (s.buffers i).blockNum = n := by
  have := List.find?_some h
  simpa using this

theorem findBuffer_none {n : BitVec 32} (h : findBuffer s n = none) (i : Fin numBuffers)
    (hv : (s.buffers i).valid = true) : (s.buffers i).blockNum ≠ n := by
  intro hn
  have := List.find?_eq_none.mp h i (List.mem_finRange i)
  simp [hv, hn] at this

theorem loadBlock_mem_self {idx : Fin numBuffers} {n : BitVec 32} {o : Nat} (ho : o < blockSize) :
    (loadBlock base s idx n).mem (blockAddr base idx + o) =
      diskBlock (writeBufferToDisk base s idx).disk n o := by
  have hsize : blockSize = 1024 := rfl
  have hsector : sectorSize = 512 := rfl
  rw [diskBlock]
  simp only [loadBlock, verifyCrc, ataReadSector, State.setBuffer_mem]
  split
  · rename_i hlow
    rw [store_outside (by omega), store_inside hlow]
  · rename_i hhigh
    rw [show blockAddr base idx + o = blockAddr base idx + sectorSize + (o - sectorSize) by omega,
      store_inside (by omega)]

theorem loadBlock_mem_other {idx i : Fin numBuffers} {n : BitVec 32} (hi : i ≠ idx) {o : Nat}
    (ho : Payload o) :
    (loadBlock base s idx n).mem (blockAddr base i + o) = s.mem (blockAddr base i + o) := by
  have hsize : blockSize = 1024 := rfl
  have hsector : sectorSize = 512 := rfl
  have hlt := ho.1
  have hdisj := blockAddr_disjoint base hi
  simp only [loadBlock, verifyCrc, ataReadSector, State.setBuffer_mem]
  rw [store_outside (by omega), store_outside (by omega), writeBufferToDisk_payload ho]

theorem loadBlock_disk (idx : Fin numBuffers) (n : BitVec 32) :
    (loadBlock base s idx n).disk = (writeBufferToDisk base s idx).disk := rfl

@[simp] theorem loadBlock_mostRecent (idx : Fin numBuffers) (n : BitVec 32) :
    (loadBlock base s idx n).mostRecentBuffer = idx := rfl

theorem loadBlock_buffers_self (idx : Fin numBuffers) (n : BitVec 32) :
    (loadBlock base s idx n).buffers idx =
      { blockNum := n, valid := true, dirty := false,
        lastUsed := (writeBufferToDisk base s idx).kernelTicks } := by
  simp [loadBlock, State.setBuffer, verifyCrc, ataReadSector]

theorem loadBlock_buffers_other {idx i : Fin numBuffers} {n : BitVec 32} (hi : i ≠ idx) :
    (loadBlock base s idx n).buffers i = s.buffers i := by
  simp only [loadBlock, State.setBuffer, verifyCrc, ataReadSector]
  rw [Function.update_of_ne hi, writeBufferToDisk_buffers, if_neg (fun hc => hi hc.1)]

/-! ### Nothing is written outside the buffers -/

/-- The bytes that the buffers at `base` do not take. -/
def Outside (base x : Nat) : Prop := x < base ∨ base + bufferSize * numBuffers ≤ x

theorem Outside.block {x : Nat} (h : Outside base x) (idx : Fin numBuffers) :
    x < blockAddr base idx ∨ blockAddr base idx + blockSize ≤ x := by
  have hlt := idx.isLt
  unfold Outside at h
  simp only [blockAddr, bufferSize, blockField, blockSize, numBuffers] at *
  omega

theorem writeBufferToDisk_outside {x : Nat} (h : Outside base x) (idx : Fin numBuffers) :
    (writeBufferToDisk base s idx).mem x = s.mem x := by
  have hblock := h.block idx
  apply writeBufferToDisk_mem
  simp only [crcField, blockSize] at *
  omega

theorem blockGet_outside {x : Nat} (h : Outside base x) (n : BitVec 32) :
    (blockGet base s n).1.mem x = s.mem x := by
  unfold blockGet
  split
  · rfl
  · have hblock := h.block (oldestBuffer s)
    have hsize : blockSize = 1024 := rfl
    have hsector : sectorSize = 512 := rfl
    simp only [loadBlock, verifyCrc, ataReadSector, State.setBuffer_mem]
    rw [store_outside (by omega), store_outside (by omega), writeBufferToDisk_outside h]

theorem blockFlush_outside {x : Nat} (h : Outside base x) : (blockFlush base s).mem x = s.mem x := by
  unfold blockFlush
  induction List.finRange numBuffers generalizing s with
  | nil => rfl
  | cons i l ih => exact ih.trans (writeBufferToDisk_outside h i)

/-! ### Only the buffers are read -/

/-- Two caches that differ in memory, and in what is kept of a sector beyond its
end. -/
structure Twin (s t : State) : Prop where
  same : t = { s with mem := t.mem, disk := t.disk }
  disk : ∀ lba o, o < sectorSize → t.disk lba o = s.disk lba o

/-- The buffers hold the same bytes. -/
abbrev SameBuffers (base : Nat) (m m' : Mem) : Prop := AgreeOn m m' base (bufferSize * numBuffers)

theorem SameBuffers.block {m m' : Mem} (h : SameBuffers base m m') (idx : Fin numBuffers) :
    AgreeOn m m' (blockAddr base idx) blockSize := by
  have hlt := idx.isLt
  refine AgreeOn.mono h ?_ ?_ <;>
    simp only [blockAddr, bufferSize, blockField, blockSize, numBuffers] at * <;> omega

theorem calculateCrc32_congr {m m' : Mem} {data length : Nat} (h : AgreeOn m m' data length) :
    calculateCrc32 m data length = calculateCrc32 m' data length := by
  have hfold : ∀ init : BitVec 32,
      Nat.fold length (fun i _ crc => crcByte crc (m (data + i))) init =
        Nat.fold length (fun i _ crc => crcByte crc (m' (data + i))) init := by
    intro init
    induction length with
    | zero => rw [Nat.fold_zero, Nat.fold_zero]
    | succ n ih =>
        rw [Nat.fold_succ, Nat.fold_succ, ih (h.mono (Nat.le_refl _) (by omega)),
          h (data + n) (by omega) (by omega)]
  rw [calculateCrc32, calculateCrc32, hfold]

section Twin

variable {t : State}

/-- What an operation on twin caches leaves behind. -/
def Twin.Through (s t s' t' : State) : Prop :=
  Twin s' t' ∧ SameWrites s.mem t.mem s'.mem t'.mem

theorem Twin.Through.trans {s₁ t₁ s₂ t₂ : State} (h : Twin.Through s t s₁ t₁)
    (h' : Twin.Through s₁ t₁ s₂ t₂) : Twin.Through s t s₂ t₂ :=
  ⟨h'.1, h.2.trans h'.2⟩

theorem Twin.setBuffer (h : Twin s t) (i : Fin numBuffers) (b : Buffer) :
    Twin (s.setBuffer i b) (t.setBuffer i b) := by
  obtain ⟨hsame, hdisk⟩ := h
  refine ⟨?_, hdisk⟩
  rw [hsame]
  rfl

theorem Twin.writeSector (h : Twin s t) (lba : BitVec 32) {buf : Nat}
    (hbuf : AgreeOn s.mem t.mem buf sectorSize) :
    Twin (ataWriteSector s lba buf) (ataWriteSector t lba buf) := by
  obtain ⟨hsame, hdisk⟩ := h
  refine ⟨?_, ?_⟩
  · rw [hsame]
    rfl
  · intro l o ho
    show Function.update t.disk lba _ l o = Function.update s.disk lba _ l o
    rcases eq_or_ne l lba with rfl | hl
    · rw [Function.update_self, Function.update_self]
      exact (hbuf _ (by omega) (by omega)).symm
    · rw [Function.update_of_ne hl, Function.update_of_ne hl]
      exact hdisk l o ho

theorem Twin.readSector (h : Twin s t) (lba : BitVec 32) (buf : Nat) :
    Twin.Through s t (ataReadSector s lba buf) (ataReadSector t lba buf) := by
  obtain ⟨hsame, hdisk⟩ := h
  have hstore : store t.mem buf sectorSize (t.disk lba) = store t.mem buf sectorSize (s.disk lba) := by
    funext x
    unfold store
    split
    · exact hdisk _ _ (by omega)
    · rfl
  refine ⟨⟨?_, hdisk⟩, ?_⟩
  · rw [hsame]
    rfl
  · show SameWrites _ _ (store s.mem buf sectorSize (s.disk lba)) (store t.mem buf sectorSize _)
    rw [hstore]
    exact sameWrites_store _ _ _ _ _

theorem Twin.writeBuffer (h : Twin s t) (hbuf : SameBuffers base s.mem t.mem)
    (idx : Fin numBuffers) :
    Twin.Through s t (writeBufferToDisk base s idx) (writeBufferToDisk base t idx) := by
  obtain ⟨hsame, hdisk⟩ := h
  generalize t.mem = m, t.disk = disk at hsame hdisk hbuf
  subst hsame
  have hblock := hbuf.block idx
  have hcrc : calculateCrc32 m (blockAddr base idx + dataField) blockDataSize =
      calculateCrc32 s.mem (blockAddr base idx + dataField) blockDataSize :=
    (calculateCrc32_congr (hblock.mono (by omega) (by
      simp only [dataField, blockDataSize, blockSize]; omega))).symm
  unfold writeBufferToDisk
  dsimp only
  rw [hcrc]
  split
  · exact ⟨⟨rfl, hdisk⟩, .refl _ _⟩
  · generalize calculateCrc32 s.mem (blockAddr base idx + dataField) blockDataSize = crc
    have hwrites : SameWrites s.mem m (write32 s.mem (blockAddr base idx + crcField) crc.toNat)
        (write32 m (blockAddr base idx + crcField) crc.toNat) :=
      sameWrites_writeLE _ _ _ 4 _
    have hagree := hwrites.agreeOn hblock
    generalize write32 s.mem (blockAddr base idx + crcField) crc.toNat = w at hwrites hagree ⊢
    generalize write32 m (blockAddr base idx + crcField) crc.toNat = w' at hwrites hagree ⊢
    have hmem : Twin { s with mem := w } { s with mem := w', disk := disk } := ⟨rfl, hdisk⟩
    refine ⟨Twin.setBuffer (Twin.writeSector (Twin.writeSector hmem _ ?_) _ ?_) _ _, hwrites⟩
    · exact hagree.mono (Nat.le_refl _) (by simp only [sectorSize, blockSize]; omega)
    · exact hagree.mono (by omega) (by simp only [sectorSize, blockSize]; omega)

theorem Twin.verify (h : Twin s t) (hbuf : SameBuffers base s.mem t.mem) (idx : Fin numBuffers) :
    Twin (verifyCrc base s idx) (verifyCrc base t idx) := by
  obtain ⟨hsame, hdisk⟩ := h
  generalize t.mem = m, t.disk = disk at hsame hdisk hbuf
  subst hsame
  have hblock := hbuf.block idx
  have hcrc : calculateCrc32 m (blockAddr base idx + dataField) blockDataSize =
      calculateCrc32 s.mem (blockAddr base idx + dataField) blockDataSize :=
    (calculateCrc32_congr (hblock.mono (by omega) (by
      simp only [dataField, blockDataSize, blockSize]; omega))).symm
  have hstored : read32 m (blockAddr base idx + crcField) =
      read32 s.mem (blockAddr base idx + crcField) :=
    (readLE_congr (hblock.mono (by omega) (by simp only [crcField, blockSize]; omega))).symm
  unfold verifyCrc
  dsimp only
  rw [hcrc, hstored]
  exact ⟨rfl, hdisk⟩

theorem Twin.load (h : Twin s t) (hbuf : SameBuffers base s.mem t.mem) (idx : Fin numBuffers)
    (n : BitVec 32) : Twin.Through s t (loadBlock base s idx n) (loadBlock base t idx n) := by
  have hwrite := h.writeBuffer hbuf idx
  have hread := hwrite.trans (hwrite.1.readSector (startSector n) (blockAddr base idx))
  have hread := hread.trans
    (hread.1.readSector (startSector n + 1#32) (blockAddr base idx + sectorSize))
  have hverify := hread.1.verify (hread.2.agreeOn hbuf) idx
  have hwrites := hread.2
  unfold loadBlock
  dsimp only
  generalize ataReadSector (ataReadSector (writeBufferToDisk base s idx) _ _) _ _ = s'
    at hverify hwrites ⊢
  generalize ataReadSector (ataReadSector (writeBufferToDisk base t idx) _ _) _ _ = t'
    at hverify hwrites ⊢
  have hticks : (verifyCrc base t' idx).kernelTicks = (verifyCrc base s' idx).kernelTicks := by
    rw [hverify.same]
  rw [hticks]
  obtain ⟨hsame, hdisk⟩ := hverify.setBuffer idx
    { blockNum := n, valid := true, dirty := false, lastUsed := (verifyCrc base s' idx).kernelTicks }
  refine ⟨⟨?_, hdisk⟩, hwrites⟩
  rw [hsame]

/-- `block_get` reads the buffers and nothing else. -/
theorem Twin.get (h : Twin s t) (hbuf : SameBuffers base s.mem t.mem) (n : BitVec 32) :
    (blockGet base t n).2 = (blockGet base s n).2 ∧
      Twin.Through s t (blockGet base s n).1 (blockGet base t n).1 := by
  have hfind : findBuffer t n = findBuffer s n := by rw [h.same]; rfl
  have holdest : oldestBuffer t = oldestBuffer s := by rw [h.same]; rfl
  unfold blockGet
  rw [hfind, holdest]
  split
  · refine ⟨rfl, ⟨?_, h.disk⟩, .refl _ _⟩
    rw [h.same]
    rfl
  · exact ⟨rfl, h.load hbuf _ n⟩

theorem Twin.flush (h : Twin s t) (hbuf : SameBuffers base s.mem t.mem) :
    Twin.Through s t (blockFlush base s) (blockFlush base t) := by
  unfold blockFlush
  induction List.finRange numBuffers generalizing s t with
  | nil => exact ⟨h, .refl _ _⟩
  | cons i l ih =>
      have hwrite := h.writeBuffer hbuf i
      exact hwrite.trans (ih hwrite.1 (hwrite.2.agreeOn hbuf))

theorem Twin.update (h : Twin s t) : Twin (blockUpdate s) (blockUpdate t) := by
  obtain ⟨hsame, hdisk⟩ := h
  generalize t.mem = m, t.disk = disk at hsame hdisk
  subst hsame
  unfold blockUpdate
  dsimp only
  split <;> exact ⟨rfl, hdisk⟩

end Twin

/-- A miss: the victim is written back, then the block is read over it. -/
theorem loadBlock_coherent (h : Coherent base s contents False) (idx : Fin numBuffers)
    {n : BitVec 32} (hn : n.toNat < blockLimit)
    (hmiss : ∀ i, (s.buffers i).valid = true → (s.buffers i).blockNum ≠ n) :
    Coherent base (loadBlock base s idx n) contents False := by
  have hwb := writeBufferToDisk_coherent h idx
  have hload : ∀ o, Payload o →
      diskBlock (writeBufferToDisk base s idx).disk n o = contents n o := by
    intro o ho
    apply hwb.synced n hn _ o ho
    intro i hv hnum
    simp only [writeBufferToDisk_valid, writeBufferToDisk_blockNum] at hv hnum
    exact absurd hnum (hmiss i hv)
  refine ⟨?_, ?_, ?_, ?_⟩
  · intro i j hi hj hij
    by_cases hi' : i = idx <;> by_cases hj' : j = idx
    · rw [hi', hj']
    · subst hi'
      rw [loadBlock_buffers_self, loadBlock_buffers_other hj'] at hij
      rw [loadBlock_buffers_other hj'] at hj
      exact absurd hij.symm (hmiss j hj)
    · subst hj'
      rw [loadBlock_buffers_self, loadBlock_buffers_other hi'] at hij
      rw [loadBlock_buffers_other hi'] at hi
      exact absurd hij (hmiss i hi)
    · rw [loadBlock_buffers_other hi'] at hi hij
      rw [loadBlock_buffers_other hj'] at hj hij
      exact h.unique i j hi hj hij
  · intro i hi
    by_cases hi' : i = idx
    · subst hi'
      rwa [loadBlock_buffers_self]
    · rw [loadBlock_buffers_other hi'] at hi ⊢
      exact h.inRange i hi
  · intro i hi o ho
    by_cases hi' : i = idx
    · subst hi'
      rw [loadBlock_mem_self ho.1, loadBlock_buffers_self]
      exact hload o ho
    · rw [loadBlock_buffers_other hi'] at hi ⊢
      rw [loadBlock_mem_other hi' ho]
      exact h.cached i hi o ho
  · intro m hm hclean o ho
    rw [loadBlock_disk]
    by_cases hmn : m = n
    · rw [hmn]
      exact hload o ho
    · apply hwb.synced m hm _ o ho
      intro i hv hnum
      simp only [writeBufferToDisk_valid, writeBufferToDisk_blockNum] at hv hnum
      refine ⟨?_, fun hc => hc.1⟩
      rw [writeBufferToDisk_buffers]
      by_cases hi' : i = idx
      · subst hi'
        rw [if_pos ⟨rfl, hv⟩]
      · rw [if_neg (fun hc => hi' hc.1)]
        have := hclean i (by rwa [loadBlock_buffers_other hi'])
          (by rwa [loadBlock_buffers_other hi'])
        rw [loadBlock_buffers_other hi'] at this
        exact this.1

/-- A hit only moves the time stamp. -/
theorem touch_coherent (h : Coherent base s contents False) (i : Fin numBuffers) (t : BitVec 64) :
    Coherent base
      { s.setBuffer i { s.buffers i with lastUsed := t } with mostRecentBuffer := i }
      contents False := by
  have hbuf : ∀ j, ∃ u, (s.setBuffer i { s.buffers i with lastUsed := t }).buffers j =
      { s.buffers j with lastUsed := u } := by
    intro j
    by_cases hj : j = i
    · subst hj
      exact ⟨t, State.setBuffer_same ..⟩
    · exact ⟨(s.buffers j).lastUsed, State.setBuffer_other hj⟩
  refine ⟨?_, ?_, ?_, ?_⟩
  · intro j k
    obtain ⟨u, hj⟩ := hbuf j
    obtain ⟨v, hk⟩ := hbuf k
    dsimp only
    rw [hj, hk]
    exact h.unique j k
  · intro j
    obtain ⟨u, hj⟩ := hbuf j
    dsimp only
    rw [hj]
    exact h.inRange j
  · intro j
    obtain ⟨u, hj⟩ := hbuf j
    dsimp only
    rw [hj]
    exact h.cached j
  · intro n hn hclean o ho
    apply h.synced n hn _ o ho
    intro j hv hnum
    obtain ⟨u, hj⟩ := hbuf j
    have := hclean j (by dsimp only; rwa [hj]) (by dsimp only; rwa [hj])
    dsimp only at this
    rw [hj] at this
    exact ⟨this.1, fun hc => hc.1⟩

/-- `block_get` keeps the cache coherent and returns the block asked for, in
the buffer it makes the most recent one. -/
theorem blockGet_spec (h : Coherent base s contents False) {n : BitVec 32}
    (hn : n.toNat < blockLimit) :
    Coherent base (blockGet base s n).1 contents False ∧
    ((blockGet base s n).1.buffers (blockGet base s n).1.mostRecentBuffer).valid = true ∧
    ((blockGet base s n).1.buffers (blockGet base s n).1.mostRecentBuffer).blockNum = n ∧
    (blockGet base s n).2 = blockAddr base (blockGet base s n).1.mostRecentBuffer := by
  unfold blockGet
  split
  · rename_i i hfind
    obtain ⟨hv, hnum⟩ := findBuffer_some hfind
    refine ⟨touch_coherent h i _, ?_, ?_, rfl⟩
    · dsimp only
      rw [State.setBuffer_same]
      exact hv
    · dsimp only
      rw [State.setBuffer_same]
      exact hnum
  · rename_i hfind
    refine ⟨loadBlock_coherent h _ hn (findBuffer_none hfind), ?_, ?_, rfl⟩
    · rw [loadBlock_mostRecent, loadBlock_buffers_self]
    · rw [loadBlock_mostRecent, loadBlock_buffers_self]

end Operations

/-! ## Client sessions -/

/-- A cache, the contents its client has stored, the block and pointer the last
`block_get` returned, and whether that block has unannounced writes. -/
structure Session where
  cache : State
  contents : BitVec 32 → Nat → Byte
  last : Option (BitVec 32 × Nat)
  pending : Bool

inductive Op
  | get (n : BitVec 32)
  | write (o : Nat) (b : Byte)
  | update
  | flush
  | tick (t : BitVec 64)

/-- One client action. Writes go through the pointer last returned, and no
`block_get` comes between a write and its `block_update`. -/
inductive Step (base : Nat) : Session → Op → Session → Prop
  | get {c : Session} {n : BitVec 32} (hn : n.toNat < blockLimit) (hp : c.pending = false) :
      Step base c (.get n)
        { c with
          cache := (blockGet base c.cache n).1
          last := some (n, (blockGet base c.cache n).2) }
  | write {c : Session} {n : BitVec 32} {ptr o : Nat} {b : Byte} (hl : c.last = some (n, ptr))
      (ho : Payload o) :
      Step base c (.write o b)
        { c with
          cache := { c.cache with mem := write8 c.cache.mem (ptr + o) b }
          contents := Function.update c.contents n (Function.update (c.contents n) o b)
          pending := true }
  | update {c : Session} :
      Step base c .update { c with cache := blockUpdate c.cache, pending := false }
  | flush {c : Session} : Step base c .flush { c with cache := blockFlush base c.cache }
  | tick {c : Session} {t : BitVec 64} :
      Step base c (.tick t) { c with cache := { c.cache with kernelTicks := t } }

/-- Right after `block_init`: nothing is cached and the disk is what it is. -/
def Fresh (c : Session) : Prop :=
  (∀ i, (c.cache.buffers i).valid = false) ∧ c.contents = diskBlock c.cache.disk ∧
    c.last = none ∧ c.pending = false

structure Session.Inv (base : Nat) (c : Session) : Prop where
  coherent : Coherent base c.cache c.contents (c.pending = true)
  last : ∀ n ptr, c.last = some (n, ptr) →
    (c.cache.buffers c.cache.mostRecentBuffer).valid = true ∧
    (c.cache.buffers c.cache.mostRecentBuffer).blockNum = n ∧
    ptr = blockAddr base c.cache.mostRecentBuffer
  pending_last : c.pending = true → c.last ≠ none

theorem Fresh.inv {base : Nat} {c : Session} (h : Fresh c) : c.Inv base := by
  obtain ⟨hinvalid, hcontents, hlast, hpending⟩ := h
  refine ⟨⟨?_, ?_, ?_, ?_⟩, ?_, by simp [hpending]⟩
  · intro i j hi
    simp [hinvalid] at hi
  · intro i hi
    simp [hinvalid] at hi
  · intro i hi
    simp [hinvalid] at hi
  · intro n _ _ o _
    rw [hcontents]
  · intro n ptr hl
    simp [hlast] at hl

/-- A client write reaches the most recent buffer and no other. -/
theorem write_coherent {base : Nat} {s : State} {contents : BitVec 32 → Nat → Byte} {p : Prop}
    (h : Coherent base s contents p) (hv : (s.buffers s.mostRecentBuffer).valid = true)
    {o : Nat} (ho : Payload o) (b : Byte) :
    Coherent base
      { s with mem := write8 s.mem (blockAddr base s.mostRecentBuffer + o) b }
      (Function.update contents (s.buffers s.mostRecentBuffer).blockNum
        (Function.update (contents (s.buffers s.mostRecentBuffer).blockNum) o b)) True := by
  refine ⟨h.unique, h.inRange, ?_, ?_⟩
  · intro i hi o' ho'
    by_cases hmost : i = s.mostRecentBuffer
    · subst hmost
      rw [Function.update_self]
      by_cases heq : o' = o
      · subst heq
        rw [Function.update_self]
        exact write8_same ..
      · rw [Function.update_of_ne heq]
        dsimp only
        rw [write8_outside (by omega)]
        exact h.cached _ hi o' ho'
    · have hnum : (s.buffers i).blockNum ≠ (s.buffers s.mostRecentBuffer).blockNum :=
        fun hc => hmost (h.unique i _ hi hv hc)
      have hlt := ho.1
      have hlt' := ho'.1
      have hdisj := blockAddr_disjoint base hmost
      rw [Function.update_of_ne hnum]
      dsimp only
      rw [write8_outside (by omega)]
      exact h.cached i hi o' ho'
  · intro n hn hclean o' ho'
    have hne : n ≠ (s.buffers s.mostRecentBuffer).blockNum :=
      fun hc => (hclean s.mostRecentBuffer hv hc.symm).2 ⟨trivial, rfl⟩
    rw [Function.update_of_ne hne]
    apply h.synced n hn _ o' ho'
    intro i hi hnum
    obtain ⟨hd, hmost⟩ := hclean i hi hnum
    exact ⟨hd, fun hc => hmost ⟨trivial, hc.2⟩⟩

theorem blockUpdate_mostRecent (s : State) :
    (blockUpdate s).mostRecentBuffer = s.mostRecentBuffer := by
  unfold blockUpdate
  split <;> rfl

theorem blockUpdate_buffer (s : State) (i : Fin numBuffers) :
    ((blockUpdate s).buffers i).valid = (s.buffers i).valid ∧
      ((blockUpdate s).buffers i).blockNum = (s.buffers i).blockNum := by
  unfold blockUpdate
  split
  · by_cases hi : i = s.mostRecentBuffer
    · subst hi
      rw [State.setBuffer_same]
      exact ⟨rfl, rfl⟩
    · rw [State.setBuffer_other hi]
      exact ⟨rfl, rfl⟩
  · exact ⟨rfl, rfl⟩

theorem Step.inv {base : Nat} {c c' : Session} {op : Op} (hinv : c.Inv base)
    (hstep : Step base c op c') : c'.Inv base := by
  obtain ⟨hcoh, hlast, hsome⟩ := hinv
  cases hstep with
  | @get n hn hp =>
      have hcoh' : Coherent base c.cache c.contents False := by
        simpa [hp] using hcoh
      obtain ⟨hget, hvalid, hnum, hptr⟩ := blockGet_spec hcoh' hn
      refine ⟨by simpa [hp] using hget, ?_, by simp [hp]⟩
      intro m ptr hm
      simp only [Option.some.injEq, Prod.mk.injEq] at hm
      obtain ⟨rfl, rfl⟩ := hm
      exact ⟨hvalid, hnum, hptr⟩
  | @write n ptr o b hl ho =>
      obtain ⟨hvalid, rfl, rfl⟩ := hlast n ptr hl
      refine ⟨by simpa using write_coherent hcoh hvalid ho b, ?_, by simp [hl]⟩
      intro m ptr' hm
      exact hlast m ptr' hm
  | update =>
      refine ⟨by simpa using blockUpdate_coherent hcoh, ?_, by simp⟩
      intro n ptr hl
      obtain ⟨hvalid, hnum, hptr⟩ := hlast n ptr hl
      dsimp only
      rw [blockUpdate_mostRecent]
      rw [(blockUpdate_buffer c.cache _).1, (blockUpdate_buffer c.cache _).2]
      exact ⟨hvalid, hnum, hptr⟩
  | flush =>
      obtain ⟨hflush, hmost, hbuf⟩ := flushList_coherent hcoh (List.finRange numBuffers)
      refine ⟨hflush, ?_, hsome⟩
      intro n ptr hl
      obtain ⟨hvalid, hnum, hptr⟩ := hlast n ptr hl
      dsimp only [blockFlush]
      rw [hmost, (hbuf _).1.1, (hbuf _).1.2]
      exact ⟨hvalid, hnum, hptr⟩
  | tick => exact ⟨⟨hcoh.unique, hcoh.inRange, hcoh.cached, hcoh.synced⟩, hlast, hsome⟩

/-- **The cache is transparent.** Whatever the client has done, `block_get`
returns what was last stored in the block (or what the disk held at first);
a flush brings every block to the disk, but for one with unannounced writes;
and a block is in one buffer at most. -/
theorem block_cache_transparent (base : Nat) {c₀ c : Session} {ops : List Op} (h₀ : Fresh c₀)
    (hrun : Run (Step base) c₀ ops c) :
    (∀ n : BitVec 32, n.toNat < blockLimit → c.pending = false → ∀ o, Payload o →
      (blockGet base c.cache n).1.mem ((blockGet base c.cache n).2 + o) = c.contents n o) ∧
    (∀ n : BitVec 32, n.toNat < blockLimit →
      (c.pending = true → c.last.map Prod.fst ≠ some n) → ∀ o, Payload o →
      diskBlock (blockFlush base c.cache).disk n o = c.contents n o) ∧
    (∀ i j, (c.cache.buffers i).valid = true → (c.cache.buffers j).valid = true →
      (c.cache.buffers i).blockNum = (c.cache.buffers j).blockNum → i = j) := by
  obtain ⟨hcoh, hptr, hlast⟩ : c.Inv base :=
    Run.invariant (I := Session.Inv base) (fun _ _ _ hI hstep => Step.inv hI hstep) hrun h₀.inv
  refine ⟨?_, ?_, hcoh.unique⟩
  · intro n hn hp o ho
    have hcoh' : Coherent base c.cache c.contents False := by simpa [hp] using hcoh
    obtain ⟨hget, hvalid, hnum, haddr⟩ := blockGet_spec hcoh' hn
    rw [haddr, hget.cached _ hvalid o ho, hnum]
  · intro n hn hpend o ho
    apply blockFlush_synced hcoh hn _ ho
    intro hp _
    obtain ⟨⟨m, ptr⟩, hl⟩ := Option.ne_none_iff_exists'.mp (hlast hp)
    obtain ⟨-, rfl, -⟩ := hptr m ptr hl
    intro hc
    apply hpend hp
    rw [hl, ← hc]
    rfl

/-- An empty cache over a zeroed disk. -/
def blankSession : Session where
  cache :=
    { mem := fun _ => 0#8
      buffers := fun _ => {}
      mostRecentBuffer := ⟨0, by decide⟩
      kernelTicks := 0#64
      disk := fun _ _ => 0#8
      serialLog := [] }
  contents := fun _ _ => 0#8
  last := none
  pending := false

theorem blankSession_fresh : Fresh blankSession := by
  refine ⟨fun _ => rfl, ?_, rfl, rfl⟩
  funext n o
  simp [diskBlock, blankSession]

/-- Block 5 is written, announced and flushed. -/
theorem block_cache_transparent_blank :
    ∃ c, Run (Step 0x1000) blankSession [.get 5#32, .write 16 7#8, .update, .flush] c ∧
      c.contents 5#32 16 = 7#8 ∧ diskBlock (blockFlush 0x1000 c.cache).disk 5#32 16 = 7#8 := by
  have hrun : Run (Step 0x1000) blankSession [.get 5#32, .write 16 7#8, .update, .flush] _ :=
    .cons (.get (by decide) rfl) (.cons (.write rfl (by decide))
      (.cons .update (.cons .flush (.nil _))))
  have hcontents := (block_cache_transparent 0x1000 blankSession_fresh hrun).2.1 5#32 (by decide)
    (by simp) 16 (by decide)
  exact ⟨_, hrun, rfl, hcontents⟩

/-- A flush skips a buffer whose last writes were not announced: the disk then
lacks them, although the next `block_get` would still return them. -/
theorem flush_before_update_loses :
    ¬ ∀ (base : Nat) (c₀ c : Session) (ops : List Op), Fresh c₀ → Run (Step base) c₀ ops c →
      ∀ n : BitVec 32, n.toNat < blockLimit → ∀ o, Payload o →
        diskBlock (blockFlush base c.cache).disk n o = c.contents n o := by
  intro h
  have hrun : Run (Step 0x1000) blankSession [.get 5#32, .write 16 7#8] _ :=
    .cons (.get (by decide) rfl) (.cons (.write rfl (by decide)) (.nil _))
  have hflush := h 0x1000 blankSession _ _ blankSession_fresh hrun 5#32 (by decide) 16 (by decide)
  have hdisk : diskBlock (blockFlush 0x1000
      { (blockGet 0x1000 blankSession.cache 5#32).1 with
        mem := write8 (blockGet 0x1000 blankSession.cache 5#32).1.mem
          ((blockGet 0x1000 blankSession.cache 5#32).2 + 16) 7#8 }).disk 5#32 16 = 0#8 := by
    decide
  exact absurd (hdisk.symm.trans hflush) (by decide)

end VectorForth.BlockDevice
