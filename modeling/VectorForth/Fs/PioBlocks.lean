import VectorForth.Fs.BlockCache
import VectorForth.Fs.Pio

/-!
# The block cache on the drive

The functions of `block_device.c` reach the disk through `ata_read_sector` and
`ata_write_sector` only. The calls that each makes are listed here, in the order
of the source, with the work on the memory between them; the drive comes through
them to where the ideal disk comes.
-/

namespace VectorForth.Ata

open ByteMemory BlockDevice

/-! ## The calls -/

/-- The calls of `write_buffer_to_disk`. -/
def writeBufferCalls (base : Nat) (s : State) (idx : Fin numBuffers) : List Op :=
  if !(s.buffers idx).valid || !(s.buffers idx).dirty then []
  else
    let block := blockAddr base idx
    let start := startSector (s.buffers idx).blockNum
    [.compute fun m =>
        write32 m (block + crcField) (calculateCrc32 m (block + dataField) blockDataSize).toNat,
      .write start block, .write (start + 1#32) (block + sectorSize)]

def flushCalls (base : Nat) : List (Fin numBuffers) → State → List Op
  | [], _ => []
  | i :: is, s => writeBufferCalls base s i ++ flushCalls base is (writeBufferToDisk base s i)

/-- The calls of `block_get`. -/
def getCalls (base : Nat) (s : State) (blockNum : BitVec 32) : List Op :=
  match findBuffer s blockNum with
  | some _ => []
  | none =>
      let start := startSector blockNum
      let block := blockAddr base (oldestBuffer s)
      writeBufferCalls base s (oldestBuffer s) ++
        [.read start block, .read (start + 1#32) (block + sectorSize)]

/-- What a client of the block layer does. -/
inductive Act
  | get (n : BitVec 32)
  | compute (f : Mem → Mem)
  | update
  | flush
  | tick (t : BitVec 64)

def Act.run (base : Nat) (s : State) : Act → State
  | .get n => (blockGet base s n).1
  | .compute f => { s with mem := f s.mem }
  | .update => blockUpdate s
  | .flush => blockFlush base s
  | .tick t => { s with kernelTicks := t }

def Act.calls (base : Nat) (s : State) : Act → List Op
  | .get n => getCalls base s n
  | .compute f => [.compute f]
  | .flush => flushCalls base (List.finRange numBuffers) s
  | _ => []

def runActs (base : Nat) (acts : List Act) (s : State) : State := acts.foldl (Act.run base) s

/-- The calls of a whole run. -/
def callsOf (base : Nat) : List Act → State → List Op
  | [], _ => []
  | a :: acts, s => a.calls base s ++ callsOf base acts (a.run base s)

/-- A block number whose sectors have 28 bits. -/
def Act.Small : Act → Prop
  | .get n => n.toNat < blockLimit
  | _ => True

/-- Every block in the cache has such a number. -/
def CachedSmall (s : State) : Prop :=
  ∀ i, (s.buffers i).valid = true → (s.buffers i).blockNum.toNat < blockLimit

/-! ## The calls have the effect of the functions -/

section Calls

variable {base : Nat} {s t : State} {ops : List Op} {n : BitVec 32} {acts : List Act}

def SameDisk (s t : State) : Prop := s.mem = t.mem ∧ s.disk = t.disk

theorem ideal_same (h : SameDisk s t) (o : Op) : SameDisk (o.ideal s) (o.ideal t) := by
  obtain ⟨hmem, hdisk⟩ := h
  cases o with
  | read lba buf => exact ⟨by simp only [Op.ideal, BlockDevice.ataReadSector, hmem, hdisk], hdisk⟩
  | write lba buf => exact ⟨hmem, by simp only [Op.ideal, BlockDevice.ataWriteSector, hmem, hdisk]⟩
  | compute f => exact ⟨congrArg f hmem, hdisk⟩

theorem runIdeal_same (h : SameDisk s t) (ops : List Op) :
    SameDisk (runIdeal ops s) (runIdeal ops t) := by
  induction ops generalizing s t with
  | nil => exact h
  | cons o ops ih => exact ih (ideal_same h o)

theorem runIdeal_append (ops ops' : List Op) (s : State) :
    runIdeal (ops ++ ops') s = runIdeal ops' (runIdeal ops s) := List.foldl_append

/-- One piece of a run after another. -/
theorem runIdeal_then {u : State} {ops' : List Op} (h : SameDisk (runIdeal ops s) t)
    (h' : SameDisk (runIdeal ops' t) u) : SameDisk (runIdeal (ops ++ ops') s) u := by
  rw [runIdeal_append]
  obtain ⟨hmem, hdisk⟩ := runIdeal_same h ops'
  exact ⟨hmem.trans h'.1, hdisk.trans h'.2⟩

theorem writeBufferCalls_same (base : Nat) (s : State) (idx : Fin numBuffers) :
    SameDisk (runIdeal (writeBufferCalls base s idx) s) (writeBufferToDisk base s idx) := by
  unfold writeBufferCalls writeBufferToDisk
  split
  · exact ⟨rfl, rfl⟩
  · exact ⟨rfl, rfl⟩

theorem flushCalls_same (base : Nat) (is : List (Fin numBuffers)) (s : State) :
    SameDisk (runIdeal (flushCalls base is s) s) (is.foldl (writeBufferToDisk base) s) := by
  induction is generalizing s with
  | nil => exact ⟨rfl, rfl⟩
  | cons i is ih => exact runIdeal_then (writeBufferCalls_same base s i) (ih _)

theorem getCalls_same (base : Nat) (s : State) (n : BitVec 32) :
    SameDisk (runIdeal (getCalls base s n) s) (blockGet base s n).1 := by
  cases hfind : findBuffer s n with
  | some i =>
      simp only [getCalls, blockGet, hfind]
      exact ⟨rfl, rfl⟩
  | none =>
      simp only [getCalls, blockGet, hfind]
      exact runIdeal_then (writeBufferCalls_same base s _) ⟨rfl, rfl⟩

theorem calls_same (base : Nat) (s : State) (a : Act) :
    SameDisk (runIdeal (a.calls base s) s) (a.run base s) := by
  cases a with
  | get n => exact getCalls_same base s n
  | compute f => exact ⟨rfl, rfl⟩
  | update =>
      show SameDisk s (blockUpdate s)
      unfold blockUpdate
      split <;> exact ⟨rfl, rfl⟩
  | flush => exact flushCalls_same base _ s
  | tick t => exact ⟨rfl, rfl⟩

theorem callsOf_same (base : Nat) (acts : List Act) (s : State) :
    SameDisk (runIdeal (callsOf base acts s) s) (runActs base acts s) := by
  induction acts generalizing s with
  | nil => exact ⟨rfl, rfl⟩
  | cons a acts ih => exact runIdeal_then (calls_same base s a) (ih _)

/-! ## The drive has room for their sectors -/

theorem startSector_fits (h : n.toNat < blockLimit) :
    (startSector n).toNat < 2 ^ 28 ∧ (startSector n + 1#32).toNat < 2 ^ 28 := by
  have hlimit : blockLimit = 2 ^ 27 - 512 := rfl
  rw [startSector_toNat h, startSector_succ_toNat h]
  omega

theorem writeBufferCalls_fit (h : CachedSmall s) (idx : Fin numBuffers) :
    ∀ o ∈ writeBufferCalls base s idx, o.Fits := by
  unfold writeBufferCalls
  split
  · simp
  · rename_i hdirty
    have hvalid : (s.buffers idx).valid = true := by
      by_contra hnot
      exact hdirty (by simp [hnot])
    obtain ⟨hfirst, hsecond⟩ := startSector_fits (h idx hvalid)
    intro o ho
    simp only [List.mem_cons, List.not_mem_nil, or_false] at ho
    rcases ho with rfl | rfl | rfl
    · exact trivial
    · exact hfirst
    · exact hsecond

theorem cachedSmall_write (h : CachedSmall s) (idx : Fin numBuffers) :
    CachedSmall (writeBufferToDisk base s idx) := by
  intro i hi
  rw [writeBufferToDisk_valid] at hi
  rw [writeBufferToDisk_blockNum]
  exact h i hi

theorem flushCalls_fit (h : CachedSmall s) (is : List (Fin numBuffers)) :
    ∀ o ∈ flushCalls base is s, o.Fits := by
  induction is generalizing s with
  | nil => simp [flushCalls]
  | cons i is ih =>
      intro o ho
      rcases List.mem_append.mp ho with ho | ho
      · exact writeBufferCalls_fit h i o ho
      · exact ih (cachedSmall_write h i) o ho

theorem cachedSmall_flush (h : CachedSmall s) (is : List (Fin numBuffers)) :
    CachedSmall (is.foldl (writeBufferToDisk base) s) := by
  induction is generalizing s with
  | nil => exact h
  | cons i is ih => exact ih (cachedSmall_write h i)

theorem cachedSmall_setBuffer (h : CachedSmall s) (i : Fin numBuffers) {buf : Buffer}
    (hbuf : buf.valid = true → buf.blockNum.toNat < blockLimit) :
    CachedSmall (s.setBuffer i buf) := by
  intro j hj
  by_cases heq : j = i
  · subst heq
    rw [State.setBuffer_same] at hj ⊢
    exact hbuf hj
  · rw [State.setBuffer_other heq] at hj ⊢
    exact h j hj

/-- A step of a client, where the cache has room for its blocks. -/
theorem act_small (base : Nat) {a : Act} (h : CachedSmall s) (ha : a.Small) :
    (∀ o ∈ a.calls base s, o.Fits) ∧ CachedSmall (a.run base s) := by
  cases a with
  | get n =>
      obtain ⟨hfirst, hsecond⟩ := startSector_fits ha
      cases hfind : findBuffer s n with
      | some i =>
          simp only [Act.calls, Act.run, getCalls, blockGet, hfind]
          exact ⟨by simp, cachedSmall_setBuffer h i (h i)⟩
      | none =>
          simp only [Act.calls, Act.run, getCalls, blockGet, hfind]
          constructor
          · intro o ho
            rcases List.mem_append.mp ho with ho | ho
            · exact writeBufferCalls_fit h _ o ho
            · simp only [List.mem_cons, List.not_mem_nil, or_false] at ho
              rcases ho with rfl | rfl
              · exact hfirst
              · exact hsecond
          · exact cachedSmall_setBuffer (cachedSmall_write h _) _ fun _ => ha
  | compute f =>
      refine ⟨fun o ho => ?_, h⟩
      obtain rfl := List.mem_singleton.mp ho
      exact trivial
  | update =>
      refine ⟨by simp [Act.calls], ?_⟩
      show CachedSmall (blockUpdate s)
      unfold blockUpdate
      split
      · exact cachedSmall_setBuffer h _ (h _)
      · exact h
  | flush => exact ⟨flushCalls_fit h _, cachedSmall_flush h _⟩
  | tick t => exact ⟨by simp [Act.calls], h⟩

theorem callsOf_fit (base : Nat) (h : CachedSmall s) (hacts : ∀ a ∈ acts, a.Small) :
    ∀ o ∈ callsOf base acts s, o.Fits := by
  induction acts generalizing s with
  | nil => simp [callsOf]
  | cons a acts ih =>
      obtain ⟨hcalls, hnext⟩ := act_small base h (hacts a List.mem_cons_self)
      intro o ho
      rcases List.mem_append.mp ho with ho | ho
      · exact hcalls o ho
      · exact ih hnext (fun a' ha' => hacts a' (List.mem_cons_of_mem _ ha')) o ho

end Calls

/-- **The block cache works on the drive as on the ideal disk.** Over any run of
`block_get`, `block_update`, `block_flush` and work on the memory, the calls that are
made come through the ports of a drive that does not fail to the memory and the
sectors of the ideal disk, however long the drive takes. -/
theorem block_cache_pio {b : Habits} (base : Nat) {s : State} {d : Drive} {acts : List Act}
    (h : Shadows s s.mem d) (hsound : ¬ b.MayFail) (hcached : CachedSmall s)
    (hacts : ∀ a ∈ acts, a.Small) : ∃ n d', (∀ fuel, n ≤ fuel →
      runPio b fuel (callsOf base acts s) (s.mem, d) = .ok ((runActs base acts s).mem, d')) ∧
    Shadows (runActs base acts s) (runActs base acts s).mem d' := by
  obtain ⟨hmem, hdisk⟩ := callsOf_same base acts s
  obtain ⟨n, ⟨hfail, -⟩ | ⟨kept, m', d', hrun, -, hall, hend, -⟩⟩ :=
    runPio_run (b := b) h (callsOf_fit base hcached hacts)
  · exact absurd hfail hsound
  · obtain rfl := hall hsound
    obtain rfl : m' = _ := hend.mem.trans hmem
    refine ⟨n, d', hrun, rfl, hend.idle, fun lba hlba o ho => ?_⟩
    rw [hend.sectors lba hlba o ho, hdisk]

theorem block_cache_pio_sevens : ∃ n d', ∀ fuel, n ≤ fuel →
    runPio slowHabits fuel (callsOf 4096 [.get 3#32, .update, .flush] sevensState)
        (sevensState.mem, emptyDrive) =
      .ok ((runActs 4096 [.get 3#32, .update, .flush] sevensState).mem, d') := by
  have hsound : ¬ slowHabits.MayFail := by
    rintro ⟨c, hc⟩
    cases hc
  have hcached : CachedSmall sevensState := by
    rintro i ⟨⟩
  have hacts : ∀ a ∈ [Act.get 3#32, .update, .flush], a.Small := by
    intro a ha
    simp only [List.mem_cons, List.not_mem_nil, or_false] at ha
    rcases ha with rfl | rfl | rfl
    · exact (by decide : (3#32).toNat < blockLimit)
    · exact trivial
    · exact trivial
  obtain ⟨n, d', hrun, -⟩ :=
    block_cache_pio (b := slowHabits) 4096 shadows_empty hsound hcached hacts
  exact ⟨n, d', hrun⟩

end VectorForth.Ata
