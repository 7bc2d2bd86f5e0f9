import VectorForth.Fs.BlockCache

/-!
# One block in the cache

What the cache holds of a single block, whatever happens to the others: `Kept n`
says that block `n` reads as `contents`, in its buffer or on the disk. Only the
block numbers of the buffers matter beside that, so the clients of the other
blocks need no discipline.
-/

namespace VectorForth.BlockDevice

open ByteMemory

/-- Buffers hold blocks that the disk can name, block `n` in one of them at most. -/
structure CacheOk (s : State) : Prop where
  unique : ∀ i j, (s.buffers i).valid = true → (s.buffers j).valid = true →
    (s.buffers i).blockNum = (s.buffers j).blockNum → i = j
  inRange : ∀ i, (s.buffers i).valid = true → (s.buffers i).blockNum.toNat < blockLimit

/-- The cache holds `contents` for block `n`. -/
structure Kept (base : Nat) (s : State) (n : BitVec 32) (contents : Nat → Byte) : Prop where
  cached : ∀ i, (s.buffers i).valid = true → (s.buffers i).blockNum = n → ∀ o, Payload o →
    s.mem (blockAddr base i + o) = contents o
  synced : (∀ i, (s.buffers i).valid = true → (s.buffers i).blockNum = n →
    (s.buffers i).dirty = false) → ∀ o, Payload o → diskBlock s.disk n o = contents o

/-- The most recent buffer is that of block `n`. -/
def Recent (s : State) (n : BitVec 32) : Prop :=
  (s.buffers s.mostRecentBuffer).valid = true ∧ (s.buffers s.mostRecentBuffer).blockNum = n

/-- The address is in no buffer of block `n`. -/
def AwayFrom (base : Nat) (s : State) (n : BitVec 32) (x : Nat) : Prop :=
  ∀ i, (s.buffers i).valid = true → (s.buffers i).blockNum = n →
    x < blockAddr base i ∨ blockAddr base i + blockSize ≤ x

section Kept

variable {base : Nat} {s : State} {n m : BitVec 32} {contents : Nat → Byte}

/-! ## Write-back -/

theorem CacheOk.writeBuffer (h : CacheOk s) (idx : Fin numBuffers) :
    CacheOk (writeBufferToDisk base s idx) := by
  constructor
  case unique =>
    intro i j hi hj hij
    simp only [writeBufferToDisk_valid, writeBufferToDisk_blockNum] at hi hj hij
    exact h.unique i j hi hj hij
  case inRange =>
    intro i hi
    simp only [writeBufferToDisk_valid, writeBufferToDisk_blockNum] at hi ⊢
    exact h.inRange i hi

theorem Kept.writeBuffer (h : Kept base s n contents) (hok : CacheOk s) (hn : n.toNat < blockLimit)
    (idx : Fin numBuffers) : Kept base (writeBufferToDisk base s idx) n contents := by
  constructor
  case cached =>
    intro i hi hnum o ho
    simp only [writeBufferToDisk_valid, writeBufferToDisk_blockNum] at hi hnum
    rw [writeBufferToDisk_payload ho]
    exact h.cached i hi hnum o ho
  case synced =>
    intro hclean o ho
    simp only [writeBufferToDisk_valid, writeBufferToDisk_blockNum] at hclean
    by_cases hidx : (s.buffers idx).valid = true ∧ (s.buffers idx).dirty = true ∧
        (s.buffers idx).blockNum = n
    · -- the block itself is written back
      obtain ⟨hv, hd, rfl⟩ := hidx
      rw [diskBlock_writeBufferToDisk_self hv hd, writeBufferToDisk_payload ho]
      exact h.cached idx hv rfl o ho
    · rw [diskBlock_writeBufferToDisk_other hn (hok.inRange idx) hidx]
      refine h.synced ?_ o ho
      intro i hv hnum
      have hd := hclean i hv hnum
      by_cases hi : i = idx
      · subst hi
        have hnot : ¬ (s.buffers i).dirty = true := fun hd' => hidx ⟨hv, hd', hnum⟩
        simpa using hnot
      · rwa [writeBufferToDisk_buffers, if_neg (fun hc => hi hc.1)] at hd

theorem kept_flush (hn : n.toNat < blockLimit) (hok : CacheOk s) (h : Kept base s n contents) :
    CacheOk (blockFlush base s) ∧ Kept base (blockFlush base s) n contents := by
  unfold blockFlush
  induction List.finRange numBuffers generalizing s with
  | nil => exact ⟨hok, h⟩
  | cons i l ih => exact ih (hok.writeBuffer i) (h.writeBuffer hok hn i)

theorem CacheOk.flush (hok : CacheOk s) : CacheOk (blockFlush base s) := by
  unfold blockFlush
  induction List.finRange numBuffers generalizing s with
  | nil => exact hok
  | cons i l ih => exact ih (hok.writeBuffer i)

/-! ## `block_get` -/

theorem CacheOk.load (h : CacheOk s) (idx : Fin numBuffers) (hm : m.toNat < blockLimit)
    (hmiss : ∀ i, (s.buffers i).valid = true → (s.buffers i).blockNum ≠ m) :
    CacheOk (loadBlock base s idx m) := by
  constructor
  case unique =>
    intro i j hi hj hij
    by_cases hi' : i = idx <;> by_cases hj' : j = idx
    · rw [hi', hj']
    · subst hi'
      rw [loadBlock_buffers_self, loadBlock_buffers_other hj'] at hij
      rw [loadBlock_buffers_other hj'] at hj
      exact absurd hij.symm (hmiss j hj)
    · subst hj'
      rw [loadBlock_buffers_self, loadBlock_buffers_other hi'] at hij
      rw [loadBlock_buffers_other hi'] at hi
      exact absurd hij (hmiss i hi)
    · rw [loadBlock_buffers_other hi'] at hi hij
      rw [loadBlock_buffers_other hj'] at hj hij
      exact h.unique i j hi hj hij
  case inRange =>
    intro i hi
    by_cases hi' : i = idx
    · subst hi'
      rwa [loadBlock_buffers_self]
    · rw [loadBlock_buffers_other hi'] at hi ⊢
      exact h.inRange i hi

theorem Kept.load (h : Kept base s n contents) (hok : CacheOk s) (hn : n.toNat < blockLimit)
    (idx : Fin numBuffers) (hmiss : ∀ i, (s.buffers i).valid = true → (s.buffers i).blockNum ≠ m) :
    Kept base (loadBlock base s idx m) n contents := by
  have hwb := h.writeBuffer hok hn idx
  constructor
  case cached =>
    intro i hi hnum o ho
    by_cases hi' : i = idx
    · -- block `n` has just been read, and no buffer held it before
      subst hi'
      rw [loadBlock_buffers_self] at hnum
      dsimp only at hnum
      subst hnum
      rw [loadBlock_mem_self ho.1]
      refine hwb.synced ?_ o ho
      intro j hj hnum
      simp only [writeBufferToDisk_valid, writeBufferToDisk_blockNum] at hj hnum
      exact absurd hnum (hmiss j hj)
    · rw [loadBlock_buffers_other hi'] at hi hnum
      rw [loadBlock_mem_other hi' ho]
      exact h.cached i hi hnum o ho
  case synced =>
    intro hclean o ho
    rw [loadBlock_disk]
    refine hwb.synced ?_ o ho
    intro i hi hnum
    simp only [writeBufferToDisk_valid, writeBufferToDisk_blockNum] at hi hnum
    rw [writeBufferToDisk_buffers]
    by_cases hi' : i = idx
    · subst hi'
      rw [if_pos ⟨rfl, hi⟩]
    · rw [if_neg (fun hc => hi' hc.1)]
      have hd := hclean i (by rwa [loadBlock_buffers_other hi']) (by rwa [loadBlock_buffers_other hi'])
      rwa [loadBlock_buffers_other hi'] at hd

/-- A hit moves the stamp and the most recent buffer. -/
theorem touch_buffer (s : State) (i j : Fin numBuffers) (t : BitVec 64) :
    ∃ u, (s.setBuffer i { s.buffers i with lastUsed := t }).buffers j =
      { s.buffers j with lastUsed := u } := by
  by_cases hj : j = i
  · subst hj
    exact ⟨t, State.setBuffer_same ..⟩
  · exact ⟨(s.buffers j).lastUsed, State.setBuffer_other hj⟩

theorem CacheOk.get (h : CacheOk s) (hm : m.toNat < blockLimit) :
    CacheOk (blockGet base s m).1 := by
  unfold blockGet
  split
  · rename_i i hfind
    constructor
    case unique =>
      intro j k
      obtain ⟨u, hj⟩ := touch_buffer s i j s.kernelTicks
      obtain ⟨v, hk⟩ := touch_buffer s i k s.kernelTicks
      dsimp only
      rw [hj, hk]
      exact h.unique j k
    case inRange =>
      intro j
      obtain ⟨u, hj⟩ := touch_buffer s i j s.kernelTicks
      dsimp only
      rw [hj]
      exact h.inRange j
  · rename_i hfind
    exact h.load _ hm (findBuffer_none hfind)

theorem Kept.get (h : Kept base s n contents) (hok : CacheOk s) (hn : n.toNat < blockLimit)
    (m : BitVec 32) : Kept base (blockGet base s m).1 n contents := by
  unfold blockGet
  split
  · rename_i i hfind
    constructor
    case cached =>
      intro j
      obtain ⟨u, hj⟩ := touch_buffer s i j s.kernelTicks
      dsimp only
      rw [hj]
      exact h.cached j
    case synced =>
      intro hclean
      refine h.synced ?_
      intro j hv hnum
      obtain ⟨u, hj⟩ := touch_buffer s i j s.kernelTicks
      have hd := hclean j (by dsimp only; rwa [hj]) (by dsimp only; rwa [hj])
      dsimp only at hd
      rwa [hj] at hd
  · rename_i hfind
    exact h.load hok hn _ (findBuffer_none hfind)

/-- `block_get` returns the buffer of the block it was asked for. -/
theorem blockGet_recent (base : Nat) (s : State) (m : BitVec 32) :
    Recent (blockGet base s m).1 m ∧
      (blockGet base s m).2 = blockAddr base (blockGet base s m).1.mostRecentBuffer := by
  unfold blockGet
  split
  · rename_i i hfind
    obtain ⟨hv, hnum⟩ := findBuffer_some hfind
    refine ⟨⟨?_, ?_⟩, rfl⟩
    · dsimp only
      rw [State.setBuffer_same]
      exact hv
    · dsimp only
      rw [State.setBuffer_same]
      exact hnum
  · refine ⟨⟨?_, ?_⟩, rfl⟩ <;> rw [loadBlock_mostRecent, loadBlock_buffers_self]

/-! ## Updates -/

theorem CacheOk.update (h : CacheOk s) : CacheOk (blockUpdate s) := by
  constructor
  case unique =>
    intro i j hi hj hij
    rw [(blockUpdate_buffer s i).1] at hi
    rw [(blockUpdate_buffer s j).1] at hj
    rw [(blockUpdate_buffer s i).2, (blockUpdate_buffer s j).2] at hij
    exact h.unique i j hi hj hij
  case inRange =>
    intro i hi
    rw [(blockUpdate_buffer s i).1] at hi
    rw [(blockUpdate_buffer s i).2]
    exact h.inRange i hi

theorem blockUpdate_mem (s : State) : (blockUpdate s).mem = s.mem := by
  unfold blockUpdate
  split <;> rfl

theorem blockUpdate_disk (s : State) : (blockUpdate s).disk = s.disk := by
  unfold blockUpdate
  split <;> rfl

/-- Marking a buffer dirty cleans none. -/
theorem blockUpdate_dirty {i : Fin numBuffers} (h : ((blockUpdate s).buffers i).dirty = false) :
    (s.buffers i).dirty = false := by
  unfold blockUpdate at h
  split at h
  · by_cases hi : i = s.mostRecentBuffer
    · subst hi
      rw [State.setBuffer_same] at h
      cases h
    · rwa [State.setBuffer_other hi] at h
  · exact h

theorem Kept.update (h : Kept base s n contents) : Kept base (blockUpdate s) n contents := by
  constructor
  case cached =>
    intro i hi hnum o ho
    rw [(blockUpdate_buffer s i).1] at hi
    rw [(blockUpdate_buffer s i).2] at hnum
    rw [blockUpdate_mem]
    exact h.cached i hi hnum o ho
  case synced =>
    intro hclean o ho
    rw [blockUpdate_disk]
    refine h.synced ?_ o ho
    intro i hi hnum
    exact blockUpdate_dirty (hclean i (by rw [(blockUpdate_buffer s i).1]; exact hi)
      (by rw [(blockUpdate_buffer s i).2]; exact hnum))

/-- What is written elsewhere does not matter. -/
theorem Kept.congr {mem : Mem} (h : Kept base s n contents)
    (hmem : ∀ i, (s.buffers i).valid = true → (s.buffers i).blockNum = n → ∀ o, Payload o →
      mem (blockAddr base i + o) = s.mem (blockAddr base i + o)) :
    Kept base { s with mem := mem } n contents :=
  ⟨fun i hi hnum o ho => (hmem i hi hnum o ho).trans (h.cached i hi hnum o ho), h.synced⟩

/-- A block that is written in the most recent buffer and announced. -/
theorem kept_rewrite {mem : Mem} (hok : CacheOk s) (hrecent : Recent s n) :
    Kept base (blockUpdate { s with mem := mem }) n
      fun o => mem (blockAddr base s.mostRecentBuffer + o) := by
  obtain ⟨hvalid, hnum⟩ := hrecent
  constructor
  case cached =>
    intro i hi hnum' o _
    rw [(blockUpdate_buffer { s with mem := mem } i).1] at hi
    rw [(blockUpdate_buffer { s with mem := mem } i).2] at hnum'
    obtain rfl := hok.unique i s.mostRecentBuffer hi hvalid (hnum'.trans hnum.symm)
    rw [blockUpdate_mem]
  case synced =>
    intro hclean
    have hupdate : blockUpdate { s with mem := mem } =
        ({ s with mem := mem } : State).setBuffer s.mostRecentBuffer
          { s.buffers s.mostRecentBuffer with dirty := true } := if_pos hvalid
    have hd := hclean s.mostRecentBuffer
    rw [hupdate, State.setBuffer_same] at hd
    exact absurd (hd hvalid hnum) (by simp)

/-- A write inside one block leaves the bytes of the others. -/
theorem Kept.other {mem : Mem} (h : Kept base s m contents) (hne : m ≠ n) (hrecent : Recent s n)
    (hmem : ∀ x, x < blockAddr base s.mostRecentBuffer ∨
      blockAddr base s.mostRecentBuffer + blockSize ≤ x → mem x = s.mem x) :
    Kept base { s with mem := mem } m contents := by
  refine h.congr ?_
  intro i _ hnum o ho
  have hi : i ≠ s.mostRecentBuffer := by
    rintro rfl
    exact hne (hnum.symm.trans hrecent.2)
  have hdisj := blockAddr_disjoint base hi
  obtain ⟨hlt, -⟩ := ho
  exact hmem _ (by omega)

/-- `block_get`, writes through the pointer and `block_update`. -/
def rewriteBlock (base : Nat) (s : State) (n : BitVec 32) (f : Mem → Nat → Mem) : State :=
  blockUpdate { (blockGet base s n).1 with
    mem := f (blockGet base s n).1.mem (blockGet base s n).2 }

/-- The writes stay inside the block at `ptr`. -/
def WithinBlock (f : Mem → Nat → Mem) : Prop :=
  ∀ mem ptr x, x < ptr ∨ ptr + blockSize ≤ x → f mem ptr x = mem x

structure Rewritten (base : Nat) (s : State) (n : BitVec 32) (f : Mem → Nat → Mem) (s' : State) :
    Prop where
  ok : CacheOk s'
  kept : Kept base s' n fun o => f (blockGet base s n).1.mem (blockGet base s n).2
    ((blockGet base s n).2 + o)
  other : ∀ m contents, m ≠ n → m.toNat < blockLimit → Kept base s m contents →
    Kept base s' m contents

theorem rewritten {f : Mem → Nat → Mem} (hok : CacheOk s) (hn : n.toNat < blockLimit)
    (hf : WithinBlock f) : Rewritten base s n f (rewriteBlock base s n f) := by
  obtain ⟨hrecent, hptr⟩ := blockGet_recent base s n
  have hgot : CacheOk (blockGet base s n).1 := hok.get hn
  constructor
  case ok => exact CacheOk.update ⟨hgot.unique, hgot.inRange⟩
  case kept =>
    rw [rewriteBlock, hptr]
    exact kept_rewrite hgot hrecent
  case other =>
    intro m contents hne hm h
    rw [rewriteBlock, hptr]
    exact ((h.get hok hm n).other hne hrecent (hf _ _)).update

/-! ## Reading -/

/-- Byte `o` of block `n`, as `block_get` shows it. -/
def view (base : Nat) (s : State) (n : BitVec 32) (o : Nat) : Byte :=
  (blockGet base s n).1.mem ((blockGet base s n).2 + o)

theorem Kept.view (h : Kept base s n contents) (hok : CacheOk s) (hn : n.toNat < blockLimit)
    {o : Nat} (ho : Payload o) : view base s n o = contents o := by
  obtain ⟨⟨hvalid, hnum⟩, hptr⟩ := blockGet_recent base s n
  rw [BlockDevice.view, hptr]
  exact (h.get hok hn n).cached _ hvalid hnum o ho

end Kept

end VectorForth.BlockDevice
