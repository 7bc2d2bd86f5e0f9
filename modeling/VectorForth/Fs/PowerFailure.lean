import VectorForth.Fs.FileSystem

/-!
# After a power failure

A buffer goes to the disk when it is evicted and when the cache is flushed, and
never otherwise. Between two calls the disk has of each block what the block held
at some moment since the last flush. The next boot reads that, finds the
superblock and goes on with the bitmap that was written back: what was allocated
before a flush is not handed out again.
-/

namespace VectorForth.BlockDevice

open ByteMemory LabelledRun Bitmap

/-! ## The disk changes to what the cache holds -/

/-- The buffer of block `n` holds `contents`. -/
def Shows (base : Nat) (s : State) (n : BitVec 32) (contents : Nat → Byte) : Prop :=
  ∀ i, (s.buffers i).valid = true → (s.buffers i).blockNum = n → ∀ o, Payload o →
    s.mem (blockAddr base i + o) = contents o

/-- The disk has `contents` for block `n`. -/
def Holds (d : Disk) (n : BitVec 32) (contents : Nat → Byte) : Prop :=
  ∀ o, Payload o → diskBlock d n o = contents o

/-- Of block `n`, the disk has what it had, or `contents`. -/
def WritesBack (d d' : Disk) (n : BitVec 32) (contents : Nat → Byte) : Prop :=
  ∀ old, Holds d n old → Holds d' n old ∨ Holds d' n contents

section WritesBack

variable {base : Nat} {s : State} {n m : BitVec 32} {contents : Nat → Byte} {d d' d'' : Disk}

theorem WritesBack.refl (d : Disk) : WritesBack d d n contents := fun _ h => Or.inl h

theorem WritesBack.trans (h : WritesBack d d' n contents) (h' : WritesBack d' d'' n contents) :
    WritesBack d d'' n contents := by
  intro old hold
  rcases h old hold with hsame | hnew
  · exact h' old hsame
  · exact Or.inr ((h' contents hnew).elim id id)

/-- Where the disk has the contents already, it keeps them. -/
theorem WritesBack.keeps (h : WritesBack d d' n contents) (hd : Holds d n contents) :
    Holds d' n contents := (h contents hd).elim id id

theorem Shows.writeBuffer (h : Shows base s n contents) (idx : Fin numBuffers) :
    Shows base (writeBufferToDisk base s idx) n contents := by
  intro i hv hnum o ho
  rw [writeBufferToDisk_valid] at hv
  rw [writeBufferToDisk_blockNum] at hnum
  rw [writeBufferToDisk_payload ho]
  exact h i hv hnum o ho

theorem writesBack_buffer (hok : CacheOk s) (h : Shows base s n contents)
    (hn : n.toNat < blockLimit) (idx : Fin numBuffers) :
    WritesBack s.disk (writeBufferToDisk base s idx).disk n contents := by
  intro old hold
  by_cases hidx : (s.buffers idx).valid = true ∧ (s.buffers idx).dirty = true ∧
      (s.buffers idx).blockNum = n
  · right
    intro o ho
    obtain ⟨hv, hd, rfl⟩ := hidx
    rw [diskBlock_writeBufferToDisk_self hv hd, writeBufferToDisk_payload ho]
    exact h idx hv rfl o ho
  · left
    intro o ho
    rw [diskBlock_writeBufferToDisk_other hn (hok.inRange idx) hidx]
    exact hold o ho

theorem writesBack_get (hok : CacheOk s) (h : Shows base s n contents) (hn : n.toNat < blockLimit)
    (m : BitVec 32) : WritesBack s.disk (blockGet base s m).1.disk n contents := by
  unfold blockGet
  split
  case h_1 => exact .refl _
  case h_2 =>
    rw [loadBlock_disk]
    exact writesBack_buffer hok h hn _

theorem writesBack_flush (hok : CacheOk s) (h : Shows base s n contents)
    (hn : n.toNat < blockLimit) :
    WritesBack s.disk (blockFlush base s).disk n contents := by
  unfold blockFlush
  induction List.finRange numBuffers generalizing s with
  | nil => exact .refl _
  | cons i l ih =>
      exact (writesBack_buffer hok h hn i).trans (ih (hok.writeBuffer i) (h.writeBuffer i))

/-- After a pass over the buffers in `l`, none of them is dirty. -/
theorem flushList_clean {l : List (Fin numBuffers)} {i : Fin numBuffers}
    (hv : (s.buffers i).valid = true) (hi : i ∈ l ∨ (s.buffers i).dirty = false) :
    ((l.foldl (writeBufferToDisk base) s).buffers i).dirty = false := by
  induction l generalizing s with
  | nil => exact hi.resolve_left List.not_mem_nil
  | cons j l ih =>
      rw [List.foldl_cons]
      apply ih
      · rwa [writeBufferToDisk_valid]
      · rw [writeBufferToDisk_buffers]
        rcases hi with hi | hclean
        · rcases List.mem_cons.mp hi with rfl | hl
          · rw [if_pos ⟨rfl, hv⟩]
            exact Or.inr rfl
          · exact Or.inl hl
        · right
          split
          · rfl
          · exact hclean

theorem flushList_valid (l : List (Fin numBuffers)) (i : Fin numBuffers) :
    ((l.foldl (writeBufferToDisk base) s).buffers i).valid = (s.buffers i).valid := by
  induction l generalizing s with
  | nil => rfl
  | cons j l ih => rw [List.foldl_cons, ih, writeBufferToDisk_valid]

/-- A flush brings the block to the disk. -/
theorem holds_flush (hok : CacheOk s) (h : Kept base s n contents) (hn : n.toNat < blockLimit) :
    Holds (blockFlush base s).disk n contents := by
  obtain ⟨-, hkept⟩ := kept_flush hn hok h
  apply hkept.synced
  intro i hv _
  apply flushList_clean
  · rwa [← flushList_valid (List.finRange numBuffers)]
  · exact Or.inl (List.mem_finRange i)

end WritesBack

/-! ## The next boot -/

/-- The state in which `block_init` finds the machine, over what is on the disk. -/
def powerOn (base : Nat) (mem : Mem) (disk : Disk) : State :=
  blockInit base
    { mem := mem
      buffers := fun _ => {}
      mostRecentBuffer := 0
      kernelTicks := 0#64
      disk := disk
      serialLog := [] }

section PowerOn

variable {base : Nat} {mem : Mem} {d : Disk} {n : BitVec 32} {contents : Nat → Byte}

@[simp] theorem powerOn_disk : (powerOn base mem d).disk = d := rfl

theorem powerOn_ok : CacheOk (powerOn base mem d) := by
  constructor
  case unique =>
    intro i j hi
    cases hi
  case inRange =>
    intro i hi
    cases hi

/-- An empty cache holds what is on the disk. -/
theorem powerOn_kept (h : Holds d n contents) : Kept base (powerOn base mem d) n contents := by
  constructor
  case cached =>
    intro i hi
    cases hi
  case synced => exact fun _ => h

end PowerOn

/-! ## Versions of a block -/

section Sessions

variable {base : Nat} {c₀ c₁ c c' : Session} {op : Op} {before after ops : List Op}
  {n : BitVec 32}

theorem Coherent.ok {s : State} {contents : BitVec 32 → Nat → Byte} {p : Prop}
    (h : Coherent base s contents p) : CacheOk s := ⟨h.unique, h.inRange⟩

theorem Coherent.shows {s : State} {contents : BitVec 32 → Nat → Byte} {p : Prop}
    (h : Coherent base s contents p) (n : BitVec 32) : Shows base s n (contents n) := by
  rintro i hv rfl o ho
  exact h.cached i hv o ho

/-- One action of the client changes the disk to what the block holds, if at all. -/
theorem Step.writesBack (hinv : c.Inv base) (hstep : Step base c op c')
    (hn : n.toNat < blockLimit) :
    WritesBack c.cache.disk c'.cache.disk n (c.contents n) := by
  have hok := hinv.coherent.ok
  have hshows := hinv.coherent.shows n
  cases hstep with
  | get => exact writesBack_get hok hshows hn _
  | write => exact .refl _
  | update =>
      dsimp only
      rw [blockUpdate_disk]
      exact .refl _
  | flush => exact writesBack_flush hok hshows hn
  | tick => exact .refl _

/-- The disk has a version that the block had on the way from `c₁`. -/
def SomeVersion (base : Nat) (c₁ : Session) (ops : List Op) (c : Session) (n : BitVec 32) : Prop :=
  ∃ (first second : List Op) (c' : Session), ops = first ++ second ∧
    Run (Step base) c₁ first c' ∧ Run (Step base) c' second c ∧
      Holds c.cache.disk n (c'.contents n)

theorem someVersion (hinv : c₁.Inv base) (hrun : Run (Step base) c₁ ops c)
    (hn : n.toNat < blockLimit) {old : Nat → Byte} (hdisk : Holds c₁.cache.disk n old) :
    Holds c.cache.disk n old ∨ SomeVersion base c₁ ops c n := by
  induction hrun generalizing old with
  | nil s => exact Or.inl hdisk
  | @cons s t u op ops hstep hrest ih =>
      -- a version that comes later comes after this step as well
      have hlater : SomeVersion base t ops u n → SomeVersion base s (op :: ops) u n := by
        rintro ⟨first, second, c', rfl, hfirst, hsecond, hholds⟩
        exact ⟨op :: first, second, c', rfl, .cons hstep hfirst, hsecond, hholds⟩
      rcases Step.writesBack hinv hstep hn old hdisk with hsame | hnew
      · exact (ih (hstep.inv hinv) hsame).imp id hlater
      · rcases ih (hstep.inv hinv) hnew with hstays | hversion
        · exact Or.inr ⟨[], op :: ops, s, rfl, .nil s, .cons hstep hrest, hstays⟩
        · exact Or.inr (hlater hversion)

/-- **A power failure loses no more than what came after the flush.** Whatever the
client has done since, the next boot reads of each block what the block held at
some moment after the flush. -/
theorem power_failure_version (h₀ : Fresh c₀) (hbefore : Run (Step base) c₀ before c₁)
    (hannounced : c₁.pending = false)
    (hafter : Run (Step base) { c₁ with cache := blockFlush base c₁.cache } after c)
    (hn : n.toNat < blockLimit) :
    ∃ (first second : List Op) (c' : Session), after = first ++ second ∧
      Run (Step base) { c₁ with cache := blockFlush base c₁.cache } first c' ∧
      Run (Step base) c' second c ∧ ∀ (mem : Mem) (o : Nat), Payload o →
        view base (powerOn base mem c.cache.disk) n o = c'.contents n o := by
  have hinv : c₁.Inv base :=
    hbefore.invariant (I := Session.Inv base) (fun _ _ _ hI hstep => Step.inv hI hstep) h₀.inv
  have hflushed : Holds (blockFlush base c₁.cache).disk n (c₁.contents n) := by
    intro o ho
    refine blockFlush_synced hinv.coherent hn ?_ ho
    simp [hannounced]
  have hread : ∀ v : Nat → Byte, Holds c.cache.disk n v → ∀ (mem : Mem) (o : Nat), Payload o →
      view base (powerOn base mem c.cache.disk) n o = v o :=
    fun v hv mem o ho => (powerOn_kept hv).view powerOn_ok hn ho
  rcases someVersion (Step.inv hinv .flush) hafter hn hflushed with hold | hversion
  · exact ⟨[], after, _, rfl, .nil _, hafter, hread _ hold⟩
  · obtain ⟨first, second, c', hsplit, hfirst, hsecond, hholds⟩ := hversion
    exact ⟨first, second, c', hsplit, hfirst, hsecond, hread _ hholds⟩

/-- Block 5 with a 7 that is flushed and an 8 that is not. -/
theorem power_failure_version_blank :
    ∃ (c₁ c c' : Session) (first second : List Op),
      Run (Step 0x1000) blankSession [.get 5#32, .write 16 7#8, .update] c₁ ∧
        Run (Step 0x1000) { c₁ with cache := blockFlush 0x1000 c₁.cache } [.write 16 8#8] c ∧
          [Op.write 16 8#8] = first ++ second ∧
            ∀ (mem : Mem) (o : Nat), Payload o →
              view 0x1000 (powerOn 0x1000 mem c.cache.disk) 5#32 o = c'.contents 5#32 o := by
  have hpayload : Payload 16 := by decide
  have hlow : (5#32).toNat < blockLimit := by decide
  obtain ⟨c₁, hbefore, hannounced, p, hlast⟩ : ∃ c₁, Run (Step 0x1000) blankSession
      [.get 5#32, .write 16 7#8, .update] c₁ ∧ c₁.pending = false ∧ ∃ p, c₁.last = some p :=
    ⟨_, .cons (.get hlow rfl) (.cons (.write rfl hpayload) (.cons .update (.nil _))), rfl, _, rfl⟩
  have hafter : Run (Step 0x1000) { c₁ with cache := blockFlush 0x1000 c₁.cache }
      [.write 16 8#8] _ := .cons (.write hlast hpayload) (.nil _)
  obtain ⟨first, second, c', hsplit, -, -, hview⟩ :=
    power_failure_version blankSession_fresh hbefore hannounced hafter hlow
  exact ⟨c₁, _, c', first, second, hbefore, hafter, hsplit, hview⟩

end Sessions

/-! ## The allocator over many boots -/

/-- The machine after `block_init` and `fs_init`. -/
def boot (base : Nat) (mem : Mem) (disk : Disk) : State := fsInit base (powerOn base mem disk)

structure Ledger where
  cache : State
  /-- What `fs_alloc_block` returned before a flush, over all boots. -/
  saved : List (BitVec 32)
  /-- What it has returned since, the last first. -/
  recent : List (BitVec 32)

inductive LedgerOp
  | alloc
  | get (n : BitVec 32)
  | write (x : Nat) (b : Byte)
  | update
  | flush
  | tick (t : BitVec 64)
  | powerFailure

/-- Calls in any order, and power failures between them. The clients write where
they like, but for the buffers of the superblock and of the bitmap. -/
inductive LedgerStep (base : Nat) : Ledger → LedgerOp → Ledger → Prop
  | alloc {v : Ledger} {s' : State} {n : BitVec 32} (h : fsAllocBlock base v.cache = .ok (s', n)) :
      LedgerStep base v .alloc { v with cache := s', recent := n :: v.recent }
  | get {v : Ledger} {n : BitVec 32} (hn : n.toNat < blockLimit) :
      LedgerStep base v (.get n) { v with cache := (blockGet base v.cache n).1 }
  | write {v : Ledger} {x : Nat} {b : Byte} (hsuper : AwayFrom base v.cache superblock x)
      (hbitmap : AwayFrom base v.cache bitmapBlock x) :
      LedgerStep base v (.write x b)
        { v with cache := { v.cache with mem := write8 v.cache.mem x b } }
  | update {v : Ledger} : LedgerStep base v .update { v with cache := blockUpdate v.cache }
  | flush {v : Ledger} :
      LedgerStep base v .flush
        { cache := blockFlush base v.cache, saved := v.recent ++ v.saved, recent := [] }
  | tick {v : Ledger} {t : BitVec 64} :
      LedgerStep base v (.tick t) { v with cache := { v.cache with kernelTicks := t } }
  | powerFailure {v : Ledger} (mem : Mem) :
      LedgerStep base v .powerFailure
        { v with cache := boot base mem v.cache.disk, recent := [] }

/-- A disk that `fs_format` has just written. -/
def NewDisk (base : Nat) (v : Ledger) : Prop :=
  ∃ s, CacheOk s ∧ v.cache = fsFormat base s ∧ v.saved = [] ∧ v.recent = []

/-- The bits of the blocks in `l` and of the reserved ones are set. -/
def Marks (contents : Nat → Byte) (l : List (BitVec 32)) : Prop :=
  ∀ k < bitsPerBlock, (k < 5 ∨ ∃ n ∈ l, n.toNat = k) → usedIn contents k = true

/-- The bitmap has what was allocated, the disk what was saved of it, and both have
the superblock. -/
structure Ledger.Inv (base : Nat) (v : Ledger) : Prop where
  ok : CacheOk v.cache
  bitmap : ∃ contents, Kept base v.cache bitmapBlock contents ∧ Marks contents (v.recent ++ v.saved)
  stored : ∃ contents, Holds v.cache.disk bitmapBlock contents ∧ Marks contents v.saved
  super : ∃ contents, Kept base v.cache superblock contents ∧
    Holds v.cache.disk superblock contents ∧ read32 contents typeField = fsMagic
  nodup : (v.recent ++ v.saved).Nodup
  unreserved : ∀ n ∈ v.recent ++ v.saved, 5 ≤ n.toNat

section Ledger

variable {base : Nat} {v v' : Ledger} {op : LedgerOp} {ops : List LedgerOp} {mem : Mem}
  {contents : Nat → Byte} {l l' : List (BitVec 32)} {s s' : State} {n : BitVec 32}

theorem Marks.mono (h : Marks contents l) (hl : l' ⊆ l) : Marks contents l' := by
  intro k hk hin
  apply h k hk
  exact hin.imp id fun ⟨n, hn, hnum⟩ => ⟨n, hl hn, hnum⟩

/-- The magic number, as `fs_init` reads it. -/
theorem magic_shown (hok : CacheOk s) (h : Kept base s superblock contents)
    (hmagic : read32 contents typeField = fsMagic) :
    read32 (blockGet base s superblock).1.mem ((blockGet base s superblock).2 + typeField) =
      fsMagic := by
  rw [← hmagic]
  refine readLE_move ?_
  intro i hi
  rw [Nat.add_assoc, h.shown hok superblock_lt]
  revert i
  decide

/-- `fs_init` on a disk with a superblock formats nothing. -/
theorem boot_formatted (h : Holds s.disk superblock contents)
    (hmagic : read32 contents typeField = fsMagic) :
    boot base mem s.disk = (blockGet base (powerOn base mem s.disk) superblock).1.log
      "FS: Valid Superblock found.\n" :=
  if_neg (not_not_intro (magic_shown powerOn_ok (powerOn_kept h) hmagic))

theorem fsAllocBlock_disk (halloc : fsAllocBlock base s = .ok (s', n)) :
    s'.disk = (blockGet base s bitmapBlock).1.disk := by
  unfold fsAllocBlock at halloc
  dsimp only at halloc
  split at halloc
  · obtain ⟨rfl, -⟩ := Prod.mk.inj (Except.ok.inj halloc)
    exact blockUpdate_disk _
  · cases halloc

/-- A step that leaves the bitmap and the superblock in the cache. -/
theorem Ledger.Inv.client (h : v.Inv base) (hok : CacheOk s')
    (hkept : ∀ n contents, n = superblock ∨ n = bitmapBlock → Kept base v.cache n contents →
      Kept base s' n contents ∧ WritesBack v.cache.disk s'.disk n contents) :
    Ledger.Inv base { v with cache := s' } := by
  obtain ⟨bits, hbits, hmarks⟩ := h.bitmap
  obtain ⟨old, hold, hsaved⟩ := h.stored
  obtain ⟨super, hsuper, hdisk, hmagic⟩ := h.super
  obtain ⟨hbits', hback⟩ := hkept _ _ (Or.inr rfl) hbits
  obtain ⟨hsuper', hsuperBack⟩ := hkept _ _ (Or.inl rfl) hsuper
  constructor
  case ok => exact hok
  case bitmap => exact ⟨bits, hbits', hmarks⟩
  case stored =>
    rcases hback old hold with hsame | hnew
    · exact ⟨old, hsame, hsaved⟩
    · exact ⟨bits, hnew, hmarks.mono (List.subset_append_right _ _)⟩
  case super => exact ⟨super, hsuper', hsuperBack.keeps hdisk, hmagic⟩
  case nodup => exact h.nodup
  case unreserved => exact h.unreserved

theorem Ledger.Inv.alloc (h : v.Inv base) (halloc : fsAllocBlock base v.cache = .ok (s', n)) :
    Ledger.Inv base { v with cache := s', recent := n :: v.recent } := by
  obtain ⟨bits, hbits, hmarks⟩ := h.bitmap
  obtain ⟨old, hold, hsaved⟩ := h.stored
  obtain ⟨super, hsuper, hdisk, hmagic⟩ := h.super
  have hcall := fsAllocBlock_ok h.ok hbits halloc
  obtain ⟨bits', hbits', hset⟩ := hcall.marked
  have hdisk' := fsAllocBlock_disk halloc
  -- the block found is clear in the bitmap, so it is neither reserved nor allocated
  have hclear : ¬ (n.toNat < 5 ∨ ∃ m ∈ v.recent ++ v.saved, m.toNat = n.toNat) := by
    intro hin
    have hused := hmarks n.toNat hcall.lt hin
    rw [hcall.free] at hused
    cases hused
  obtain ⟨hreserved, hreturned⟩ := not_or.mp hclear
  constructor
  case ok => exact hcall.ok
  case bitmap =>
    refine ⟨bits', hbits', ?_⟩
    intro k hk hin
    rw [hset k hk, Bool.or_eq_true, decide_eq_true_eq]
    rcases hin with hlow | ⟨m, hm, rfl⟩
    · exact Or.inr (hmarks k hk (Or.inl hlow))
    · rcases List.mem_cons.mp hm with rfl | hm
      · exact Or.inl rfl
      · exact Or.inr (hmarks _ hk (Or.inr ⟨m, hm, rfl⟩))
  case stored =>
    dsimp only
    rw [hdisk']
    rcases writesBack_get h.ok hbits.cached bitmapBlock_lt bitmapBlock old hold with hsame | hnew
    · exact ⟨old, hsame, hsaved⟩
    · exact ⟨bits, hnew, hmarks.mono (List.subset_append_right _ _)⟩
  case super =>
    refine ⟨super, hcall.other _ _ (by decide) superblock_lt hsuper, ?_, hmagic⟩
    dsimp only
    rw [hdisk']
    exact (writesBack_get h.ok hsuper.cached superblock_lt bitmapBlock).keeps hdisk
  case nodup =>
    refine List.nodup_cons.mpr ⟨?_, h.nodup⟩
    intro hmem
    exact hreturned ⟨n, hmem, rfl⟩
  case unreserved =>
    intro m hm
    rcases List.mem_cons.mp hm with rfl | hm
    · exact Nat.le_of_not_lt hreserved
    · exact h.unreserved m hm

theorem Ledger.Inv.flush (h : v.Inv base) :
    Ledger.Inv base
      { cache := blockFlush base v.cache, saved := v.recent ++ v.saved, recent := [] } := by
  obtain ⟨bits, hbits, hmarks⟩ := h.bitmap
  obtain ⟨super, hsuper, -, hmagic⟩ := h.super
  constructor
  case ok => exact h.ok.flush
  case bitmap => exact ⟨bits, (kept_flush bitmapBlock_lt h.ok hbits).2, hmarks⟩
  case stored => exact ⟨bits, holds_flush h.ok hbits bitmapBlock_lt, hmarks⟩
  case super =>
    exact ⟨super, (kept_flush superblock_lt h.ok hsuper).2, holds_flush h.ok hsuper superblock_lt,
      hmagic⟩
  case nodup => exact h.nodup
  case unreserved => exact h.unreserved

/-- After a power failure the bitmap is the one that was written back. -/
theorem Ledger.Inv.booted (h : v.Inv base) (t : String) :
    Ledger.Inv base
      { v with
        cache := (blockGet base (powerOn base mem v.cache.disk) superblock).1.log t
        recent := [] } := by
  obtain ⟨old, hold, hsaved⟩ := h.stored
  obtain ⟨super, -, hdisk, hmagic⟩ := h.super
  have hok : CacheOk (powerOn base mem v.cache.disk) := powerOn_ok
  have hbits : Kept base (powerOn base mem v.cache.disk) bitmapBlock old := powerOn_kept hold
  have hsuper : Kept base (powerOn base mem v.cache.disk) superblock super := powerOn_kept hdisk
  have hsame : (powerOn base mem v.cache.disk).disk = v.cache.disk := powerOn_disk
  rw [← hsame] at hold hdisk
  generalize powerOn base mem v.cache.disk = s at *
  constructor
  case ok => exact (hok.get superblock_lt).log _
  case bitmap => exact ⟨old, (hbits.get hok bitmapBlock_lt _).log _, hsaved⟩
  case stored =>
    exact ⟨old, (writesBack_get hok hbits.cached bitmapBlock_lt _).keeps hold, hsaved⟩
  case super =>
    exact ⟨super, (hsuper.get hok superblock_lt _).log _,
      (writesBack_get hok hsuper.cached superblock_lt _).keeps hdisk, hmagic⟩
  case nodup => exact (List.nodup_append.mp h.nodup).2.1
  case unreserved => exact fun n hn => h.unreserved n (List.mem_append_right _ hn)

theorem Ledger.Inv.powerFailure (h : v.Inv base) :
    Ledger.Inv base { v with cache := boot base mem v.cache.disk, recent := [] } := by
  obtain ⟨super, -, hdisk, hmagic⟩ := h.super
  rw [boot_formatted hdisk hmagic]
  exact h.booted _

theorem LedgerStep.inv (h : v.Inv base) (hstep : LedgerStep base v op v') : v'.Inv base := by
  have hlow : ∀ n, n = superblock ∨ n = bitmapBlock → n.toNat < blockLimit := by
    rintro n (rfl | rfl)
    · exact superblock_lt
    · exact bitmapBlock_lt
  cases hstep with
  | alloc halloc => exact h.alloc halloc
  | get hn =>
      exact h.client (h.ok.get hn) fun m _ hm hk =>
        ⟨hk.get h.ok (hlow m hm) _, writesBack_get h.ok hk.cached (hlow m hm) _⟩
  | @write x b hsuper hbitmap =>
      refine h.client ⟨h.ok.unique, h.ok.inRange⟩ fun m contents hm hk => ⟨hk.congr ?_, .refl _⟩
      intro i hv hnum o ho
      have haway : AwayFrom base v.cache m x := by
        rcases hm with rfl | rfl
        · exact hsuper
        · exact hbitmap
      have hx := haway i hv hnum
      have hlt := ho.1
      exact write8_outside (by omega)
  | update =>
      refine h.client h.ok.update fun m _ _ hk => ⟨hk.update, ?_⟩
      rw [blockUpdate_disk]
      exact .refl _
  | flush => exact h.flush
  | tick =>
      exact h.client ⟨h.ok.unique, h.ok.inRange⟩ fun _ _ _ hk => ⟨⟨hk.cached, hk.synced⟩, .refl _⟩
  | powerFailure mem => exact h.powerFailure

theorem NewDisk.inv (h : NewDisk base v) : v.Inv base := by
  obtain ⟨s, hok, hcache, hsaved, hrecent⟩ := h
  have hsuper : Rewritten base _ _ _ (rewriteBlock base (s.log "FS: Formatting empty disk...\n")
      superblock formattedSuperblock) :=
    rewritten (hok.log _) superblock_lt formattedSuperblock_within
  rw [fsFormat_eq] at hcache
  generalize rewriteBlock base (s.log "FS: Formatting empty disk...\n") superblock
    formattedSuperblock = s₁ at hsuper hcache
  have hbitmap : Rewritten base _ _ _ (rewriteBlock base s₁ bitmapBlock formattedBitmap) :=
    rewritten hsuper.ok bitmapBlock_lt formattedBitmap_within
  generalize rewriteBlock base s₁ bitmapBlock formattedBitmap = s₂ at hbitmap hcache
  have hkept := hbitmap.other superblock _ (by decide) superblock_lt hsuper.kept
  obtain ⟨hok', hbits⟩ := kept_flush bitmapBlock_lt hbitmap.ok hbitmap.kept
  have hsuper' := (kept_flush superblock_lt hbitmap.ok hkept).2
  have hmarks : Marks (fun o => formattedBitmap (blockGet base s₁ bitmapBlock).1.mem
      (blockGet base s₁ bitmapBlock).2 ((blockGet base s₁ bitmapBlock).2 + o)) [] := by
    rintro k hk (hlow | ⟨n, hn, -⟩)
    · exact (usedIn_formatted _ _ hk).trans (decide_eq_true hlow)
    · cases hn
  constructor
  case ok =>
    rw [hcache]
    exact hok'.log _
  case bitmap =>
    rw [hcache, hsaved, hrecent]
    exact ⟨_, hbits.log _, hmarks⟩
  case stored =>
    rw [hcache, hsaved]
    exact ⟨_, holds_flush hbitmap.ok hbitmap.kept bitmapBlock_lt, hmarks⟩
  case super =>
    rw [hcache]
    refine ⟨_, hsuper'.log _, holds_flush hbitmap.ok hkept superblock_lt, ?_⟩
    refine Eq.trans ?_ (read32_magic (blockGet base (s.log "FS: Formatting empty disk...\n")
      superblock).1.mem (blockGet base (s.log "FS: Formatting empty disk...\n") superblock).2)
    refine readLE_move ?_
    intro i _
    rw [Nat.add_assoc]
  case nodup =>
    rw [hsaved, hrecent]
    exact List.nodup_nil
  case unreserved =>
    rw [hsaved, hrecent]
    exact fun n hn => absurd hn List.not_mem_nil

/-- **Allocations survive power failures.** What was allocated before a flush is
never handed out again, in no later boot; within a boot nothing is handed out
twice; and no boot formats the disk again. -/
theorem allocations_survive (h₀ : NewDisk base v) (hrun : Run (LedgerStep base) v ops v') :
    (v'.recent ++ v'.saved).Nodup ∧ (∀ n ∈ v'.recent ++ v'.saved, 5 ≤ n.toNat) ∧
      ∀ mem, boot base mem v'.cache.disk =
        (blockGet base (powerOn base mem v'.cache.disk) superblock).1.log
          "FS: Valid Superblock found.\n" := by
  have hinv : v'.Inv base :=
    hrun.invariant (I := Ledger.Inv base) (fun _ _ _ h hstep => hstep.inv h) h₀.inv
  obtain ⟨super, -, hdisk, hmagic⟩ := hinv.super
  exact ⟨hinv.nodup, hinv.unreserved, fun mem => boot_formatted hdisk hmagic⟩

/-- A block allocated, a flush, and the power fails. -/
theorem allocations_survive_blank :
    ∃ v, Run (LedgerStep 0x1000) { cache := blankVolume.cache, saved := [], recent := [] }
        [.alloc, .flush, .powerFailure] v ∧ v.saved.length = 1 ∧
      (v.recent ++ v.saved).Nodup ∧ ∀ n ∈ v.recent ++ v.saved, 5 ≤ n.toNat := by
  obtain ⟨s', n, halloc, -⟩ := blankVolume_filled.alloc (by decide)
  have hnew : NewDisk 0x1000 { cache := blankVolume.cache, saved := [], recent := [] } :=
    ⟨blankSession.cache, blankCache_ok, rfl, rfl, rfl⟩
  have hrun : Run (LedgerStep 0x1000) { cache := blankVolume.cache, saved := [], recent := [] }
      [.alloc, .flush, .powerFailure] _ :=
    .cons (.alloc halloc) (.cons .flush (.cons (.powerFailure fun _ => 0#8) (.nil _)))
  obtain ⟨hnodup, hunreserved, -⟩ := allocations_survive hnew hrun
  exact ⟨_, hrun, rfl, hnodup, hunreserved⟩

end Ledger

end VectorForth.BlockDevice
