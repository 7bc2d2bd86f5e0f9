import VectorForth.Fs.BlockKept
import VectorForth.Fs.Eviction
import VectorForth.Vm.Machine

/-!
# The block editor and the tasks beside it

The editor keeps a pointer into one buffer of the cache while it waits for keys,
and other tasks may call `block_get` meanwhile. At ESC it marks the most recent
buffer, whichever that is. What was typed is saved if the buffer is not replaced
and is the most recent one in the end.
-/

namespace VectorForth.Editor

open ByteMemory BlockDevice
open Forth (Frame Image Machine Text chr editorKey editorStroke step wEdit)

/-! ## What is typed -/

/-- A text with a cursor. -/
abbrev Sheet : Type := (Nat → Byte) × Nat

/-- A key on the 15 lines of 64 characters. -/
def typeKey (t : Sheet) (key : Byte) : Sheet :=
  if key = chr '\x08' then
    if t.2 = 0 then t else (Function.update t.1 (t.2 - 1) 0#8, t.2 - 1)
  else if key = chr '\n' then (t.1, min ((t.2 / 64 + 1) * 64) 959)
  else if 32#8 ≤ key ∧ key ≤ 126#8 then (Function.update t.1 t.2 key, min (t.2 + 1) 959)
  else t

/-- The text after `keys`, typed from the start of `data` on. -/
def typed (keys : List Byte) (data : Nat → Byte) : Nat → Byte := (keys.foldl typeKey (data, 0)).1

/-! ## A session of the editor -/

/-- `run_editor` while it waits for a key. -/
structure Edit where
  cache : State
  blk : Nat
  cursor : Nat

inductive EditEvent
  /-- Another task calls `block_get`, at some tick. -/
  | get (n : BitVec 32) (ticks : BitVec 64)
  /-- A key other than ESC. -/
  | key (k : Byte)

/-- `block_get` at tick `t`. -/
def getAt (base : Nat) (s : State) (n : BitVec 32) (t : BitVec 64) :
    State := (blockGet base { s with kernelTicks := t } n).1

def openEditor (base : Nat) (s : State) (n : BitVec 32) : Edit :=
  { cache := (blockGet base s n).1, blk := (blockGet base s n).2, cursor := 0 }

def Edit.on (base : Nat) (e : Edit) : EditEvent → Edit
  | .get n t => { e with cache := getAt base e.cache n t }
  | .key k =>
      let (mem, cursor) := editorStroke k (e.blk + dataField) e.cursor e.cache.mem
      { e with cache := { e.cache with mem := mem }, cursor := cursor }

/-- ESC. -/
def Edit.save (base : Nat) (e : Edit) : State := blockFlush base (blockUpdate e.cache)

/-- The editor on block `n`, left with ESC after `events`. -/
def runEditor (base : Nat) (s : State) (n : BitVec 32) (events : List EditEvent) :
    State := (events.foldl (Edit.on base) (openEditor base s n)).save base

def keysOf (events : List EditEvent) : List Byte :=
  events.filterMap fun
    | .get _ _ => none
    | .key k => some k

/-! ### It is the editor of the machine -/

section Machine

variable {img : Image} {m : Machine} {rest : List Frame} {blk cursor : Nat} {n : BitVec 32}
  {key : Byte} {kbd : Text}

/-- The editor that the frame on top of the C stack belongs to. -/
def editOf (m : Machine) (blk cursor : Nat) : Edit :=
  { cache := m.vm.data.toState, blk := blk, cursor := cursor }

theorem wEdit_opens (m : Machine) : ∃ blk, (wEdit img m).frames =
      .editor blk (m.vm.data.dsPop.1.setWidth 32) 0 :: m.frames ∧
    editOf (wEdit img m) blk 0 =
      openEditor img.buffers m.vm.data.dsPop.2.toState (m.vm.data.dsPop.1.setWidth 32) :=
  ⟨_, rfl, rfl⟩

theorem step_key (hframes : m.frames = .editorKey blk n cursor :: rest)
    (hkbd : m.kbd = key :: kbd) :
    step img m = some (editorKey img rest blk n cursor key { m with kbd := kbd }) := by
  rw [step, hframes]
  dsimp only
  rw [hkbd]

theorem step_stroke (hframes : m.frames = .editorKey blk n cursor :: rest)
    (hkbd : m.kbd = key :: kbd) (hkey : key ≠ 27#8) :
    ∃ m' cursor', step img m = some m' ∧ m'.frames = .editor blk n cursor' :: rest ∧
      editOf m' blk cursor' = (editOf m blk cursor).on img.buffers (.key key) := by
  refine ⟨_, (editorStroke key (blk + dataField) cursor m.vm.data.mem).2, step_key hframes hkbd,
    ?_, ?_⟩
  · rw [editorKey, if_neg hkey]
  · rw [editorKey, if_neg hkey]
    rfl

theorem step_escape (hframes : m.frames = .editorKey blk n cursor :: rest)
    (hkbd : m.kbd = 27#8 :: kbd) :
    ∃ m', step img m = some m' ∧ m'.frames = rest ∧
      m'.vm.data.toState = (editOf m blk cursor).save img.buffers :=
  ⟨_, step_key hframes hkbd, rfl, rfl⟩

end Machine

/-! ## Keys -/

section Keys

variable {t : Sheet} {key : Byte} {mem : Mem} {data cursor o : Nat}

theorem typeKey_cursor (h : t.2 ≤ 959) : (typeKey t key).2 ≤ 959 := by
  unfold typeKey
  split
  · split
    · exact h
    · show t.2 - 1 ≤ 959
      omega
  · split
    · exact Nat.min_le_right ..
    · split
      · exact Nat.min_le_right ..
      · exact h

/-- The lines end at byte 960. -/
theorem typeKey_tail (h : t.2 ≤ 959) (ho : 960 ≤ o) : (typeKey t key).1 o = t.1 o := by
  unfold typeKey
  split
  · split
    · rfl
    · exact Function.update_of_ne (by omega) ..
  · split
    · rfl
    · split
      · exact Function.update_of_ne (by omega) ..
      · rfl

theorem typed_tail (keys : List Byte) (text : Nat → Byte) (ho : 960 ≤ o) :
    typed keys text o = text o := by
  have hfold : ∀ (keys : List Byte) (t : Sheet), t.2 ≤ 959 →
      (keys.foldl typeKey t).1 o = t.1 o := by
    intro keys
    induction keys with
    | nil => exact fun _ _ => rfl
    | cons key keys ih =>
        intro t ht
        rw [List.foldl_cons, ih _ (typeKey_cursor ht), typeKey_tail ht ho]
  exact hfold keys (text, 0) (Nat.zero_le _)

/-- The code does to the block what the key does to the sheet. -/
theorem editorStroke_eq (key : Byte) (hcursor : t.2 ≤ 959)
    (htext : ∀ o < blockDataSize, mem (data + o) = t.1 o) :
    (editorStroke key data t.2 mem).2 = (typeKey t key).2 ∧
      (∀ o < blockDataSize, (editorStroke key data t.2 mem).1 (data + o) = (typeKey t key).1 o) ∧
      ∀ x, (x < data ∨ data + 960 ≤ x) → (editorStroke key data t.2 mem).1 x = mem x := by
  have hwrite : ∀ (c : Nat) (b : Byte), c ≤ 959 →
      (∀ o < blockDataSize, write8 mem (data + c) b (data + o) = Function.update t.1 c b o) ∧
        ∀ x, (x < data ∨ data + 960 ≤ x) → write8 mem (data + c) b x = mem x := by
    intro c b hc
    constructor
    · intro o ho
      by_cases heq : o = c
      · subst heq
        rw [write8_same, Function.update_self]
      · rw [write8_outside (by omega), Function.update_of_ne heq, htext o ho]
    · intro x hx
      exact write8_outside (by omega)
  unfold editorStroke typeKey
  split
  · by_cases hzero : t.2 = 0
    · rw [if_neg (by omega), if_pos hzero]
      exact ⟨rfl, htext, fun _ _ => rfl⟩
    · rw [if_pos (by omega), if_neg hzero]
      exact ⟨rfl, hwrite (t.2 - 1) 0#8 (by omega)⟩
  · split
    · refine ⟨?_, htext, fun _ _ => rfl⟩
      show (if (t.2 / 64 + 1) * 64 ≥ 960 then 959 else (t.2 / 64 + 1) * 64) =
        min ((t.2 / 64 + 1) * 64) 959
      split <;> omega
    · split
      · refine ⟨?_, hwrite t.2 key hcursor⟩
        show (if t.2 < 959 then t.2 + 1 else t.2) = min (t.2 + 1) 959
        split <;> omega
      · exact ⟨rfl, htext, fun _ _ => rfl⟩

end Keys

/-! ## The buffer being edited -/

/-- The valid buffers are clean and hold what is on the disk. -/
def Clean (base : Nat) (s : State) : Prop :=
  ∀ i, (s.buffers i).valid = true → (s.buffers i).dirty = false ∧
    ∀ o < blockDataSize, s.mem (blockAddr base i + (dataField + o)) =
      diskBlock s.disk (s.buffers i).blockNum (dataField + o)

/-- The data of block `n` on the disk. -/
def diskData (d : Disk) (n : BitVec 32) (o : Nat) : Byte := diskBlock d n (dataField + o)

/-- The editor is at work on block `n` in buffer `i`, and shows `text`. -/
structure Editing (base : Nat) (n : BitVec 32) (i : Fin numBuffers) (disk : Disk) (t : Sheet)
    (e : Edit) : Prop where
  blk : e.blk = blockAddr base i
  valid : (e.cache.buffers i).valid = true
  blockNum : (e.cache.buffers i).blockNum = n
  clean : ∀ j, (e.cache.buffers j).valid = true → (e.cache.buffers j).dirty = false
  disk : e.cache.disk = disk
  text : ∀ o < blockDataSize, e.cache.mem (blockAddr base i + (dataField + o)) = t.1 o
  cursor : e.cursor = t.2
  bound : t.2 ≤ 959

/-- A `block_get` of block `m` does not replace buffer `i`. -/
def Spares (i : Fin numBuffers) (s : State) (m : BitVec 32) : Prop :=
  findBuffer s m = none → oldestBuffer s ≠ i

section Session

variable {base : Nat} {s : State} {n m : BitVec 32} {i : Fin numBuffers} {disk : Disk}
  {t : Sheet} {e : Edit} {events : List EditEvent}

theorem payload_data {o : Nat} (ho : o < blockDataSize) : Payload (dataField + o) := by
  have hsize : blockDataSize = 1008 := rfl
  have hfield : dataField = 16 := rfl
  have hcrc : crcField = 12 := rfl
  have hblock : blockSize = 1024 := rfl
  exact ⟨by omega, by omega⟩

/-- No buffer is dirty: a `block_get` writes nothing back. -/
theorem blockGet_clean (base : Nat)
    (hclean : ∀ j, (s.buffers j).valid = true → (s.buffers j).dirty = false)
    (m : BitVec 32) : (blockGet base s m).1.disk = s.disk ∧
      ∀ j, ((blockGet base s m).1.buffers j).valid = true →
        ((blockGet base s m).1.buffers j).dirty = false := by
  unfold blockGet
  split
  · rename_i k _
    refine ⟨rfl, ?_⟩
    intro j
    obtain ⟨u, hj⟩ := touch_buffer s k j s.kernelTicks
    dsimp only
    rw [hj]
    exact hclean j
  · generalize oldestBuffer s = k
    constructor
    · show (loadBlock base s k m).disk = s.disk
      rw [loadBlock_disk, writeBufferToDisk_clean]
      rintro ⟨hvalid, hdirty⟩
      rw [hclean k hvalid] at hdirty
      cases hdirty
    · intro j
      dsimp only
      by_cases hjk : j = k
      · subst hjk
        rw [loadBlock_buffers_self]
        exact fun _ => rfl
      · rw [loadBlock_buffers_other hjk]
        exact hclean j

/-- A buffer that is not replaced keeps its block and its data. -/
theorem blockGet_spares (base : Nat) (hspares : Spares i s m) :
    ((blockGet base s m).1.buffers i).valid = (s.buffers i).valid ∧
      ((blockGet base s m).1.buffers i).blockNum = (s.buffers i).blockNum ∧
      ∀ o, Payload o →
        (blockGet base s m).1.mem (blockAddr base i + o) = s.mem (blockAddr base i + o) := by
  unfold blockGet
  split
  · rename_i k _
    obtain ⟨u, hi⟩ := touch_buffer s k i s.kernelTicks
    dsimp only
    rw [hi]
    exact ⟨rfl, rfl, fun _ _ => rfl⟩
  · rename_i hfind
    have hne : i ≠ oldestBuffer s := (hspares hfind).symm
    dsimp only
    rw [loadBlock_buffers_other hne]
    exact ⟨rfl, rfl, fun o ho => loadBlock_mem_other hne ho⟩

/-- The editor opens on the block as it is on the disk. -/
theorem openEditor_editing (hclean : Clean base s) (n : BitVec 32) :
    Editing base n (openEditor base s n).cache.mostRecentBuffer s.disk (diskData s.disk n, 0)
      (openEditor base s n) := by
  have hdirty : ∀ j, (s.buffers j).valid = true → (s.buffers j).dirty = false :=
    fun j hj => (hclean j hj).1
  obtain ⟨hdisk, hafter⟩ := blockGet_clean base hdirty n
  obtain ⟨i, hreturns⟩ := blockGet_returns base s n
  have hrecent : (openEditor base s n).cache.mostRecentBuffer = i := hreturns.recent
  rw [hrecent]
  constructor
  case blk => exact hreturns.ptr
  case valid => exact hreturns.valid
  case blockNum => exact hreturns.blockNum
  case clean => exact hafter
  case disk => exact hdisk
  case text =>
    intro o ho
    show (blockGet base s n).1.mem _ = diskBlock s.disk n (dataField + o)
    cases hfind : findBuffer s n with
    | some k =>
        obtain ⟨hvalid, hnum⟩ := findBuffer_some hfind
        have hhit : Returns base s n k (blockGet base s n).1 := blockGet_hit hfind
        have hik : k = i := hhit.recent.symm.trans hreturns.recent
        subst hik
        have hmem : (blockGet base s n).1.mem = s.mem := by
          rw [blockGet, hfind]
          rfl
        rw [hmem, (hclean k hvalid).2 o ho, hnum]
    | none =>
        have hget : (blockGet base s n).1 = loadBlock base s (oldestBuffer s) n := by
          rw [blockGet, hfind]
        have hmiss : Returns base s n (oldestBuffer s) (blockGet base s n).1 := blockGet_miss hfind
        have hik : oldestBuffer s = i :=
          hmiss.recent.symm.trans hreturns.recent
        have hnotdirty : ¬ ((s.buffers i).valid = true ∧ (s.buffers i).dirty = true) := by
          rintro ⟨hvalid, hbad⟩
          rw [hdirty i hvalid] at hbad
          cases hbad
        rw [hget, hik, loadBlock_mem_self (payload_data ho).1, writeBufferToDisk_clean hnotdirty]
  case cursor => rfl
  case bound => exact Nat.zero_le _

theorem Editing.key (h : Editing base n i disk t e) (k : Byte) :
    Editing base n i disk (typeKey t k) (e.on base (.key k)) := by
  have hsize : blockDataSize = 1008 := rfl
  have hfield : dataField = 16 := rfl
  have hassoc : ∀ o < blockDataSize, e.cache.mem (blockAddr base i + dataField + o) = t.1 o := by
    intro o ho
    rw [Nat.add_assoc]
    exact h.text o ho
  obtain ⟨hcursor, htext, -⟩ := editorStroke_eq k h.bound hassoc
  rw [← h.blk, ← h.cursor] at hcursor htext
  constructor
  case blk => exact h.blk
  case valid => exact h.valid
  case blockNum => exact h.blockNum
  case clean => exact h.clean
  case disk => exact h.disk
  case text =>
    intro o ho
    rw [← Nat.add_assoc, ← h.blk]
    exact htext o ho
  case cursor => exact hcursor
  case bound => exact typeKey_cursor h.bound

theorem Editing.get (h : Editing base n i disk t e) {ticks : BitVec 64}
    (hspares : Spares i { e.cache with kernelTicks := ticks } m) :
    Editing base n i disk t (e.on base (.get m ticks)) := by
  obtain ⟨hdisk, hclean⟩ :=
    blockGet_clean (s := { e.cache with kernelTicks := ticks }) base h.clean m
  obtain ⟨hvalid, hnum, htext⟩ := blockGet_spares base hspares
  constructor
  case blk => exact h.blk
  case valid => exact hvalid.trans h.valid
  case blockNum => exact hnum.trans h.blockNum
  case clean => exact hclean
  case disk => exact hdisk.trans h.disk
  case text =>
    intro o ho
    exact (htext _ (payload_data ho)).trans (h.text o ho)
  case cursor => exact h.cursor
  case bound => exact h.bound

/-- No `block_get` of another task replaces the buffer, and it is the most recent one in
the end. -/
def Undisturbed (base : Nat) (i : Fin numBuffers) : List EditEvent → Edit → Prop
  | [], e => e.cache.mostRecentBuffer = i
  | .get m ticks :: events, e =>
      Spares i { e.cache with kernelTicks := ticks } m ∧
        Undisturbed base i events (e.on base (.get m ticks))
  | .key k :: events, e => Undisturbed base i events (e.on base (.key k))

/-- The whole session, event by event. -/
theorem Editing.run (h : Editing base n i disk t e) (hrun : Undisturbed base i events e) :
    Editing base n i disk ((keysOf events).foldl typeKey t) (events.foldl (Edit.on base) e) ∧
      (events.foldl (Edit.on base) e).cache.mostRecentBuffer = i := by
  induction events generalizing t e with
  | nil => exact ⟨h, hrun⟩
  | cons event events ih =>
      cases event with
      | get m ticks => exact ih (h.get hrun.1) hrun.2
      | key k => exact ih (h.key k) hrun

/-! ## ESC -/

/-- Only buffer `i` is to be written: a flush writes that one. -/
theorem flushList_one (hclean : ∀ j, j ≠ i → (s.buffers j).valid = true →
    (s.buffers j).dirty = false) {l : List (Fin numBuffers)} (hi : i ∈ l) :
    l.foldl (writeBufferToDisk base) s = writeBufferToDisk base s i := by
  have hidle : ∀ (l : List (Fin numBuffers)) (s : State),
      (∀ j, (s.buffers j).valid = true → (s.buffers j).dirty = false) →
      l.foldl (writeBufferToDisk base) s = s := by
    intro l
    induction l with
    | nil => exact fun _ _ => rfl
    | cons j l ih =>
        intro s hs
        have hj : writeBufferToDisk base s j = s := by
          apply writeBufferToDisk_clean
          rintro ⟨hvalid, hdirty⟩
          rw [hs j hvalid] at hdirty
          cases hdirty
        rw [List.foldl_cons, hj]
        exact ih s hs
  induction l with
  | nil => cases hi
  | cons j l ih =>
      rw [List.foldl_cons]
      by_cases hji : j = i
      · subst hji
        apply hidle
        intro k hk
        rw [writeBufferToDisk_valid] at hk
        rw [writeBufferToDisk_buffers]
        split
        · rfl
        · rename_i hne
          by_cases hkj : k = j
          · subst hkj
            exact absurd ⟨rfl, hk⟩ hne
          · exact hclean k hkj hk
      · have hj : writeBufferToDisk base s j = s := by
          apply writeBufferToDisk_clean
          rintro ⟨hvalid, hdirty⟩
          rw [hclean j hji hvalid] at hdirty
          cases hdirty
        rw [hj]
        exact ih ((List.mem_cons.mp hi).resolve_left (Ne.symm hji))

/-- ESC writes the most recent buffer. -/
theorem save_eq (base : Nat)
    (hclean : ∀ j, (e.cache.buffers j).valid = true → (e.cache.buffers j).dirty = false)
    (hvalid : (e.cache.buffers e.cache.mostRecentBuffer).valid = true) :
    e.save base = writeBufferToDisk base (e.cache.setBuffer e.cache.mostRecentBuffer
      { e.cache.buffers e.cache.mostRecentBuffer with dirty := true })
      e.cache.mostRecentBuffer := by
  rw [Edit.save, blockUpdate, if_pos hvalid, blockFlush]
  apply flushList_one _ (List.mem_finRange _)
  intro j hj hjvalid
  rw [State.setBuffer_other hj] at hjvalid ⊢
  exact hclean j hjvalid

/-- What is on the disk then. -/
theorem save_disk (h : Editing base n i disk t e) (hn : n.toNat < blockLimit)
    (hrecent : e.cache.mostRecentBuffer = i) :
    (∀ o < blockDataSize, diskData (e.save base).disk n o = t.1 o) ∧
      ∀ m : BitVec 32, m.toNat < blockLimit → m ≠ n → ∀ o,
        diskData (e.save base).disk m o = diskData disk m o := by
  have hsave := save_eq base h.clean (by rw [hrecent]; exact h.valid)
  rw [hrecent] at hsave
  generalize hs : e.cache.setBuffer i { e.cache.buffers i with dirty := true } = s at hsave
  have hbuffer : s.buffers i = { e.cache.buffers i with dirty := true } := by
    rw [← hs, State.setBuffer_same]
  have hvalid : (s.buffers i).valid = true := by
    rw [hbuffer]
    exact h.valid
  have hdirty : (s.buffers i).dirty = true := by rw [hbuffer]
  have hnum : (s.buffers i).blockNum = n := by
    rw [hbuffer]
    exact h.blockNum
  have hmem : s.mem = e.cache.mem := by
    rw [← hs]
    rfl
  have hdisk : s.disk = disk := by
    rw [← hs]
    exact h.disk
  rw [hsave]
  constructor
  · intro o ho
    rw [diskData, ← hnum, diskBlock_writeBufferToDisk_self hvalid hdirty,
      writeBufferToDisk_payload (payload_data ho), hmem]
    exact h.text o ho
  · intro m hm hne o
    rw [diskData, diskBlock_writeBufferToDisk_other hm, hdisk]
    · rfl
    · intro _
      rw [hnum]
      exact hn
    · rintro ⟨-, -, hmn⟩
      exact hne (hmn.symm.trans hnum)

/-- **What the editor saves**, if no other task gets between it and its buffer. -/
theorem editor_saves (hclean : Clean base s) (hn : n.toNat < blockLimit)
    (hrun : Undisturbed base (openEditor base s n).cache.mostRecentBuffer events
      (openEditor base s n)) :
    (∀ o < blockDataSize, diskData (runEditor base s n events).disk n o =
        typed (keysOf events) (diskData s.disk n) o) ∧
      (∀ o, 960 ≤ o → o < blockDataSize →
        diskData (runEditor base s n events).disk n o = diskData s.disk n o) ∧
      ∀ m : BitVec 32, m.toNat < blockLimit → m ≠ n → ∀ o,
        diskData (runEditor base s n events).disk m o = diskData s.disk m o := by
  obtain ⟨hediting, hrecent⟩ := (openEditor_editing hclean n).run hrun
  obtain ⟨hblock, hothers⟩ := save_disk hediting hn hrecent
  refine ⟨hblock, ?_, hothers⟩
  intro o hlow hhigh
  exact (hblock o hhigh).trans (typed_tail _ _ hlow)

end Session

/-! ## An `A` in block 0 -/

theorem blank_clean : Clean 0x1000 blankSession.cache := by
  rintro i hi
  cases hi

/-- Another task asks for the same block. -/
theorem editor_saves_shared :
    diskData (runEditor 0x1000 blankSession.cache 0#32 [.key 0x41#8, .get 0#32 5#64]).disk 0#32 0 =
      0x41#8 := by
  have hrun : Undisturbed 0x1000 (openEditor 0x1000 blankSession.cache 0#32).cache.mostRecentBuffer
      [.key 0x41#8, .get 0#32 5#64] (openEditor 0x1000 blankSession.cache 0#32) := by
    refine ⟨fun hmiss => ?_, ?_⟩
    · exact absurd hmiss (by decide)
    · show (Edit.on _ _ _).cache.mostRecentBuffer = _
      decide
  exact (editor_saves blank_clean (by decide) hrun).1 0 (by decide)

/-- It asks for block 1 before ESC: that buffer is marked, and the `A` is lost. -/
theorem editor_loses : ¬ ∀ (base : Nat) (s : State) (n : BitVec 32) (events : List EditEvent),
    Clean base s → n.toNat < blockLimit → ∀ o < blockDataSize,
      diskData (runEditor base s n events).disk n o =
        typed (keysOf events) (diskData s.disk n) o := by
  intro h
  have hsaved := h 0x1000 blankSession.cache 0#32 [.key 0x41#8, .get 1#32 5#64] blank_clean
    (by decide) 0 (by decide)
  have hlost : diskData (runEditor 0x1000 blankSession.cache 0#32
      [.key 0x41#8, .get 1#32 5#64]).disk 0#32 0 = 0#8 := by decide
  exact absurd (hlost.symm.trans hsaved) (by decide)

end VectorForth.Editor
