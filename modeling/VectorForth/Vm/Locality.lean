import VectorForth.Fs.BlockCache
import VectorForth.Vm.Hiding

/-!
# What a step reads

Two machines may differ in memory from an address `lo` on, in the flag bits of
one entry, in `HERE` and in the newest entry. A step that reads none of this
does the same in both, whatever it writes, so that runs of such steps go in
lock step.
-/

namespace VectorForth.Forth

open ByteMemory LabelledRun TwoRuns

/-! ## Machines that differ in the dictionary -/

/-- The same memory below `lo`, but for the flag bits of the byte at `y`. -/
def MemAlike (lo y : Nat) (m m' : Mem) : Prop :=
  ∀ x, x < lo → (x ≠ y → m' x = m x) ∧ m' x &&& fLenmask = m x &&& fLenmask

/-- The second state differs from the first in the dictionary only. -/
inductive Alike (lo y : Nat) (d : Data) : Data → Prop
  | intro (m : Mem) (disk : BlockDevice.Disk) (here latest : Cell) : MemAlike lo y d.mem m →
      (∀ lba o, o < BlockDevice.sectorSize → disk lba o = d.disk lba o) →
      Alike lo y d { d with mem := m, disk := disk, dictHere := here, dictLatest := latest }

/-- The bytes of a cell. -/
def cellBytes (a : Cell) : Set Nat := Set.Ico a.toNat (a.toNat + 8)

/-- The bytes of `X` are the same in alike states. -/
def Shared (lo y : Nat) (X : Set Nat) : Prop := ∀ x ∈ X, x < lo ∧ x ≠ y

section Alike

variable {lo y : Nat} {d e : Data} {m m' w w' : Mem} {X X' : Set Nat}

theorem MemAlike.refl (m : Mem) : MemAlike lo y m m := fun _ _ => ⟨fun _ => rfl, rfl⟩

theorem MemAlike.writes (h : MemAlike lo y m m') (hw : SameWrites m m' w w') :
    MemAlike lo y w w' := by
  intro x hx
  rcases hw x with hsame | ⟨hold, hold'⟩
  · exact ⟨fun _ => hsame, by rw [hsame]⟩
  · rw [hold, hold']
    exact h x hx

theorem Shared.mono (h : Shared lo y X) (hX : X' ⊆ X) : Shared lo y X' := fun x hx => h x (hX hx)

theorem MemAlike.agreeOn (h : MemAlike lo y m m') {a n : Nat}
    (hshared : Shared lo y (Set.Ico a (a + n))) : AgreeOn m m' a n := by
  intro x hx hx'
  obtain ⟨hlo, hne⟩ := hshared x ⟨hx, hx'⟩
  exact ((h x hlo).1 hne).symm

theorem MemAlike.cellAt (h : MemAlike lo y m m') {a : Cell} (hshared : Shared lo y (cellBytes a)) :
    cellAt m' a = cellAt m a := by
  rw [Forth.cellAt, Forth.cellAt, read64_congr (h.agreeOn hshared).symm]

/-- The name lengths are the same below `lo`. -/
theorem MemAlike.codeField (h : MemAlike lo y m m') {entry : Cell}
    (hentry : (entry + 8#64).toNat < lo) :
    dictGetCodeField m' entry = dictGetCodeField m entry := by
  have hlen : dictGetNameLen m' entry = dictGetNameLen m entry := (h _ hentry).2
  rw [dictGetCodeField, dictGetCodeField, hlen]

theorem Alike.refl (d : Data) : Alike lo y d d :=
  .intro d.mem d.disk d.dictHere d.dictLatest (.refl _) fun _ _ _ => rfl

theorem Alike.mem (h : Alike lo y d e) : MemAlike lo y d.mem e.mem := by
  obtain ⟨m, disk, here, latest, hmem, hdisk⟩ := h
  exact hmem

end Alike

/-! ## Native code that reads shared memory only -/

section Blind

variable {lo y : Nat} {α : Type}

instance : Hiding (Alike lo y) where
  ds := by
    rintro d e ⟨m, disk, here, latest, hmem, hdisk⟩
    rfl
  base := by
    rintro d e ⟨m, disk, here, latest, hmem, hdisk⟩
    rfl
  keep := by
    rintro d e ⟨m, disk, here, latest, hmem, hdisk⟩ ds o b
    exact ⟨m, disk, here, latest, hmem, hdisk⟩

theorem blind_parseUntil (delim : Byte) (n : Nat) : Blind (Alike lo y) (parseUntil delim n) := by
  intro d e he
  obtain ⟨m, disk, here, latest, hmem, hdisk⟩ := he
  exact .some ⟨rfl, ⟨m, disk, here, latest, hmem, hdisk⟩⟩

theorem blind_dumpByte (m : Mem) (addr : Cell) (i : Nat) : Blind (Alike lo y) (dumpByte m addr i) := by
  unfold dumpByte
  repeat'
    first
    | with_reducible refine blind_ite ?_ ?_
    | with_reducible refine blind_bind ?_ fun _ => ?_
    | simp

theorem blind_storeCell (a v : Cell) : Blind (Alike lo y) (storeCell a v) := by
  refine blind_modify fun d e he => ?_
  obtain ⟨m, disk, here, latest, hmem, hdisk⟩ := he
  exact ⟨_, disk, here, latest, hmem.writes (sameWrites_writeLE _ _ _ 8 _), hdisk⟩

theorem blind_setByte (a : Cell) (b : Byte) :
    Blind (Alike lo y) (modify (·.setByte a b) : NativeM Unit) := by
  refine blind_modify fun d e he => ?_
  obtain ⟨m, disk, here, latest, hmem, hdisk⟩ := he
  exact ⟨_, disk, here, latest, hmem.writes (sameWrites_write8 _ _ _ _), hdisk⟩

theorem blind_fetchCell {a : Cell} (ha : Shared lo y (cellBytes a)) :
    Blind (Alike lo y) (fetchCell a) := by
  refine blind_get (fun _ => blind_pure _) fun d e he => ?_
  rw [he.mem.cellAt ha]

theorem blind_fetchByte {a : Cell} (ha : Shared lo y {a.toNat}) :
    Blind (Alike lo y) (fetchByte a) := by
  obtain ⟨hlo, hne⟩ := ha _ rfl
  refine blind_get (fun _ => blind_pure _) fun d e he => ?_
  rw [(he.mem _ hlo).1 hne]

end Blind

/-! ## What a word reads -/

/-- The words that read `HERE`, the newest entry or the names of the dictionary. -/
def CFun.consults : CFun → Bool
  | .wHere | .wAllot | .wComma | .wCComma | .wColon | .wSemicolon | .wCreate | .wVariable
  | .wConstant | .wImmediate | .wTick | .wSee | .wIf | .wElse | .wThen | .wBegin | .wUntil
  | .wAgain | .wWhile | .wRepeat | .wDo | .wLoop | .wWords | .wStatus => true
  | _ => false

/-- The memory that the C function `f` reads. -/
def CFun.reads (img : Image) (f : CFun) (vm : Vm) : Set Nat :=
  match f with
  | .wFetch | .wPlusStore => cellBytes (vm.data.ds.headD 0#64)
  | .wCfetch => {(vm.data.ds.headD 0#64).toNat}
  | .wType | .wDump =>
      let a := (vm.data.ds.tail.headD 0#64).toNat
      Set.Ico a (a + (vm.data.ds.headD 0#64).toInt.toNat)
  | .doLiteral | .rtBranch | .rt0branch | .rtLoop => cellBytes vm.ip
  | .wBlock | .wFlush | .wLoad | .wEdit =>
      Set.Ico img.buffers (img.buffers + BlockDevice.bufferSize * BlockDevice.numBuffers)
  | _ => ∅

section Words

variable {lo y : Nat} {img : Image} {f : CFun} {w : NativeM Unit}

theorem alike_toState {d e : Data} (h : Alike lo y d e) : BlockDevice.Twin d.toState e.toState := by
  obtain ⟨m, disk, here, latest, hmem, hdisk⟩ := h
  exact ⟨rfl, hdisk⟩

/-- What the block device does to alike states. -/
theorem Alike.device {d e : Data} (h : Alike lo y d e) {s t : BlockDevice.State}
    (hdev : BlockDevice.Twin.Through d.toState e.toState s t) :
    Alike lo y { d with toState := s } { e with toState := t } := by
  obtain ⟨m, disk, here, latest, hmem, hdisk⟩ := h
  obtain ⟨⟨hsame, hdisk'⟩, hwrites⟩ := hdev
  rw [hsame]
  exact ⟨_, _, here, latest, hmem.writes hwrites, hdisk'⟩

theorem Alike.buffers {d e : Data} (h : Alike lo y d e) (hbuf : Shared lo y
    (Set.Ico img.buffers (img.buffers + BlockDevice.bufferSize * BlockDevice.numBuffers))) :
    BlockDevice.SameBuffers img.buffers d.toState.mem e.toState.mem := h.mem.agreeOn hbuf

theorem blind_blockGet (hbuf : Shared lo y
    (Set.Ico img.buffers (img.buffers + BlockDevice.bufferSize * BlockDevice.numBuffers)))
    (n : BitVec 32) : Blind (Alike lo y) (blockGet img n) := by
  intro d e he
  obtain ⟨haddr, hdev⟩ := (alike_toState he).get (he.buffers hbuf) n
  exact .some ⟨haddr, he.device hdev⟩

theorem blind_update : Blind (Alike lo y) wUpdate := by
  refine blind_modify fun d e he => ?_
  have hupdate := (alike_toState he).update
  refine he.device ⟨hupdate, ?_⟩
  have hmem : ∀ s, (BlockDevice.blockUpdate s).mem = s.mem := by
    intro s
    unfold BlockDevice.blockUpdate
    split <;> rfl
  rw [hmem, hmem]
  exact .refl _ _

theorem blind_flush (hbuf : Shared lo y
    (Set.Ico img.buffers (img.buffers + BlockDevice.bufferSize * BlockDevice.numBuffers))) :
    Blind (Alike lo y) (wFlush img) :=
  blind_modify fun _ _ he => he.device ((alike_toState he).flush (he.buffers hbuf))

theorem blindAt_type {d : Data} {vm : Vm} (hd : vm.data = d)
    (hreads : Shared lo y (CFun.reads img .wType vm)) : BlindAt (Alike lo y) wType d := by
  subst hd
  refine blindAt_dsPop (blindAt_dsPop (blind_get (fun _ => blind_puts _) ?_ _))
  intro d e he
  rw [(dsPop_headD vm.data).2]
  congr 1
  refine List.map_congr_left fun i hi => ?_
  have hlt := List.mem_range.mp hi
  obtain ⟨hlo, hne⟩ := hreads _ ⟨Nat.le_add_right _ i, Nat.add_lt_add_left hlt _⟩
  exact (he.mem _ hlo).1 hne

theorem dumpByte_congr {m m' : Mem} {addr : Cell} {n i : Nat} (h : AgreeOn m m' addr.toNat n)
    (hi : i < n) : dumpByte m' addr i = dumpByte m addr i := by
  have hbyte : m' (addr.toNat + i) = m (addr.toNat + i) := (h _ (by omega) (by omega)).symm
  have hline : i % 16 = 15 → ((List.range 16).map fun j =>
      let c := m' (addr.toNat + (i - 15) + j)
      if 32#8 ≤ c ∧ c < 127#8 then c else chr '.') = (List.range 16).map fun j =>
      let c := m (addr.toNat + (i - 15) + j)
      if 32#8 ≤ c ∧ c < 127#8 then c else chr '.' := by
    intro hmod
    refine List.map_congr_left fun j hj => ?_
    have hlt := List.mem_range.mp hj
    rw [h (addr.toNat + (i - 15) + j) (by omega) (by omega)]
  unfold dumpByte
  by_cases hmod : i % 16 = 15
  · simp only [hbyte, hline hmod]
  · simp only [hbyte, if_neg hmod]

theorem blindAt_dump {d : Data} {vm : Vm} (hd : vm.data = d)
    (hreads : Shared lo y (CFun.reads img .wDump vm)) : BlindAt (Alike lo y) wDump d := by
  subst hd
  refine blindAt_dsPop (blindAt_dsPop (blind_get (fun d => ?_) ?_ _))
  · refine blind_bind (blind_forM _ fun i => blind_dumpByte _ _ _) fun _ => ?_
    exact blind_ite (blind_putchar _) (blind_pure _)
  · intro d e he
    rw [(dsPop_headD vm.data).2]
    have hagree := he.mem.agreeOn hreads
    have hall : ∀ l : List Nat, (∀ i ∈ l, i < (vm.data.ds.headD 0#64).toInt.toNat) →
        l.forM (dumpByte e.mem (vm.data.ds.tail.headD 0#64)) =
          l.forM (dumpByte d.mem (vm.data.ds.tail.headD 0#64)) := by
      intro l
      induction l with
      | nil => exact fun _ => rfl
      | cons i l ih =>
          intro hl
          show (dumpByte e.mem _ i >>= fun _ => l.forM _) = (dumpByte d.mem _ i >>= fun _ => l.forM _)
          rw [dumpByte_congr hagree (hl i List.mem_cons_self),
            ih fun j hj => hl j (List.mem_cons_of_mem _ hj)]
    dsimp only
    rw [hall _ fun i hi => List.mem_range.mp hi]

theorem blind_fork : Blind (Alike lo y) wFork := by
  refine blind_bind blind_dsPop fun xt => blind_bind (blind_modify fun d e he => ?_) fun _ =>
    blind_bind (blind_modifyGet fun d e he => ?_) fun _ => blind_dsPush _
  all_goals obtain ⟨m, disk, here, latest, hmem, hdisk⟩ := he
  · exact ⟨m, disk, here, latest, hmem, hdisk⟩
  · exact ⟨rfl, ⟨m, disk, here, latest, hmem, hdisk⟩⟩

theorem blindAt_other {vm : Vm} (hf : dataWord img f = some w) (hconsults : f.consults = false)
    (hplain : f.plain = false) (hreads : Shared lo y (f.reads img vm)) :
    BlindAt (Alike lo y) w vm.data := by
  cases f <;> cases hconsults <;> cases hplain <;> cases hf
  case wFetch =>
    exact blindAt_dsPop (blind_bind (blind_fetchCell hreads) (fun _ => blind_dsPush _) _)
  case wCfetch =>
    exact blindAt_dsPop (blind_bind (blind_fetchByte hreads) (fun _ => blind_dsPush _) _)
  case wPlusStore =>
    refine blindAt_dsPop (blind_bind blind_dsPop (fun v => ?_) _)
    exact blind_bind (blind_fetchCell hreads) fun _ => blind_storeCell _ _
  case wStore =>
    exact blind_bind blind_dsPop (fun a => blind_bind blind_dsPop fun v => blind_storeCell a v) _
  case wCstore =>
    exact blind_bind blind_dsPop (fun a => blind_bind blind_dsPop fun v => blind_setByte a _) _
  case wType => exact blindAt_type rfl hreads
  case wDump => exact blindAt_dump rfl hreads
  case wBlock =>
    exact blind_bind blind_dsPop (fun n => blind_bind (blind_blockGet hreads _) fun _ =>
      blind_dsPush _) _
  case wUpdate => exact blind_update _
  case wFlush => exact blind_flush hreads _
  case wFork => exact blind_fork _
  case wDotQuote =>
    exact blind_bind (blind_parseUntil _ _) (fun _ => blind_puts _) _
  case wParen =>
    exact blind_bind (blind_parseUntil _ _) (fun _ => blind_pure _) _

/-- **A native word that does not consult the dictionary** does the same in all
states that agree on what it reads. -/
theorem blindAt_word {vm : Vm} (hf : dataWord img f = some w) (hconsults : f.consults = false)
    (hreads : Shared lo y (f.reads img vm)) : BlindAt (Alike lo y) w vm.data := by
  cases hplain : f.plain with
  | true => exact blind_plain hf hplain _
  | false => exact blindAt_other hf hconsults hplain hreads

/-! ## The words on the return stack and the instruction pointer -/

/-- The two virtual machines differ in the dictionary only. -/
abbrev VmAlike (lo y : Nat) : Vm → Vm → Prop := VmHides (Alike lo y)

section Vms

variable {vm vm' : Vm}

theorem fetch_alike (h : VmAlike lo y vm vm') (hip : Shared lo y (cellBytes vm.ip)) :
    vm'.ipFetchAdvance.1 = vm.ipFetchAdvance.1 ∧
      VmAlike lo y vm.ipFetchAdvance.2 vm'.ipFetchAdvance.2 := h.fetch (h.data.mem.cellAt hip)

theorem word_alike {g : Vm → Vm} (h : VmAlike lo y vm vm') (hg : vmWord f = some g)
    (hreads : Shared lo y (f.reads img vm)) : VmAlike lo y (g vm) (g vm') := by
  refine h.word hg fun hfetches => h.data.mem.cellAt ?_
  cases f <;> cases hfetches <;> exact hreads

end Vms

end Words

/-! ## What a step reads -/

/-- The memory that the execution of the word at `entry` reads next, the byte with
its name length apart. -/
def entryReads (img : Image) (vm : Vm) (entry : Cell) : Set Nat :=
  cellBytes (dictGetCodeField vm.data.mem entry) ∪
    match img.decode (cellAt vm.data.mem (dictGetCodeField vm.data.mem entry)) with
    | some .doConstant => cellBytes (dictGetParamField vm.data.mem entry)
    | some f => f.reads img vm
    | none => ∅

/-- The word that the next step executes. -/
def nextEntry (m : Machine) : Option Cell :=
  match m.frames with
  | .execute entry :: _ => some entry
  | .inner :: _ =>
      if InDict (cellAt m.vm.data.mem m.vm.ip) then some (cellAt m.vm.data.mem m.vm.ip) else none
  | _ => none

/-- The memory that the next step reads. -/
def stepReads (img : Image) (m : Machine) : Set Nat :=
  match m.frames with
  | .execute entry :: _ => entryReads img m.vm entry
  | .inner :: _ =>
      cellBytes m.vm.ip ∪
        if cellAt m.vm.data.mem m.vm.ip = img.addr .doLiteral then cellBytes (m.vm.ip + 8#64)
        else if InDict (cellAt m.vm.data.mem m.vm.ip) then
          entryReads img m.vm.ipFetchAdvance.2 (cellAt m.vm.data.mem m.vm.ip)
        else ∅
  | .editor blk _ _ :: _ =>
      Set.Ico (blk + BlockDevice.dataField) (blk + BlockDevice.dataField + 960)
  | .editorKey _ _ _ :: _ =>
      Set.Ico img.buffers (img.buffers + BlockDevice.bufferSize * BlockDevice.numBuffers)
  | _ => ∅

/-- The next step reads only what alike machines share. -/
structure Clear (img : Image) (lo y : Nat) (m : Machine) : Prop where
  reads : Shared lo y (stepReads img m)
  header : ∀ entry, nextEntry m = some entry → (entry + 8#64).toNat < lo
  words : ∀ f, calledFun img m = some f → f.consults = false
  text : m.frames.head? ≠ some .eval

/-- The two machines differ in the dictionary only. -/
inductive MachineAlike (lo y : Nat) (m : Machine) : Machine → Prop
  | intro (e : Data) : Alike lo y m.vm.data e → MachineAlike lo y m (m.setData e)

/-- A step of both, or of neither. -/
abbrev StepsAgree (lo y : Nat) : Option Machine → Option Machine → Prop :=
  Option.Rel (MachineAlike lo y)

section Steps

variable {lo y : Nat} {img : Image} {d e : Data} {m n m' : Machine} {rest : List Frame}

theorem MachineAlike.setFrames (h : MachineAlike lo y m n) (frames : List Frame) :
    MachineAlike lo y { m with frames := frames } { n with frames := frames } := by
  obtain ⟨e, he⟩ := h
  exact ⟨e, he⟩

theorem MachineAlike.frames (h : MachineAlike lo y m n) : n.frames = m.frames := by
  obtain ⟨e, he⟩ := h
  rfl

theorem MachineAlike.vm (h : MachineAlike lo y m n) : VmAlike lo y m.vm n.vm := by
  obtain ⟨e, he⟩ := h
  exact ⟨e, he⟩

theorem MachineAlike.setVm (h : MachineAlike lo y m n) {v v' : Vm} (hv : VmAlike lo y v v') :
    MachineAlike lo y { m with vm := v } { n with vm := v' } := by
  obtain ⟨e, he⟩ := h
  obtain ⟨e', he'⟩ := hv
  exact ⟨e', he'⟩

theorem MachineAlike.setData (h : MachineAlike lo y m n) {d d' : Data} (hd : Alike lo y d d') :
    MachineAlike lo y (m.setData d) (n.setData d') := by
  obtain ⟨e, he⟩ := h
  exact ⟨d', hd⟩

theorem MachineAlike.puts (h : MachineAlike lo y m n) (t : Text) :
    MachineAlike lo y (m.puts t) (n.puts t) := h.setData (hides_puts t h.vm.data)

theorem MachineAlike.push (h : MachineAlike lo y m n) (f : Frame) :
    MachineAlike lo y (m.push f) (n.push f) := by
  obtain ⟨e, he⟩ := h
  exact ⟨e, he⟩

theorem MachineAlike.yield (h : MachineAlike lo y m n) :
    MachineAlike lo y (yield m) (yield n) := by
  obtain ⟨e, he⟩ := h
  obtain ⟨mem, disk, here, latest, hmem, hdisk⟩ := he
  have hnext : nextTask { m.vm.data with
      mem := mem, disk := disk, dictHere := here, dictLatest := latest } = nextTask m.vm.data := rfl
  unfold Forth.yield
  dsimp only [Machine.setData]
  rw [hnext]
  generalize nextTask m.vm.data = next
  split
  · exact ⟨_, ⟨mem, disk, here, latest, hmem, hdisk⟩⟩
  · exact ⟨_, ⟨mem, disk, here, latest, hmem, hdisk⟩⟩

/-- `LOAD` and `EDIT` get a block. -/
theorem MachineAlike.block (h : MachineAlike lo y m n) (hbuf : Shared lo y
    (Set.Ico img.buffers (img.buffers + BlockDevice.bufferSize * BlockDevice.numBuffers))) :
    MachineAlike lo y (wEdit img m) (wEdit img n) := by
  obtain ⟨e, he⟩ := h
  obtain ⟨hv, hd⟩ := hides_dsPop he
  obtain ⟨haddr, hdev⟩ := (alike_toState hd).get (hd.buffers hbuf) (m.vm.data.dsPop.1.setWidth 32)
  unfold wEdit
  dsimp only [Machine.setData]
  rw [hv, haddr]
  exact ⟨_, hd.device hdev⟩

theorem blockGet_addr (base : Nat) (s : BlockDevice.State) (n : BitVec 32) :
    ∃ i, (BlockDevice.blockGet base s n).2 = BlockDevice.blockAddr base i := by
  unfold BlockDevice.blockGet
  split <;> exact ⟨_, rfl⟩

/-- `LOAD` makes the text of a block the input. -/
def loadedData (img : Image) (d : Data) (num : BitVec 32) (t : Text) : Data :=
  { ({ d with toState := (BlockDevice.blockGet img.buffers d.toState num).1 } : Data).puts t with
    parsePtr := blockText (BlockDevice.blockGet img.buffers d.toState num).1.mem
      ((BlockDevice.blockGet img.buffers d.toState num).2 + BlockDevice.dataField) }

theorem wLoad_eq (m : Machine) : wLoad img m =
    ((m.setData (loadedData img m.vm.data.dsPop.2 (m.vm.data.dsPop.1.setWidth 32)
      (text "\n[Loading Block " ++ itoa (m.vm.data.dsPop.1.setWidth 32) 10 ++
        text "...]\n"))).push (.load m.vm.data.dsPop.2.parsePtr)).push .eval := rfl

theorem Alike.loadText {d e : Data} (h : Alike lo y d e) (hbuf : Shared lo y
    (Set.Ico img.buffers (img.buffers + BlockDevice.bufferSize * BlockDevice.numBuffers)))
    (num : BitVec 32) (t : Text) :
    Alike lo y (loadedData img d num t) (loadedData img e num t) := by
  have hsame := h.buffers hbuf
  obtain ⟨haddr, hdev⟩ := (alike_toState h).get hsame num
  obtain ⟨i, hi⟩ := blockGet_addr img.buffers d.toState num
  have hblock := BlockDevice.SameBuffers.block (hdev.2.agreeOn hsame) i
  unfold loadedData
  rw [haddr, hi]
  generalize (BlockDevice.blockGet img.buffers d.toState num).1 = s at hdev hblock ⊢
  generalize (BlockDevice.blockGet img.buffers e.toState num).1 = s' at hdev hblock ⊢
  have htext : blockText s'.mem (BlockDevice.blockAddr img.buffers i + BlockDevice.dataField) =
      blockText s.mem (BlockDevice.blockAddr img.buffers i + BlockDevice.dataField) := by
    refine List.map_congr_left fun j hj => ?_
    have hlt := List.mem_range.mp hj
    rw [hblock _ (by omega) (by
      simp only [BlockDevice.dataField, BlockDevice.blockDataSize, BlockDevice.blockSize] at *
      omega)]
  rw [htext]
  generalize blockText s.mem _ = txt
  obtain ⟨mem, disk, here, latest, hmem, hdisk⟩ := h
  obtain ⟨⟨hs, hdisk'⟩, hwrites⟩ := hdev
  rw [hs]
  exact ⟨_, _, here, latest, hmem.writes hwrites, hdisk'⟩

theorem MachineAlike.load (h : MachineAlike lo y m n) (hbuf : Shared lo y
    (Set.Ico img.buffers (img.buffers + BlockDevice.bufferSize * BlockDevice.numBuffers))) :
    MachineAlike lo y (wLoad img m) (wLoad img n) := by
  obtain ⟨hv, hd⟩ := hides_dsPop h.vm.data
  have hptr : n.vm.data.dsPop.2.parsePtr = m.vm.data.dsPop.2.parsePtr := by
    generalize n.vm.data.dsPop.2 = e', m.vm.data.dsPop.2 = d at hd
    obtain ⟨mem, disk, here, latest, hmem, hdisk⟩ := hd
    rfl
  rw [wLoad_eq, wLoad_eq, hv, hptr]
  exact ((h.setData (hd.loadText hbuf _ _)).push _).push _

theorem MachineAlike.execute (h : MachineAlike lo y m n) :
    MachineAlike lo y (wExecute m) (wExecute n) := by
  obtain ⟨e, he⟩ := h
  obtain ⟨hv, hd⟩ := hides_dsPop he
  unfold wExecute
  dsimp only [Machine.setData]
  rw [hv]
  exact ⟨_, hd⟩

theorem agrees_setData {r r' : Option (Unit × Data)} (hr : Agrees (Alike lo y) r r')
    (h : MachineAlike lo y m n) :
    StepsAgree lo y (r.map fun r => m.setData r.2) (r'.map fun r => n.setData r.2) := by
  cases hr with
  | none => exact .none
  | some hrel => exact .some (h.setData hrel.2)

/-- A call of a C function. -/
theorem callNative_alike {f : CFun} (h : MachineAlike lo y m n) (hconsults : f.consults = false)
    (hreads : Shared lo y (f.reads img m.vm)) :
    StepsAgree lo y (callNative img f m) (callNative img f n) := by
  unfold callNative
  split
  · rename_i w hw
    have hrun : Agrees (Alike lo y) (w.run m.vm.data) (w.run n.vm.data) :=
      blindAt_word hw hconsults hreads _ h.vm.data
    exact agrees_setData hrun h
  · split
    · rename_i w hw
      exact .some (h.setVm (word_alike h.vm hw hreads))
    · split
      · exact .some h.execute
      · exact .some (h.load hreads)
      · exact .some h.yield
      · exact .some (h.block hreads)
      · exact .some h

/-- The dispatch on a code field. -/
theorem callCode_alike {entry code : Cell} (h : MachineAlike lo y m n)
    (hentry : (entry + 8#64).toNat < lo) (hcode : cellAt m.vm.data.mem
      (dictGetCodeField m.vm.data.mem entry) = code)
    (hconsults : ∀ f, img.decode code = some f → f.consults = false)
    (hreads : Shared lo y (entryReads img m.vm entry)) :
    StepsAgree lo y (callCode img code entry m) (callCode img code entry n) := by
  have hfield : dictGetParamField n.vm.data.mem entry = dictGetParamField m.vm.data.mem entry := by
    rw [dictGetParamField, dictGetParamField, h.vm.data.mem.codeField hentry]
  have hbody := hreads.mono Set.subset_union_right
  rw [hcode] at hbody
  unfold callCode
  rw [hfield]
  split
  · exact .some (h.setData (hides_dsPush _ h.vm.data))
  · split
    · rename_i hconst
      rw [hconst, img.decode_addr] at hbody
      rw [h.vm.data.mem.cellAt hbody]
      exact .some (h.setData (hides_dsPush _ h.vm.data))
    · rename_i hconst
      split
      · rename_i f hf
        refine callNative_alike h (hconsults f hf) ?_
        rw [hf] at hbody
        cases f
        case doConstant => exact absurd (img.addr_of_decode hf).symm hconst
        all_goals exact hbody
      · exact .none

/-- `forth_execute` and `forth_inner` read the code field of an entry. -/
theorem codeCell_alike {entry : Cell} (h : MachineAlike lo y m n)
    (hentry : (entry + 8#64).toNat < lo) (hreads : Shared lo y (entryReads img m.vm entry)) :
    cellAt n.vm.data.mem (dictGetCodeField n.vm.data.mem entry) =
      cellAt m.vm.data.mem (dictGetCodeField m.vm.data.mem entry) := by
  rw [h.vm.data.mem.codeField hentry,
    h.vm.data.mem.cellAt (hreads.mono Set.subset_union_left)]

theorem enterColon_alike {entry : Cell} {vm vm' : Vm} (h : VmAlike lo y vm vm')
    (hentry : (entry + 8#64).toNat < lo) :
    VmAlike lo y (enterColon entry vm) (enterColon entry vm') := by
  unfold enterColon
  rw [dictGetParamField, dictGetParamField, h.data.mem.codeField hentry, h.ip]
  exact (h.rsPush _).jump _

theorem forthExecute_alike {entry : Cell} (h : MachineAlike lo y m n)
    (hentry : (entry + 8#64).toNat < lo) (hreads : Shared lo y (entryReads img m.vm entry))
    (hconsults : ∀ f, img.decode (cellAt m.vm.data.mem
      (dictGetCodeField m.vm.data.mem entry)) = some f → f.consults = false) :
    StepsAgree lo y (forthExecute img entry m) (forthExecute img entry n) := by
  unfold forthExecute
  dsimp only
  rw [codeCell_alike h hentry hreads]
  split
  · exact .some ((h.setVm (enterColon_alike h.vm hentry)).push .inner)
  · exact callCode_alike h hentry rfl hconsults hreads

theorem forthInner_alike (h : MachineAlike lo y m n) (hf : m.frames = .inner :: rest)
    (hclear : Clear img lo y m) :
    StepsAgree lo y (forthInner img rest m) (forthInner img rest n) := by
  have hreads := hclear.reads
  have hheader := hclear.header
  have hwords := hclear.words
  simp only [stepReads, nextEntry, calledFun, hf] at hreads hheader hwords
  obtain ⟨hcell, hvm⟩ := fetch_alike h.vm (hreads.mono Set.subset_union_left)
  replace hreads := hreads.mono Set.subset_union_right
  have hsame : m.vm.ipFetchAdvance.2.data = m.vm.data := rfl
  change n.vm.ipFetchAdvance.1 = cellAt m.vm.data.mem m.vm.ip at hcell
  unfold forthInner
  dsimp only
  rw [hcell, show m.vm.ipFetchAdvance.1 = cellAt m.vm.data.mem m.vm.ip from rfl]
  generalize cellAt m.vm.data.mem m.vm.ip = cell at hreads hheader hwords ⊢
  split
  · -- the exit of a word
    obtain ⟨hip, hpop⟩ := hvm.rsPop
    rw [hip]
    split
    · exact .some ((h.setVm (hpop.jump _)).setFrames rest)
    · exact .some (h.setVm (hpop.jump _))
  · split
    · rename_i hlit
      rw [if_pos hlit] at hreads
      obtain ⟨hv, hnext⟩ := fetch_alike hvm hreads
      rw [hv]
      exact .some (h.setVm (hnext.dsPush _))
    · rename_i hlit
      rw [if_neg hlit] at hreads
      split
      · exact .some (((h.setVm hvm).puts _).setFrames rest)
      · rename_i hin
        rw [not_not] at hin
        rw [if_pos hin] at hreads hheader hwords
        have hentry := hheader cell rfl
        have hm : MachineAlike lo y { m with vm := m.vm.ipFetchAdvance.2 }
            { n with vm := n.vm.ipFetchAdvance.2 } := h.setVm hvm
        rw [codeCell_alike hm hentry hreads]
        split
        · exact .some (h.setVm (enterColon_alike hvm hentry))
        · exact callCode_alike hm hentry rfl hwords hreads

theorem editorScreen_congr {m m' : Mem} {blk : Nat} (num : BitVec 32)
    (h : AgreeOn m m' (blk + BlockDevice.dataField) 960) :
    editorScreen m' blk num = editorScreen m blk num := by
  have hall : ((List.range 960).flatMap fun i =>
      let c := m' (blk + BlockDevice.dataField + i)
      let shown := if c < 32#8 ∨ 126#8 < c then chr '.' else c
      if i % 64 = 0 ∧ i ≠ 0 then [chr '\n', shown] else [shown]) =
      (List.range 960).flatMap fun i =>
      let c := m (blk + BlockDevice.dataField + i)
      let shown := if c < 32#8 ∨ 126#8 < c then chr '.' else c
      if i % 64 = 0 ∧ i ≠ 0 then [chr '\n', shown] else [shown] := by
    refine List.flatMap_congr fun i hi => ?_
    have hlt := List.mem_range.mp hi
    rw [h (blk + BlockDevice.dataField + i) (by omega) (by omega)]
  unfold editorScreen
  rw [hall]

theorem editorStroke_sameWrites (key : Byte) (data cursor : Nat) (m m' : Mem) :
    (editorStroke key data cursor m').2 = (editorStroke key data cursor m).2 ∧
      SameWrites m m' (editorStroke key data cursor m).1 (editorStroke key data cursor m').1 := by
  unfold editorStroke
  split
  · split
    · exact ⟨rfl, sameWrites_write8 _ _ _ _⟩
    · exact ⟨rfl, .refl _ _⟩
  · split
    · exact ⟨rfl, .refl _ _⟩
    · split
      · exact ⟨rfl, sameWrites_write8 _ _ _ _⟩
      · exact ⟨rfl, .refl _ _⟩

theorem Alike.setMem {d e : Data} (h : Alike lo y d e) {w w' : Mem}
    (hw : SameWrites d.mem e.mem w w') : Alike lo y { d with mem := w } { e with mem := w' } := by
  obtain ⟨mem, disk, here, latest, hmem, hdisk⟩ := h
  exact ⟨w', disk, here, latest, hmem.writes hw, hdisk⟩

/-- A key in the editor. -/
theorem editorKey_alike (h : MachineAlike lo y m n) (hbuf : Shared lo y
    (Set.Ico img.buffers (img.buffers + BlockDevice.bufferSize * BlockDevice.numBuffers)))
    (blk : Nat) (num : BitVec 32) (cursor : Nat) (key : Byte) :
    MachineAlike lo y (editorKey img rest blk num cursor key m)
      (editorKey img rest blk num cursor key n) := by
  have hdata := h.vm.data
  unfold editorKey
  dsimp only
  split
  · have hupdate := (alike_toState hdata).update
    have hmem : ∀ s : BlockDevice.State, (BlockDevice.blockUpdate s).mem = s.mem := by
      intro s
      unfold BlockDevice.blockUpdate
      split <;> rfl
    have hsame : BlockDevice.SameBuffers img.buffers
        (BlockDevice.blockUpdate m.vm.data.toState).mem
        (BlockDevice.blockUpdate n.vm.data.toState).mem := by
      rw [hmem, hmem]
      exact hdata.buffers hbuf
    have hflush := hupdate.flush hsame
    have hthrough : BlockDevice.Twin.Through m.vm.data.toState n.vm.data.toState
        (BlockDevice.blockFlush img.buffers (BlockDevice.blockUpdate m.vm.data.toState))
        (BlockDevice.blockFlush img.buffers (BlockDevice.blockUpdate n.vm.data.toState)) := by
      refine ⟨hflush.1, ?_⟩
      have hwrites := hflush.2
      rwa [hmem, hmem] at hwrites
    exact (h.setData (hides_output (hdata.device hthrough) [.clear])).setFrames rest
  · obtain ⟨hcursor, hwrites⟩ := editorStroke_sameWrites key (blk + BlockDevice.dataField) cursor
      m.vm.data.mem n.vm.data.mem
    rw [hcursor]
    exact (h.setData (hdata.setMem hwrites)).setFrames _

theorem MachineAlike.kbd (h : MachineAlike lo y m n) : n.kbd = m.kbd := by
  obtain ⟨e, he⟩ := h
  rfl

theorem MachineAlike.setKbd (h : MachineAlike lo y m n) (kbd : Text) :
    MachineAlike lo y { m with kbd := kbd } { n with kbd := kbd } := by
  obtain ⟨e, he⟩ := h
  exact ⟨e, he⟩

theorem Alike.setParse (h : Alike lo y d e) (p : Text) :
    Alike lo y { d with parsePtr := p } { e with parsePtr := p } := by
  obtain ⟨mem, disk, here, latest, hmem, hdisk⟩ := h
  exact ⟨mem, disk, here, latest, hmem, hdisk⟩

theorem machineAlike_setData (m : Machine) (h : Alike lo y d e) :
    MachineAlike lo y (m.setData d) (m.setData e) :=
  MachineAlike.intro (m := m.setData d) e h

theorem replKey_alike (h : MachineAlike lo y m n) (c : Byte) :
    MachineAlike lo y (replKey rest c m) (replKey rest c n) := by
  obtain ⟨e, he⟩ := h
  unfold replKey
  split
  · dsimp only [Machine.puts, Machine.setData]
    split
    · exact machineAlike_setData { m with frames := .eval :: .prompt :: .repl :: rest }
        ((hides_puts [chr '\n'] he).setParse m.inputBuffer)
    · exact machineAlike_setData { m with frames := .prompt :: .repl :: rest }
        (hides_puts [chr '\n'] he)
  · split
    · by_cases hinput : m.inputBuffer ≠ []
      · rw [if_pos hinput, if_pos (show (m.setData e).inputBuffer ≠ [] from hinput)]
        exact machineAlike_setData { m with inputBuffer := m.inputBuffer.dropLast }
          (hides_puts [chr '\x08', chr ' ', chr '\x08'] he)
      · rw [if_neg hinput, if_neg (show ¬ (m.setData e).inputBuffer ≠ [] from hinput)]
        exact machineAlike_setData m he
    · by_cases hroom : 32#8 ≤ c ∧ c < 128#8 ∧ m.inputBuffer.length < 255
      · rw [if_pos hroom, if_pos (show 32#8 ≤ c ∧ c < 128#8 ∧
          (m.setData e).inputBuffer.length < 255 from hroom)]
        exact machineAlike_setData { m with inputBuffer := m.inputBuffer ++ [c] }
          (hides_puts [c] he)
      · rw [if_neg hroom, if_neg (show ¬ (32#8 ≤ c ∧ c < 128#8 ∧
          (m.setData e).inputBuffer.length < 255) from hroom)]
        exact machineAlike_setData m he

/-- **What a step does depends on what it reads**: machines that agree on that do
the same. -/
theorem step_alike (hclear : Clear img lo y m) (h : MachineAlike lo y m n) :
    StepsAgree lo y (step img m) (step img n) := by
  have hreads := hclear.reads
  have hheader := hclear.header
  have hwords := hclear.words
  have htext := hclear.text
  unfold step
  rw [h.frames]
  split
  · exact .none
  all_goals rename_i hf
  all_goals
    simp only [hf, stepReads, nextEntry, calledFun, List.head?_cons] at hreads hheader hwords htext
  · exact forthExecute_alike (h.setFrames _) (hheader _ rfl) hreads hwords
  · exact forthInner_alike h hf hclear
  · exact absurd rfl htext
  · -- w_load
    obtain ⟨e, he⟩ := h
    obtain ⟨mem, disk, here, latest, hmem, hdisk⟩ := he
    exact .some ⟨_, ⟨mem, disk, here, latest, hmem, hdisk⟩⟩
  · have hscreen := editorScreen_congr ‹BitVec 32› (h.vm.data.mem.agreeOn hreads)
    dsimp only
    rw [hscreen]
    exact .some ((h.setData (hides_puts _ (hides_output h.vm.data [.clear]))).setFrames _)
  · rw [h.kbd]
    split
    · exact .some h.yield
    · exact .some (editorKey_alike (h.setKbd _) hreads _ _ _ _)
  · obtain ⟨e, he⟩ := h
    obtain ⟨mem, disk, here, latest, hmem, hdisk⟩ := he
    exact .some ⟨_, ⟨mem, disk, here, latest, hmem, hdisk⟩⟩
  · obtain ⟨e, he⟩ := h
    obtain ⟨mem, disk, here, latest, hmem, hdisk⟩ := he
    exact .some (MachineAlike.yield ⟨_, ⟨mem, disk, here, latest, hmem, hdisk⟩⟩)
  · exact .some h
  · exact .some h.yield
  · rw [h.kbd]
    split
    · exact .some h.yield
    · exact .some (replKey_alike ((h.setFrames m.frames).setKbd _) _)
  · obtain ⟨e, he⟩ := h
    obtain ⟨mem, disk, here, latest, hmem, hdisk⟩ := he
    exact .some ⟨_, ⟨mem, disk, here, latest, hmem, hdisk⟩⟩

end Steps

end VectorForth.Forth
