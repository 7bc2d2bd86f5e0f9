import VectorForth.Fs.Ata

/-!
# The disk driver and the drive

`ata.c` moves a sector through the ports of the drive: it waits for the drive,
sets the task file, gives the command and passes 256 words. The drive is a
machine of its own with the same ports. It takes as long as it likes for every
step, and what it shows in the status register while it is busy means nothing
beyond the busy bit. The block layer sees an ideal disk through this driver, but
for what the drive could not write.
-/

namespace VectorForth.Ata

open ByteMemory BlockDevice

/-! ## The drive -/

/-- What the drive has to do. `left` sectors follow the current one. -/
inductive Task
  | send (lba left : Nat)
  | take (lba left : Nat)
  | store (words : List (BitVec 16)) (lba left : Nat)
  | flush

inductive Phase
  | ready
  /-- The last command ended with an error. -/
  | failed
  /-- Busy for `reads + 1` more reads of the status register. -/
  | busy (reads : Nat) (task : Task)
  | sending (words : List (BitVec 16)) (lba left : Nat)
  | taking (words : List (BitVec 16)) (lba left : Nat)

/-- How a drive behaves, by the number of its steps: the time it takes, what it shows
while it is busy, and when it fails. -/
structure Habits where
  wait : Nat → Nat
  noise : Nat → Byte
  fails : Nat → Bool

/-- The sectors as they are read, through the cache of the drive, and as they were when
the cache was last flushed: what is safe on the platters. -/
structure Drive where
  regs : TaskFile
  phase : Phase
  sector : Nat → Nat → Byte
  flushed : Nat → Nat → Byte
  clock : Nat

/-- A sector as 256 words, low byte first. -/
def wordsOf (f : Nat → Byte) : List (BitVec 16) :=
  (List.range 256).map fun i => f (2 * i + 1) ++ f (2 * i)

def bytesOf (words : List (BitVec 16)) (o : Nat) : Byte :=
  ((words.getD (o / 2) 0#16) >>> (8 * (o % 2))).setWidth 8

namespace Drive

def perform (d : Drive) : Task → Drive
  | .send lba left => { d with phase := .sending (wordsOf (d.sector lba)) lba left }
  | .take lba left => { d with phase := .taking [] lba left }
  | .store words lba left =>
      { d with
        sector := Function.update d.sector lba (bytesOf words)
        phase := if left = 0 then .ready else .taking [] (lba + 1) (left - 1) }
  | .flush => { d with flushed := d.sector, phase := .ready }

section Ports

variable (b : Habits)

/-- The end of a task. -/
def finish (task : Task) (d : Drive) : Drive :=
  if b.fails d.clock then { d with phase := .failed } else d.perform task

/-- A drive that needs no time is never seen busy. -/
def start (task : Task) (d : Drive) : Drive :=
  if b.wait d.clock = 0 then finish b task { d with clock := d.clock + 1 }
  else { d with phase := .busy (b.wait d.clock - 1) task, clock := d.clock + 1 }

/-- While the drive is busy only the busy bit counts. -/
def status (d : Drive) : Byte :=
  match d.phase with
  | .ready => 0x50#8
  | .failed => 0x51#8
  | .busy _ _ => b.noise d.clock ||| 0x80#8
  | .sending _ _ _ => 0x58#8
  | .taking _ _ _ => 0x58#8

/-- `inb(ATA_PRIMARY_COMM_STAT)`: the drive goes on with its task. -/
def inStatus (d : Drive) : Byte × Drive :=
  let d' := { d with clock := d.clock + 1 }
  (d.status b, match d.phase with
    | .busy 0 task => d'.finish b task
    | .busy (reads + 1) task => { d' with phase := .busy reads task }
    | _ => d')

def command (cmd : Byte) (d : Drive) : Drive :=
  let count := if d.regs.secCount = 0#8 then 256 else d.regs.secCount.toNat
  if cmd = 0x20#8 then d.start b (.send d.regs.sector (count - 1))
  else if cmd = 0x30#8 then d.start b (.take d.regs.sector (count - 1))
  else if cmd = 0xE7#8 then d.start b .flush
  else { d with phase := .failed }

end Ports

end Drive

/-- The registers of the primary bus that are written. -/
inductive Port
  | secCount
  | lbaLo
  | lbaMid
  | lbaHi
  | drvHead
  | commStat

/-- A drive that is busy, or in the middle of a sector, takes no command. -/
def Drive.outb (b : Habits) (port : Port) (v : Byte) (d : Drive) : Drive :=
  let accept := match port with
    | .secCount => { d with regs := { d.regs with secCount := v } }
    | .lbaLo => { d with regs := { d.regs with lbaLo := v } }
    | .lbaMid => { d with regs := { d.regs with lbaMid := v } }
    | .lbaHi => { d with regs := { d.regs with lbaHi := v } }
    | .drvHead => { d with regs := { d.regs with drvHead := v } }
    | .commStat => d.command b v
  match d.phase with
  | .ready => accept
  | .failed => accept
  | _ => d

/-- `inw(ATA_PRIMARY_DATA)`. -/
def Drive.inWord (b : Habits) (d : Drive) : BitVec 16 × Drive :=
  match d.phase with
  | .sending (w :: ws) lba left =>
      (w, if ws ≠ [] then { d with phase := .sending ws lba left }
        else if left = 0 then { d with phase := .ready }
        else d.start b (.send (lba + 1) (left - 1)))
  | _ => (0xFFFF#16, d)

/-- `outw(ATA_PRIMARY_DATA, w)`. -/
def Drive.outWord (b : Habits) (w : BitVec 16) (d : Drive) : Drive :=
  match d.phase with
  | .taking ws lba left =>
      if ws.length + 1 < 256 then { d with phase := .taking (ws ++ [w]) lba left }
      else d.start b (.store (ws ++ [w]) lba left)
  | _ => d

/-! ## ata.c -/

/-- Why a function does not return: the fuel of a waiting loop is used up, or
`kernel_panic`. -/
inductive Halt
  | fuel
  | panic (msg : String)
  deriving DecidableEq

section Driver

variable (b : Habits)

def ataWaitBsy : Nat → Drive → Except Halt Drive
  | 0, _ => .error .fuel
  | fuel + 1, d =>
      let (status, d) := d.inStatus b
      if status &&& 0x80#8 ≠ 0#8 then ataWaitBsy fuel d else .ok d

def ataWaitDrq : Nat → Drive → Except Halt Drive
  | 0, _ => .error .fuel
  | fuel + 1, d =>
      let (status, d) := d.inStatus b
      if status &&& 0x08#8 = 0#8 then
        let (status, d) := d.inStatus b
        if status &&& 0x01#8 ≠ 0#8 then .error (.panic "ATA Disk Error!") else ataWaitDrq fuel d
      else .ok d

/-- The registers and the command, up to the transfer. -/
def ataCommand (fuel : Nat) (lba : BitVec 32) (cmd : Byte) (d : Drive) : Except Halt Drive := do
  let d ← ataWaitBsy b fuel d
  let r := ataTaskFile lba
  let d := d.outb b .drvHead r.drvHead
  let d := d.outb b .secCount r.secCount
  let d := d.outb b .lbaLo r.lbaLo
  let d := d.outb b .lbaMid r.lbaMid
  let d := d.outb b .lbaHi r.lbaHi
  let d := d.outb b .commStat cmd
  let d ← ataWaitBsy b fuel d
  ataWaitDrq b fuel d

/-- `ptr[i] = inw(ATA_PRIMARY_DATA)` for the first `n` words. -/
def readWords (buf n : Nat) (s : Mem × Drive) : Mem × Drive :=
  n.fold (fun i _ s =>
    let (w, d) := s.2.inWord b
    (writeLE s.1 (buf + 2 * i) 2 w.toNat, d)) s

def writeWords (m : Mem) (buf n : Nat) (d : Drive) : Drive :=
  n.fold (fun i _ d => d.outWord b (BitVec.ofNat 16 (readLE m (buf + 2 * i) 2))) d

def ataReadSector (fuel : Nat) (lba : BitVec 32) (buf : Nat) (s : Mem × Drive) :
    Except Halt (Mem × Drive) := do
  let d ← ataCommand b fuel lba 0x20#8 s.2
  let (m, d) := readWords b buf 256 (s.1, d)
  .ok (m, Nat.fold 4 (fun _ _ d => (d.inStatus b).2) d)

def ataWriteSector (fuel : Nat) (lba : BitVec 32) (buf : Nat) (s : Mem × Drive) :
    Except Halt (Mem × Drive) := do
  let d ← ataCommand b fuel lba 0x30#8 s.2
  let d := writeWords b s.1 buf 256 d
  let d := d.outb b .commStat 0xE7#8
  let d ← ataWaitBsy b fuel d
  .ok (s.1, d)

end Driver

/-! ## Waiting -/

/-- The drive takes commands. -/
def Drive.Idle (d : Drive) : Prop := d.phase = .ready ∨ d.phase = .failed

def Drive.Busy (d : Drive) : Prop := ∃ reads task, d.phase = .busy reads task

/-- The drive has done the task, or failed at it. -/
def Performed (b : Habits) (task : Task) (d d' : Drive) : Prop :=
  ∃ c c', d' = { (if b.fails c then { d with phase := .failed } else d.perform task) with clock := c' }

section Waiting

variable {b : Habits} {d d' : Drive} {task : Task}

theorem status_busy (h : d.Busy) : d.status b &&& 0x80#8 ≠ 0#8 := by
  obtain ⟨reads, task, hphase⟩ := h
  have hbit : ∀ v : Byte, (v ||| 0x80#8) &&& 0x80#8 ≠ 0#8 := by decide
  rw [Drive.status, hphase]
  exact hbit _

theorem status_still (h : ¬ d.Busy) : d.status b &&& 0x80#8 = 0#8 := by
  unfold Drive.status
  cases hphase : d.phase with
  | busy reads task => exact absurd ⟨reads, task, hphase⟩ h
  | _ => dsimp only; decide

theorem inStatus_still (h : ¬ d.Busy) : (d.inStatus b).2 = { d with clock := d.clock + 1 } := by
  unfold Drive.inStatus
  cases hphase : d.phase with
  | busy reads task => exact absurd ⟨reads, task, hphase⟩ h
  | _ => rfl

theorem waitBsy_still (h : ¬ d.Busy) {fuel : Nat} (hfuel : 1 ≤ fuel) :
    ataWaitBsy b fuel d = .ok { d with clock := d.clock + 1 } := by
  obtain ⟨fuel, rfl⟩ := Nat.exists_eq_add_of_le' hfuel
  have hstatus : (d.inStatus b).1 &&& 0x80#8 = 0#8 := status_still h
  rw [ataWaitBsy]
  dsimp only
  rw [if_neg (not_not.mpr hstatus), inStatus_still h]

theorem performed_not_busy (h : Performed b task d d') : ¬ d'.Busy := by
  obtain ⟨c, c', rfl⟩ := h
  rintro ⟨reads, task', hphase⟩
  split at hphase
  · cases hphase
  · cases task <;> simp only [Drive.perform] at hphase
    case store words lba left => split at hphase <;> cases hphase
    all_goals cases hphase

theorem Performed.later (h : Performed b task d d') (c : Nat) :
    Performed b task d { d' with clock := c } := by
  obtain ⟨c₀, -, rfl⟩ := h
  exact ⟨c₀, c, rfl⟩

theorem finish_performed (b : Habits) (task : Task) (d : Drive) (c : Nat) :
    Performed b task d (Drive.finish b task { d with clock := c }) := by
  refine ⟨c, c, ?_⟩
  unfold Drive.finish
  dsimp only
  split
  · rfl
  · cases task <;> rfl

/-- What is done later is done from the same sectors. -/
theorem Performed.of_phase {p : Phase} {c : Nat}
    (h : Performed b task { d with phase := p, clock := c } d') : Performed b task d d' := by
  obtain ⟨c₀, c', rfl⟩ := h
  refine ⟨c₀, c', ?_⟩
  split
  · rfl
  · cases task with
    | store words lba left => rfl
    | _ => rfl

/-- A busy drive is waited for until its task is done. -/
theorem waitBsy_busy {reads : Nat} (h : d.phase = .busy reads task) :
    ∃ d', Performed b task d d' ∧ ∀ fuel, reads + 2 ≤ fuel → ataWaitBsy b fuel d = .ok d' := by
  have hloop : ∀ fuel, ataWaitBsy b (fuel + 1) d = ataWaitBsy b fuel (d.inStatus b).2 := by
    intro fuel
    have hstatus : (d.inStatus b).1 &&& 0x80#8 ≠ 0#8 := status_busy ⟨reads, task, h⟩
    rw [ataWaitBsy]
    dsimp only
    rw [if_pos hstatus]
  induction reads generalizing d with
  | zero =>
      have hfinish : (d.inStatus b).2 = Drive.finish b task { d with clock := d.clock + 1 } := by
        simp only [Drive.inStatus, h]
      have hdone := finish_performed b task d (d.clock + 1)
      rw [← hfinish] at hdone
      refine ⟨_, hdone.later ((d.inStatus b).2.clock + 1), fun fuel hfuel => ?_⟩
      obtain ⟨fuel, rfl⟩ := Nat.exists_eq_add_of_le' (show 1 ≤ fuel by omega)
      rw [hloop]
      exact waitBsy_still (performed_not_busy hdone) (by omega)
  | succ reads ih =>
      have hnext : (d.inStatus b).2 = { d with clock := d.clock + 1, phase := .busy reads task } := by
        simp only [Drive.inStatus, h]
      obtain ⟨d', hdone, hwait⟩ := ih (d := (d.inStatus b).2) (by rw [hnext]) (by
        intro fuel
        have hbusy : (d.inStatus b).2.Busy := ⟨reads, task, by rw [hnext]⟩
        have hstatus : ((d.inStatus b).2.inStatus b).1 &&& 0x80#8 ≠ 0#8 := status_busy hbusy
        rw [ataWaitBsy]
        dsimp only
        rw [if_pos hstatus])
      rw [hnext] at hdone
      refine ⟨d', hdone.of_phase, fun fuel hfuel => ?_⟩
      obtain ⟨fuel, rfl⟩ := Nat.exists_eq_add_of_le' (show 1 ≤ fuel by omega)
      rw [hloop]
      exact hwait fuel (by omega)

theorem start_waitBsy (task : Task) (d : Drive) : ∃ d' n, Performed b task d d' ∧
    ∀ fuel, n ≤ fuel → ataWaitBsy b fuel (d.start b task) = .ok d' := by
  by_cases hwait : b.wait d.clock = 0
  · have hstart : d.start b task = Drive.finish b task { d with clock := d.clock + 1 } := if_pos hwait
    have hdone := finish_performed b task d (d.clock + 1)
    rw [hstart]
    exact ⟨_, 1, hdone.later _, fun fuel hfuel => waitBsy_still (performed_not_busy hdone) hfuel⟩
  · have hstart : d.start b task =
        { d with phase := .busy (b.wait d.clock - 1) task, clock := d.clock + 1 } := if_neg hwait
    have hphase : (d.start b task).phase = .busy (b.wait d.clock - 1) task := by rw [hstart]
    obtain ⟨d', hdone, hrun⟩ := waitBsy_busy (b := b) hphase
    rw [hstart] at hdone
    exact ⟨d', _, hdone.of_phase, hrun⟩

end Waiting

/-! ## Commands -/

section Command

variable {b : Habits} {d d' : Drive} {task : Task} {lba : BitVec 32} {cmd v : Byte} {port : Port}

theorem Drive.Idle.not_busy (h : d.Idle) : ¬ d.Busy := by
  rintro ⟨reads, task, hphase⟩
  rcases h with h | h <;> rw [h] at hphase <;> cases hphase

/-- An idle drive with its task file set. -/
theorem outb_taskFile (h : d.Idle) (r : TaskFile) :
    (((((d.outb b .drvHead r.drvHead).outb b .secCount r.secCount).outb b .lbaLo r.lbaLo).outb b
      .lbaMid r.lbaMid).outb b .lbaHi r.lbaHi) = { d with regs := r } := by
  rcases h with h | h <;> simp only [Drive.outb, h]

theorem outb_command (h : d.Idle) : d.outb b .commStat cmd = d.command b cmd := by
  rcases h with h | h <;> simp only [Drive.outb, h]

/-- The driver has the drive at work, or stops. -/
theorem ataCommand_run (h : d.Idle) (lba : BitVec 32) (cmd : Byte) (hcmd : ∀ d' : Drive, d'.regs = ataTaskFile lba →
      d'.command b cmd = d'.start b task) :
    ∃ d' n, Performed b task { d with regs := ataTaskFile lba } d' ∧
      ∀ fuel, n ≤ fuel → ataCommand b fuel lba cmd d = ataWaitDrq b fuel d' := by
  obtain ⟨d', n, hdone, hwait⟩ := start_waitBsy (b := b) task
    { d with clock := d.clock + 1, regs := ataTaskFile lba }
  refine ⟨d', n + 1, ?_, fun fuel hfuel => ?_⟩
  · exact Performed.of_phase (d := { d with regs := ataTaskFile lba }) (p := d.phase) hdone
  · have hidle : ({ d with clock := d.clock + 1 } : Drive).Idle := h
    have hset : ({ d with clock := d.clock + 1, regs := ataTaskFile lba } : Drive).Idle := h
    have hpast : ataWaitBsy b fuel d = .ok { d with clock := d.clock + 1 } :=
      waitBsy_still h.not_busy (by omega)
    unfold ataCommand
    simp only [hpast, bind, Except.bind]
    rw [outb_taskFile hidle, outb_command hset, hcmd _ rfl, hwait fuel (by omega)]

theorem command_read {d' : Drive} (h : d'.regs = ataTaskFile lba) :
    d'.command b 0x20#8 = d'.start b (.send (ataTaskFile lba).sector 0) := by
  rw [Drive.command, if_pos rfl, h]
  rfl

theorem command_write {d' : Drive} (h : d'.regs = ataTaskFile lba) :
    d'.command b 0x30#8 = d'.start b (.take (ataTaskFile lba).sector 0) := by
  rw [Drive.command, if_neg (by decide), if_pos rfl, h]
  rfl

/-- The drive asks for data, or wants to send some. -/
theorem waitDrq_data (h : (∃ ws lba left, d.phase = .sending ws lba left) ∨
      ∃ ws lba left, d.phase = .taking ws lba left) {fuel : Nat} (hfuel : 1 ≤ fuel) :
    ataWaitDrq b fuel d = .ok { d with clock := d.clock + 1 } := by
  obtain ⟨fuel, rfl⟩ := Nat.exists_eq_add_of_le' hfuel
  have hstill : ¬ d.Busy := by
    rintro ⟨reads, task, hphase⟩
    rcases h with ⟨ws, lba, left, h⟩ | ⟨ws, lba, left, h⟩ <;> rw [h] at hphase <;> cases hphase
  have hstatus : (d.inStatus b).1 = 0x58#8 := by
    show d.status b = _
    rcases h with ⟨ws, lba, left, h⟩ | ⟨ws, lba, left, h⟩ <;> rw [Drive.status, h]
  rw [ataWaitDrq]
  dsimp only
  rw [hstatus, if_neg (by decide), inStatus_still hstill]

theorem waitDrq_failed (h : d.phase = .failed) {fuel : Nat} (hfuel : 1 ≤ fuel) :
    ataWaitDrq b fuel d = .error (.panic "ATA Disk Error!") := by
  obtain ⟨fuel, rfl⟩ := Nat.exists_eq_add_of_le' hfuel
  have hstill : ¬ d.Busy := Drive.Idle.not_busy (Or.inr h)
  have hstatus : ∀ c, ({ d with clock := c } : Drive).status b = 0x51#8 := by
    intro c
    simp only [Drive.status, h]
  have hfirst : (d.inStatus b).1 = 0x51#8 := hstatus d.clock
  have hsecond : ((d.inStatus b).2.inStatus b).1 = 0x51#8 := by
    rw [inStatus_still hstill]
    exact hstatus (d.clock + 1)
  rw [ataWaitDrq]
  dsimp only
  rw [hfirst, hsecond, if_pos (by decide), if_pos (by decide)]

end Command

/-! ## 256 words -/

section Transfer

variable {b : Habits} {d : Drive} {f : Nat → Byte} {m : Mem} {buf lba n : Nat}

theorem wordsOf_drop (h : n < 256) :
    (wordsOf f).drop n = (f (2 * n + 1) ++ f (2 * n)) :: (wordsOf f).drop (n + 1) := by
  have hlen : n < (wordsOf f).length := by simpa [wordsOf] using h
  rw [List.drop_eq_getElem_cons hlen]
  simp [wordsOf]

/-- One word more in memory. -/
theorem store_word (m : Mem) (buf n : Nat) (f : Nat → Byte) :
    writeLE (store m buf (2 * n) f) (buf + 2 * n) 2 (f (2 * n + 1) ++ f (2 * n)).toNat =
      store m buf (2 * (n + 1)) f := by
  have hword : (f (2 * n + 1) ++ f (2 * n)).toNat =
      256 * (f (2 * n + 1)).toNat + (f (2 * n)).toNat := by
    rw [BitVec.toNat_append, ← Nat.shiftLeft_add_eq_or_of_lt (f (2 * n)).isLt, Nat.shiftLeft_eq]
    omega
  have hlow : BitVec.ofNat 8 (256 * (f (2 * n + 1)).toNat + (f (2 * n)).toNat) = f (2 * n) := by
    apply BitVec.eq_of_toNat_eq
    have hlt := (f (2 * n)).isLt
    rw [BitVec.toNat_ofNat]
    omega
  have hhigh : BitVec.ofNat 8 ((256 * (f (2 * n + 1)).toNat + (f (2 * n)).toNat) / 256) =
      f (2 * n + 1) := by
    apply BitVec.eq_of_toNat_eq
    have hlt := (f (2 * n)).isLt
    have hlt' := (f (2 * n + 1)).isLt
    rw [BitVec.toNat_ofNat]
    omega
  rw [hword, writeLE, writeLE, writeLE, hlow, hhigh]
  funext x
  by_cases hfirst : x = buf + 2 * n
  · rw [hfirst, Function.update_self, store, if_pos (by omega)]
    congr 1
    omega
  · rw [Function.update_of_ne hfirst]
    by_cases hsecond : x = buf + 2 * n + 1
    · rw [hsecond, Function.update_self, store, if_pos (by omega)]
      congr 1
      omega
    · rw [Function.update_of_ne hsecond, store, store]
      by_cases hin : buf ≤ x ∧ x < buf + 2 * n
      · rw [if_pos hin, if_pos (by omega)]
      · rw [if_neg hin, if_neg (by omega)]

theorem readWords_succ (buf n : Nat) (s : Mem × Drive) :
    readWords b buf (n + 1) s =
      (writeLE (readWords b buf n s).1 (buf + 2 * n) 2 ((readWords b buf n s).2.inWord b).1.toNat,
        ((readWords b buf n s).2.inWord b).2) := by
  unfold readWords
  rw [Nat.fold_succ]

/-- The words that are left after `n`. -/
theorem readWords_run (h : d.phase = .sending (wordsOf f) lba 0) (hn : n < 256) :
    readWords b buf n (m, d) =
      (store m buf (2 * n) f, { d with phase := .sending ((wordsOf f).drop n) lba 0 }) := by
  induction n with
  | zero =>
      have hnone : store m buf 0 f = m := by
        funext x
        exact store_outside (by omega)
      rw [List.drop_zero, ← h]
      exact congrArg (·, d) hnone.symm
  | succ n ih =>
      have hleft : (wordsOf f).drop (n + 1) ≠ [] := by
        rw [wordsOf_drop hn]
        exact List.cons_ne_nil _ _
      rw [readWords_succ, ih (by omega), wordsOf_drop (by omega)]
      simp only [Drive.inWord, if_pos hleft]
      rw [store_word]

/-- The whole sector. -/
theorem readWords_sector (m : Mem) (buf : Nat) (h : d.phase = .sending (wordsOf f) lba 0) :
    readWords b buf 256 (m, d) = (store m buf sectorSize f, { d with phase := .ready }) := by
  have hlast : (wordsOf f).drop 256 = [] := List.drop_eq_nil_of_le (by simp [wordsOf])
  rw [readWords_succ, readWords_run h (by decide), wordsOf_drop (by decide)]
  simp only [Drive.inWord, hlast, ne_eq, not_true_eq_false, if_false, if_true]
  rw [store_word]
  rfl

/-- The first `n` words at `buf`. -/
def wordsAt (m : Mem) (buf n : Nat) : List (BitVec 16) :=
  (List.range n).map fun i => BitVec.ofNat 16 (readLE m (buf + 2 * i) 2)

theorem wordsAt_succ (m : Mem) (buf n : Nat) :
    wordsAt m buf (n + 1) = wordsAt m buf n ++ [BitVec.ofNat 16 (readLE m (buf + 2 * n) 2)] := by
  rw [wordsAt, List.range_succ, List.map_append]
  rfl

theorem writeWords_succ (m : Mem) (buf n : Nat) (d : Drive) :
    writeWords b m buf (n + 1) d =
      (writeWords b m buf n d).outWord b (BitVec.ofNat 16 (readLE m (buf + 2 * n) 2)) := by
  unfold writeWords
  rw [Nat.fold_succ]

theorem writeWords_run (h : d.phase = .taking [] lba 0) (hn : n < 256) :
    writeWords b m buf n d = { d with phase := .taking (wordsAt m buf n) lba 0 } := by
  induction n with
  | zero =>
      show d = { d with phase := .taking [] lba 0 }
      rw [← h]
  | succ n ih =>
      have hlen : (wordsAt m buf n).length + 1 < 256 := by simpa [wordsAt] using hn
      rw [writeWords_succ, ih (by omega), wordsAt_succ]
      simp only [Drive.outWord, if_pos hlen]

/-- With the last word the drive starts to write. -/
theorem writeWords_sector (m : Mem) (buf : Nat) (h : d.phase = .taking [] lba 0) :
    writeWords b m buf 256 d = Drive.start b (.store (wordsAt m buf 256) lba 0)
      { d with phase := .taking (wordsAt m buf 255) lba 0 } := by
  have hlen : ¬ (wordsAt m buf 255).length + 1 < 256 := by simp [wordsAt]
  rw [writeWords_succ, writeWords_run h (by decide), wordsAt_succ m buf 255]
  simp only [Drive.outWord, if_neg hlen]

theorem bytesOf_wordsAt {o : Nat} (h : o < sectorSize) :
    bytesOf (wordsAt m buf 256) o = m (buf + o) := by
  have ho : o < 512 := h
  have hget : (wordsAt m buf 256).getD (o / 2) 0#16 =
      BitVec.ofNat 16 (readLE m (buf + 2 * (o / 2)) 2) := by
    rw [List.getD_eq_getElem?_getD, List.getElem?_eq_getElem (by simp [wordsAt]; omega)]
    simp [wordsAt]
  apply BitVec.eq_of_toNat_eq
  have hlow := (m (buf + 2 * (o / 2))).isLt
  have hhigh := (m (buf + 2 * (o / 2) + 1)).isLt
  rw [bytesOf, hget, BitVec.toNat_setWidth, BitVec.toNat_ushiftRight, BitVec.toNat_ofNat]
  simp only [readLE, Nat.mul_zero, Nat.add_zero]
  rcases Nat.mod_two_eq_zero_or_one o with hmod | hmod
  · rw [hmod, Nat.mul_zero, Nat.shiftRight_zero, show buf + o = buf + 2 * (o / 2) by omega]
    omega
  · rw [hmod, Nat.mul_one, Nat.shiftRight_eq_div_pow,
      show buf + o = buf + 2 * (o / 2) + 1 by omega]
    omega

end Transfer

/-! ## Sectors -/

section Sectors

variable {b : Habits} {d : Drive} {m : Mem} {lba : BitVec 32} {buf : Nat}

/-- Some step of the drive may fail. -/
def Habits.MayFail (b : Habits) : Prop := ∃ c, b.fails c = true

/-- The drive always takes some time over a task. -/
def Habits.Slow (b : Habits) : Prop := ∀ c, 0 < b.wait c

def Habits.Instant (b : Habits) : Prop := ∀ c, b.wait c = 0

theorem inStatus_fold (h : ¬ d.Busy) (n : Nat) :
    Nat.fold n (fun _ _ d => (d.inStatus b).2) d = { d with clock := d.clock + n } := by
  induction n with
  | zero => rfl
  | succ n ih =>
      have hstill : ¬ ({ d with clock := d.clock + n } : Drive).Busy := h
      rw [Nat.fold_succ, ih, inStatus_still hstill]
      rfl

/-- A sector is read, or the kernel stops. -/
theorem ataReadSector_run (h : d.Idle) (m : Mem) (lba : BitVec 32) (buf : Nat) : ∃ n,
    b.MayFail ∧ (∀ fuel, n ≤ fuel →
      ataReadSector b fuel lba buf (m, d) = .error (.panic "ATA Disk Error!")) ∨
    ∃ d', (∀ fuel, n ≤ fuel → ataReadSector b fuel lba buf (m, d) =
        .ok (store m buf sectorSize (d.sector (ataTaskFile lba).sector), d')) ∧
      d'.phase = .ready ∧ d'.sector = d.sector ∧ d'.flushed = d.flushed := by
  obtain ⟨d₁, n, ⟨c, c', hdone⟩, hcommand⟩ :=
    ataCommand_run (b := b) h lba 0x20#8 fun _ hregs => command_read hregs
  refine ⟨n + 1, ?_⟩
  by_cases hfails : b.fails c = true
  · rw [if_pos hfails] at hdone
    refine Or.inl ⟨⟨c, hfails⟩, fun fuel hfuel => ?_⟩
    simp only [ataReadSector, hcommand fuel (by omega),
      waitDrq_failed (b := b) (d := d₁) (by rw [hdone]) (show 1 ≤ fuel by omega), bind, Except.bind]
  · rw [if_neg hfails] at hdone
    have hphase : d₁.phase = .sending (wordsOf (d.sector (ataTaskFile lba).sector))
        (ataTaskFile lba).sector 0 := by
      rw [hdone]
      rfl
    refine Or.inr ⟨{ d₁ with phase := .ready, clock := d₁.clock + 1 + 4 }, fun fuel hfuel => ?_,
      rfl, ?_, ?_⟩
    · have hdrq : ataWaitDrq b fuel d₁ = .ok { d₁ with clock := d₁.clock + 1 } :=
        waitDrq_data (Or.inl ⟨_, _, _, hphase⟩) (by omega)
      have hwords := readWords_sector (b := b) (d := { d₁ with clock := d₁.clock + 1 }) m buf hphase
      simp only [ataReadSector, hcommand fuel (by omega), hdrq, hwords, bind, Except.bind]
      rw [inStatus_fold (Drive.Idle.not_busy (Or.inl rfl))]
    · rw [hdone]
      rfl
    · rw [hdone]
      rfl

/-- A drive that has done a write or failed at it takes commands. -/
theorem performed_idle {task : Task} {d' : Drive} (h : Performed b task d d')
    (htask : task = .flush ∨ ∃ words n, task = .store words n 0) : d'.Idle := by
  obtain ⟨c, c', rfl⟩ := h
  by_cases hfails : b.fails c = true
  · rw [if_pos hfails]
    exact Or.inr rfl
  · rw [if_neg hfails]
    rcases htask with rfl | ⟨words, n, rfl⟩
    · exact Or.inl rfl
    · exact Or.inl rfl

theorem performed_store {words : List (BitVec 16)} {n : Nat} {d' : Drive}
    (h : Performed b (.store words n 0) d d') : d'.flushed = d.flushed ∧
      (b.MayFail ∧ d'.sector = d.sector ∨
        d'.sector = Function.update d.sector n (bytesOf words)) := by
  obtain ⟨c, c', rfl⟩ := h
  by_cases hfails : b.fails c = true
  · rw [if_pos hfails]
    exact ⟨rfl, Or.inl ⟨⟨c, hfails⟩, rfl⟩⟩
  · rw [if_neg hfails]
    exact ⟨rfl, Or.inr rfl⟩

theorem performed_flush {d' : Drive} (h : Performed b .flush d d') : d'.sector = d.sector ∧
    (b.MayFail ∨ d'.flushed = d.sector) := by
  obtain ⟨c, c', rfl⟩ := h
  by_cases hfails : b.fails c = true
  · rw [if_pos hfails]
    exact ⟨rfl, Or.inl ⟨c, hfails⟩⟩
  · rw [if_neg hfails]
    exact ⟨rfl, Or.inr rfl⟩

/-- From the last word to the return of `ata_write_sector`. The flush is a command
like any other: a drive that is still busy with the words does not take it. -/
theorem flush_run (words : List (BitVec 16)) (n : Nat) (d : Drive) : ∃ d' k,
    (∀ fuel, k ≤ fuel →
      ataWaitBsy b fuel ((d.start b (.store words n 0)).outb b .commStat 0xE7#8) = .ok d') ∧
    d'.Idle ∧ (b.MayFail ∧ d'.sector = d.sector ∨
      d'.sector = Function.update d.sector n (bytesOf words)) ∧
    (b.Slow → d'.flushed = d.flushed) ∧ (b.Instant → ¬ b.MayFail → d'.flushed = d'.sector) := by
  by_cases hwait : b.wait d.clock = 0
  · have hstart : d.start b (.store words n 0) =
        Drive.finish b (.store words n 0) { d with clock := d.clock + 1 } := if_pos hwait
    have hstored := finish_performed b (.store words n 0) d (d.clock + 1)
    rw [← hstart] at hstored
    obtain ⟨hflush, hsector⟩ := performed_store hstored
    have hidle : (d.start b (.store words n 0)).Idle :=
      performed_idle hstored (Or.inr ⟨words, n, rfl⟩)
    obtain ⟨d', k, hflushed, hrun⟩ := start_waitBsy (b := b) .flush (d.start b (.store words n 0))
    obtain ⟨hsame, hflush'⟩ := performed_flush hflushed
    refine ⟨d', k, fun fuel hfuel => ?_, performed_idle hflushed (Or.inl rfl), ?_, ?_, ?_⟩
    · rw [outb_command hidle]
      exact hrun fuel hfuel
    · rwa [hsame]
    · intro hslow
      have hpos := hslow d.clock
      omega
    · intro _ hsound
      rw [hsame]
      exact hflush'.resolve_left hsound
  · have hstart : d.start b (.store words n 0) =
        { d with phase := .busy (b.wait d.clock - 1) (.store words n 0), clock := d.clock + 1 } :=
      if_neg hwait
    have hignored : (d.start b (.store words n 0)).outb b .commStat 0xE7#8 =
        d.start b (.store words n 0) := by
      rw [hstart]
      rfl
    obtain ⟨d', k, hstored, hrun⟩ := start_waitBsy (b := b) (.store words n 0) d
    obtain ⟨hflush, hsector⟩ := performed_store hstored
    rw [hignored]
    refine ⟨d', k, hrun, performed_idle hstored (Or.inr ⟨words, n, rfl⟩), hsector,
      fun _ => hflush, fun hinstant => ?_⟩
    exact absurd (hinstant d.clock) hwait

/-- A sector is written, or the drive fails: before the data the kernel stops, behind
it nobody looks. -/
theorem ataWriteSector_run (h : d.Idle) (m : Mem) (lba : BitVec 32) (buf : Nat) : ∃ n,
    b.MayFail ∧ (∀ fuel, n ≤ fuel →
      ataWriteSector b fuel lba buf (m, d) = .error (.panic "ATA Disk Error!")) ∨
    ∃ d', (∀ fuel, n ≤ fuel → ataWriteSector b fuel lba buf (m, d) = .ok (m, d')) ∧ d'.Idle ∧
      (b.MayFail ∧ d'.sector = d.sector ∨ d'.sector =
        Function.update d.sector (ataTaskFile lba).sector (bytesOf (wordsAt m buf 256))) ∧
      (b.Slow → d'.flushed = d.flushed) ∧ (b.Instant → ¬ b.MayFail → d'.flushed = d'.sector) := by
  obtain ⟨d₁, n, ⟨c, c', hdone⟩, hcommand⟩ :=
    ataCommand_run (b := b) h lba 0x30#8 fun _ hregs => command_write hregs
  by_cases hfails : b.fails c = true
  · rw [if_pos hfails] at hdone
    refine ⟨n + 1, Or.inl ⟨⟨c, hfails⟩, fun fuel hfuel => ?_⟩⟩
    simp only [ataWriteSector, hcommand fuel (by omega),
      waitDrq_failed (b := b) (d := d₁) (by rw [hdone]) (show 1 ≤ fuel by omega), bind, Except.bind]
  · rw [if_neg hfails] at hdone
    have hphase : d₁.phase = .taking [] (ataTaskFile lba).sector 0 := by
      rw [hdone]
      rfl
    have hwords := writeWords_sector (b := b) (d := { d₁ with clock := d₁.clock + 1 }) m buf hphase
    obtain ⟨d', k, hflush, hidle, hsector, hslow, hinstant⟩ := flush_run (b := b)
      (wordsAt m buf 256) (ataTaskFile lba).sector
      { d₁ with
        phase := .taking (wordsAt m buf 255) (ataTaskFile lba).sector 0, clock := d₁.clock + 1 }
    have hsame : d₁.sector = d.sector ∧ d₁.flushed = d.flushed := by
      rw [hdone]
      exact ⟨rfl, rfl⟩
    refine ⟨n + k + 1, Or.inr ⟨d', fun fuel hfuel => ?_, hidle, ?_, ?_, hinstant⟩⟩
    · have hdrq : ataWaitDrq b fuel d₁ = .ok { d₁ with clock := d₁.clock + 1 } :=
        waitDrq_data (Or.inr ⟨_, _, _, hphase⟩) (by omega)
      simp only [ataWriteSector, hcommand fuel (by omega), hdrq, hwords, bind, Except.bind]
      rw [hflush fuel (by omega)]
    · rw [← hsame.1]
      exact hsector
    · intro h
      exact (hslow h).trans hsame.2

end Sectors

/-! ## Clients -/

/-- A client of the driver: it moves sectors, and works on the memory in between. -/
inductive Op
  | read (lba : BitVec 32) (buf : Nat)
  | write (lba : BitVec 32) (buf : Nat)
  | compute (f : Mem → Mem)

/-- A sector number that the drive has room for. -/
def Op.Fits : Op → Prop
  | .read lba _ => lba.toNat < 2 ^ 28
  | .write lba _ => lba.toNat < 2 ^ 28
  | .compute _ => True

/-- The step on the ideal disk of the block layer. -/
def Op.ideal (s : State) : Op → State
  | .read lba buf => BlockDevice.ataReadSector s lba buf
  | .write lba buf => BlockDevice.ataWriteSector s lba buf
  | .compute f => { s with mem := f s.mem }

/-- The step through the ports. -/
def Op.pio (b : Habits) (fuel : Nat) (s : Mem × Drive) : Op → Except Halt (Mem × Drive)
  | .read lba buf => ataReadSector b fuel lba buf s
  | .write lba buf => ataWriteSector b fuel lba buf s
  | .compute f => .ok (f s.1, s.2)

def runIdeal (ops : List Op) (s : State) : State := ops.foldl Op.ideal s

def runPio (b : Habits) (fuel : Nat) : List Op → Mem × Drive → Except Halt (Mem × Drive)
  | [], s => .ok s
  | o :: ops, s => do
      let s ← o.pio b fuel s
      runPio b fuel ops s

/-- The drive is idle, and holds what the ideal disk holds. -/
structure Shadows (s : State) (m : Mem) (d : Drive) : Prop where
  mem : m = s.mem
  idle : d.Idle
  sectors : ∀ lba : BitVec 32, lba.toNat < 2 ^ 28 → ∀ o < sectorSize,
    d.sector lba.toNat o = s.disk lba o

/-- The same steps without some of the writes. -/
inductive WithoutWrites : List Op → List Op → Prop
  | nil : WithoutWrites [] []
  | same {ops ops' : List Op} (o : Op) : WithoutWrites ops ops' → WithoutWrites (o :: ops) (o :: ops')
  | lost {ops ops' : List Op} (lba : BitVec 32) (buf : Nat) : WithoutWrites ops ops' →
      WithoutWrites (.write lba buf :: ops) ops'

section Clients

variable {b : Habits} {s : State} {m : Mem} {d : Drive} {o : Op} {ops : List Op}

theorem store_congr {f g : Nat → Byte} {buf n : Nat} (h : ∀ i < n, f i = g i) :
    store m buf n f = store m buf n g := by
  funext x
  unfold store
  split
  · exact h _ (by omega)
  · rfl

/-- What one step leaves: the ideal step, or its write is lost. -/
theorem pio_step (h : Shadows s m d) (hfits : o.Fits) : ∃ n,
    b.MayFail ∧ (∀ fuel, n ≤ fuel → o.pio b fuel (m, d) = .error (.panic "ATA Disk Error!")) ∨
    ∃ m' d', (∀ fuel, n ≤ fuel → o.pio b fuel (m, d) = .ok (m', d')) ∧
      (Shadows (o.ideal s) m' d' ∨
        b.MayFail ∧ Shadows s m' d' ∧ ∃ lba buf, o = .write lba buf) ∧
      (b.Slow → d'.flushed = d.flushed) ∧
      (b.Instant → ¬ b.MayFail → d.flushed = d.sector → d'.flushed = d'.sector) := by
  obtain ⟨rfl, hidle, hsectors⟩ := h
  cases o with
  | read lba buf =>
      have hlba : (ataTaskFile lba).sector = lba.toNat := by
        rw [ataTaskFile_sector, Nat.mod_eq_of_lt hfits]
      obtain ⟨n, hpanic | ⟨d', hrun, hready, hsector, hflush⟩⟩ :=
        ataReadSector_run (b := b) hidle s.mem lba buf
      · exact ⟨n, Or.inl hpanic⟩
      · refine ⟨n, Or.inr ⟨_, d', hrun, Or.inl ⟨?_, Or.inl hready, ?_⟩, fun _ => hflush, ?_⟩⟩
        · rw [hlba]
          exact store_congr (hsectors lba hfits)
        · rw [hsector]
          exact hsectors
        · intro _ _ heq
          rw [hflush, hsector, heq]
  | write lba buf =>
      have hlba : (ataTaskFile lba).sector = lba.toNat := by
        rw [ataTaskFile_sector, Nat.mod_eq_of_lt hfits]
      obtain ⟨n, hpanic | ⟨d', hrun, hidle', hstored, hslow, hinstant⟩⟩ :=
        ataWriteSector_run (b := b) hidle s.mem lba buf
      · exact ⟨n, Or.inl hpanic⟩
      · refine ⟨n, Or.inr ⟨s.mem, d', hrun, ?_, hslow, fun hi hs _ => hinstant hi hs⟩⟩
        rcases hstored with ⟨hfail, hsector⟩ | hsector
        · refine Or.inr ⟨hfail, ⟨rfl, hidle', ?_⟩, lba, buf, rfl⟩
          rw [hsector]
          exact hsectors
        · refine Or.inl ⟨rfl, hidle', fun l hl i hi => ?_⟩
          rw [hsector, hlba]
          show _ = Function.update s.disk lba _ l i
          by_cases hsame : l = lba
          · rw [hsame, Function.update_self, Function.update_self]
            exact bytesOf_wordsAt hi
          · have hne : l.toNat ≠ lba.toNat := fun heq => hsame (BitVec.eq_of_toNat_eq heq)
            rw [Function.update_of_ne hsame, Function.update_of_ne hne]
            exact hsectors l hl i hi
  | compute f =>
      exact ⟨0, Or.inr ⟨_, d, fun _ _ => rfl, Or.inl ⟨rfl, hidle, hsectors⟩, fun _ => rfl,
        fun _ _ heq => heq⟩⟩

theorem runPio_run (h : Shadows s m d) (hfits : ∀ o ∈ ops, o.Fits) : ∃ n,
    b.MayFail ∧ (∀ fuel, n ≤ fuel → runPio b fuel ops (m, d) = .error (.panic "ATA Disk Error!")) ∨
    ∃ kept m' d', (∀ fuel, n ≤ fuel → runPio b fuel ops (m, d) = .ok (m', d')) ∧
      WithoutWrites ops kept ∧ (¬ b.MayFail → kept = ops) ∧ Shadows (runIdeal kept s) m' d' ∧
      (b.Slow → d'.flushed = d.flushed) ∧
      (b.Instant → ¬ b.MayFail → d.flushed = d.sector → d'.flushed = d'.sector) := by
  induction ops generalizing s m d with
  | nil =>
      exact ⟨0, Or.inr ⟨[], m, d, fun _ _ => rfl, .nil, fun _ => rfl, h, fun _ => rfl,
        fun _ _ heq => heq⟩⟩
  | cons o ops ih =>
      obtain ⟨n, ⟨hfail, hpanic⟩ | ⟨m₁, d₁, hstep, hshadows, hslow, hinstant⟩⟩ :=
        pio_step (b := b) h (hfits o List.mem_cons_self)
      · refine ⟨n, Or.inl ⟨hfail, fun fuel hfuel => ?_⟩⟩
        simp only [runPio, hpanic fuel hfuel, bind, Except.bind]
      · have hrest : ∀ o ∈ ops, o.Fits := fun o ho => hfits o (List.mem_cons_of_mem _ ho)
        have hcons : ∀ fuel, n ≤ fuel → runPio b fuel (o :: ops) (m, d) = runPio b fuel ops (m₁, d₁) := by
          intro fuel hfuel
          simp only [runPio, hstep fuel hfuel, bind, Except.bind]
        obtain ⟨s₁, hs₁, hkept⟩ : ∃ s₁, Shadows s₁ m₁ d₁ ∧ ∀ kept, WithoutWrites ops kept →
            ∃ kept', WithoutWrites (o :: ops) kept' ∧ runIdeal kept' s = runIdeal kept s₁ ∧
              (¬ b.MayFail → kept = ops → kept' = o :: ops) := by
          rcases hshadows with hideal | ⟨hfail, hsame, lba, buf, rfl⟩
          · exact ⟨_, hideal, fun kept hw => ⟨o :: kept, .same o hw, rfl, fun _ heq => by rw [heq]⟩⟩
          · exact ⟨s, hsame, fun kept hw => ⟨kept, .lost lba buf hw, rfl, fun hs => absurd hfail hs⟩⟩
        obtain ⟨n', ⟨hfail, hpanic⟩ | ⟨kept, m', d', hrun, hw, hall, hend, hslow', hinstant'⟩⟩ :=
          ih hs₁ hrest
        · refine ⟨n + n', Or.inl ⟨hfail, fun fuel hfuel => ?_⟩⟩
          rw [hcons fuel (by omega)]
          exact hpanic fuel (by omega)
        · obtain ⟨kept', hw', hsame, hall'⟩ := hkept kept hw
          refine ⟨n + n', Or.inr ⟨kept', m', d', fun fuel hfuel => ?_, hw',
            fun hs => hall' hs (hall hs), ?_, fun hs => (hslow' hs).trans (hslow hs),
            fun hi hs heq => hinstant' hi hs (hinstant hi hs heq)⟩⟩
          · rw [hcons fuel (by omega)]
            exact hrun fuel (by omega)
          · rw [hsame]
            exact hend

end Clients

/-- **The driver makes an ideal disk of the drive.** However long the drive takes for its
steps, every client comes to the memory and the sectors it comes to on the ideal disk of
the block layer. A drive that fails stops the kernel, or loses writes without notice. -/
theorem pio_disk {b : Habits} {s : State} {m : Mem} {d : Drive} {ops : List Op}
    (h : Shadows s m d) (hfits : ∀ o ∈ ops, o.Fits) : ∃ n,
    b.MayFail ∧ (∀ fuel, n ≤ fuel → runPio b fuel ops (m, d) = .error (.panic "ATA Disk Error!")) ∨
    ∃ kept d', (∀ fuel, n ≤ fuel →
        runPio b fuel ops (m, d) = .ok ((runIdeal kept s).mem, d')) ∧
      WithoutWrites ops kept ∧ (¬ b.MayFail → kept = ops) ∧
      Shadows (runIdeal kept s) (runIdeal kept s).mem d' := by
  obtain ⟨n, hpanic | ⟨kept, m', d', hrun, hw, hall, hend, -⟩⟩ := runPio_run (b := b) h hfits
  · exact ⟨n, Or.inl hpanic⟩
  · obtain rfl := hend.mem
    exact ⟨n, Or.inr ⟨kept, d', hrun, hw, hall, hend⟩⟩

/-- A drive that is busy for three reads of the status register each time, with its data
request bit on. -/
def slowHabits : Habits where
  wait := fun _ => 3
  noise := fun _ => 0x08#8
  fails := fun _ => false

def emptyDrive : Drive where
  regs := { drvHead := 0#8, secCount := 0#8, lbaLo := 0#8, lbaMid := 0#8, lbaHi := 0#8 }
  phase := .ready
  sector := fun _ _ => 0#8
  flushed := fun _ _ => 0#8
  clock := 0

/-- An empty disk, and memory with `7` everywhere. -/
def sevensState : State where
  mem := fun _ => 7#8
  buffers := fun _ => {}
  mostRecentBuffer := 0
  kernelTicks := 0#64
  disk := fun _ _ => 0#8
  serialLog := []

theorem shadows_empty : Shadows sevensState sevensState.mem emptyDrive where
  mem := rfl
  idle := Or.inl rfl
  sectors := fun _ _ _ _ => rfl

/-- Sector 5 is written, and read into another place. -/
def sevensOps : List Op := [.write 5#32 0, .compute fun _ _ => 0#8, .read 5#32 4096]

theorem fits_sevensOps : ∀ o ∈ sevensOps, o.Fits := by
  intro o ho
  simp only [sevensOps, List.mem_cons, List.not_mem_nil, or_false] at ho
  rcases ho with rfl | rfl | rfl
  · exact (by decide : (5#32).toNat < 2 ^ 28)
  · exact trivial
  · exact (by decide : (5#32).toNat < 2 ^ 28)

theorem pio_disk_sevens : ∃ n d', ∀ fuel, n ≤ fuel →
    runPio slowHabits fuel sevensOps (sevensState.mem, emptyDrive) =
      .ok ((runIdeal sevensOps sevensState).mem, d') := by
  have hsound : ¬ slowHabits.MayFail := by
    rintro ⟨c, hc⟩
    cases hc
  obtain ⟨n, ⟨hfail, -⟩ | ⟨kept, d', hrun, -, hall, -⟩⟩ :=
    pio_disk (b := slowHabits) shadows_empty fits_sevensOps
  · exact absurd hfail hsound
  · obtain rfl := hall hsound
    exact ⟨n, d', hrun⟩

/-- **The flush comes too early.** `ata_write_sector` sends it when the drive has just
got the last word. A drive that takes any time over a sector ignores it, and no flush
is ever carried out; a drive that takes none has flushed all that was written. -/
theorem flush_too_early {b : Habits} {s : State} {m : Mem} {d : Drive} {ops : List Op}
    (h : Shadows s m d) (hfits : ∀ o ∈ ops, o.Fits) : ∃ n, ∀ fuel m' d', n ≤ fuel →
    runPio b fuel ops (m, d) = .ok (m', d') →
      (b.Slow → d'.flushed = d.flushed) ∧
      (b.Instant → ¬ b.MayFail → d.flushed = d.sector → d'.flushed = d'.sector) := by
  obtain ⟨n, ⟨-, hpanic⟩ | ⟨kept, m₁, d₁, hrun, -, -, -, hslow, hinstant⟩⟩ :=
    runPio_run (b := b) h hfits
  · refine ⟨n, fun fuel m' d' hfuel hok => ?_⟩
    rw [hpanic fuel hfuel] at hok
    cases hok
  · refine ⟨n, fun fuel m' d' hfuel hok => ?_⟩
    rw [hrun fuel hfuel] at hok
    cases hok
    exact ⟨hslow, hinstant⟩

theorem flush_too_early_sevens : ∃ n, ∀ fuel m' d', n ≤ fuel →
    runPio slowHabits fuel sevensOps (sevensState.mem, emptyDrive) = .ok (m', d') →
      d'.flushed = emptyDrive.flushed := by
  obtain ⟨n, h⟩ := flush_too_early (b := slowHabits) shadows_empty fits_sevensOps
  exact ⟨n, fun fuel m' d' hfuel hok => (h fuel m' d' hfuel hok).1 fun _ => Nat.zero_lt_succ 2⟩

end VectorForth.Ata
