import VectorForth.Vm.Words

/-!
# The machine

The interpreter as a small-step machine. The C call stack is explicit: a frame
records which function is active and where it goes on. One step runs one
iteration of the loop of the top frame, or one native word. The tasks of
`task.c` form a ring, each with its own C stack; the data of the virtual
machine, the return stack and the instruction pointer are shared by all.
-/

namespace VectorForth.Forth

open ByteMemory

/-- The virtual machine, the C stack of the running task, and the keyboard. -/
structure Machine where
  vm : Vm
  frames : List Frame
  kbd : Text
  inputBuffer : Text

def Machine.setData (m : Machine) (d : Data) : Machine := { m with vm := { m.vm with data := d } }

def Machine.puts (m : Machine) (t : Text) : Machine := m.setData (m.vm.data.puts t)

def Machine.push (m : Machine) (f : Frame) : Machine := { m with frames := f :: m.frames }

/-! ## Tasks -/

def taskState (tasks : List Task) (i : Nat) : TaskState :=
  (tasks[i]?.map Task.state).getD .dead

/-- The search loop of `yield`. -/
def findReady (tasks : List Task) (current : Nat) : Nat → Nat → Nat
  | 0, next => next
  | fuel + 1, next =>
      if taskState tasks next ≠ .ready ∧ next ≠ current then
        if taskState tasks next = .running then next
        else findReady tasks current fuel ((next + 1) % tasks.length)
      else next

def setState (state : TaskState) (t : Task) : Task := { t with state := state }

/-- Where `yield` goes; before `scheduler_init` there is no task to leave. -/
def nextTask (d : Data) : Nat :=
  if d.tasks = [] then d.current
  else findReady d.tasks d.current d.tasks.length ((d.current + 1) % d.tasks.length)

/-- A switch from `current` to `next`, saving the C stack `frames`. -/
def switchTasks (tasks : List Task) (current next : Nat) (frames : List Frame) : List Task :=
  let leave : Task → Task := fun t =>
    { t with
      state := if t.state = .running then .ready else t.state
      frames := frames }
  (tasks.modify current leave).modify next (setState .running)

/-- `yield`: the C stack of the caller is what is left of `m.frames`. -/
def yield (m : Machine) : Machine :=
  let d := m.vm.data
  let next := nextTask d
  if next ≠ d.current then
    { m.setData { d with
        tasks := switchTasks d.tasks d.current next m.frames
        current := next } with
      frames := (d.tasks[next]?.map Task.frames).getD [] }
  else m

/-! ## Native words on the return stack and the instruction pointer -/

def doLiteral (vm : Vm) : Vm :=
  let (v, vm) := vm.ipFetchAdvance
  { vm with data := vm.data.dsPush v }

def rtBranch (vm : Vm) : Vm :=
  let (t, vm) := vm.ipFetchAdvance
  { vm with ip := t }

def rt0branch (vm : Vm) : Vm :=
  let (t, vm) := vm.ipFetchAdvance
  let (v, d) := vm.data.dsPop
  if v = 0#64 then { vm with data := d, ip := t } else { vm with data := d }

def rtDo (vm : Vm) : Vm :=
  let (i, d) := vm.data.dsPop
  let (limit, d) := d.dsPop
  (({ vm with data := d } : Vm).rsPush limit).rsPush i

def rtLoop (vm : Vm) : Vm :=
  let (t, vm) := vm.ipFetchAdvance
  let (i, vm) := vm.rsPop
  let limit := vm.rsPeek
  let i := i + 1#64
  if i.slt limit then { vm.rsPush i with ip := t } else vm.rsPop.2

def wToR (vm : Vm) : Vm :=
  let (v, d) := vm.data.dsPop
  ({ vm with data := d } : Vm).rsPush v

def wFromR (vm : Vm) : Vm :=
  let (v, vm) := vm.rsPop
  { vm with data := vm.data.dsPush v }

/-- `w_r_fetch` and `w_i`. -/
def wRFetch (vm : Vm) : Vm := { vm with data := vm.data.dsPush vm.rsPeek }

def vmWord : CFun → Option (Vm → Vm)
  | .doLiteral => some doLiteral
  | .rtBranch => some rtBranch
  | .rt0branch => some rt0branch
  | .rtDo => some rtDo
  | .rtLoop => some rtLoop
  | .wToR => some wToR
  | .wFromR => some wFromR
  | .wRFetch => some wRFetch
  | .wI => some wRFetch
  | _ => none

/-! ## Native words that call back into the interpreter or the scheduler -/

section Step

variable (img : Image)

/-- The text of a block as `w_load` copies it. -/
def blockText (m : Mem) (data : Nat) : Text :=
  (List.range BlockDevice.blockDataSize).map fun i =>
    if m (data + i) < 32#8 ∨ 126#8 < m (data + i) then chr ' ' else m (data + i)

def wLoad (m : Machine) : Machine :=
  let (v, d) := m.vm.data.dsPop
  let blkNum := v.setWidth 32
  let (s, blk) := BlockDevice.blockGet img.buffers d.toState blkNum
  let d := { d with toState := s }
  let savedPtr := d.parsePtr
  let d := d.puts (text "\n[Loading Block " ++ itoa blkNum 10 ++ text "...]\n")
  let d := { d with parsePtr := blockText d.mem (blk + BlockDevice.dataField) }
  ((m.setData d).push (.load savedPtr)).push .eval

def wExecute (m : Machine) : Machine :=
  let (xt, d) := m.vm.data.dsPop
  (m.setData d).push (.execute xt)

def wEdit (m : Machine) : Machine :=
  let (v, d) := m.vm.data.dsPop
  let blockNum := v.setWidth 32
  let (s, blk) := BlockDevice.blockGet img.buffers d.toState blockNum
  (m.setData { d with toState := s }).push (.editor blk blockNum 0)

/-- Call the C function `f`, which returns to `m.frames`. -/
def callNative (f : CFun) (m : Machine) : Option Machine :=
  match dataWord img f with
  | some w => (w.run m.vm.data).map fun r => m.setData r.2
  | none =>
      match vmWord f with
      | some w => some { m with vm := w m.vm }
      | none =>
          match f with
          | .wExecute => some (wExecute m)
          | .wLoad => some (wLoad img m)
          | .wYield => some (yield m)
          | .wEdit => some (wEdit img m)
          | _ => some m

/-! ## The interpreters -/

/-- The dispatch on a code field, after its colon case. A code field that is no
function of the image is a jump into the void. -/
def callCode (code entry : Cell) (m : Machine) : Option Machine :=
  if code = img.addr .doVariable then
    some (m.setData (m.vm.data.dsPush (dictGetParamField m.vm.data.mem entry)))
  else if code = img.addr .doConstant then
    some (m.setData
      (m.vm.data.dsPush (cellAt m.vm.data.mem (dictGetParamField m.vm.data.mem entry))))
  else
    match img.decode code with
    | some f => callNative img f m
    | none => none

/-- Save `ip` and go to the parameter field. -/
def enterColon (entry : Cell) (vm : Vm) : Vm :=
  { vm.rsPush vm.ip with ip := dictGetParamField vm.data.mem entry }

/-- `forth_execute(entry)`, returning to `m.frames`. -/
def forthExecute (entry : Cell) (m : Machine) : Option Machine :=
  let code := cellAt m.vm.data.mem (dictGetCodeField m.vm.data.mem entry)
  if code = img.addr .doColon then
    some (({ m with vm := enterColon entry m.vm } : Machine).push .inner)
  else callCode img code entry m

/-- One iteration of `forth_inner`. `rest` is the C stack below it. -/
def forthInner (rest : List Frame) (m : Machine) : Option Machine :=
  let (cell, vm) := m.vm.ipFetchAdvance
  if cell = sentinelExit then
    let (savedIp, vm) := vm.rsPop
    let m := { m with vm := { vm with ip := savedIp } }
    if savedIp = 0#64 then some { m with frames := rest } else some m
  else if cell = img.addr .doLiteral then
    let (v, vm) := vm.ipFetchAdvance
    some { m with vm := { vm with data := vm.data.dsPush v } }
  else if ¬ InDict cell then
    some { ({ m with vm := vm } : Machine).puts (text " Invalid word address!\n") with
      frames := rest }
  else
    let code := cellAt vm.data.mem (dictGetCodeField vm.data.mem cell)
    if code = img.addr .doColon then some { m with vm := enterColon cell vm }
    else callCode img code cell { m with vm := vm }

/-- One token of `forth_eval`. -/
def forthEval (rest : List Frame) (m : Machine) : Option Machine :=
  let (token, parsePtr) := nextWord 64 m.vm.data.parsePtr
  let d := { m.vm.data with parsePtr := parsePtr }
  let compiling := d.forthState = .compile
  if token = [] then
    let d := if compiling then d else d.puts (text " ok\n")
    some { m.setData d with frames := rest }
  else
    match dictFind d token with
    | none => none
    | some entry =>
        if entry ≠ 0#64 then
          if compiling ∧ dictGetFlags d.mem entry &&& fImmediate = 0#8 then
            some (m.setData (d.dictComma entry))
          else some ((m.setData d).push (.execute entry))
        else
          match tryParseNumber d.forthBase token with
          | some num =>
              if compiling then
                some (m.setData ((d.dictComma (img.addr .doLiteral)).dictComma num))
              else some (m.setData (d.dsPush num))
          | none =>
              let d := d.puts (token ++ text " ? Unknown word\n")
              some { m.setData { d with forthState := .interpret } with frames := rest }

/-! ## The editor and the prompt -/

def editorScreen (m : Mem) (blk : Nat) (blockNum : BitVec 32) : Text :=
  text "=== VECTOR FORTH BLOCK EDITOR === [Block " ++ itoa blockNum 10 ++
    text "] === (Press ESC to Save/Exit) ===\n" ++
    (List.range 960).flatMap fun i =>
      let c := m (blk + BlockDevice.dataField + i)
      let shown := if c < 32#8 ∨ 126#8 < c then chr '.' else c
      if i % 64 = 0 ∧ i ≠ 0 then [chr '\n', shown] else [shown]

/-- The effect of a key on the block and the cursor. -/
def editorStroke (key : Byte) (data cursor : Nat) (m : Mem) : Mem × Nat :=
  if key = chr '\x08' then
    if cursor > 0 then (write8 m (data + (cursor - 1)) 0#8, cursor - 1) else (m, cursor)
  else if key = chr '\n' then
    let cursor := (cursor / 64 + 1) * 64
    (m, if cursor ≥ 960 then 959 else cursor)
  else if 32#8 ≤ key ∧ key ≤ 126#8 then
    (write8 m (data + cursor) key, if cursor < 959 then cursor + 1 else cursor)
  else (m, cursor)

/-- `run_editor` once a key is there. -/
def editorKey (rest : List Frame) (blk : Nat) (blockNum : BitVec 32) (cursor : Nat) (key : Byte)
    (m : Machine) : Machine :=
  let d := m.vm.data
  if key = 27#8 then
    let s := BlockDevice.blockFlush img.buffers (BlockDevice.blockUpdate d.toState)
    { m.setData { d with toState := s, output := d.output ++ [Out.clear] } with
      frames := rest }
  else
    let (mem, cursor) := editorStroke key (blk + BlockDevice.dataField) cursor d.mem
    { m.setData { d with mem := mem } with frames := .editor blk blockNum cursor :: rest }

/-- `forth_run` on one character. -/
def replKey (rest : List Frame) (c : Byte) (m : Machine) : Machine :=
  if c = chr '\n' then
    let m := m.puts [chr '\n']
    if m.inputBuffer ≠ [] then
      { m.setData { m.vm.data with parsePtr := m.inputBuffer } with
        frames := .eval :: .prompt :: .repl :: rest }
    else { m with frames := .prompt :: .repl :: rest }
  else if c = chr '\x08' then
    if m.inputBuffer ≠ [] then
      { m.puts [chr '\x08', chr ' ', chr '\x08'] with inputBuffer := m.inputBuffer.dropLast }
    else m
  else if 32#8 ≤ c ∧ c < 128#8 ∧ m.inputBuffer.length < 255 then
    { m.puts [c] with inputBuffer := m.inputBuffer ++ [c] }
  else m

/-! ## One step -/

/-- One step of the running task; `none` when it has nothing left to do, when a
native word does not return, or on a wild jump. -/
def step (m : Machine) : Option Machine :=
  match m.frames with
  | [] => none
  | .execute entry :: rest => forthExecute img entry { m with frames := rest }
  | .inner :: rest => forthInner img rest m
  | .eval :: rest => forthEval img rest m
  | .load savedPtr :: rest =>
      some { m.setData { m.vm.data with parsePtr := savedPtr } with frames := rest }
  | .editor blk blockNum cursor :: rest =>
      let d := { m.vm.data with output := m.vm.data.output ++ [Out.clear] }
      some { m.setData (d.puts (editorScreen d.mem blk blockNum)) with
        frames := .editorKey blk blockNum cursor :: rest }
  | .editorKey blk blockNum cursor :: rest =>
      match m.kbd with
      | [] => some (yield m)
      | key :: kbd => some (editorKey img rest blk blockNum cursor key { m with kbd := kbd })
  | .wrapper :: rest =>
      let xt := m.vm.data.forkTargetXt
      some { m with frames := if xt ≠ 0#64 then .execute xt :: rest else rest }
  | .taskExit :: rest =>
      let d := m.vm.data
      some (yield { m.setData { d with tasks := d.tasks.modify d.current (setState .dead) } with
        frames := .halt :: rest })
  | .halt :: _ => some m
  | .worker :: _ => some (yield m)
  | .repl :: rest =>
      match m.kbd with
      | [] => some (yield m)
      | c :: kbd => some (replKey rest c { m with kbd := kbd })
  | .prompt :: rest =>
      let prompt := if m.vm.data.forthState = .compile then "| " else "> "
      some { m.puts (text prompt) with frames := rest, inputBuffer := [] }

/-- `n` steps. -/
def steps : Nat → Machine → Option Machine
  | 0, m => some m
  | n + 1, m => (step img m).bind (steps n)

end Step

end VectorForth.Forth
