import VectorForth.Kernel.Modifiers
import VectorForth.Vm.Fork

/-!
# Lines at the prompt

The keys that are typed go through three parts of the kernel: the handler of IRQ1
decodes them and puts them into the ring, `forth_run` and the block editor take
them out with `keyboard_available` and `keyboard_getchar`, and `forth_run` makes
lines of them for `forth_eval`. Here the three run together: the other tasks take
their turns in between, and an interrupt may come between any two accesses to the
ring. The lines that are evaluated are the lines that were typed.
-/

namespace VectorForth.Forth

open ByteMemory LabelledRun

/-! ## Editing a line -/

/-- The line after a key, with the line `typed` before. -/
def editLine (typed : Text) (c : Byte) : Text :=
  if c = chr '\n' then []
  else if c = chr '\x08' then typed.dropLast
  else if 32#8 ≤ c ∧ c < 128#8 ∧ typed.length < 255 then typed ++ [c]
  else typed

/-- The line that a key completes. An empty one is not evaluated. -/
def lineBy (typed : Text) (c : Byte) : Option Text :=
  if c = chr '\n' ∧ typed ≠ [] then some typed else none

/-- The lines that are complete after some keys. -/
def linesOf : Text → List Byte → List Text
  | _, [] => []
  | typed, c :: cs => (lineBy typed c).toList ++ linesOf (editLine typed c) cs

/-- The line that is left. -/
def lineAfter (typed : Text) (cs : List Byte) : Text := cs.foldl editLine typed

theorem linesOf_append (typed : Text) (cs : List Byte) (c : Byte) :
    linesOf typed (cs ++ [c]) = linesOf typed cs ++ (lineBy (lineAfter typed cs) c).toList := by
  induction cs generalizing typed with
  | nil => exact List.append_nil _
  | cons d cs ih =>
      simp only [List.cons_append, linesOf, ih, List.append_assoc]
      rfl

theorem lineAfter_append (typed : Text) (cs : List Byte) (c : Byte) :
    lineAfter typed (cs ++ [c]) = editLine (lineAfter typed cs) c := by
  rw [lineAfter, List.foldl_append]
  rfl

/-! ## The machine with its keyboard -/

/-- The frame on top waits for a key. -/
def Machine.polls (m : Machine) : Bool :=
  match m.frames with
  | .repl :: _ => true
  | .editorKey _ _ _ :: _ => true
  | _ => false

/-- The driver with its reader, and the machine. -/
structure Session where
  keyboard : Keyboard.System
  machine : Machine

/-- The scancode gives a key, and the ring has no room for it. -/
def dropsKey (k : Keyboard.System) (scancode : Byte) : Bool :=
  !decide k.driver.queue.HasRoom &&
    (Keyboard.decodeScancode scancode k.driver.modifiers).2.isSome

/-- What happens in a step. -/
inductive Event
  /-- IRQ1, and whether its key is lost. -/
  | irq (scancode : Byte) (lost : Bool)
  /-- The machine works, or the reader makes one access. -/
  | work
  /-- `forth_run` takes a key, and hands over a line. -/
  | typed (c : Byte) (line : Option Text)
  /-- The block editor takes a key. -/
  | edited (c : Byte)

/-- The step from `m` to `m'` took the key `c`. -/
def keyEvent (m : Machine) (c : Byte) (m' : Machine) : Event :=
  match m.frames with
  | .repl :: _ =>
      .typed c (match m'.frames with
        | .eval :: _ => some m'.vm.data.parsePtr
        | _ => none)
  | _ => .edited c

/-- One step. The two callers of the driver call `keyboard_getchar` when
`keyboard_available` has found a key, and give the turn away when it has not. -/
inductive SessionStep (img : Image) : Session → Event → Session → Prop
  | irq (s : Session) (scancode : Byte) :
      SessionStep img s (.irq scancode (dropsKey s.keyboard scancode))
        { s with keyboard := s.keyboard.interrupt scancode }
  | work {s : Session} {m : Machine} : s.keyboard.place = .idle → s.machine.polls = false →
      step img s.machine = some m → SessionStep img s .work { s with machine := m }
  | poll {s : Session} {k : Keyboard.System} : s.machine.polls = true →
      Keyboard.Step s.keyboard (.call .keyboardAvailable) k →
      SessionStep img s .work { s with keyboard := k }
  | access {s : Session} {k : Keyboard.System} :
      (∀ result, s.keyboard.place ≠ .available result) → (∀ c, s.keyboard.place ≠ .return_ c) →
      Keyboard.Step s.keyboard .access k → SessionStep img s .work { s with keyboard := k }
  | ready {s : Session} {k k' : Keyboard.System} : s.keyboard.place = .available true →
      Keyboard.Step s.keyboard .access k → Keyboard.Step k (.call .keyboardGetchar) k' →
      SessionStep img s .work { s with keyboard := k' }
  | empty {s : Session} {k : Keyboard.System} {m : Machine} :
      s.keyboard.place = .available false → Keyboard.Step s.keyboard .access k →
      step img { s.machine with kbd := [] } = some m → SessionStep img s .work ⟨k, m⟩
  | key {s : Session} {k : Keyboard.System} {m : Machine} {c : Byte} :
      s.keyboard.place = .return_ c → Keyboard.Step s.keyboard .access k →
      step img { s.machine with kbd := [c] } = some m →
      SessionStep img s (keyEvent s.machine c m) ⟨k, m⟩

def Event.scancode : Event → Option Byte
  | .irq scancode _ => some scancode
  | _ => none

/-- The key that was taken. -/
def Event.taken : Event → Option Byte
  | .typed c _ => some c
  | .edited c => some c
  | _ => none

/-- The same, where it was `forth_run` that took it. -/
def Event.key : Event → Option Byte
  | .typed c _ => some c
  | _ => none

def Event.line : Event → Option Text
  | .typed _ line => line
  | _ => none

/-- The codes that the keyboard sent. -/
def scancodes (es : List Event) : List Byte := es.filterMap Event.scancode

/-- The keys that were taken. -/
def keysTaken (es : List Event) : List Byte := es.filterMap Event.taken

/-- The keys that `forth_run` took. -/
def keysTyped (es : List Event) : List Byte := es.filterMap Event.key

/-- The lines that it handed to `forth_eval`. -/
def linesEvaluated (es : List Event) : List Text := es.filterMap Event.line

/-- No key is lost to a full ring. -/
def KeepsUp (es : List Event) : Prop := ∀ scancode, .irq scancode true ∉ es

/-! ## The frames of `forth_run` -/

def Frame.console : Frame → Bool
  | .repl | .prompt => true
  | _ => false

/-- The part of a C stack that belongs to `forth_run`. -/
def consoleOf (F : List Frame) : List Frame := F.filter Frame.console

/-- The task `r` runs `forth_run`, no other does, and `typed` is the line so far:
the part of it in `input_buffer` that counts. -/
structure Prompting (r : Nat) (typed : Text) (m : Machine) : Prop where
  current : m.vm.data.current < m.vm.data.tasks.length
  task : r < m.vm.data.tasks.length
  others : ∀ i, i < m.vm.data.tasks.length → i ≠ r → consoleOf (framesOf m i) = []
  line : consoleOf (framesOf m r) = [.repl] ∧ m.inputBuffer = typed ∨
    -- `forth_eval` is at work, or the prompt has still to be printed
    consoleOf (framesOf m r) = [.prompt, .repl] ∧ typed = []

/-- The step to `m'` leaves the line, and the frames of `forth_run` in the task that runs. -/
def Aside (m m' : Machine) : Prop :=
  ∃ m₁, m₁.vm.data.current = m.vm.data.current ∧ consoleOf m₁.frames = consoleOf m.frames ∧
    m₁.inputBuffer = m.inputBuffer ∧ (m' = m₁ ∨ m' = yield m₁)

section Steps

variable {img : Image} {m m' : Machine} {rest : List Frame} {f : CFun} {w : NativeM Unit}
  {d d' : Data} {code entry : Cell} {r : Nat} {typed : Text} {c : Byte}

theorem Aside.of (hcur : m'.vm.data.current = m.vm.data.current)
    (hframes : consoleOf m'.frames = consoleOf m.frames) (hline : m'.inputBuffer = m.inputBuffer) :
    Aside m m' := ⟨m', hcur, hframes, hline, Or.inl rfl⟩

theorem Aside.yield (m : Machine) : Aside m (yield m) := ⟨m, rfl, rfl, rfl, Or.inr rfl⟩

theorem current_word (hf : dataWord img f = some w) (hrun : w.run d = some ((), d')) :
    d'.current = d.current := by
  by_cases hfork : f = .wFork
  · subst hfork
    cases hf
    obtain ⟨d₁, hrun₁, -, hcur, -⟩ := wFork_run d
    rw [hrun₁] at hrun
    cases hrun
    exact hcur
  · exact (sameTasks_word hf hfork d () d' hrun).2.1

theorem callNative_aside (h : callNative img f m = some m') : Aside m m' := by
  unfold callNative at h
  split at h
  · rename_i w hw
    obtain ⟨⟨u, d'⟩, hrun, rfl⟩ := Option.map_eq_some_iff.mp h
    exact .of (current_word hw hrun) rfl rfl
  · split at h
    · rename_i w hw
      cases h
      exact .of (quiet_vmWord hw m.vm).sameTasks.2.1 rfl rfl
    · have hpop : m.vm.data.dsPop.2.current = m.vm.data.current := (quiet_dsPop _).sameTasks.2.1
      split at h <;> cases h
      · exact .of hpop rfl rfl
      · exact .of hpop rfl rfl
      · exact .yield m
      · exact .of hpop rfl rfl
      · exact .of rfl rfl rfl

theorem callCode_aside (h : callCode img code entry m = some m') : Aside m m' := by
  unfold callCode at h
  split at h
  · cases h
    exact .of (quiet_dsPush _ _).sameTasks.2.1 rfl rfl
  · split at h
    · cases h
      exact .of (quiet_dsPush _ _).sameTasks.2.1 rfl rfl
    · split at h
      · exact callNative_aside h
      · cases h

theorem forthInner_aside (hf : m.frames = .inner :: rest) (h : forthInner img rest m = some m') :
    Aside m m' := by
  have hrest : consoleOf rest = consoleOf m.frames := by
    rw [hf]
    rfl
  have hpop : ∀ vm : Vm, vm.rsPop.2.data.current = vm.data.current :=
    fun vm => (quiet_rsPop vm).sameTasks.2.1
  unfold forthInner at h
  dsimp only at h
  split at h
  · split at h <;> cases h
    · exact .of (hpop _) hrest rfl
    · exact .of (hpop _) rfl rfl
  · split at h
    · cases h
      exact .of (quiet_dsPush _ _).sameTasks.2.1 rfl rfl
    · split at h
      · cases h
        exact .of rfl hrest rfl
      · split at h
        · cases h
          exact .of (quiet_rsPush _ _).sameTasks.2.1 rfl rfl
        · obtain ⟨m₁, hcur, hframes, hline, hm⟩ := callCode_aside h
          exact ⟨m₁, hcur, hframes, hline, hm⟩

theorem forthEval_aside (hf : m.frames = .eval :: rest) (h : forthEval img rest m = some m') :
    Aside m m' := by
  have hrest : consoleOf rest = consoleOf m.frames := by
    rw [hf]
    rfl
  unfold forthEval at h
  dsimp only at h
  split at h
  · cases h
    refine .of ?_ hrest rfl
    dsimp only [Machine.setData]
    split <;> rfl
  · split at h
    · cases h
    · split at h
      · split at h <;> cases h
        · exact .of rfl rfl rfl
        · exact .of rfl rfl rfl
      · split at h
        · split at h <;> cases h
          · exact .of rfl rfl rfl
          · exact .of (quiet_dsPush _ _).sameTasks.2.1 rfl rfl
        · cases h
          exact .of rfl hrest rfl

/-- What a step does to the console when it is not one of `forth_run`. -/
theorem step_aside (h : step img m = some m') (hprompt : ∀ rest, m.frames ≠ .prompt :: rest)
    (hrepl : ∀ rest, m.frames = .repl :: rest → m.kbd = []) : Aside m m' := by
  unfold step at h
  split at h
  · cases h
  · rename_i entry rest hf
    have hrest : consoleOf rest = consoleOf m.frames := by
      rw [hf]
      rfl
    unfold forthExecute at h
    dsimp only at h
    split at h
    · cases h
      exact .of (quiet_rsPush _ _).sameTasks.2.1 hrest rfl
    · obtain ⟨m₁, hcur, hframes, hline, hm⟩ := callCode_aside h
      exact ⟨m₁, hcur, hframes.trans hrest, hline, hm⟩
  · rename_i hf
    exact forthInner_aside hf h
  · rename_i hf
    exact forthEval_aside hf h
  all_goals
    rename_i hf
  · -- w_load
    cases h
    refine .of rfl ?_ rfl
    rw [hf]
    rfl
  · cases h
    refine .of rfl ?_ rfl
    rw [hf]
    rfl
  · split at h
    · cases h
      exact .yield m
    · cases h
      unfold editorKey
      dsimp only
      split
      · refine .of rfl ?_ rfl
        rw [hf]
        rfl
      · refine .of rfl ?_ rfl
        rw [hf]
        rfl
  · -- forth_thread_wrapper
    cases h
    refine .of rfl ?_ rfl
    rw [hf]
    split <;> rfl
  · cases h
    refine ⟨{ m.setData { m.vm.data with
        tasks := m.vm.data.tasks.modify m.vm.data.current (setState .dead) } with
      frames := _ }, rfl, ?_, rfl, Or.inr rfl⟩
    rw [hf]
    rfl
  · cases h
    exact .of rfl rfl rfl
  · cases h
    exact .yield m
  · split at h
    · cases h
      exact .yield m
    · rename_i hkbd
      rw [hrepl _ hf] at hkbd
      cases hkbd
  · exact absurd hf (hprompt _)

/-- A new task does not run `forth_run`. -/
theorem step_new (h : step img m = some m') (hcur : m.vm.data.current < m.vm.data.tasks.length)
    {i : Nat} (hi : m.vm.data.tasks.length ≤ i) (hi' : i < m'.vm.data.tasks.length) :
    consoleOf (framesOf m' i) = [] := by
  obtain ⟨m₁, F, extra, hcur₁, htasks, -, -, hm, hextra⟩ := step_tasks h
  have hlen : m₁.vm.data.tasks.length = m.vm.data.tasks.length + extra.length := by
    simpa using congrArg List.length htasks
  have hnew : i < m₁.vm.data.tasks.length → consoleOf (framesOf m₁ i) = [] := by
    intro hlt
    rcases hextra with ⟨-, rfl, -⟩ | ⟨x, -, rfl, -⟩
    · simp at hlen
      omega
    · obtain rfl : i = m.vm.data.tasks.length := by
        simp at hlen
        omega
      rw [framesOf_map (by omega), htasks]
      simp [consoleOf, Frame.console]
  rcases hm with rfl | rfl
  · exact hnew hi'
  · rw [yield_tasks.1] at hi'
    rw [framesOf_yield (by omega)]
    exact hnew hi'

theorem inputBuffer_yield (m : Machine) : (yield m).inputBuffer = m.inputBuffer := by
  rcases yield_cases m with ⟨-, hm⟩ | ⟨-, hm⟩ <;> rw [hm]
  rfl

/-- The line and the frames of the task that ran, afterwards. -/
theorem Aside.line (h : Aside m m') (hlt : m.vm.data.current < m'.vm.data.tasks.length) :
    consoleOf (framesOf m' m.vm.data.current) = consoleOf m.frames ∧
      m'.inputBuffer = m.inputBuffer := by
  obtain ⟨m₁, hcur, hframes, hline, rfl | rfl⟩ := h
  · rw [← hcur, framesOf_current]
    exact ⟨hframes, hline⟩
  · rw [yield_tasks.1] at hlt
    rw [framesOf_yield (by rwa [hcur]), inputBuffer_yield, ← hcur, framesOf_current]
    exact ⟨hframes, hline⟩

/-- Every task but the one that ran. -/
theorem Prompting.idle (h : Prompting r typed m) (hstep : step img m = some m') {i : Nat}
    (hi : i < m'.vm.data.tasks.length) (hir : i ≠ r) (hic : i ≠ m.vm.data.current) :
    consoleOf (framesOf m' i) = [] := by
  by_cases hold : i < m.vm.data.tasks.length
  · rw [(framesOf_step hstep h.current).2.2 i hold hic]
    exact h.others i hold hir
  · exact step_new hstep h.current (by omega) hi

/-- A step aside, in whatever task. -/
theorem Prompting.aside (h : Prompting r typed m) (hstep : step img m = some m')
    (haside : Aside m m') : Prompting r typed m' := by
  obtain ⟨hcur, hlen, hkept⟩ := framesOf_step hstep h.current
  have hlt : m.vm.data.current < m'.vm.data.tasks.length := Nat.lt_of_lt_of_le h.current hlen
  obtain ⟨hframes, hline⟩ := haside.line hlt
  refine ⟨hcur, Nat.lt_of_lt_of_le h.task hlen, fun i hi hir => ?_, ?_⟩
  · by_cases hic : i = m.vm.data.current
    · rw [hic, hframes, ← framesOf_current]
      exact h.others _ h.current (hic ▸ hir)
    · exact h.idle hstep hi hir hic
  · have hsame : consoleOf (framesOf m' r) = consoleOf (framesOf m r) := by
      by_cases hrc : r = m.vm.data.current
      · rw [hrc, hframes, framesOf_current]
      · rw [hkept r h.task hrc]
    rw [hsame, hline]
    exact h.line

/-- A step of the task that runs `forth_run`, with the frames and the line it leaves. -/
theorem Prompting.own (h : Prompting r typed m) (hstep : step img m = some m')
    (hr : r = m.vm.data.current) (hcur : m'.vm.data.current = m.vm.data.current) {typed' : Text}
    (hline : consoleOf m'.frames = [.repl] ∧ m'.inputBuffer = typed' ∨
      consoleOf m'.frames = [.prompt, .repl] ∧ typed' = []) : Prompting r typed' m' := by
  obtain ⟨hcur', hlen, -⟩ := framesOf_step hstep h.current
  refine ⟨hcur', Nat.lt_of_lt_of_le h.task hlen, fun i hi hir => ?_, ?_⟩
  · exact h.idle hstep hi hir (hr ▸ hir)
  · rw [hr, ← hcur, framesOf_current]
    exact hline

/-- The frames of `forth_run` are on top in no task but its own. -/
theorem Prompting.current_eq (h : Prompting r typed m) (hne : consoleOf m.frames ≠ []) :
    r = m.vm.data.current := by
  by_contra hrc
  apply hne
  rw [← framesOf_current]
  exact h.others _ h.current (Ne.symm hrc)

/-- A step that takes no key for `forth_run` leaves the line. -/
theorem Prompting.step (h : Prompting r typed m) (hstep : step img m = some m')
    (hrepl : ∀ rest, m.frames = .repl :: rest → m.kbd = []) : Prompting r typed m' := by
  by_cases hprompt : ∃ rest, m.frames = .prompt :: rest
  · obtain ⟨rest, hf⟩ := hprompt
    have hconsole : consoleOf m.frames = .prompt :: consoleOf rest := by
      rw [hf]
      rfl
    have hr := h.current_eq (by simp [hconsole])
    have hline := h.line
    rw [hr, framesOf_current, hconsole] at hline
    have hprinted := hstep
    simp only [Forth.step, hf] at hprinted
    cases hprinted
    rcases hline with ⟨habsurd, -⟩ | ⟨hrest, rfl⟩
    · cases habsurd
    · refine h.own hstep hr rfl (Or.inl ⟨?_, rfl⟩)
      exact List.tail_eq_of_cons_eq hrest
  · exact h.aside hstep (step_aside hstep (fun rest hf => hprompt ⟨rest, hf⟩) hrepl)

/-- A key that is not Enter edits the line. -/
theorem replKey_edit (rest : List Frame) (m : Machine) (hc : c ≠ chr '\n') : (replKey rest c m).frames = m.frames ∧
    (replKey rest c m).vm.data.current = m.vm.data.current ∧
    (replKey rest c m).inputBuffer = editLine m.inputBuffer c := by
  rw [replKey, if_neg hc, editLine, if_neg hc]
  by_cases hback : c = chr '\x08'
  · rw [if_pos hback, if_pos hback]
    split
    · exact ⟨rfl, rfl, rfl⟩
    · rename_i hempty
      have hnil : m.inputBuffer = [] := not_not.mp hempty
      rw [hnil]
      exact ⟨rfl, rfl, rfl⟩
  · rw [if_neg hback, if_neg hback]
    split <;> exact ⟨rfl, rfl, rfl⟩

/-- Enter hands the line to `forth_eval`. -/
theorem replKey_enter (rest : List Frame) (m : Machine) : (replKey rest (chr '\n') m).vm.data.current = m.vm.data.current ∧
    (m.inputBuffer ≠ [] → (replKey rest (chr '\n') m).frames = .eval :: .prompt :: .repl :: rest ∧
      (replKey rest (chr '\n') m).vm.data.parsePtr = m.inputBuffer) ∧
    (m.inputBuffer = [] → (replKey rest (chr '\n') m).frames = .prompt :: .repl :: rest) := by
  rw [replKey, if_pos rfl]
  by_cases hempty : m.inputBuffer = []
  · have hputs : ¬ (m.puts [chr '\n']).inputBuffer ≠ [] := not_not.mpr hempty
    dsimp only
    rw [if_neg hputs]
    exact ⟨rfl, fun hne => absurd hempty hne, fun _ => rfl⟩
  · have hputs : (m.puts [chr '\n']).inputBuffer ≠ [] := hempty
    dsimp only
    rw [if_pos hputs]
    exact ⟨rfl, fun _ => ⟨rfl, rfl⟩, fun heq => absurd heq hempty⟩

/-- `forth_run` takes a key. -/
theorem Prompting.key (h : Prompting r typed m) (hf : m.frames = .repl :: rest)
    (hstep : Forth.step img { m with kbd := [c] } = some m') :
    Prompting r (editLine typed c) m' ∧ keyEvent m c m' = .typed c (lineBy typed c) := by
  have hconsole : consoleOf m.frames = .repl :: consoleOf rest := by
    rw [hf]
    rfl
  have hr := h.current_eq (by simp [hconsole])
  have hline := h.line
  rw [hr, framesOf_current, hconsole] at hline
  obtain ⟨hrest, rfl⟩ : consoleOf rest = [] ∧ m.inputBuffer = typed := by
    rcases hline with ⟨hrest, hbuffer⟩ | ⟨habsurd, -⟩
    · exact ⟨List.tail_eq_of_cons_eq hrest, hbuffer⟩
    · cases habsurd
  have h' : Prompting r m.inputBuffer { m with kbd := [c] } := ⟨h.current, h.task, h.others, h.line⟩
  have hopen : consoleOf (.prompt :: .repl :: rest) = [.prompt, .repl] :=
    congrArg (fun F : List Frame => Frame.prompt :: Frame.repl :: F) hrest
  generalize hm₀ : ({ m with kbd := [] } : Machine) = m₀
  have hbuffer : m₀.inputBuffer = m.inputBuffer := by rw [← hm₀]
  have hcur₀ : m₀.vm.data.current = m.vm.data.current := by rw [← hm₀]
  obtain rfl : replKey rest c m₀ = m' := by
    simpa [Forth.step, hf, ← hm₀] using hstep
  by_cases hc : c = chr '\n'
  · subst hc
    obtain ⟨hcur, hsent, hnone⟩ := replKey_enter rest m₀
    rw [editLine, if_pos rfl, lineBy]
    by_cases hempty : m.inputBuffer = []
    · have hframes := hnone (hbuffer.trans hempty)
      refine ⟨h'.own hstep hr (hcur.trans hcur₀) (Or.inr ⟨?_, rfl⟩), ?_⟩
      · rw [hframes]
        exact hopen
      · simp [keyEvent, hf, hframes, hempty]
    · obtain ⟨hframes, hparse⟩ := hsent (hbuffer ▸ hempty)
      refine ⟨h'.own hstep hr (hcur.trans hcur₀) (Or.inr ⟨?_, rfl⟩), ?_⟩
      · rw [hframes]
        exact hopen
      · simp [keyEvent, hf, hframes, hparse, hbuffer, hempty]
  · obtain ⟨hframes, hcur, hedit⟩ := replKey_edit rest m₀ hc
    rw [← hm₀] at hframes
    refine ⟨h'.own hstep hr (hcur.trans hcur₀) (Or.inl ⟨?_, ?_⟩), ?_⟩
    · rw [← hm₀, hframes, hconsole, hrest]
    · rw [hedit, hbuffer]
    · have hnone : lineBy m.inputBuffer c = none := if_neg fun hboth => hc hboth.1
      rw [hnone, keyEvent, hf]
      dsimp only
      rw [← hm₀, hframes, hf]

end Steps

/-! ## The reader -/

section Reader

variable {k k' : Keyboard.System} {l : Keyboard.Label} {c : Byte}

/-- An access of the reader that is not the return of `keyboard_getchar`. -/
theorem reads_on (h : Keyboard.Step k l k') (hirq : ∀ scancode, l ≠ .irq scancode)
    (hplace : ∀ c, k.place ≠ .return_ c) : k'.returned = k.returned ∧ k'.accepted = k.accepted ∧
      k'.driver.modifiers = k.driver.modifiers := by
  cases h
  case irq scancode => exact absurd rfl (hirq scancode)
  case return_ c hreturn => exact absurd hreturn (hplace c)
  all_goals exact ⟨rfl, rfl, rfl⟩

theorem reads_key (h : Keyboard.Step k .access k') (hplace : k.place = .return_ c) :
    k'.returned = k.returned ++ [c] ∧ k'.accepted = k.accepted ∧
      k'.driver.modifiers = k.driver.modifiers := by
  cases h
  case return_ c' hreturn =>
    rw [hplace] at hreturn
    cases hreturn
    exact ⟨rfl, rfl, rfl⟩
  all_goals
    rename_i hother
    rw [hplace] at hother
    cases hother

theorem decodeAll_append (codes : List Byte) (scancode : Byte) (m : Keyboard.Modifiers) :
    Keyboard.decodeAll (codes ++ [scancode]) m =
      ((Keyboard.decodeScancode scancode (Keyboard.decodeAll codes m).1).1,
        (Keyboard.decodeAll codes m).2 ++
          (Keyboard.decodeScancode scancode (Keyboard.decodeAll codes m).1).2.toList) := by
  rw [Keyboard.decodeAll, List.foldl_append]
  rfl

end Reader

/-! ## Runs -/

/-- What the keyboard has sent, decoded. -/
def decoded (es : List Event) : Keyboard.Modifiers × List Byte :=
  Keyboard.decodeAll (scancodes es) Keyboard.initialDriver.modifiers

/-- After the events `es`. -/
structure InSession (r : Nat) (es : List Event) (s : Session) : Prop where
  prompting : Prompting r (lineAfter [] (keysTyped es)) s.machine
  lines : linesEvaluated es = linesOf [] (keysTyped es)
  queued : Keyboard.Queued s.keyboard
  taken : s.keyboard.returned = keysTaken es
  modifiers : s.keyboard.driver.modifiers = (decoded es).1
  accepted : KeepsUp es → s.keyboard.accepted = (decoded es).2

section Runs

variable {img : Image} {r : Nat} {es es' : List Event} {e : Event} {s t : Session} {m : Machine}
  {k : Keyboard.System}

theorem KeepsUp.init (h : KeepsUp (es ++ [e])) : KeepsUp es :=
  fun scancode hmem => h scancode (List.mem_append_left _ hmem)

theorem filterMap_snoc {β : Type} (f : Event → Option β) :
    (es ++ [e]).filterMap f = es.filterMap f ++ (f e).toList := by
  rw [List.filterMap_append, List.filterMap_cons, List.filterMap_nil]
  cases f e <;> rfl

theorem filterMap_none {β : Type} {f : Event → Option β} (h : f e = none) :
    (es ++ [e]).filterMap f = es.filterMap f := by
  rw [filterMap_snoc, h]
  exact List.append_nil _

/-- An event that is no interrupt. -/
theorem InSession.next (h : InSession r es s) (hcode : e.scancode = none)
    (hm : Prompting r (lineAfter [] (keysTyped (es ++ [e]))) m)
    (hlines : linesEvaluated (es ++ [e]) = linesOf [] (keysTyped (es ++ [e])))
    (hk : Keyboard.Queued k) (hreturned : k.returned = s.keyboard.returned ++ e.taken.toList)
    (hsame : k.accepted = s.keyboard.accepted ∧
      k.driver.modifiers = s.keyboard.driver.modifiers) : InSession r (es ++ [e]) ⟨k, m⟩ := by
  have hdecoded : decoded (es ++ [e]) = decoded es := by
    rw [decoded, scancodes, filterMap_none hcode]
    rfl
  constructor
  case prompting => exact hm
  case lines => exact hlines
  case queued => exact hk
  case taken =>
    rw [keysTaken, filterMap_snoc]
    exact hreturned.trans (congrArg (· ++ e.taken.toList) h.taken)
  case modifiers =>
    rw [hdecoded]
    exact hsame.2.trans h.modifiers
  case accepted =>
    intro hup
    rw [hdecoded]
    exact hsame.1.trans (h.accepted hup.init)

/-- An event that is no key of `forth_run` either. -/
theorem InSession.works (h : InSession r es s) (hcode : e.scancode = none) (hkey : e.key = none)
    (hline : e.line = none) (hm : Prompting r (lineAfter [] (keysTyped es)) m)
    (hk : Keyboard.Queued k) (hreturned : k.returned = s.keyboard.returned ++ e.taken.toList)
    (hsame : k.accepted = s.keyboard.accepted ∧
      k.driver.modifiers = s.keyboard.driver.modifiers) : InSession r (es ++ [e]) ⟨k, m⟩ := by
  refine h.next hcode ?_ ?_ hk hreturned hsame
  · rwa [keysTyped, filterMap_none hkey]
  · rw [linesEvaluated, keysTyped, filterMap_none hkey, filterMap_none hline]
    exact h.lines

theorem InSession.interrupt (h : InSession r es s) (scancode : Byte) :
    InSession r (es ++ [.irq scancode (dropsKey s.keyboard scancode)])
      { s with keyboard := s.keyboard.interrupt scancode } := by
  generalize hlost : dropsKey s.keyboard scancode = lost
  have hdecoded : decoded (es ++ [.irq scancode lost]) =
      ((Keyboard.decodeScancode scancode (decoded es).1).1,
        (decoded es).2 ++ (Keyboard.decodeScancode scancode (decoded es).1).2.toList) := by
    rw [decoded, scancodes, filterMap_snoc]
    exact decodeAll_append _ scancode _
  constructor
  case prompting =>
    rw [keysTyped, filterMap_none rfl]
    exact h.prompting
  case lines =>
    rw [linesEvaluated, keysTyped, filterMap_none rfl, filterMap_none rfl]
    exact h.lines
  case queued => exact h.queued.interrupt scancode
  case taken =>
    rw [keysTaken, filterMap_snoc]
    exact h.taken.trans (List.append_nil _).symm
  case modifiers =>
    rw [hdecoded]
    show (Keyboard.keyboardHandlerC scancode s.keyboard.driver).modifiers = _
    rw [Keyboard.keyboardHandlerC, h.modifiers]
  case accepted =>
    intro hup
    have hkept : lost = false := by
      by_contra hne
      rw [Bool.not_eq_false] at hne
      subst hne
      exact hup scancode (List.mem_append_right _ (List.mem_singleton_self _))
    rw [hdecoded, ← h.modifiers, ← h.accepted hup.init]
    show s.keyboard.accepted ++ _ = _
    by_cases hroom : s.keyboard.driver.queue.HasRoom
    · rw [if_pos hroom]
    · -- the scancode gives no key
      have hnone : (Keyboard.decodeScancode scancode s.keyboard.driver.modifiers).2 = none := by
        rw [hkept] at hlost
        simpa [dropsKey, hroom] using hlost
      rw [if_neg hroom, hnone]
      rfl

/-- A key is taken, by `forth_run` or by the editor. -/
theorem InSession.takes {c : Byte} (h : InSession r es s)
    (hplace : s.keyboard.place = .return_ c) (hread : Keyboard.Step s.keyboard .access k)
    (hstep : step img { s.machine with kbd := [c] } = some m) :
    InSession r (es ++ [keyEvent s.machine c m]) ⟨k, m⟩ := by
  obtain ⟨hreturned, hsame⟩ := reads_key hread hplace
  have hqueued := hread.queued h.queued
  by_cases hrepl : ∃ rest, s.machine.frames = .repl :: rest
  · obtain ⟨rest, hf⟩ := hrepl
    obtain ⟨hprompting, hevent⟩ := h.prompting.key hf hstep
    rw [hevent]
    have hkeys : keysTyped (es ++ [.typed c (lineBy (lineAfter [] (keysTyped es)) c)]) =
        keysTyped es ++ [c] := filterMap_snoc Event.key
    refine h.next rfl ?_ ?_ hqueued hreturned hsame
    · rwa [hkeys, lineAfter_append]
    · rw [hkeys, linesOf_append, ← h.lines, linesEvaluated, filterMap_snoc]
      rfl
  · have hevent : keyEvent s.machine c m = .edited c := by
      unfold keyEvent
      split
      · rename_i rest hf
        exact absurd ⟨rest, hf⟩ hrepl
      · rfl
    have hp := h.prompting
    have hprompting : Prompting r (lineAfter [] (keysTyped es)) m :=
      Prompting.step (m := { s.machine with kbd := [c] }) ⟨hp.current, hp.task, hp.others, hp.line⟩
        hstep fun rest hf => absurd ⟨rest, hf⟩ hrepl
    rw [hevent]
    exact h.works rfl rfl rfl hprompting hqueued hreturned hsame

/-- An access of the reader that returns no key. -/
theorem InSession.reads {l : Keyboard.Label} (h : InSession r es s)
    (hm : Prompting r (lineAfter [] (keysTyped es)) m) (hread : Keyboard.Step s.keyboard l k)
    (hirq : ∀ scancode, l ≠ .irq scancode) (hplace : ∀ c, s.keyboard.place ≠ .return_ c) :
    InSession r (es ++ [.work]) ⟨k, m⟩ := by
  obtain ⟨hreturned, hsame⟩ := reads_on hread hirq hplace
  exact h.works rfl rfl rfl hm (hread.queued h.queued)
    (hreturned.trans (List.append_nil _).symm) hsame

theorem InSession.step (h : InSession r es s) (hstep : SessionStep img s e t) :
    InSession r (es ++ [e]) t := by
  cases hstep with
  | irq scancode => exact h.interrupt scancode
  | work _ hpolls hstep =>
      refine h.works rfl rfl rfl (h.prompting.step hstep fun rest hf => ?_) h.queued
        (List.append_nil _).symm ⟨rfl, rfl⟩
      simp [Machine.polls, hf] at hpolls
  | poll _ hread =>
      refine h.reads h.prompting hread (by simp) fun c hplace => ?_
      cases hread with
      | call _ hidle =>
          rw [hplace] at hidle
          cases hidle
  | access _ hplace hread => exact h.reads h.prompting hread (by simp) hplace
  | ready hplace hread hcall =>
      obtain ⟨hreturned, hsame⟩ := reads_on hread (by simp) (by simp [hplace])
      obtain ⟨hreturned', hsame'⟩ := reads_on hcall (by simp) fun c hreturn => by
        cases hcall with
        | call _ hidle =>
            rw [hreturn] at hidle
            cases hidle
      exact h.works rfl rfl rfl h.prompting (hcall.queued (hread.queued h.queued))
        ((hreturned'.trans hreturned).trans (List.append_nil _).symm)
        ⟨hsame'.1.trans hsame.1, hsame'.2.trans hsame.2⟩
  | empty hplace hread hstep =>
      have hp := h.prompting
      have hprompting : Prompting r (lineAfter [] (keysTyped es)) _ :=
        Prompting.step (m := { s.machine with kbd := [] })
          ⟨hp.current, hp.task, hp.others, hp.line⟩ hstep fun _ _ => rfl
      exact h.reads hprompting hread (by simp) (by simp [hplace])
  | key hplace hread hstep => exact h.takes hplace hread hstep

theorem InSession.run (h : InSession r es s) (hrun : Run (SessionStep img) s es' t) :
    InSession r (es ++ es') t := by
  induction hrun generalizing es with
  | nil s => simpa using h
  | @cons s t u e es' hstep _ ih =>
      have hnext := ih (h.step hstep)
      rwa [List.append_assoc] at hnext

theorem inSession_start (hstart : Prompting r [] s.machine)
    (hkeyboard : s.keyboard = Keyboard.initialSystem) : InSession r [] s := by
  refine ⟨hstart, rfl, ?_, ?_, ?_, fun _ => ?_⟩ <;> rw [hkeyboard]
  · exact Keyboard.queued_initial
  all_goals rfl

end Runs

/-- **The lines that are evaluated are the lines that were typed.** In every run of
the handler, the reader and the tasks, `forth_run` hands to `forth_eval` the lines
of the keys it took, and goes on with the rest of them as its line; while no key is
lost to a full ring, the keys taken, the one on its way and those in the ring are
what the keyboard sent, in order. -/
theorem session_lines {img : Image} {r : Nat} {es : List Event} {s t : Session}
    (hstart : Prompting r [] s.machine) (hkeyboard : s.keyboard = Keyboard.initialSystem)
    (hrun : Run (SessionStep img) s es t) :
    linesEvaluated es = linesOf [] (keysTyped es) ∧
      Prompting r (lineAfter [] (keysTyped es)) t.machine ∧
      (KeepsUp es → (decoded es).2 =
        keysTaken es ++ Keyboard.inFlight t.keyboard.place ++ t.keyboard.driver.queue.pending) := by
  have h : InSession r es t := (inSession_start hstart hkeyboard).run hrun
  refine ⟨h.lines, h.prompting, fun hup => ?_⟩
  rw [← h.taken, ← h.accepted hup]
  exact h.queued.order

/-- One task, at the prompt. -/
def promptStart : Session where
  keyboard := Keyboard.initialSystem
  machine :=
    { vm := { data := { blankData with tasks := [mainTask] }, rs := [], ip := 0#64 }
      frames := [.repl]
      kbd := []
      inputBuffer := [] }

theorem prompting_promptStart : Prompting 0 [] promptStart.machine where
  current := by decide
  task := by decide
  others := by
    intro i hi hne
    exact absurd (Nat.lt_one_iff.mp hi) hne
  line := Or.inl ⟨rfl, rfl⟩

/-- The driver and the prompt when the key 5 has been taken. -/
def fiveTyped : Session where
  keyboard :=
    { driver := (Keyboard.initialSystem.interrupt 0x06#8).setTail 1 |>.driver
      place := .idle
      accepted := text "5"
      written := [0]
      returned := text "5" }
  machine := { promptStart.machine.puts (text "5") with inputBuffer := text "5" }

theorem keepsUp_of_all {es : List Event}
    (h : es.all (fun | .irq _ true => false | _ => true) = true) : KeepsUp es :=
  fun scancode hmem => absurd (List.all_eq_true.mp h (.irq scancode true) hmem) (by simp)

/-- `forth_run` looks for a key, and 5 is pressed meanwhile. -/
theorem five_run : ∃ es, Run (SessionStep linearImage) promptStart es fiveTyped ∧
    linesEvaluated es = [] ∧ KeepsUp es := by
  have hpoll : SessionStep linearImage promptStart .work _ :=
    .poll rfl (.call .keyboardAvailable rfl)
  have hrun := Run.cons hpoll <| .cons (.irq _ 0x06#8) <|
    .cons (.access nofun nofun (.headFirst rfl)) <|
    .cons (.access nofun nofun (.tailSecond rfl)) <|
    .cons (.ready rfl (.available rfl) (.call .keyboardGetchar rfl)) <|
    .cons (.access nofun nofun (.headFirst rfl)) <|
    .cons (.access nofun nofun (.tailSecond rfl)) <|
    .cons (.access nofun nofun (.index rfl)) <| .cons (.access nofun nofun (.slot rfl)) <|
    .cons (.access nofun nofun (.advance rfl)) <| .cons (.access nofun nofun (.store rfl)) <|
    .cons (.key rfl (.return_ rfl) rfl) (.nil fiveTyped)
  exact ⟨_, hrun, by decide +kernel, keepsUp_of_all (by decide +kernel)⟩

/-- Enter is pressed next. -/
theorem enter_run : ∃ es t, Run (SessionStep linearImage) fiveTyped es t ∧
    linesEvaluated es = [text "5"] ∧ KeepsUp es ∧
    Keyboard.inFlight t.keyboard.place ++ t.keyboard.driver.queue.pending = [] := by
  have hirq : SessionStep linearImage fiveTyped (.irq 0x1C#8 _) _ := .irq _ 0x1C#8
  have hrun := Run.cons hirq <| .cons (.poll rfl (.call .keyboardAvailable rfl)) <|
    .cons (.access nofun nofun (.headFirst rfl)) <|
    .cons (.access nofun nofun (.tailSecond rfl)) <|
    .cons (.ready rfl (.available rfl) (.call .keyboardGetchar rfl)) <|
    .cons (.access nofun nofun (.headFirst rfl)) <|
    .cons (.access nofun nofun (.tailSecond rfl)) <|
    .cons (.access nofun nofun (.index rfl)) <| .cons (.access nofun nofun (.slot rfl)) <|
    .cons (.access nofun nofun (.advance rfl)) <| .cons (.access nofun nofun (.store rfl)) <|
    .cons (.key rfl (.return_ rfl) rfl) (.nil _)
  exact ⟨_, _, hrun, by decide +kernel, keepsUp_of_all (by decide +kernel), by decide +kernel⟩

/-- The line 5 is evaluated, and the two keys are what the keyboard sent. -/
theorem session_lines_five : ∃ es t, Run (SessionStep linearImage) promptStart es t ∧
    linesEvaluated es = [text "5"] ∧ linesEvaluated es = linesOf [] (keysTyped es) ∧
    (decoded es).2 = keysTaken es := by
  obtain ⟨es, hfive, hnone, hup⟩ := five_run
  obtain ⟨es', t, henter, hline, hup', hempty⟩ := enter_run
  have hrun := hfive.append henter
  obtain ⟨hlines, -, hkeys⟩ := session_lines prompting_promptStart rfl hrun
  refine ⟨es ++ es', t, hrun, ?_, hlines, ?_⟩
  · rw [linesEvaluated, List.filterMap_append]
    exact (congrArg₂ (· ++ ·) hnone hline)
  · have hboth : KeepsUp (es ++ es') := fun scancode hmem =>
      (List.mem_append.mp hmem).elim (hup scancode) (hup' scancode)
    rw [hkeys hboth, List.append_assoc, hempty, List.append_nil]

end VectorForth.Forth
