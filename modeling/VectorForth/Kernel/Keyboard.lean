import VectorForth.Lib.Ring
import VectorForth.Lib.Run
import VectorForth.Vm.State

/-!
# The keyboard driver

`keyboard.c`. The handler of IRQ1 decodes a scancode and puts the character into
a ring of 256 slots; `keyboard_getchar` and `keyboard_available` read it from
there. The handler runs to completion, but between any two accesses of the
reader to `kbd_head`, `kbd_tail` and `kbd_buffer`, so the reader is a machine
that makes one access at a time. The invariant `Queued` says for each place in
its code what it may rely on there.
-/

namespace VectorForth.Keyboard

open ByteMemory LabelledRun Forth

def kbdBufferSize : Nat := 256

/-! ## keyboard.c -/

structure Queue where
  kbdBuffer : Nat → Byte
  kbdHead : Nat
  kbdTail : Nat

/-- The modifier flags. -/
structure Modifiers where
  shiftPressed : Bool
  ctrlPressed : Bool
  altPressed : Bool
  capsLock : Bool
  deriving DecidableEq

def scancodeToAscii : List Byte :=
  [0#8, 27#8] ++ text "1234567890" ++ text "-=\x08" ++ text "\t" ++ text "qwertyuiop" ++
    text "[]\n" ++ [0#8] ++ text "asdfghjkl" ++ text ";'" ++ [0x60#8] ++ [0#8] ++ text "\\" ++
    text "zxcvbnm" ++ text ",./" ++ [0#8] ++ text "*" ++ [0#8] ++ text " " ++ [0#8] ++
    List.replicate 10 0#8 ++ [0#8, 0#8] ++ text "789-" ++ text "456+" ++ text "123" ++ text "0."

def scancodeToAsciiShift : List Byte :=
  [0#8, 0#8] ++ text "!@#$%^&*()" ++ text "_+\x08" ++ text "\t" ++ text "QWERTYUIOP" ++
    text "\x7b\x7d\n" ++ [0#8] ++ text "ASDFGHJKL" ++ text ":\"~" ++ [0#8] ++ text "|" ++
    text "ZXCVBNM" ++ text "<>?" ++ [0#8] ++ text "*" ++ [0#8] ++ text " " ++ [0#8] ++
    List.replicate 10 0#8 ++ [0#8, 0#8] ++ text "789-" ++ text "456+" ++ text "123" ++ text "0."

def scancodeTableSize : Nat := scancodeToAscii.length

example : scancodeToAscii.length = 84 ∧ scancodeToAsciiShift.length = 84 := by decide

def kbdBufferPut (c : Byte) (q : Queue) : Queue :=
  let next := (q.kbdHead + 1) % kbdBufferSize
  if next ≠ q.kbdTail then
    { q with kbdBuffer := Function.update q.kbdBuffer q.kbdHead c, kbdHead := next }
  else q

def isLower (c : Byte) : Bool := chr 'a' ≤ c && c ≤ chr 'z'

def isUpper (c : Byte) : Bool := chr 'A' ≤ c && c ≤ chr 'Z'

def releaseKey (released : Byte) (m : Modifiers) : Modifiers :=
  if released = 0x2A#8 ∨ released = 0x36#8 then { m with shiftPressed := false }
  else if released = 0x1D#8 then { m with ctrlPressed := false }
  else if released = 0x38#8 then { m with altPressed := false }
  else m

/-- The character of the tables, after Caps Lock. -/
def tableChar (scancode : Byte) (m : Modifiers) : Byte :=
  let table := if m.shiftPressed then scancodeToAsciiShift else scancodeToAscii
  let c := table.getD scancode.toNat 0#8
  if m.capsLock && isLower c then c - 32#8
  else if m.capsLock && isUpper c && !m.shiftPressed then c + 32#8
  else c

def ctrlChar (m : Modifiers) (c : Byte) : Byte :=
  if m.ctrlPressed then
    if isLower c then c - 96#8 else if isUpper c then c - 64#8 else c
  else c

/-- A key press: the flags, and the character that goes to `kbd_buffer_put`. -/
def pressKey (scancode : Byte) (m : Modifiers) : Modifiers × Option Byte :=
  if scancode = 0x2A#8 ∨ scancode = 0x36#8 then ({ m with shiftPressed := true }, none)
  else if scancode = 0x1D#8 then ({ m with ctrlPressed := true }, none)
  else if scancode = 0x38#8 then ({ m with altPressed := true }, none)
  else if scancode = 0x3A#8 then ({ m with capsLock := !m.capsLock }, none)
  else if scancode.toNat ≥ scancodeTableSize then (m, none)
  else
    let c := tableChar scancode m
    if c = 0#8 then (m, none) else (m, some (ctrlChar m c))

/-- What the handler makes of a scancode. -/
def decodeScancode (scancode : Byte) (m : Modifiers) : Modifiers × Option Byte :=
  if scancode &&& 0x80#8 ≠ 0#8 then (releaseKey (scancode &&& 0x7F#8) m, none)
  else pressKey scancode m

/-- The static variables. -/
structure Driver where
  queue : Queue
  modifiers : Modifiers

/-- Before the first interrupt. -/
def initialDriver : Driver where
  queue := { kbdBuffer := fun _ => 0#8, kbdHead := 0, kbdTail := 0 }
  modifiers :=
    { shiftPressed := false, ctrlPressed := false, altPressed := false, capsLock := false }

def keyboardHandlerC (scancode : Byte) (k : Driver) : Driver :=
  let (modifiers, c) := decodeScancode scancode k.modifiers
  { modifiers := modifiers
    queue := match c with
      | none => k.queue
      | some c => kbdBufferPut c k.queue }

/-! ## The reader -/

/-- The two functions that the reader calls. -/
inductive Call
  | keyboardAvailable
  | keyboardGetchar
  deriving DecidableEq

/-- Where the reader is, with what it has read so far. The two sides of a
comparison of `kbd_head` and `kbd_tail` may be read in either order. -/
inductive Place
  | idle
  | compare (call : Call)
  | headRead (call : Call) (head : Nat)
  | tailRead (call : Call) (tail : Nat)
  /-- `keyboard_available` returns. -/
  | available (result : Bool)
  /-- `hlt()` in the loop of `keyboard_getchar`. -/
  | hlt
  /-- `c = kbd_buffer[kbd_tail]`: before `kbd_tail` is read, and before the slot is. -/
  | index
  | slot (tail : Nat)
  /-- `kbd_tail = (kbd_tail + 1) % KBD_BUFFER_SIZE`, before `kbd_tail` is read and before it
  is written. -/
  | advance (c : Byte)
  | store (c : Byte) (tail : Nat)
  | return_ (c : Byte)

/-- Where a comparison leads. -/
def compared (call : Call) (head tail : Nat) : Place :=
  match call with
  | .keyboardAvailable => .available (head ≠ tail)
  | .keyboardGetchar => if head = tail then .hlt else .index

/-- The driver, the reader, and what has happened: the characters that were put into
the queue, the slots they were put in, and the characters that were returned. -/
structure System where
  driver : Driver
  place : Place
  accepted : List Byte
  written : List Nat
  returned : List Byte

def initialSystem : System where
  driver := initialDriver
  place := .idle
  accepted := []
  written := []
  returned := []

/-- One access of the reader, or one interrupt. -/
inductive Label
  | irq (scancode : Byte)
  | call (call : Call)
  | access

def System.setTail (s : System) (tail : Nat) : System :=
  { s with driver :=
    { s.driver with queue := { s.driver.queue with kbdTail := tail } } }

/-- The handler has room for one more character. -/
def Queue.HasRoom (q : Queue) : Prop := (q.kbdHead + 1) % kbdBufferSize ≠ q.kbdTail

instance (q : Queue) : Decidable q.HasRoom := inferInstanceAs (Decidable (_ ≠ _))

/-- The interrupt, and the record of what it put. -/
def System.interrupt (s : System) (scancode : Byte) : System :=
  let c := (decodeScancode scancode s.driver.modifiers).2
  let put := if s.driver.queue.HasRoom then c.toList else []
  { s with
    driver := keyboardHandlerC scancode s.driver
    accepted := s.accepted ++ put
    written := s.written ++ put.map fun _ => s.driver.queue.kbdHead }

inductive Step : System → Label → System → Prop
  | irq (s : System) (scancode : Byte) : Step s (.irq scancode) (s.interrupt scancode)
  | call {s : System} (call : Call) : s.place = .idle →
      Step s (.call call) { s with place := .compare call }
  | headFirst {s : System} {call : Call} : s.place = .compare call →
      Step s .access { s with place := .headRead call s.driver.queue.kbdHead }
  | tailFirst {s : System} {call : Call} : s.place = .compare call →
      Step s .access { s with place := .tailRead call s.driver.queue.kbdTail }
  | tailSecond {s : System} {call : Call} {head : Nat} : s.place = .headRead call head →
      Step s .access { s with place := compared call head s.driver.queue.kbdTail }
  | headSecond {s : System} {call : Call} {tail : Nat} : s.place = .tailRead call tail →
      Step s .access { s with place := compared call s.driver.queue.kbdHead tail }
  | available {s : System} {result : Bool} : s.place = .available result →
      Step s .access { s with place := .idle }
  | hlt {s : System} : s.place = .hlt → Step s .access { s with place := .compare .keyboardGetchar }
  | index {s : System} : s.place = .index →
      Step s .access { s with place := .slot s.driver.queue.kbdTail }
  | slot {s : System} {tail : Nat} : s.place = .slot tail →
      Step s .access { s with place := .advance (s.driver.queue.kbdBuffer tail) }
  | advance {s : System} {c : Byte} : s.place = .advance c →
      Step s .access { s with place := .store c s.driver.queue.kbdTail }
  | store {s : System} {c : Byte} {tail : Nat} : s.place = .store c tail →
      Step s .access { s.setTail ((tail + 1) % kbdBufferSize) with place := .return_ c }
  | return_ {s : System} {c : Byte} : s.place = .return_ c →
      Step s .access { s with place := .idle, returned := s.returned ++ [c] }

/-! ## The queue is a lossless FIFO -/

/-- The characters in the queue, oldest first. -/
def Queue.pending (q : Queue) : List Byte :=
  Ring.contents q.kbdBuffer kbdBufferSize q.kbdTail (Ring.count kbdBufferSize q.kbdHead q.kbdTail)

/-- A character that has left the queue and is about to be returned. -/
def inFlight : Place → List Byte
  | .return_ c => [c]
  | _ => []

/-- What the reader may rely on, whatever the handler does meanwhile. -/
def Relies (q : Queue) : Place → Prop
  | .headRead _ head => head ≠ q.kbdTail → q.kbdHead ≠ q.kbdTail
  | .tailRead _ tail => tail = q.kbdTail
  | .available result => result = true → q.kbdHead ≠ q.kbdTail
  | .index => q.kbdHead ≠ q.kbdTail
  | .slot tail => q.kbdHead ≠ q.kbdTail ∧ tail = q.kbdTail
  | .advance c => q.kbdHead ≠ q.kbdTail ∧ c = q.kbdBuffer q.kbdTail
  | .store c tail => q.kbdHead ≠ q.kbdTail ∧ c = q.kbdBuffer q.kbdTail ∧ tail = q.kbdTail
  | _ => True

/-- The indices of a queue. -/
structure Queue.Within (q : Queue) : Prop where
  head : q.kbdHead < kbdBufferSize
  tail : q.kbdTail < kbdBufferSize

structure Queued (s : System) : Prop where
  within : s.driver.queue.Within
  order : s.accepted = s.returned ++ inFlight s.place ++ s.driver.queue.pending
  written : ∀ i < Ring.count kbdBufferSize s.driver.queue.kbdHead s.driver.queue.kbdTail,
    (s.driver.queue.kbdTail + i) % kbdBufferSize ∈ s.written
  relies : Relies s.driver.queue s.place

section Queue

variable {q : Queue} {s t : System} {l : Label} {ls : List Label} {c scancode : Byte}

/-- One put: there is room and the character goes to the end, or 255 are pending
and nothing changes. -/
theorem kbdBufferPut_cases (h : q.Within) (c : Byte) :
    q.HasRoom ∧ (kbdBufferPut c q).pending = q.pending ++ [c] ∧ q.pending.length < 255 ∨
      ¬ q.HasRoom ∧ kbdBufferPut c q = q ∧ q.pending.length = 255 := by
  have hsize : kbdBufferSize = 256 := rfl
  have hfull := Ring.next_eq_tail h.head h.tail
  have hlt := Ring.count_lt h.head h.tail
  have hlen : q.pending.length = Ring.count kbdBufferSize q.kbdHead q.kbdTail := Ring.length_contents
  by_cases hroom : q.HasRoom
  · have hput : kbdBufferPut c q = { q with
        kbdBuffer := Function.update q.kbdBuffer q.kbdHead c
        kbdHead := Ring.next kbdBufferSize q.kbdHead } := if_pos hroom
    have hnot : Ring.count kbdBufferSize q.kbdHead q.kbdTail + 1 ≠ kbdBufferSize :=
      fun heq => hroom (hfull.mpr heq)
    refine Or.inl ⟨hroom, ?_, by omega⟩
    rw [hput, Queue.pending]
    dsimp only
    rw [Ring.count_put h.head h.tail hroom]
    nth_rewrite 1 [← Ring.tail_add_count h.head h.tail]
    exact Ring.contents_put hlt
  · have hput : kbdBufferPut c q = q := if_neg hroom
    have heq := hfull.mp (not_not.mp hroom)
    exact Or.inr ⟨hroom, hput, by omega⟩

theorem kbdBufferPut_tail (c : Byte) (q : Queue) : (kbdBufferPut c q).kbdTail = q.kbdTail := by
  unfold kbdBufferPut
  dsimp only
  split <;> rfl

theorem kbdBufferPut_within (h : q.Within) (c : Byte) : (kbdBufferPut c q).Within := by
  unfold kbdBufferPut
  dsimp only
  split
  · exact ⟨Ring.next_lt (by decide) _, h.tail⟩
  · exact h

/-- A put leaves the queue with something in it, and leaves the oldest character. -/
theorem kbdBufferPut_keeps (h : q.kbdHead ≠ q.kbdTail) (c : Byte) :
    (kbdBufferPut c q).kbdHead ≠ (kbdBufferPut c q).kbdTail ∧
      (kbdBufferPut c q).kbdBuffer (kbdBufferPut c q).kbdTail = q.kbdBuffer q.kbdTail := by
  unfold kbdBufferPut
  dsimp only
  split
  · rename_i hroom
    exact ⟨hroom, Function.update_of_ne h.symm ..⟩
  · exact ⟨h, rfl⟩

/-- The handler takes nothing away that the reader relies on. -/
theorem relies_put {p : Place} (h : Relies q p) (c : Byte) : Relies (kbdBufferPut c q) p := by
  have htail := kbdBufferPut_tail c q
  cases p with
  | headRead call head =>
      intro hne
      rw [htail] at hne
      exact (kbdBufferPut_keeps (h hne) c).1
  | tailRead call tail => exact h.trans htail.symm
  | available result => exact fun htrue => (kbdBufferPut_keeps (h htrue) c).1
  | index => exact (kbdBufferPut_keeps h c).1
  | slot tail => exact ⟨(kbdBufferPut_keeps h.1 c).1, h.2.trans htail.symm⟩
  | advance c' =>
      obtain ⟨hne, hslot⟩ := kbdBufferPut_keeps h.1 c
      exact ⟨hne, h.2.trans hslot.symm⟩
  | store c' tail =>
      obtain ⟨hne, hslot⟩ := kbdBufferPut_keeps h.1 c
      exact ⟨hne, h.2.1.trans hslot.symm, h.2.2.trans htail.symm⟩
  | _ => trivial

/-- An interrupt at any point. -/
theorem Queued.interrupt (h : Queued s) (scancode : Byte) : Queued (s.interrupt scancode) := by
  cases hc : (decodeScancode scancode s.driver.modifiers).2 with
  | none =>
      have hsame : s.interrupt scancode = { s with
          driver := { s.driver with modifiers := (decodeScancode scancode s.driver.modifiers).1 } } := by
        simp [System.interrupt, keyboardHandlerC, hc]
      rw [hsame]
      exact ⟨h.within, h.order, h.written, h.relies⟩
  | some c =>
      have hqueue : (s.interrupt scancode).driver.queue = kbdBufferPut c s.driver.queue := by
        simp [System.interrupt, keyboardHandlerC, hc]
      constructor
      case within =>
        rw [hqueue]
        exact kbdBufferPut_within h.within c
      case order =>
        rw [hqueue]
        rcases kbdBufferPut_cases h.within c with ⟨hroom, hput, -⟩ | ⟨hfull, hput, -⟩
        · have haccepted : (s.interrupt scancode).accepted = s.accepted ++ [c] := by
            simp [System.interrupt, hc, hroom]
          rw [haccepted, hput, h.order, List.append_assoc]
          rfl
        · have haccepted : (s.interrupt scancode).accepted = s.accepted := by
            simp [System.interrupt, hfull]
          rw [haccepted, hput, h.order]
          rfl
      case written =>
        rw [hqueue]
        by_cases hroom : s.driver.queue.HasRoom
        · have hwritten : (s.interrupt scancode).written =
              s.written ++ [s.driver.queue.kbdHead] := by
            simp [System.interrupt, hc, hroom]
          have hput : kbdBufferPut c s.driver.queue = { s.driver.queue with
              kbdBuffer := Function.update s.driver.queue.kbdBuffer s.driver.queue.kbdHead c
              kbdHead := Ring.next kbdBufferSize s.driver.queue.kbdHead } := if_pos hroom
          rw [hput, hwritten]
          dsimp only
          rw [Ring.count_put h.within.head h.within.tail hroom]
          intro i hi
          rcases Nat.lt_succ_iff_lt_or_eq.mp hi with hlt | rfl
          · exact List.mem_append_left _ (h.written i hlt)
          · rw [Ring.tail_add_count h.within.head h.within.tail]
            exact List.mem_append_right _ (List.mem_singleton_self _)
        · have hput : kbdBufferPut c s.driver.queue = s.driver.queue := if_neg hroom
          rw [hput]
          intro i hi
          exact List.mem_append_left _ (h.written i hi)
      case relies =>
        rw [hqueue]
        exact relies_put h.relies c

/-- An access that only reads. -/
theorem Queued.moves (h : Queued s) {p : Place} (hflight : inFlight s.place = inFlight p)
    (hp : Relies s.driver.queue p) : Queued { s with place := p } :=
  ⟨h.within, by rw [h.order, hflight], h.written, hp⟩

theorem relies_compared (call : Call) {head tail : Nat}
    (h : head ≠ tail → q.kbdHead ≠ q.kbdTail) : Relies q (compared call head tail) := by
  cases call with
  | keyboardAvailable => exact fun htrue => h (of_decide_eq_true htrue)
  | keyboardGetchar =>
      by_cases heq : head = tail
      · rw [compared, if_pos heq]
        trivial
      · rw [compared, if_neg heq]
        exact h heq

theorem inFlight_compared (call : Call) (head tail : Nat) :
    inFlight (compared call head tail) = [] := by
  cases call with
  | keyboardAvailable => rfl
  | keyboardGetchar =>
      unfold compared
      dsimp only
      split <;> rfl

/-- The write of `kbd_tail`: the oldest character leaves the queue. -/
theorem Queued.takes (h : Queued s) {tail : Nat} (hplace : s.place = .store c tail) :
    Queued { s.setTail ((tail + 1) % kbdBufferSize) with place := .return_ c } := by
  have hrelies := h.relies
  rw [hplace] at hrelies
  obtain ⟨hne, hc, rfl⟩ := hrelies
  have hcount := Ring.count_take h.within.head h.within.tail hne
  have hnext : (s.driver.queue.kbdTail + 1) % kbdBufferSize =
      Ring.next kbdBufferSize s.driver.queue.kbdTail := rfl
  have hpending : s.driver.queue.pending = c :: Ring.contents s.driver.queue.kbdBuffer kbdBufferSize
      (Ring.next kbdBufferSize s.driver.queue.kbdTail)
      (Ring.count kbdBufferSize s.driver.queue.kbdHead
        (Ring.next kbdBufferSize s.driver.queue.kbdTail)) := by
    rw [Queue.pending, hcount, Ring.contents_take h.within.tail, hc]
  rw [hnext]
  constructor
  case within => exact ⟨h.within.head, Ring.next_lt (by decide) _⟩
  case order =>
    have horder := h.order
    rw [hpending, hplace] at horder
    show s.accepted = s.returned ++ [c] ++ _
    rw [horder, List.append_assoc]
    simp only [inFlight, List.nil_append, List.append_assoc]
    rfl
  case written =>
    intro i hi
    have hslot := h.written (i + 1) (by
      rw [hcount]
      exact Nat.succ_lt_succ hi)
    have hsame : (Ring.next kbdBufferSize s.driver.queue.kbdTail + i) % kbdBufferSize =
        (s.driver.queue.kbdTail + (i + 1)) % kbdBufferSize := by
      rw [Ring.next, Nat.mod_add_mod, Nat.add_assoc, Nat.add_comm 1 i]
    show (Ring.next kbdBufferSize s.driver.queue.kbdTail + i) % kbdBufferSize ∈ s.written
    rw [hsame]
    exact hslot
  case relies => trivial

theorem Step.queued (hstep : Step s l t) (h : Queued s) : Queued t := by
  have hrelies := h.relies
  cases hstep with
  | irq scancode => exact h.interrupt scancode
  | call call hplace => exact h.moves (by rw [hplace]; rfl) trivial
  | headFirst hplace => exact h.moves (by rw [hplace]; rfl) id
  | tailFirst hplace => exact h.moves (by rw [hplace]; rfl) rfl
  | tailSecond hplace =>
      rw [hplace] at hrelies
      exact h.moves (by rw [hplace, inFlight_compared]; rfl) (relies_compared _ hrelies)
  | headSecond hplace =>
      rw [hplace] at hrelies
      refine h.moves (by rw [hplace, inFlight_compared]; rfl) (relies_compared _ fun hne => ?_)
      have htail : _ = s.driver.queue.kbdTail := hrelies
      rwa [htail] at hne
  | available hplace => exact h.moves (by rw [hplace]; rfl) trivial
  | hlt hplace => exact h.moves (by rw [hplace]; rfl) trivial
  | index hplace =>
      rw [hplace] at hrelies
      exact h.moves (by rw [hplace]; rfl) ⟨hrelies, rfl⟩
  | slot hplace =>
      rw [hplace] at hrelies
      obtain ⟨hne, rfl⟩ := hrelies
      exact h.moves (by rw [hplace]; rfl) ⟨hne, rfl⟩
  | advance hplace =>
      rw [hplace] at hrelies
      exact h.moves (by rw [hplace]; rfl) ⟨hrelies.1, hrelies.2, rfl⟩
  | store hplace => exact h.takes hplace
  | return_ hplace =>
      refine ⟨h.within, ?_, h.written, trivial⟩
      have horder := h.order
      rw [hplace] at horder
      rw [horder]
      simp [inFlight]

theorem queued_initial : Queued initialSystem where
  within := ⟨by decide, by decide⟩
  order := rfl
  written := by
    intro i hi
    exact absurd hi (Nat.not_lt_zero i)
  relies := trivial

theorem run_queued (h : Run Step initialSystem ls s) : Queued s :=
  h.invariant (fun _ _ _ hs hstep => hstep.queued hs) queued_initial

/-- **The keyboard queue is a lossless bounded FIFO**: after every interleaving, the
characters returned, the one on its way and the ones in the queue are the accepted
ones, in order; only slots that were written are read; a character is dropped only
when 255 are pending, and then nothing changes. -/
theorem queue_lossless (h : Run Step initialSystem ls s) :
    s.accepted = s.returned ++ inFlight s.place ++ s.driver.queue.pending ∧
      (∀ tail, s.place = .slot tail → tail ∈ s.written) ∧
      ∀ scancode c, (decodeScancode scancode s.driver.modifiers).2 = some c →
        (s.interrupt scancode).accepted = s.accepted ++ [c] ∧ s.driver.queue.pending.length < 255 ∨
        (s.interrupt scancode).accepted = s.accepted ∧
          (s.interrupt scancode).driver.queue = s.driver.queue ∧
          s.driver.queue.pending.length = 255 := by
  have hq := run_queued h
  refine ⟨hq.order, fun tail hplace => ?_, fun scancode c hc => ?_⟩
  · have hrelies := hq.relies
    rw [hplace] at hrelies
    obtain ⟨hne, rfl⟩ := hrelies
    have hpos : 0 < Ring.count kbdBufferSize s.driver.queue.kbdHead s.driver.queue.kbdTail := by
      rw [Nat.pos_iff_ne_zero, Ne, Ring.count_eq_zero hq.within.tail]
      exact hne
    have hslot := hq.written 0 hpos
    rwa [Nat.add_zero, Nat.mod_eq_of_lt hq.within.tail] at hslot
  · have hqueue : (s.interrupt scancode).driver.queue = kbdBufferPut c s.driver.queue := by
      simp [System.interrupt, keyboardHandlerC, hc]
    rcases kbdBufferPut_cases hq.within c with ⟨hroom, -, hlen⟩ | ⟨hfull, hput, hlen⟩
    · refine Or.inl ⟨?_, hlen⟩
      simp [System.interrupt, hc, hroom]
    · refine Or.inr ⟨?_, hqueue.trans hput, hlen⟩
      simp [System.interrupt, hfull]

end Queue

/-- A key is pressed between the two reads of a comparison: `keyboard_getchar` halts
once, finds the character and returns it. -/
theorem queue_lossless_a : ∃ s, Run Step initialSystem
    (.call .keyboardGetchar :: .access :: .irq 0x1E#8 :: List.replicate 9 .access) s ∧
      s.returned = [0x61#8] ∧
      s.accepted = s.returned ++ inFlight s.place ++ s.driver.queue.pending := by
  have hcall : Step initialSystem (.call .keyboardGetchar) _ := .call .keyboardGetchar rfl
  have hrun := Run.cons hcall <| .cons (.headFirst rfl) <| .cons (.irq _ 0x1E#8) <|
    .cons (.tailSecond rfl) <| .cons (.hlt rfl) <| .cons (.headFirst rfl) <|
    .cons (.tailSecond rfl) <| .cons (.index rfl) <| .cons (.slot rfl) <|
    .cons (.advance rfl) <| .cons (.store rfl) <| .cons (.return_ rfl) (.nil _)
  exact ⟨_, hrun, by decide +kernel, (queue_lossless hrun).1⟩

end VectorForth.Keyboard
