import Mathlib.Data.Fin.Basic
import Mathlib.Tactic.SplitIfs
import VectorForth.Kernel.Keyboard

/-!
# The interrupt controllers

`pic_init` programs the two controllers, and `irq_handler_c` tells them when an
interrupt has been served. A controller passes a request on only while nothing of
that priority or above is in service, so one acknowledgement too few blocks a line
for good, and one too many ends the service of another. A request that goes away
before the processor has asked for its number shows as line 7 or 15, with nothing in
service.
-/

namespace VectorForth.Irq

open ByteMemory LabelledRun

/-! ## One controller -/

/-- The registers of an 8259. `expects` is the number of the initialization word that
comes next, zero outside the sequence. -/
structure Pic where
  irr : Byte
  isr : Byte
  imr : Byte
  base : Byte
  expects : Nat
  fourWords : Bool
  readIsr : Bool

def bit (i : Fin 8) : Byte := 1#8 <<< i.val

namespace Pic

/-- A line that is requested and not masked. -/
def requested (p : Pic) (i : Fin 8) : Bool := p.irr.getLsbD i && !p.imr.getLsbD i

/-- The request that is passed on: the lowest line, if no line up to it is in service. -/
def next (p : Pic) : Option (Fin 8) :=
  Fin.find? fun i => p.requested i && decide (∀ j ≤ i, p.isr.getLsbD j.val = false)

/-- A device asks. -/
def request (i : Fin 8) (p : Pic) : Pic := { p with irr := p.irr ||| bit i }

def withdraw (i : Fin 8) (p : Pic) : Pic := { p with irr := p.irr &&& ~~~bit i }

/-- The processor takes the request. -/
def acknowledge (i : Fin 8) (p : Pic) : Pic :=
  { p with irr := p.irr &&& ~~~bit i, isr := p.isr ||| bit i }

/-- A write to the command port: the first initialization word, the choice of the register
to read, or the end of the interrupt of the highest priority. -/
def command (v : Byte) (p : Pic) : Pic :=
  if v &&& 0x10#8 ≠ 0#8 then
    { p with
      irr := 0#8, isr := 0#8, imr := 0#8, expects := 2, fourWords := v.getLsbD 0, readIsr := false }
  else if v &&& 0x08#8 ≠ 0#8 then
    if v.getLsbD 1 then { p with readIsr := v.getLsbD 0 } else p
  else if v &&& 0xE0#8 = 0x20#8 then { p with isr := p.isr &&& (p.isr - 1#8) }
  else p

/-- A write to the data port. -/
def data (v : Byte) (p : Pic) : Pic :=
  match p.expects with
  | 2 => { p with base := v &&& 0xF8#8, expects := 3 }
  | 3 => { p with expects := if p.fourWords then 4 else 0 }
  | 4 => { p with expects := 0 }
  | _ => { p with imr := v }

end Pic

/-! ## The board -/

structure System where
  master : Pic
  slave : Pic
  kernelTicks : BitVec 64
  keyboard : Keyboard.Driver

def pic1Command : Nat := 0x20
def pic1Data : Nat := 0x21
def pic2Command : Nat := 0xA0
def pic2Data : Nat := 0xA1
def picEoi : Byte := 0x20#8
def irqBase : Byte := 0x20#8

def outb (port : Nat) (v : Byte) (s : System) : System :=
  if port = pic1Command then { s with master := s.master.command v }
  else if port = pic1Data then { s with master := s.master.data v }
  else if port = pic2Command then { s with slave := s.slave.command v }
  else if port = pic2Data then { s with slave := s.slave.data v }
  else s

def inb (port : Nat) (s : System) : Byte :=
  if port = pic1Command then if s.master.readIsr then s.master.isr else s.master.irr
  else if port = pic1Data then s.master.imr
  else if port = pic2Command then if s.slave.readIsr then s.slave.isr else s.slave.irr
  else if port = pic2Data then s.slave.imr
  else 0xFF#8

/-- Line 2 of the first controller is the output of the second. -/
def System.wired (s : System) : Pic :=
  { s.master with
    irr := if s.slave.next.isSome then s.master.irr ||| bit 2 else s.master.irr &&& ~~~bit 2 }

/-- The processor asks for the number of the interrupt. With `dropped` the second
controller has lost its request by the time it is asked. -/
def System.acknowledge (dropped : Bool) (s : System) : System × Byte :=
  match s.wired.next with
  | none => (s, s.master.base + 7#8)
  | some i =>
      let s' := { s with master := s.wired.acknowledge i }
      if i = 2 then
        match if dropped then none else s.slave.next with
        | none => (s', s.slave.base + 7#8)
        | some j => ({ s' with slave := s.slave.acknowledge j }, s.slave.base + BitVec.ofNat 8 j)
      else (s', s.master.base + BitVec.ofNat 8 i)

/-! ## idt.c and irq.c -/

def ioWait (s : System) : System := outb 0x80 0#8 s

def picInit (s : System) : System :=
  let s := ioWait (outb pic1Command 0x11#8 s)
  let s := ioWait (outb pic2Command 0x11#8 s)
  let s := ioWait (outb pic1Data irqBase s)
  let s := ioWait (outb pic2Data (irqBase + 8#8) s)
  let s := ioWait (outb pic1Data 0x04#8 s)
  let s := ioWait (outb pic2Data 0x02#8 s)
  let s := ioWait (outb pic1Data 0x01#8 s)
  let s := ioWait (outb pic2Data 0x01#8 s)
  let s := outb pic1Data 0xFC#8 s
  outb pic2Data 0xFF#8 s

def picSendEoi (irq : Byte) (s : System) : System :=
  let s := if 8#8 ≤ irq then outb pic2Command picEoi s else s
  outb pic1Command picEoi s

def picSetMask (irq : Byte) (s : System) : System :=
  let (port, irq) := if irq < 8#8 then (pic1Data, irq) else (pic2Data, irq - 8#8)
  outb port (inb port s ||| (1#8 <<< irq.toNat)) s

def picClearMask (irq : Byte) (s : System) : System :=
  let (port, irq) := if irq < 8#8 then (pic1Data, irq) else (pic2Data, irq - 8#8)
  outb port (inb port s &&& ~~~(1#8 <<< irq.toNat)) s

def timerHandlerC (s : System) : System := { s with kernelTicks := s.kernelTicks + 1#64 }

/-- `irq_handler_c` for `frame->int_no`, with the scancode that the keyboard would give. -/
def irqHandlerC (intNo : BitVec 64) (scancode : Byte) (s : System) : System :=
  let irq := intNo - irqBase.setWidth 64
  match irq.toNat with
  | 0 => picSendEoi (irq.setWidth 8) (timerHandlerC s)
  | 1 => picSendEoi (irq.setWidth 8)
      { s with keyboard := Keyboard.keyboardHandlerC scancode s.keyboard }
  | 7 =>
      let s := outb pic1Command 0x0B#8 s
      if inb pic1Command s &&& 0x80#8 = 0#8 then s else picSendEoi (irq.setWidth 8) s
  | 15 =>
      let s := outb pic2Command 0x0B#8 s
      if inb pic2Command s &&& 0x80#8 = 0#8 then outb pic1Command picEoi s
      else picSendEoi (irq.setWidth 8) s
  | _ => picSendEoi (irq.setWidth 8) s

/-! ## Runs -/

/-- What happens while interrupts are enabled: a device asks, or takes its request back;
a driver changes a mask; the processor serves the interrupt with the given number. -/
inductive Event
  | request (n : Fin 16)
  | withdraw (n : Fin 16)
  | setMask (irq : Fin 16)
  | clearMask (irq : Fin 16)
  | interrupt (vector scancode : Byte)

/-- Line `n` of the board. -/
def onLine (n : Fin 16) (f : Fin 8 → Pic → Pic) (s : System) : System :=
  if h : n.val < 8 then { s with master := f ⟨n, h⟩ s.master }
  else { s with slave := f ⟨n - 8, by omega⟩ s.slave }

inductive Step : System → Event → System → Prop
  | request (s : System) (n : Fin 16) :
      Step s (.request n) (onLine n Pic.request s)
  | withdraw (s : System) (n : Fin 16) :
      Step s (.withdraw n) (onLine n Pic.withdraw s)
  | setMask (s : System) (n : Fin 16) :
      Step s (.setMask n) (picSetMask (BitVec.ofNat 8 n) s)
  | clearMask (s : System) (n : Fin 16) :
      Step s (.clearMask n) (picClearMask (BitVec.ofNat 8 n) s)
  | interrupt (s : System) (dropped : Bool) (scancode : Byte) :
      Step s (.interrupt (s.acknowledge dropped).2 scancode)
        (irqHandlerC ((s.acknowledge dropped).2.setWidth 64) scancode (s.acknowledge dropped).1)

/-- The timer interrupts of a run. -/
def ticksOf (es : List Event) : Nat :=
  es.countP fun e => match e with
    | .interrupt vector _ => vector == 0x20#8
    | _ => false

/-- The scancodes that the keyboard interrupts of a run read. -/
def scancodesOf (es : List Event) : List Byte :=
  es.filterMap fun e => match e with
    | .interrupt vector scancode => if vector = 0x21#8 then some scancode else none
    | _ => none

/-- Nothing is in service, and the initialization is over. -/
structure Pic.Idle (base : Byte) (p : Pic) : Prop where
  isr : p.isr = 0#8
  base : p.base = base
  expects : p.expects = 0

structure System.Idle (s : System) : Prop where
  master : s.master.Idle 0x20#8
  slave : s.slave.Idle 0x28#8

/-- The interrupt `v` is being served: what is in service, and nothing else. -/
inductive Serving : System → Byte → Prop
  | line {s : System} {i : Fin 8} : i ≠ 2 → s.master.isr = bit i → s.master.base = 0x20#8 →
      s.master.expects = 0 → s.slave.Idle 0x28#8 → Serving s (0x20#8 + BitVec.ofNat 8 i)
  | slaveLine {s : System} {j : Fin 8} : s.master.isr = bit 2 → s.master.base = 0x20#8 →
      s.master.expects = 0 → s.slave.isr = bit j → s.slave.base = 0x28#8 → s.slave.expects = 0 →
      Serving s (0x28#8 + BitVec.ofNat 8 j)
  /-- The second controller has nothing to say. -/
  | lost {s : System} : s.master.isr = bit 2 → s.master.base = 0x20#8 → s.master.expects = 0 →
      s.slave.Idle 0x28#8 → Serving s 0x2F#8
  | spurious {s : System} : s.Idle → Serving s 0x27#8

/-- A line of the board is requested and passes all masks. -/
def System.Requested (s : System) (n : Fin 16) : Prop :=
  if h : n.val < 8 then n ≠ 2 ∧ s.master.requested ⟨n, h⟩ = true
  else s.slave.requested ⟨n - 8, by omega⟩ = true ∧ s.master.imr.getLsbD 2 = false

instance (s : System) (n : Fin 16) : Decidable (s.Requested n) :=
  inferInstanceAs (Decidable (dite _ _ _))

/-- A request that is waiting, masked or not. -/
def System.pending (s : System) (n : Fin 16) : Bool :=
  if n.val < 8 then s.master.irr.getLsbD n else s.slave.irr.getLsbD (n - 8)

/-- Whether line `n` is waiting after an event, if it was before when `b`. -/
def Event.asks (n : Fin 16) (b : Bool) : Event → Bool
  | .request k => decide (n = k) || b
  | .withdraw k => !decide (n = k) && b
  | .interrupt vector _ => !decide (vector = 0x20#8 + BitVec.ofNat 8 n) && b
  | _ => b

/-- The lines of the second controller come between lines 1 and 3 of the first. -/
def rank (n : Fin 16) : Nat := if n.val < 2 then n else if n.val < 8 then n + 8 else n - 6

/-- The line that is served next. -/
def System.First (s : System) (n : Fin 16) : Prop :=
  s.Requested n ∧ ∀ k, s.Requested k → rank n ≤ rank k

instance (s : System) (n : Fin 16) : Decidable (s.First n) :=
  inferInstanceAs (Decidable (_ ∧ _))

section Board

variable {s t : System} {p : Pic} {i : Fin 8} {n : Fin 16} {v : Byte} {es : List Event}

@[simp] theorem outb_pic1Command (v : Byte) (s : System) :
    outb pic1Command v s = { s with master := s.master.command v } := rfl

@[simp] theorem outb_pic1Data (v : Byte) (s : System) :
    outb pic1Data v s = { s with master := s.master.data v } := rfl

@[simp] theorem outb_pic2Command (v : Byte) (s : System) :
    outb pic2Command v s = { s with slave := s.slave.command v } := rfl

@[simp] theorem outb_pic2Data (v : Byte) (s : System) :
    outb pic2Data v s = { s with slave := s.slave.data v } := rfl

@[simp] theorem ioWait_eq (s : System) : ioWait s = s := rfl

/-- The four initialization words and the mask. -/
theorem command_init (p : Pic) (base mask w : Byte) :
    (((((p.command 0x11#8).data base).data w).data 0x01#8).data mask) =
      { p with
        irr := 0#8, isr := 0#8, imr := mask, base := base &&& 0xF8#8, expects := 0
        fourWords := true, readIsr := false } := rfl

theorem picInit_eq (s : System) :
    picInit s = { s with
      master := ⟨0#8, 0#8, 0xFC#8, 0x20#8, 0, true, false⟩
      slave := ⟨0#8, 0#8, 0xFF#8, 0x28#8, 0, true, false⟩ } := by
  simp only [picInit, outb_pic1Command, outb_pic1Data, outb_pic2Command, outb_pic2Data, ioWait_eq,
    command_init]
  rfl

theorem picInit_idle (s : System) : (picInit s).Idle := by
  rw [picInit_eq]
  exact ⟨⟨rfl, rfl, rfl⟩, ⟨rfl, rfl, rfl⟩⟩

theorem getLsbD_bit (i j : Fin 8) : (bit j).getLsbD i = decide (i = j) := by
  revert i j
  decide

theorem getLsbD_and_not_bit (v : Byte) (i j : Fin 8) :
    (v &&& ~~~bit j).getLsbD i = (!decide (i = j) && v.getLsbD i) := by
  rw [BitVec.getLsbD_and, BitVec.getLsbD_not, getLsbD_bit, Bool.and_comm]
  simp [i.isLt]

theorem next_eq_some (h : p.isr = 0#8) :
    p.next = some i ↔ p.requested i = true ∧ ∀ j < i, p.requested j = false := by
  rw [Pic.next, Fin.find?_eq_some_iff]
  simp [h]

theorem next_eq_none (h : p.isr = 0#8) : p.next = none ↔ ∀ i, p.requested i = false := by
  rw [Pic.next, Fin.find?_eq_none_iff]
  simp [h]

/-- Nothing is taken, or a line of the first controller, or line 2 with or without a line of
the second. -/
theorem acknowledge_cases (h : s.Idle) (dropped : Bool) :
    s.acknowledge dropped = (s, 0x27#8) ∨
      (∃ i : Fin 8, i ≠ 2 ∧ s.acknowledge dropped =
        ({ s with master := s.wired.acknowledge i }, 0x20#8 + BitVec.ofNat 8 i)) ∨
      s.acknowledge dropped = ({ s with master := s.wired.acknowledge 2 }, 0x2F#8) ∨
      ∃ j : Fin 8, s.acknowledge dropped =
        ({ s with master := s.wired.acknowledge 2, slave := s.slave.acknowledge j },
          0x28#8 + BitVec.ofNat 8 j) := by
  unfold System.acknowledge
  cases s.wired.next with
  | none =>
      dsimp only
      rw [h.master.base]
      exact .inl rfl
  | some i =>
      dsimp only
      by_cases hi : i = 2
      · subst hi
        rw [if_pos rfl]
        cases (if dropped then none else s.slave.next) with
        | none =>
            dsimp only
            rw [h.slave.base]
            exact .inr (.inr (.inl rfl))
        | some j =>
            dsimp only
            rw [h.slave.base]
            exact .inr (.inr (.inr ⟨j, rfl⟩))
      · rw [if_neg hi, h.master.base]
        exact .inr (.inl ⟨i, hi, rfl⟩)

theorem acknowledge_serving (h : s.Idle) (dropped : Bool) :
    Serving (s.acknowledge dropped).1 (s.acknowledge dropped).2 ∧
      (s.acknowledge dropped).1.kernelTicks = s.kernelTicks ∧
      (s.acknowledge dropped).1.keyboard = s.keyboard := by
  have htaken : ∀ i, (s.wired.acknowledge i).isr = bit i := by
    intro i
    show s.master.isr ||| bit i = bit i
    rw [h.master.isr, BitVec.zero_or]
  have htaken' : ∀ j, (s.slave.acknowledge j).isr = bit j := by
    intro j
    show s.slave.isr ||| bit j = bit j
    rw [h.slave.isr, BitVec.zero_or]
  rcases acknowledge_cases h dropped with hack | ⟨i, hi, hack⟩ | hack | ⟨j, hack⟩
  · rw [hack]
    exact ⟨.spurious h, rfl, rfl⟩
  · rw [hack]
    exact ⟨.line hi (htaken i) h.master.base h.master.expects h.slave, rfl, rfl⟩
  · rw [hack]
    exact ⟨.lost (htaken 2) h.master.base h.master.expects h.slave, rfl, rfl⟩
  · rw [hack]
    exact ⟨.slaveLine (htaken 2) h.master.base h.master.expects (htaken' j) h.slave.base
      h.slave.expects, rfl, rfl⟩

theorem bit_and_pred (i : Fin 8) : bit i &&& (bit i - 1#8) = 0#8 := by
  revert i
  decide

theorem command_eoi (p : Pic) : p.command picEoi = { p with isr := p.isr &&& (p.isr - 1#8) } := rfl

/-- The end of an interrupt leaves nothing in service, if there was one at most. -/
theorem command_eoi_idle {base : Byte} (h : p.isr = bit i ∨ p.isr = 0#8) (hbase : p.base = base)
    (hexpects : p.expects = 0) : (p.command picEoi).Idle base := by
  refine ⟨?_, hbase, hexpects⟩
  rw [command_eoi]
  rcases h with h | h
  · show p.isr &&& (p.isr - 1#8) = 0#8
    rw [h]
    exact bit_and_pred i
  · show p.isr &&& (p.isr - 1#8) = 0#8
    rw [h]
    rfl

theorem picSendEoi_master {irq : Byte} (h : irq < 8#8) (s : System) :
    picSendEoi irq s = { s with master := s.master.command picEoi } := by
  rw [picSendEoi, if_neg (BitVec.not_le.2 h)]
  rfl

theorem picSendEoi_slave {irq : Byte} (h : 8#8 ≤ irq) (s : System) :
    picSendEoi irq s =
      { s with master := s.master.command picEoi, slave := s.slave.command picEoi } := by
  rw [picSendEoi, if_pos h]
  rfl

/-- What the interrupt `v` is for. -/
def serve (v scancode : Byte) (s : System) : System :=
  { s with
    kernelTicks := if v = 0x20#8 then s.kernelTicks + 1#64 else s.kernelTicks
    keyboard := if v = 0x21#8 then Keyboard.keyboardHandlerC scancode s.keyboard else s.keyboard }

theorem irqHandlerC_line (h₇ : n ≠ 7) (h₁₅ : n ≠ 15) (scancode : Byte) (s : System) :
    irqHandlerC ((0x20#8 + BitVec.ofNat 8 n).setWidth 64) scancode s =
      picSendEoi (BitVec.ofNat 8 n) (serve (0x20#8 + BitVec.ofNat 8 n) scancode s) := by
  have hirq : (0x20#8 + BitVec.ofNat 8 n).setWidth 64 - irqBase.setWidth 64 = BitVec.ofNat 64 n := by
    clear h₇ h₁₅
    revert n
    decide
  have hn : (BitVec.ofNat 64 n).toNat = n.val := Nat.mod_eq_of_lt (by omega)
  have hbyte : (BitVec.ofNat 64 n).setWidth 8 = BitVec.ofNat 8 n := by
    clear h₇ h₁₅ hirq hn
    revert n
    decide
  unfold irqHandlerC
  dsimp only
  rw [hirq, hbyte, hn]
  split
  next h₀ =>
    obtain rfl : n = 0 := Fin.ext h₀
    rfl
  next h₁ =>
    obtain rfl : n = 1 := Fin.ext h₁
    rfl
  next h => exact absurd (Fin.ext h) h₇
  next h => exact absurd (Fin.ext h) h₁₅
  next h₀ h₁ _ _ =>
    have hv : 0x20#8 + BitVec.ofNat 8 n ≠ 0x20#8 ∧ 0x20#8 + BitVec.ofNat 8 n ≠ 0x21#8 := by
      clear h₇ h₁₅ hirq hn hbyte
      revert n
      decide
    rw [serve, if_neg hv.1, if_neg hv.2]

theorem irqHandlerC_seven (scancode : Byte) (s : System) :
    irqHandlerC ((0x27#8 : Byte).setWidth 64) scancode s =
      if s.master.isr &&& 0x80#8 = 0#8 then outb pic1Command 0x0B#8 s
      else picSendEoi 7#8 (outb pic1Command 0x0B#8 s) := rfl

theorem irqHandlerC_fifteen (scancode : Byte) (s : System) :
    irqHandlerC ((0x2F#8 : Byte).setWidth 64) scancode s =
      if s.slave.isr &&& 0x80#8 = 0#8 then outb pic1Command picEoi (outb pic2Command 0x0B#8 s)
      else picSendEoi 15#8 (outb pic2Command 0x0B#8 s) := rfl

theorem line_lt (i : Fin 8) : BitVec.ofNat 8 i < 8#8 := by
  revert i
  decide

theorem le_line (j : Fin 8) : 8#8 ≤ BitVec.ofNat 8 (8 + j) := by
  revert j
  decide

theorem vector_slave (j : Fin 8) : 0x28#8 + BitVec.ofNat 8 j = 0x20#8 + BitVec.ofNat 8 (8 + j) := by
  revert j
  decide

/-- The handler ends what is in service, and nothing else. -/
theorem handler_serves (h : Serving s v) (scancode : Byte) :
    (irqHandlerC (v.setWidth 64) scancode s).Idle ∧
      (irqHandlerC (v.setWidth 64) scancode s).kernelTicks = (serve v scancode s).kernelTicks ∧
      (irqHandlerC (v.setWidth 64) scancode s).keyboard = (serve v scancode s).keyboard := by
  cases h with
  | @line i hi hisr hbase hexpects hslave =>
      by_cases h₇ : i = 7
      -- a real interrupt 7: its bit is in service, so `irq_handler_c` goes on to the end
      · subst h₇
        show (irqHandlerC ((0x27#8 : Byte).setWidth 64) scancode s).Idle ∧ _
        rw [show (0x20#8 + BitVec.ofNat 8 (7 : Fin 8) : Byte) = 0x27#8 from rfl, irqHandlerC_seven,
          hisr, if_neg (by decide), picSendEoi_master (by decide)]
        exact ⟨⟨command_eoi_idle (.inl hisr) hbase hexpects, hslave⟩, rfl, rfl⟩
      · have hline := irqHandlerC_line (n := ⟨i, by omega⟩) (by simpa [Fin.ext_iff] using h₇)
          (by simp [Fin.ext_iff]; omega) scancode s
        rw [hline, picSendEoi_master (line_lt i)]
        exact ⟨⟨command_eoi_idle (.inl hisr) hbase hexpects, hslave⟩, rfl, rfl⟩
  | @slaveLine j hisr hbase hexpects hisr' hbase' hexpects' =>
      -- both controllers have a bit in service, and `pic_send_eoi` writes to both
      by_cases h₇ : j = 7
      · subst h₇
        rw [show (0x28#8 + BitVec.ofNat 8 (7 : Fin 8) : Byte) = 0x2F#8 from rfl, irqHandlerC_fifteen,
          hisr', if_neg (by decide), picSendEoi_slave (by decide)]
        exact ⟨⟨command_eoi_idle (.inl hisr) hbase hexpects,
          command_eoi_idle (.inl hisr') hbase' hexpects'⟩, rfl, rfl⟩
      · have hline := irqHandlerC_line (n := ⟨8 + j, by omega⟩) (by simp [Fin.ext_iff]; omega)
          (by simp [Fin.ext_iff] at h₇ ⊢; omega) scancode s
        rw [vector_slave, hline, picSendEoi_slave (le_line j)]
        exact ⟨⟨command_eoi_idle (.inl hisr) hbase hexpects,
          command_eoi_idle (.inl hisr') hbase' hexpects'⟩, rfl, rfl⟩
  | lost hisr hbase hexpects hslave =>
      -- only the first controller took something
      rw [irqHandlerC_fifteen, hslave.isr, if_pos (by decide)]
      exact ⟨⟨command_eoi_idle (.inl hisr) hbase hexpects,
        ⟨hslave.isr, hslave.base, hslave.expects⟩⟩, rfl, rfl⟩
  | spurious hidle =>
      rw [irqHandlerC_seven, hidle.master.isr, if_pos (by decide)]
      exact ⟨⟨⟨hidle.master.isr, hidle.master.base, hidle.master.expects⟩, hidle.slave⟩, rfl, rfl⟩

/-! ### Requests and masks -/

theorem onLine_idle {f : Fin 8 → Pic → Pic}
    (hf : ∀ i p base, p.Idle base → (f i p).Idle base) (n : Fin 16) (h : s.Idle) :
    (onLine n f s).Idle ∧ (onLine n f s).kernelTicks = s.kernelTicks ∧
      (onLine n f s).keyboard = s.keyboard := by
  unfold onLine
  split
  · exact ⟨⟨hf _ _ _ h.master, h.slave⟩, rfl, rfl⟩
  · exact ⟨⟨h.master, hf _ _ _ h.slave⟩, rfl, rfl⟩

/-- Outside the sequence a write to the data port is the mask. -/
theorem data_eq (h : p.expects = 0) (v : Byte) : p.data v = { p with imr := v } := by
  unfold Pic.data
  rw [h]
  rfl

theorem data_idle {base : Byte} (h : p.Idle base) (v : Byte) : (p.data v).Idle base := by
  rw [data_eq h.expects]
  exact ⟨h.isr, h.base, h.expects⟩

theorem outb_data_idle (h : s.Idle) {port : Nat} (hport : port = pic1Data ∨ port = pic2Data)
    (v : Byte) : (outb port v s).Idle ∧ (outb port v s).kernelTicks = s.kernelTicks ∧
      (outb port v s).keyboard = s.keyboard := by
  rcases hport with rfl | rfl
  · exact ⟨⟨data_idle h.master v, h.slave⟩, rfl, rfl⟩
  · exact ⟨⟨h.master, data_idle h.slave v⟩, rfl, rfl⟩

/-- A change of a mask is one write to a data port. -/
theorem picSetMask_outb (irq : Byte) (s : System) : ∃ port v,
    (port = pic1Data ∨ port = pic2Data) ∧ picSetMask irq s = outb port v s := by
  unfold picSetMask
  by_cases hirq : irq < 8#8
  · rw [if_pos hirq]
    exact ⟨_, _, .inl rfl, rfl⟩
  · rw [if_neg hirq]
    exact ⟨_, _, .inr rfl, rfl⟩

theorem picClearMask_outb (irq : Byte) (s : System) : ∃ port v,
    (port = pic1Data ∨ port = pic2Data) ∧ picClearMask irq s = outb port v s := by
  unfold picClearMask
  by_cases hirq : irq < 8#8
  · rw [if_pos hirq]
    exact ⟨_, _, .inl rfl, rfl⟩
  · rw [if_neg hirq]
    exact ⟨_, _, .inr rfl, rfl⟩

/-! ### Which interrupt comes next -/

theorem wired_irr (h : i ≠ 2) : s.wired.irr.getLsbD i = s.master.irr.getLsbD i := by
  have hbit : (bit 2).getLsbD i = false := by
    rw [getLsbD_bit]
    exact decide_eq_false h
  unfold System.wired
  dsimp only
  split
  · rw [BitVec.getLsbD_or, hbit, Bool.or_false]
  · rw [getLsbD_and_not_bit, decide_eq_false h]
    rfl

theorem wired_requested (h : i ≠ 2) : s.wired.requested i = s.master.requested i := by
  unfold Pic.requested
  rw [wired_irr h]
  rfl

theorem wired_requested_two :
    s.wired.requested 2 = (s.slave.next.isSome && !s.master.imr.getLsbD 2) := by
  have hbit : (bit 2).getLsbD 2 = true := rfl
  unfold Pic.requested System.wired
  dsimp only
  cases s.slave.next.isSome with
  | true => simp [hbit]
  | false => simp [hbit]

theorem requested_master (hn : i ≠ 2) (h : s.master.requested i = true) :
    s.Requested ⟨i, by omega⟩ := by
  unfold System.Requested
  rw [dif_pos i.isLt]
  refine ⟨fun h₂ => ?_, h⟩
  have hi : i.val = 2 := congrArg Fin.val h₂
  exact hn (Fin.ext hi)

theorem requested_slave {j : Fin 8} (h : s.slave.requested j = true)
    (h₂ : s.master.imr.getLsbD 2 = false) : s.Requested ⟨8 + j, by omega⟩ := by
  unfold System.Requested
  rw [dif_neg (by simp)]
  refine ⟨?_, h₂⟩
  rw [show (⟨(⟨8 + j, by omega⟩ : Fin 16).val - 8, by omega⟩ : Fin 8) = j from Fin.ext (by simp)]
  exact h

/-- A request that reaches line 2 of the first controller comes from the second. -/
theorem requested_of_wired_two (h : s.Idle) (h₂ : s.wired.requested 2 = true) :
    ∃ j : Fin 8, s.slave.next = some j ∧ s.Requested ⟨8 + j, by omega⟩ := by
  rw [wired_requested_two, Bool.and_eq_true, Bool.not_eq_true', Option.isSome_iff_exists] at h₂
  obtain ⟨⟨j, hj⟩, himr⟩ := h₂
  exact ⟨j, hj, requested_slave ((next_eq_some h.slave.isr).1 hj).1 himr⟩

/-- Line `k` goes before line `n`. -/
theorem not_rank_le {k : Fin 16}
    (h : k.val < n.val ∧ (n.val < 8 ↔ k.val < 8) ∨ k.val < 2 ∧ 8 ≤ n.val ∨
      8 ≤ k.val ∧ 2 < n.val ∧ n.val < 8) : ¬ rank n ≤ rank k := by
  unfold rank
  split_ifs <;> omega

theorem acknowledge_none (h : s.Idle) (hnone : ∀ n, ¬ s.Requested n) (dropped : Bool) :
    s.acknowledge dropped = (s, 0x27#8) := by
  have hnext : s.wired.next = none := by
    rw [next_eq_none (show s.wired.isr = 0#8 from h.master.isr)]
    intro i
    by_cases hi : i = 2
    · subst hi
      refine Bool.eq_false_iff.2 fun h₂ => ?_
      obtain ⟨j, -, hj⟩ := requested_of_wired_two h h₂
      exact hnone _ hj
    · rw [wired_requested hi]
      exact Bool.eq_false_iff.2 fun hreq => hnone _ (requested_master hi hreq)
  unfold System.acknowledge
  rw [hnext, h.master.base]
  rfl

/-- The processor is given the first line. -/
theorem acknowledge_first (h : s.Idle) (hfirst : s.First n) :
    (s.acknowledge false).2 = 0x20#8 + BitVec.ofNat 8 n := by
  obtain ⟨hreq, hmin⟩ := hfirst
  have hisr : s.wired.isr = 0#8 := h.master.isr
  by_cases hn : n.val < 8
  · unfold System.Requested at hreq
    rw [dif_pos hn] at hreq
    obtain ⟨hn₂, hreq⟩ := hreq
    have hi : (⟨n, hn⟩ : Fin 8) ≠ 2 := by
      intro h₂
      have hval : n.val = 2 := congrArg Fin.val h₂
      exact hn₂ (Fin.ext hval)
    have hnext : s.wired.next = some ⟨n, hn⟩ := by
      rw [next_eq_some hisr, wired_requested hi]
      refine ⟨hreq, fun j hj => Bool.eq_false_iff.2 fun hreq' => ?_⟩
      have hj : j.val < n.val := hj
      -- line 2 stands for a line of the second controller, which goes before `n > 2`
      by_cases hj₂ : j = 2
      · subst hj₂
        obtain ⟨k, -, hk⟩ := requested_of_wired_two h hreq'
        exact not_rank_le (.inr (.inr ⟨Nat.le_add_right 8 k, hj, hn⟩)) (hmin _ hk)
      · rw [wired_requested hj₂] at hreq'
        exact not_rank_le (.inl ⟨hj, iff_of_true hn j.isLt⟩) (hmin _ (requested_master hj₂ hreq'))
    unfold System.acknowledge
    rw [hnext]
    dsimp only
    rw [if_neg hi, h.master.base]
  · unfold System.Requested at hreq
    rw [dif_neg hn] at hreq
    obtain ⟨hreq, himr⟩ := hreq
    have hslave : s.slave.next = some ⟨n - 8, by omega⟩ := by
      rw [next_eq_some h.slave.isr]
      refine ⟨hreq, fun j hj => Bool.eq_false_iff.2 fun hreq' => ?_⟩
      have hj : j.val < n.val - 8 := hj
      refine not_rank_le (.inl ⟨?_, iff_of_false hn (Nat.not_lt.2 (Nat.le_add_right 8 j))⟩)
        (hmin _ (requested_slave hreq' himr))
      show 8 + j.val < n.val
      omega
    have hnext : s.wired.next = some 2 := by
      rw [next_eq_some hisr, wired_requested_two, hslave, himr]
      refine ⟨rfl, fun j hj => Bool.eq_false_iff.2 fun hreq' => ?_⟩
      have hj : j.val < 2 := hj
      have hj₂ : j ≠ 2 := fun h₂ => by simp [h₂] at hj
      rw [wired_requested hj₂] at hreq'
      exact not_rank_le (.inr (.inl ⟨hj, Nat.not_lt.1 hn⟩)) (hmin _ (requested_master hj₂ hreq'))
    unfold System.acknowledge
    rw [hnext, hslave]
    dsimp only
    rw [if_pos rfl, h.slave.base, if_neg (by decide)]
    show 0x28#8 + BitVec.ofNat 8 (⟨n - 8, by omega⟩ : Fin 8) = _
    rw [vector_slave]
    congr 2
    show 8 + (n.val - 8) = n.val
    omega

/-! ### What is still waiting -/

theorem vector_inj (k n : Fin 16) :
    0x20#8 + BitVec.ofNat 8 k = 0x20#8 + BitVec.ofNat 8 n ↔ n = k := by
  revert k n
  decide

theorem pending_congr (hmaster : t.master.irr = s.master.irr) (hslave : t.slave.irr = s.slave.irr)
    (n : Fin 16) : t.pending n = s.pending n := by
  unfold System.pending
  rw [hmaster, hslave]

theorem request_pending (k n : Fin 16) :
    (onLine k Pic.request s).pending n = (decide (n = k) || s.pending n) := by
  unfold onLine System.pending
  by_cases hk : k.val < 8 <;> by_cases hn : n.val < 8
  · rw [dif_pos hk, if_pos hn, if_pos hn]
    show (s.master.irr ||| bit ⟨k, hk⟩).getLsbD n = _
    rw [BitVec.getLsbD_or, Bool.or_comm, getLsbD_bit ⟨n, hn⟩]
    simp [Fin.ext_iff]
  · have hne : n ≠ k := fun h => hn (h ▸ hk)
    rw [dif_pos hk, if_neg hn, if_neg hn, decide_eq_false hne, Bool.false_or]
  · have hne : n ≠ k := fun h => hk (h ▸ hn)
    rw [dif_neg hk, if_pos hn, if_pos hn, decide_eq_false hne, Bool.false_or]
  · rw [dif_neg hk, if_neg hn, if_neg hn]
    show (s.slave.irr ||| bit ⟨k - 8, by omega⟩).getLsbD (n - 8) = _
    rw [BitVec.getLsbD_or, Bool.or_comm, getLsbD_bit ⟨n - 8, by omega⟩]
    congr 1
    simp only [Fin.ext_iff, decide_eq_decide]
    omega

theorem withdraw_pending (k n : Fin 16) :
    (onLine k Pic.withdraw s).pending n = (!decide (n = k) && s.pending n) := by
  unfold onLine System.pending
  by_cases hk : k.val < 8 <;> by_cases hn : n.val < 8
  · rw [dif_pos hk, if_pos hn, if_pos hn]
    show (s.master.irr &&& ~~~bit ⟨k, hk⟩).getLsbD n = _
    rw [getLsbD_and_not_bit _ ⟨n, hn⟩]
    simp [Fin.ext_iff]
  · have hne : n ≠ k := fun h => hn (h ▸ hk)
    rw [dif_pos hk, if_neg hn, if_neg hn, decide_eq_false hne, Bool.not_false, Bool.true_and]
  · have hne : n ≠ k := fun h => hk (h ▸ hn)
    rw [dif_neg hk, if_pos hn, if_pos hn, decide_eq_false hne, Bool.not_false, Bool.true_and]
  · rw [dif_neg hk, if_neg hn, if_neg hn]
    show (s.slave.irr &&& ~~~bit ⟨k - 8, by omega⟩).getLsbD (n - 8) = _
    rw [getLsbD_and_not_bit _ ⟨n - 8, by omega⟩]
    congr 2
    simp only [Fin.ext_iff, decide_eq_decide]
    omega

theorem picSendEoi_irr (irq : Byte) (s : System) :
    (picSendEoi irq s).master.irr = s.master.irr ∧ (picSendEoi irq s).slave.irr = s.slave.irr := by
  by_cases h : irq < 8#8
  · rw [picSendEoi_master h]
    exact ⟨rfl, rfl⟩
  · rw [picSendEoi_slave (BitVec.not_lt.1 h)]
    exact ⟨rfl, rfl⟩

theorem irqHandlerC_pending (intNo : BitVec 64) (scancode : Byte) (s : System) :
    (irqHandlerC intNo scancode s).pending n = s.pending n := by
  unfold irqHandlerC
  dsimp only
  split
  · exact pending_congr (picSendEoi_irr _ _).1 (picSendEoi_irr _ _).2 n
  · exact pending_congr (picSendEoi_irr _ _).1 (picSendEoi_irr _ _).2 n
  · split
    · rfl
    · exact pending_congr (picSendEoi_irr _ _).1 (picSendEoi_irr _ _).2 n
  · split
    · rfl
    · exact pending_congr (picSendEoi_irr _ _).1 (picSendEoi_irr _ _).2 n
  · exact pending_congr (picSendEoi_irr _ _).1 (picSendEoi_irr _ _).2 n

theorem acknowledge_master_pending (h₂ : n ≠ 2) (i : Fin 8) :
    ({ s with master := s.wired.acknowledge i } : System).pending n =
      (!decide (n.val = i.val) && s.pending n) := by
  unfold System.pending
  by_cases hn : n.val < 8
  · rw [if_pos hn, if_pos hn]
    show (s.wired.irr &&& ~~~bit i).getLsbD n = _
    rw [getLsbD_and_not_bit _ ⟨n, hn⟩, wired_irr (i := ⟨n, hn⟩)]
    · simp [Fin.ext_iff]
    · intro h
      have hval : n.val = 2 := congrArg Fin.val h
      exact h₂ (Fin.ext hval)
  · rw [if_neg hn, if_neg hn, decide_eq_false (show n.val ≠ i.val by omega)]
    rfl

theorem acknowledge_slave_pending (p : Pic) (j : Fin 8) :
    ({ s with master := p, slave := s.slave.acknowledge j } : System).pending n =
      (!decide (n.val = 8 + j.val) && ({ s with master := p } : System).pending n) := by
  unfold System.pending
  by_cases hn : n.val < 8
  · rw [if_pos hn, if_pos hn, decide_eq_false (show n.val ≠ 8 + j.val by omega)]
    rfl
  · rw [if_neg hn, if_neg hn]
    show (s.slave.irr &&& ~~~bit j).getLsbD (n - 8) = _
    rw [getLsbD_and_not_bit _ ⟨n - 8, by omega⟩]
    congr 2
    simp only [Fin.ext_iff, decide_eq_decide]
    omega

/-- The processor takes the request that it is given, and no other. -/
theorem acknowledge_pending (h : s.Idle) (h₂ : n ≠ 2) (h₇ : n ≠ 7) (h₁₅ : n ≠ 15)
    (dropped : Bool) :
    (s.acknowledge dropped).1.pending n =
      (!decide ((s.acknowledge dropped).2 = 0x20#8 + BitVec.ofNat 8 n) && s.pending n) := by
  have hn₂ : n.val ≠ 2 := fun hval => h₂ (Fin.ext hval)
  have hvector : ∀ k : Fin 16, decide (0x20#8 + BitVec.ofNat 8 k = 0x20#8 + BitVec.ofNat 8 n) =
      decide (n.val = k.val) := by
    intro k
    rw [decide_eq_decide, vector_inj, Fin.ext_iff]
  rcases acknowledge_cases h dropped with hack | ⟨i, -, hack⟩ | hack | ⟨j, hack⟩
  · have hv : (0x27#8 : Byte) ≠ 0x20#8 + BitVec.ofNat 8 n := fun hv => h₇ ((vector_inj 7 n).1 hv)
    rw [hack, decide_eq_false hv]
    rfl
  · rw [hack]
    dsimp only
    rw [acknowledge_master_pending h₂, hvector ⟨i, by omega⟩]
  · have hv : (0x2F#8 : Byte) ≠ 0x20#8 + BitVec.ofNat 8 n := fun hv => h₁₅ ((vector_inj 15 n).1 hv)
    rw [hack, decide_eq_false hv]
    dsimp only
    rw [acknowledge_master_pending h₂, decide_eq_false (show n.val ≠ (2 : Fin 8).val from hn₂)]
  · rw [hack]
    dsimp only
    rw [acknowledge_slave_pending, acknowledge_master_pending h₂, vector_slave,
      hvector ⟨8 + j, by omega⟩, decide_eq_false (show n.val ≠ (2 : Fin 8).val from hn₂)]
    rfl

theorem outb_data_pending (h : s.Idle) {port : Nat} (hport : port = pic1Data ∨ port = pic2Data)
    (v : Byte) : (outb port v s).pending n = s.pending n := by
  rcases hport with rfl | rfl
  · have hirr : (s.master.data v).irr = s.master.irr := by rw [data_eq h.master.expects]
    exact pending_congr (t := outb pic1Data v s) hirr rfl n
  · have hirr : (s.slave.data v).irr = s.slave.irr := by rw [data_eq h.slave.expects]
    exact pending_congr (s := s) (t := outb pic2Data v s) rfl hirr n

theorem step_pending {e : Event} (hstep : Step s e t) (h : s.Idle) (h₂ : n ≠ 2) (h₇ : n ≠ 7)
    (h₁₅ : n ≠ 15) : t.pending n = e.asks n (s.pending n) := by
  cases hstep with
  | request k => exact request_pending k n
  | withdraw k => exact withdraw_pending k n
  | setMask k =>
      obtain ⟨port, v, hport, hset⟩ := picSetMask_outb (BitVec.ofNat 8 k) s
      rw [hset]
      exact outb_data_pending h hport v
  | clearMask k =>
      obtain ⟨port, v, hport, hclear⟩ := picClearMask_outb (BitVec.ofNat 8 k) s
      rw [hclear]
      exact outb_data_pending h hport v
  | interrupt dropped scancode =>
      rw [irqHandlerC_pending]
      exact acknowledge_pending h h₂ h₇ h₁₅ dropped

/-! ### One step, and a run -/

theorem step_keeps {e : Event} (hstep : Step s e t) (h : s.Idle) :
    t.Idle ∧ t.kernelTicks = s.kernelTicks + BitVec.ofNat 64 (ticksOf [e]) ∧
      t.keyboard =
        (scancodesOf [e]).foldl (fun d c => Keyboard.keyboardHandlerC c d) s.keyboard := by
  cases hstep with
  | request n =>
      obtain ⟨hidle, hticks, hkeyboard⟩ :=
        onLine_idle (f := Pic.request) (fun _ _ _ hp => ⟨hp.isr, hp.base, hp.expects⟩) n h
      exact ⟨hidle, hticks.trans (BitVec.add_zero _).symm, hkeyboard⟩
  | withdraw n =>
      obtain ⟨hidle, hticks, hkeyboard⟩ :=
        onLine_idle (f := Pic.withdraw) (fun _ _ _ hp => ⟨hp.isr, hp.base, hp.expects⟩) n h
      exact ⟨hidle, hticks.trans (BitVec.add_zero _).symm, hkeyboard⟩
  | setMask n =>
      obtain ⟨port, v, hport, hset⟩ := picSetMask_outb (BitVec.ofNat 8 n) s
      obtain ⟨hidle, hticks, hkeyboard⟩ := outb_data_idle h hport v
      rw [hset]
      exact ⟨hidle, hticks.trans (BitVec.add_zero _).symm, hkeyboard⟩
  | clearMask n =>
      obtain ⟨port, v, hport, hclear⟩ := picClearMask_outb (BitVec.ofNat 8 n) s
      obtain ⟨hidle, hticks, hkeyboard⟩ := outb_data_idle h hport v
      rw [hclear]
      exact ⟨hidle, hticks.trans (BitVec.add_zero _).symm, hkeyboard⟩
  | interrupt dropped scancode =>
      obtain ⟨hserving, hticks, hkeyboard⟩ := acknowledge_serving h dropped
      obtain ⟨hidle, hticks', hkeyboard'⟩ := handler_serves hserving scancode
      refine ⟨hidle, ?_, ?_⟩
      · rw [hticks', serve, hticks]
        by_cases hv : (s.acknowledge dropped).2 = 0x20#8
        · simp [ticksOf, hv]
        · simp [ticksOf, hv]
      · rw [hkeyboard', serve, hkeyboard]
        by_cases hv : (s.acknowledge dropped).2 = 0x21#8
        · simp [scancodesOf, hv]
        · simp [scancodesOf, hv]

theorem run_keeps (hrun : Run Step s es t) (h : s.Idle) :
    t.Idle ∧ t.kernelTicks = s.kernelTicks + BitVec.ofNat 64 (ticksOf es) ∧
      t.keyboard =
        (scancodesOf es).foldl (fun d c => Keyboard.keyboardHandlerC c d) s.keyboard := by
  induction hrun with
  | nil s => exact ⟨h, (BitVec.add_zero _).symm, rfl⟩
  | @cons s t u e es hstep _ ih =>
      obtain ⟨hidle, hticks, hkeyboard⟩ := step_keeps hstep h
      obtain ⟨hidle', hticks', hkeyboard'⟩ := ih hidle
      refine ⟨hidle', ?_, ?_⟩
      · have hcount : ticksOf ([e] ++ es) = ticksOf [e] + ticksOf es := List.countP_append
        rw [List.singleton_append] at hcount
        rw [hticks', hticks, hcount, BitVec.ofNat_add, BitVec.add_assoc]
      · have hcodes : scancodesOf ([e] ++ es) = scancodesOf [e] ++ scancodesOf es :=
          List.filterMap_append
        rw [List.singleton_append] at hcodes
        rw [hkeyboard', hkeyboard, hcodes, List.foldl_append]

theorem run_pending (hrun : Run Step s es t) (h : s.Idle) (h₂ : n ≠ 2) (h₇ : n ≠ 7)
    (h₁₅ : n ≠ 15) : t.pending n = es.foldl (fun b e => e.asks n b) (s.pending n) := by
  induction hrun with
  | nil s => rfl
  | cons hstep _ ih =>
      rw [ih (step_keeps hstep h).1, step_pending hstep h h₂ h₇ h₁₅]
      rfl

theorem picInit_pending (s : System) (n : Fin 16) : (picInit s).pending n = false := by
  unfold System.pending
  rw [picInit_eq]
  split
  · exact BitVec.getLsbD_zero
  · exact BitVec.getLsbD_zero

/-- After `pic_init`, whatever the devices ask or take back and however the masks are set,
each timer interrupt counts and each keyboard interrupt reads its scancode, once, and no
interrupt stays in service at either controller. A request is waiting until it is taken back
or its own interrupt is served; on lines 7 and 15 that interrupt may also be one that nobody
asked for. The next interrupt is that of the first line that asks and passes the masks. -/
theorem interrupts_served (s : System) (hrun : Run Step (picInit s) es t) :
    t.kernelTicks = s.kernelTicks + BitVec.ofNat 64 (ticksOf es) ∧
      t.keyboard =
        (scancodesOf es).foldl (fun d c => Keyboard.keyboardHandlerC c d) s.keyboard ∧
      (t.master.isr = 0#8 ∧ t.slave.isr = 0#8) ∧
      (∀ n, n ≠ 2 → n ≠ 7 → n ≠ 15 → t.pending n = es.foldl (fun b e => e.asks n b) false) ∧
      (∀ n, t.First n → (t.acknowledge false).2 = 0x20#8 + BitVec.ofNat 8 n) ∧
      ((∀ n, ¬ t.Requested n) → ∀ dropped, t.acknowledge dropped = (t, 0x27#8)) := by
  obtain ⟨hidle, hticks, hkeyboard⟩ := run_keeps hrun (picInit_idle s)
  rw [picInit_eq] at hticks hkeyboard
  refine ⟨hticks, hkeyboard, ⟨hidle.master.isr, hidle.slave.isr⟩, ?_,
    fun n => acknowledge_first hidle,
    fun hnone => acknowledge_none hidle hnone⟩
  intro n h₂ h₇ h₁₅
  rw [run_pending hrun (picInit_idle s) h₂ h₇ h₁₅, picInit_pending]

/-- Both controllers before `pic_init`, with everything in service. -/
def board : System where
  master := ⟨0xFF#8, 0xFF#8, 0#8, 0x08#8, 0, true, false⟩
  slave := ⟨0xFF#8, 0xFF#8, 0#8, 0x70#8, 0, true, false⟩
  kernelTicks := 41#64
  keyboard := Keyboard.initialDriver

/-- A key and a tick at once, and then the mouse, once both masks let it through. -/
theorem interrupts_served_mouse : ∃ t,
    Run Step (picInit board)
      [.request 1, .request 0, .interrupt 0x20#8 0#8, .interrupt 0x21#8 0x1E#8,
        .request 12, .clearMask 12, .clearMask 2] t ∧
      t.kernelTicks = 42#64 ∧
      t.keyboard = Keyboard.keyboardHandlerC 0x1E#8 Keyboard.initialDriver ∧
      (t.master.isr = 0#8 ∧ t.slave.isr = 0#8) ∧
      t.pending 0 = false ∧ (t.acknowledge false).2 = 0x2C#8 := by
  have hrun := Run.cons (Step.request (picInit board) 1) (.cons (Step.request _ 0)
    (.cons (Step.interrupt _ false 0#8) (.cons (Step.interrupt _ false 0x1E#8)
      (.cons (Step.request _ 12) (.cons (Step.clearMask _ 12) (.cons (Step.clearMask _ 2)
        (.nil _)))))))
  obtain ⟨hticks, hkeyboard, hserved, hpending, hfirst, -⟩ := interrupts_served board hrun
  exact ⟨_, hrun, hticks, hkeyboard, hserved, hpending 0 (by decide) (by decide) (by decide),
    hfirst 12 (by decide)⟩

end Board

end VectorForth.Irq
