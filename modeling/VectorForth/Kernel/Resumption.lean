import VectorForth.Kernel.TaskHeap

/-!
# Resumption

What a task finds when it is resumed: after a `yield` the registers of its call,
and the first time those that `task_create` wrote for it.
-/

namespace VectorForth.Context

open ByteMemory LabelledRun RoundRobin
open CallStack hiding Word
open Heap (Word)

section Steps

variable {taskExit entry t ret : Word} {s : Scheduler.State} {c : Nat}
  {sys sys₁ sys₂ sys₃ : System} {op : Op} {ops : List Op}

/-- The processor of a task that runs for the first time. -/
structure Enters (taskExit entry : Word) (cpu : Cpu Reg) (mem : Mem) : Prop where
  ip : cpu.ip = entry
  flags : cpu.flags.word = 0x202#64
  interrupts : cpu.flags.interrupts = true
  reg : ∀ r ∈ calleeSaved, cpu.reg r = 0#64
  aligned : cpu.sp.toNat % 16 = 8
  /-- A `ret` with the stack as it was found goes to `task_exit`. -/
  returns : ∀ cpu' mem', cpu'.sp = cpu.sp →
    (∀ x, cpu.sp.toNat ≤ x → x < cpu.sp.toNat + 8 → mem' x = mem x) →
    (exec cpu' mem' (.ret : Instr Reg)).1.ip = taskExit

/-- A task that has yielded is READY, and holds the registers of its call. -/
theorem Kept.suspends (h : Kept sys.machine sys.tasks s c)
    (hstep : Step taskExit sys (.yield ret) sys₁)
    (hswitch : sys₁.machine.currentTask ≠ sys.machine.currentTask) :
    sys.machine.currentTask ∈ sys₁.tasks ∧
      state sys₁.machine.mem sys.machine.currentTask = taskReady ∧
      Resumes sys₁.machine.mem sys.machine.currentTask { sys.machine.cpu with ip := ret } := by
  cases hstep with
  | @yield _ m' hroom hrun =>
      obtain ⟨s', j, m'', -, -, hyield, hy⟩ := h.yield hroom ret
      obtain rfl := Except.ok.inj (hyield.symm.trans hrun)
      have hjc : j ≠ c := by
        intro heq
        rw [hy.stays heq] at hswitch
        exact hswitch rfl
      have hl := hy.leaves hjc
      refine ⟨h.current_mem, ?_, hl.saved⟩
      rw [hl.state _ h.current_mem, if_neg (fun heq => hswitch (hl.current.trans heq.symm)),
        if_pos rfl]

theorem Kept.enters (h : Kept sys.machine sys.tasks s c)
    (hstep : Step taskExit sys (.create entry) sys₁) (ht : sys₁.tasks = sys.tasks ++ [t])
    (hrun : Run (Without t (Step taskExit)) sys₁ ops sys₂) (hstep' : Step taskExit sys₂ op sys₃)
    (hcur : sys₃.machine.currentTask = t) :
    Enters taskExit entry sys₃.machine.cpu sys₃.machine.mem := by
  cases hstep with
  | @create _ t' m' hcreate =>
      obtain rfl : t' = t := by simpa using ht
      obtain ⟨s', heap, base, -, hcreated, hkept, hresumes, -⟩ := h.create hcreate
      have hmem : t' ∈ sys.tasks ++ [t'] := List.mem_append_right _ (List.mem_singleton_self t')
      have hborn : Kept (⟨m', sys.tasks ++ [t']⟩ : System).machine _ _ _ := hkept
      obtain ⟨hrestored, hbytes⟩ := hborn.resumed hmem hcreated.state hrun hstep' hcur hresumes
      have hstart := Heap.heapVirtStart_toNat
      have hbound := (hcreated.sound.bounds (List.mem_cons_self ..)).2
      have halign := hcreated.sound.aligned (List.mem_cons_self ..)
      have hstack := hcreated.stack
      have hsp : sys₃.machine.cpu.sp.toNat = base.toNat + 8184 := by
        rw [hrestored.sp, firstCpu, BitVec.toNat_add, BitVec.toNat_ofNat]
        omega
      have hrsp : (rsp m'.mem t').toNat = base.toNat + 8120 := by
        rw [hcreated.rsp, BitVec.toNat_add, BitVec.toNat_ofNat]
        omega
      constructor
      case ip => exact hrestored.ip
      case flags =>
        rw [hrestored.flags]
        exact firstCpu_flags entry base
      case interrupts =>
        rw [hrestored.flags, Flags.interrupts, firstCpu_flags]
        decide
      case reg => exact hrestored.reg
      case aligned => omega
      case returns =>
        intro cpu' mem' hsp' hsame
        -- the word above the frame that `task_create` has built
        obtain ⟨hword, -⟩ := ((framed_append _ _ _).mp hcreated.framed).2
        rw [length_frame] at hword
        have hread : read64 mem' (base.toNat + 8184) = taskExit.toNat := by
          refine Eq.trans (read64_congr fun x hlow hhigh => ?_) hword
          rw [hsame x (by omega) (by omega)]
          exact hbytes x ⟨by show (rsp m'.mem t').toNat ≤ x; omega,
            by show x < (rsp m'.mem t').toNat + 72; omega⟩
        show BitVec.ofNat 64 (read64 mem' cpu'.sp.toNat) = taskExit
        rw [hsp', hsp, hread, BitVec.ofNat_toNat, BitVec.setWidth_eq]

end Steps

/-- **Context switches are transparent.** In every run, a task that is resumed
after a `yield` has its callee-saved registers, flags, stack pointer and return
address back; and a task that runs for the first time starts at its entry
function, as the ABI wants it, with `task_exit` to return to. -/
theorem switches_transparent {taskExit : Word} {sys₀ sys : System} {ops : List Op}
    (h₀ : Started sys₀) (hrun : Run (Step taskExit) sys₀ ops sys) :
    (∀ ret sys₁ ops' sys₂ op sys₃, Step taskExit sys (.yield ret) sys₁ →
      sys₁.machine.currentTask ≠ sys.machine.currentTask →
      Run (Without sys.machine.currentTask (Step taskExit)) sys₁ ops' sys₂ →
      Step taskExit sys₂ op sys₃ → sys₃.machine.currentTask = sys.machine.currentTask →
      Restored { sys.machine.cpu with ip := ret } sys₃.machine.cpu) ∧
    ∀ entry sys₁ t ops' sys₂ op sys₃, Step taskExit sys (.create entry) sys₁ →
      sys₁.tasks = sys.tasks ++ [t] → Run (Without t (Step taskExit)) sys₁ ops' sys₂ →
      Step taskExit sys₂ op sys₃ → sys₃.machine.currentTask = t →
      Enters taskExit entry sys₃.machine.cpu sys₃.machine.mem := by
  obtain ⟨s, c, h⟩ := run_kept h₀ hrun
  constructor
  · intro ret sys₁ ops' sys₂ op sys₃ hyield hswitch hrun' hstep hcur
    obtain ⟨ht, hready, hk⟩ := h.suspends hyield hswitch
    obtain ⟨⟨s₁, c₁, h₁⟩, -⟩ := h.step hyield
    exact (h₁.resumed ht hready hrun' hstep hcur hk).1
  · intro entry sys₁ t ops' sys₂ op sys₃ hcreate ht hrun' hstep hcur
    exact h.enters hcreate ht hrun' hstep hcur

/-- A task that is created, run and left by its `task_exit`: it starts as it should, and the
main task is resumed as it was. -/
theorem switches_transparent_first : ∃ sys₀ sys₁ sys₂ sys₃ : System,
    Step 0x1000#64 sys₀ (.create 0x2000#64) sys₁ ∧
    Enters 0x1000#64 0x2000#64 sys₂.machine.cpu sys₂.machine.mem ∧
    Restored { sys₁.machine.cpu with ip := 0x3000#64 } sys₃.machine.cpu := by
  obtain ⟨sys₀, hstarted, hidle⟩ := exists_booted
  obtain ⟨s, hk⟩ := hidle.kept
  obtain ⟨m₁, t, hrun, -⟩ := hk.create_blocks 0x1000#64 0x2000#64
    hstarted.stocked.blocks (by decide)
  obtain ⟨-, base, hborn⟩ := hidle.create hrun
  obtain ⟨m₂, hyield, -, hactive⟩ := hborn.yield 0x1000#64 0x3000#64
  obtain ⟨m₃, hexit, -, hidle'⟩ := hactive.exit 0x1000#64 0x3000#64
  have hcreate : Step 0x1000#64 sys₀ (.create 0x2000#64) ⟨m₁, sys₀.tasks ++ [t]⟩ := .create hrun
  obtain ⟨s₁, hk₁⟩ := hborn.kept
  have hmem := List.mem_of_mem_tail hborn.tail
  have hswitch : m₂.currentTask ≠ m₁.currentTask := by
    have hcur : m₂.currentTask = t := hactive.current
    rw [hcur]
    exact hk₁.ready_ne_current hmem hborn.ready
  have hback : m₃.currentTask = m₁.currentTask := by
    obtain ⟨s₃, hk₃⟩ := hidle'.kept
    exact hk₃.mirrors.current.trans hk₁.mirrors.current.symm
  refine ⟨sys₀, ⟨m₁, sys₀.tasks ++ [t]⟩, ⟨m₂, sys₀.tasks ++ [t]⟩, ⟨m₃, sys₀.tasks ++ [t]⟩, hcreate,
    ?_, ?_⟩
  · exact (switches_transparent hstarted (.nil sys₀)).2 _ _ t [] _ _ _ hcreate rfl (.nil _) hyield
      hactive.current
  · exact (switches_transparent hstarted (.cons hcreate (.nil _))).1 _ _ [] _ _ _ hyield hswitch
      (.nil _) hexit hback

end VectorForth.Context
