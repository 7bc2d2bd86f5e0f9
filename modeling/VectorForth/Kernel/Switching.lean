import VectorForth.Kernel.Creation

/-!
# Context switches are transparent

Every run of `task_create`, `yield` and `task_exit`, with whatever the running
task does in between. `yield` goes where the scheduler model goes, and the
invariant is kept by every step; so a task that is resumed finds the registers
of the moment it was suspended, and a new one those that `task_create` wrote.
-/

namespace VectorForth.Context

open ByteMemory LabelledRun RoundRobin
open CallStack hiding Word
open Heap (Word Stop Managed payloadSize Sound walkFuel)
open Forth (TaskState)
open Scheduler (Linked Ring)

/-! ## `yield` and `task_exit` -/

section Yield

variable {m m' : Machine} {ts : List Word} {s s' : Scheduler.State} {c j : Nat} {ret t : Word}

theorem Kept.current_ne_zero (h : Kept m ts s c) : m.currentTask ≠ 0#64 := by
  intro hzero
  have hbound := (h.sound.bounds (mem_live h.current_mem)).1
  rw [hzero, Heap.heapVirtStart_toNat, BitVec.toNat_ofNat, Nat.zero_mod] at hbound
  omega

/-- Both searches stop at the same task. -/
theorem Mirrors.search (h : Mirrors m ts s c) (hlen : ts.length ≤ walkFuel)
    (hyield : Scheduler.yield s = some s') (hcur : s'.currentTask = some j) :
    findNext m.mem m.currentTask walkFuel (Context.next m.mem m.currentTask) = .ok (ptr ts j) := by
  have hc := h.linked.lt
  rw [Scheduler.yield, h.linked.current] at hyield
  obtain ⟨j', hfind, hswitch⟩ := Option.map_eq_some_iff.mp hyield
  have heq : j' = j := by
    rw [← hswitch, Scheduler.switchTo] at hcur
    split at hcur
    · exact Option.some.inj hcur
    · rename_i hstay
      rw [h.linked.current] at hcur
      exact (not_not.mp hstay).trans (Option.some.inj hcur)
  subst heq
  rw [h.linked.allocated] at hfind
  have hmono := findNext_mono hfind hlen
  have hstart : (s.node c).next < ts.length := by
    rw [h.linked.next c hc]
    exact succ_mod_lt hc
  have hnext : Context.next m.mem m.currentTask = ptr ts (s.node c).next := by
    rw [h.current, h.next c hc]
  rw [hnext]
  exact h.findNext_eq hstart hmono

theorem yield_eq (ret : Word) (hcur : m.currentTask ≠ 0#64)
    (hfind : findNext m.mem m.currentTask walkFuel (next m.mem m.currentTask) = .ok t) :
    yield m ret = if t ≠ m.currentTask then
        .ok (callSwitchContext { m.setMem (setState (if state m.mem m.currentTask = taskRunning then
          setState m.mem m.currentTask taskReady else m.mem) t taskRunning) with currentTask := t }
          m.currentTask (rsp (setState (if state m.mem m.currentTask = taskRunning then
          setState m.mem m.currentTask taskReady else m.mem) t taskRunning) t) ret)
      else .ok m := by
  simp only [yield, if_neg hcur, hfind, bind, Except.bind]

/-- What a step of the scheduler has done to the records and the stacks. -/
structure Yielded (m : Machine) (ts : List Word) (s' : Scheduler.State) (c j : Nat)
    (v : BitVec 32) (ret : Word) (m' : Machine) : Prop where
  kept : Kept m' ts s' j
  leaves : j ≠ c → Leaves m ts (ptr ts j) v ret m'
  stays : j = c → m' = m

theorem Kept.leaves_kept {v : BitVec 32} (h : Kept m ts s c) (hring : Ring s' ts.length j)
    (hl : Leaves m ts (ptr ts j) v ret m') (hv : v = code (s'.node c).state)
    (hsame : ∀ i, i < ts.length → i ≠ c → i ≠ j → (s'.node i).state = (s.node i).state) :
    Kept m' ts s' j := by
  have hj := hring.lt
  refine h.change hl.change hring hl.current fun i hi => ?_
  rw [hl.state _ (ptr_mem hi), h.mirrors.current]
  by_cases hij : i = j
  · have hrunning : (s'.node j).state = .running := (hring.running j hj).mpr rfl
    rw [hij, if_pos rfl, hrunning]
    rfl
  · rw [if_neg (fun heq => hij ((ptr_inj h.mirrors.nodup hi hj).mp heq))]
    by_cases hic : i = c
    · rw [hic, if_pos rfl]
      exact hv
    · rw [if_neg (fun heq => hic ((ptr_inj h.mirrors.nodup hi h.ring.lt).mp heq)),
        h.mirrors.state i hi, hsame i hi hic hij]

/-- **`yield` on bytes is `yield` of the model.** -/
theorem Kept.yield (h : Kept m ts s c) (hroom : Room m ts) (ret : Word) :
    ∃ s' j m', Scheduler.yield s = some s' ∧ FirstAfter s.Ready ts.length c j ∧
      Context.yield m ret = .ok m' ∧ Yielded m ts s' c j taskReady ret m' := by
  have hc := h.ring.lt
  obtain ⟨s', j, hyield, hring, hfirst, hleft, hsame⟩ := h.ring.afterYield
  have hfind := h.mirrors.search (by have := h.length_lt; omega) hyield hring.current
  have hyieldM := yield_eq ret h.current_ne_zero hfind
  have hptr : ptr ts j = m.currentTask ↔ j = c := by
    rw [h.mirrors.current]
    exact ptr_inj h.mirrors.nodup hring.lt hc
  have hrunning : state m.mem m.currentTask = taskRunning := by
    have hstate : (s.node c).state = .running := (h.ring.running c hc).mpr rfl
    rw [h.mirrors.current, h.mirrors.state c hc, hstate]
    rfl
  by_cases hjc : j = c
  · rw [if_neg (not_not_intro (hptr.mpr hjc))] at hyieldM
    refine ⟨s', j, m, hyield, hfirst, hyieldM, ?_, fun hne => absurd hjc hne, fun _ => rfl⟩
    subst hjc
    have hstay : s' = s := by
      rw [Scheduler.yield, h.ring.current] at hyield
      obtain ⟨i, -, hswitch⟩ := Option.map_eq_some_iff.mp hyield
      rw [Scheduler.switchTo] at hswitch
      split at hswitch
      · rename_i hne
        rw [← hswitch] at hring
        exact absurd (Option.some.inj hring.current) hne
      · exact hswitch.symm
    rw [hstay]
    exact h
  · rw [if_pos (fun heq => hjc (hptr.mp heq)), if_pos hrunning] at hyieldM
    have hready : state m.mem (ptr ts j) = taskReady :=
      (h.ready_iff hring.lt).mpr (hfirst.2.1 hjc)
    have hl : Leaves m ts (ptr ts j) taskReady ret
        (Context.leaveTo m (ptr ts j) taskReady ret) :=
      h.leaveTo hroom (ptr_mem hring.lt) hready fun heq => hjc (hptr.mp heq)
    have hstate : (s'.node c).state = .ready := hleft hjc
    refine ⟨s', j, _, hyield, hfirst, hyieldM, ?_, fun _ => hl, fun heq => absurd heq hjc⟩
    exact h.leaves_kept hring hl (by rw [hstate]; rfl) hsame

/-- `task_exit` never comes back to a task other than the main one. -/
theorem Kept.exit (h : Kept m ts s c) (hroom : Room m ts) (hmain : c ≠ 0) (ret : Word) :
    ∃ s' j m', Scheduler.taskExit s = some s' ∧ FirstAfter s.Ready ts.length c j ∧ j ≠ c ∧
      Context.taskExit m ret = .ok m' ∧ Yielded m ts s' c j taskDead ret m' := by
  have hc := h.ring.lt
  obtain ⟨s', j, hexit, hring, hfirst, hjc, hdead, hsame⟩ := h.ring.afterExit hmain
  have hcur := h.current_mem
  -- the machine between the store of `task_exit` and its `yield`
  generalize hm₁ : m.setMem (setState m.mem m.currentTask taskDead) = m₁
  have hmem₁ : m₁.mem = setState m.mem m.currentTask taskDead := by
    rw [← hm₁]
    rfl
  have hcur₁ : m₁.currentTask = m.currentTask := by
    rw [← hm₁]
    rfl
  have hbytes : ∀ u ∈ ts, ∀ x, InRecord u x → ¬ (u.toNat + 20 ≤ x ∧ x < u.toNat + 24) →
      m₁.mem x = m.mem x := by
    rintro u hu x ⟨hlow, hhigh⟩ hx
    rw [hmem₁, setState_outside (h.fits hcur)]
    by_cases huc : u = m.currentTask
    · rw [← huc]
      omega
    · have hfar := h.records_apart hu hcur huc
      omega
  have hmirrors : Mirrors m₁ ts (s.setState c .dead) c := by
    constructor
    case linked => exact h.mirrors.linked.setState c .dead
    case nodup => exact h.mirrors.nodup
    case list =>
      rw [← hm₁]
      exact h.mirrors.list
    case current =>
      rw [hcur₁]
      exact h.mirrors.current
    case state =>
      intro i hi
      rw [Scheduler.setState_state]
      by_cases hic : i = c
      · rw [if_pos hic, hic, ← h.mirrors.current, hmem₁, state_setState]
        rfl
      · have hne : ptr ts i ≠ m.currentTask := by
          rw [h.mirrors.current, Ne, ptr_inj h.mirrors.nodup hi hc]
          exact hic
        have hfar := h.records_apart (ptr_mem hi) hcur hne
        rw [if_neg hic, ← h.mirrors.state i hi, hmem₁]
        exact state_congr (h.fits (ptr_mem hi)) fun x _ _ =>
          setState_outside (h.fits hcur) (by omega)
    case pid =>
      intro i hi
      rw [Scheduler.setState_pid, ← h.mirrors.pid i hi]
      exact pid_congr (h.fits (ptr_mem hi)) fun x _ _ =>
        hbytes _ (ptr_mem hi) x ⟨by omega, by omega⟩ (by omega)
    case next =>
      intro i hi
      rw [Scheduler.setState_next, ← h.mirrors.next i hi]
      exact next_congr (h.fits (ptr_mem hi)) fun x _ _ =>
        hbytes _ (ptr_mem hi) x ⟨by omega, by omega⟩ (by omega)
    case nextPid =>
      rw [← hm₁]
      exact h.mirrors.nextPid
  have hyield : Scheduler.yield (s.setState c .dead) = some s' := by
    rw [Scheduler.taskExit, h.ring.current] at hexit
    exact hexit
  have hfind := hmirrors.search (by have := h.length_lt; omega) hyield hring.current
  have hptr : ptr ts j ≠ m₁.currentTask := by
    rw [hcur₁, h.mirrors.current, Ne, ptr_inj h.mirrors.nodup hring.lt hc]
    exact hjc
  have hstopped : state m₁.mem m₁.currentTask ≠ taskRunning := by
    rw [hcur₁, hmem₁, state_setState]
    decide
  have hyieldM := yield_eq ret (hcur₁ ▸ h.current_ne_zero) hfind
  rw [if_pos hptr, if_neg hstopped, hmem₁, hcur₁] at hyieldM
  have hready : state m.mem (ptr ts j) = taskReady := (h.ready_iff hring.lt).mpr (hfirst.2.1 hjc)
  have hl : Leaves m ts (ptr ts j) taskDead ret
      (Context.leaveTo m (ptr ts j) taskDead ret) :=
    h.leaveTo hroom (ptr_mem hring.lt) hready (hcur₁ ▸ hptr)
  refine ⟨s', j, Context.leaveTo m (ptr ts j) taskDead ret, hexit, hfirst, hjc, ?_, ?_, fun _ => hl,
    fun heq => absurd heq hjc⟩
  · rw [Context.taskExit, hm₁, hyieldM, ← hm₁]
    rfl
  · exact h.leaves_kept hring hl (by rw [hdead]; rfl) hsame

end Yield

/-! ## Runs -/

/-- A machine, and the records that `scheduler_init` and `task_create` have returned. -/
structure System where
  machine : Machine
  tasks : List Word

inductive Op
  /-- The running task does something of its own. -/
  | work
  | create (entry : Word)
  | yield (ret : Word)
  | exit (ret : Word)

/-- Right after `scheduler_init`, on a heap that is fresh from `heap_init`. -/
def Started (sys : System) : Prop :=
  ∃ m, Fresh m ∧ schedulerInit m = .ok sys.machine ∧ sys.tasks = [sys.machine.currentTask]

/-- The running task leaves alone what is private; the main task never exits. -/
inductive Step (taskExit : Word) : System → Op → System → Prop
  | work {sys : System} {cpu : Cpu Reg} {mem : Mem}
      (hown : ∀ x, Private sys.machine sys.tasks x → mem x = sys.machine.mem x) :
      Step taskExit sys .work { sys with machine := { sys.machine.setMem mem with cpu := cpu } }
  | create {sys : System} {entry t : Word} {m' : Machine}
      (hrun : taskCreate taskExit sys.machine entry = .ok (m', t)) :
      Step taskExit sys (.create entry) { machine := m', tasks := sys.tasks ++ [t] }
  | yield {sys : System} {ret : Word} {m' : Machine} (hroom : Room sys.machine sys.tasks)
      (hrun : yield sys.machine ret = .ok m') :
      Step taskExit sys (.yield ret) { sys with machine := m' }
  | exit {sys : System} {ret : Word} {m' : Machine} (hroom : Room sys.machine sys.tasks)
      (hmain : sys.machine.currentTask ≠ sys.machine.taskList)
      (hrun : Context.taskExit sys.machine ret = .ok m') :
      Step taskExit sys (.exit ret) { sys with machine := m' }

/-- A step that does not resume `t`. -/
def Without (t : Word) (step : System → Op → System → Prop) (sys : System) (op : Op)
    (sys' : System) : Prop :=
  step sys op sys' ∧ sys'.machine.currentTask ≠ t

/-- A suspended task is resumed with what it holds, or left alone. -/
def Waits (m : Machine) (t : Word) (m' : Machine) : Prop :=
  (m'.currentTask = t ∧ (∀ k, Resumes m.mem t k → Restored k m'.cpu) ∧
    ∀ x, InFrame m.mem t x → m'.mem x = m.mem x) ∨
    (m'.currentTask ≠ t ∧ state m'.mem t = taskReady ∧ SameFrame m.mem m'.mem t)

section Steps

variable {taskExit entry t ret : Word} {m m' : Machine} {ts : List Word} {s s' : Scheduler.State}
  {c j : Nat} {sys sys' sys₀ sys₁ sys₂ sys₃ : System} {op : Op} {ops : List Op} {k : Cpu Reg}

theorem Kept.ready_ne_current (h : Kept m ts s c) (ht : t ∈ ts) (hready : state m.mem t = taskReady) :
    t ≠ m.currentTask := by
  rintro rfl
  have hc := h.ring.lt
  have hstate : (s.node c).state = .running := (h.ring.running c hc).mpr rfl
  rw [h.mirrors.current, h.mirrors.state c hc, hstate] at hready
  exact absurd hready (by decide)

theorem Yielded.waits {v : BitVec 32} (hy : Yielded m ts s' c j v ret m') (h : Kept m ts s c)
    (ht : t ∈ ts) (hready : state m.mem t = taskReady) : Waits m t m' := by
  have hne := h.ready_ne_current ht hready
  by_cases hjc : j = c
  · obtain rfl := hy.stays hjc
    exact Or.inr ⟨Ne.symm hne, hready, rfl, fun _ _ => rfl⟩
  · have hl := hy.leaves hjc
    by_cases htj : t = ptr ts j
    · rw [← htj] at hl
      exact Or.inl ⟨hl.current, hl.restored, hl.frame⟩
    · have hready' : state m'.mem t = taskReady := by
        rw [hl.state t ht, if_neg htj, if_neg hne, hready]
      refine Or.inr ⟨?_, hready', hl.change.sameFrame ht hne hready'⟩
      rw [hl.current]
      exact Ne.symm htj

theorem Kept.create (h : Kept m ts s c) (hrun : taskCreate taskExit m entry = .ok (m', t)) :
    ∃ s' heap base, Scheduler.taskCreate s = some s' ∧
      Created taskExit m ts entry heap t base m' ∧ Kept m' (ts ++ [t]) s' c ∧
      Resumes m'.mem t (firstCpu entry base) ∧ ∀ u ∈ ts, state m.mem u = taskReady → Waits m u m' := by
  rcases taskCreate_cases taskExit m entry with ⟨e, -, he⟩ | ⟨-, -, e, -, -, he⟩ |
    ⟨heap₁, t', heap₂, base, hk₁, hk₂⟩
  · rw [he] at hrun
    cases hrun
  · rw [he] at hrun
    cases hrun
  · obtain ⟨m'', hset, hcreated⟩ :=
      h.setUp taskExit entry (h.allocated hk₁ hk₂)
    rw [taskCreate_ok hk₁ hk₂, hset] at hrun
    obtain ⟨rfl, rfl⟩ := Prod.mk.inj (Except.ok.inj hrun)
    obtain ⟨s', hcreate, hring, hsame, hready⟩ := h.ring.afterCreate
    obtain ⟨hkept, hresumes, hold⟩ := hcreated.keeps h hring hsame hready
    refine ⟨s', heap₂, base, hcreate, hcreated, hkept, hresumes, fun u hu hu' => Or.inr ⟨?_, ?_, ?_⟩⟩
    · rw [hcreated.rest]
      exact Ne.symm (h.ready_ne_current hu hu')
    · rw [(hcreated.records h u hu).1.state, hu']
    · exact hold u hu hu'

/-- **Every step keeps the invariant**, and resumes a suspended task with what it
holds or leaves it alone. -/
theorem Kept.step (h : Kept sys.machine sys.tasks s c) (hstep : Step taskExit sys op sys') :
    (∃ s' c', Kept sys'.machine sys'.tasks s' c') ∧
      ∀ t ∈ sys.tasks, state sys.machine.mem t = taskReady →
        t ∈ sys'.tasks ∧ Waits sys.machine t sys'.machine := by
  cases hstep with
  | @work cpu mem hown =>
      obtain ⟨hchange, hstate⟩ := h.work_change cpu hown
      refine ⟨⟨s, c, h.change hchange h.ring h.mirrors.current fun i hi => ?_⟩, ?_⟩
      · exact (hstate _ (ptr_mem hi)).trans (h.mirrors.state i hi)
      · intro t ht hready
        have hne := h.ready_ne_current ht hready
        have hready' := (hstate t ht).trans hready
        exact ⟨ht, Or.inr ⟨Ne.symm hne, hready', hchange.sameFrame ht hne hready'⟩⟩
  | create hrun =>
      obtain ⟨s', -, -, -, -, hkept, -, hwaits⟩ := h.create hrun
      exact ⟨⟨s', c, hkept⟩, fun t ht hready => ⟨List.mem_append_left _ ht, hwaits t ht hready⟩⟩
  | @yield ret m' hroom hrun =>
      obtain ⟨s', j, m'', -, -, hyield, hy⟩ := h.yield hroom ret
      obtain rfl := Except.ok.inj (hyield.symm.trans hrun)
      exact ⟨⟨s', j, hy.kept⟩, fun t ht hready => ⟨ht, hy.waits h ht hready⟩⟩
  | @exit ret m' hroom hmain hrun =>
      have hmain' : c ≠ 0 := by
        rintro rfl
        exact hmain (h.mirrors.current.trans h.mirrors.list.symm)
      obtain ⟨s', j, m'', -, -, -, hexit, hy⟩ := h.exit hroom hmain' ret
      obtain rfl := Except.ok.inj (hexit.symm.trans hrun)
      exact ⟨⟨s', j, hy.kept⟩, fun t ht hready => ⟨ht, hy.waits h ht hready⟩⟩

theorem Started.kept (h : Started sys) : ∃ s c, Kept sys.machine sys.tasks s c := by
  obtain ⟨m, hfresh, hinit, htasks⟩ := h
  cases hk : Heap.kmalloc m.heap taskSize with
  | error e =>
      simp only [schedulerInit, hk, bind, Except.bind] at hinit
      cases hinit
  | ok r =>
      obtain ⟨heap, main⟩ := r
      obtain ⟨m', hinit', hcur, -, hkept, -⟩ := hfresh.starts hk
      obtain rfl := Except.ok.inj (hinit'.symm.trans hinit)
      rw [htasks, hcur]
      exact ⟨_, _, hkept⟩

theorem run_kept (h₀ : Started sys₀) (hrun : Run (Step taskExit) sys₀ ops sys) :
    ∃ s c, Kept sys.machine sys.tasks s c :=
  hrun.invariant (I := fun sys => ∃ s c, Kept sys.machine sys.tasks s c)
    (fun _ _ _ ⟨_, _, h⟩ hstep => (h.step hstep).1) h₀.kept

/-- A task that is not resumed is left alone, however long. -/
theorem Kept.without (h : Kept sys.machine sys.tasks s c) (ht : t ∈ sys.tasks)
    (hready : state sys.machine.mem t = taskReady)
    (hrun : Run (Without t (Step taskExit)) sys ops sys') :
    (∃ s' c', Kept sys'.machine sys'.tasks s' c') ∧ t ∈ sys'.tasks ∧
      state sys'.machine.mem t = taskReady ∧ SameFrame sys.machine.mem sys'.machine.mem t := by
  induction hrun generalizing s c with
  | nil sys => exact ⟨⟨s, c, h⟩, ht, hready, rfl, fun _ _ => rfl⟩
  | cons hstep _ ih =>
      obtain ⟨hstep, haway⟩ := hstep
      obtain ⟨⟨s₁, c₁, h₁⟩, hwaits⟩ := h.step hstep
      obtain ⟨ht₁, ⟨hcur, -⟩ | ⟨-, hready₁, hsame⟩⟩ := hwaits t ht hready
      · exact absurd hcur haway
      · obtain ⟨hkept, ht₂, hready₂, hsame₂⟩ := ih h₁ ht₁ hready₁
        exact ⟨hkept, ht₂, hready₂, hsame.trans hsame₂⟩

/-- The step that resumes a task finds what the task held when it was suspended. -/
theorem Kept.resumed (h : Kept sys.machine sys.tasks s c) (ht : t ∈ sys.tasks)
    (hready : state sys.machine.mem t = taskReady)
    (hrun : Run (Without t (Step taskExit)) sys ops sys₂) (hstep : Step taskExit sys₂ op sys₃)
    (hcur : sys₃.machine.currentTask = t) (hk : Resumes sys.machine.mem t k) :
    Restored k sys₃.machine.cpu ∧
      ∀ x, InFrame sys.machine.mem t x → sys₃.machine.mem x = sys.machine.mem x := by
  obtain ⟨⟨s₂, c₂, h₂⟩, ht₂, hready₂, hsame⟩ := h.without ht hready hrun
  obtain ⟨-, hwaits⟩ := h₂.step hstep
  obtain ⟨-, ⟨-, hrestored, hbytes⟩ | ⟨haway, -⟩⟩ := hwaits t ht₂ hready₂
  · refine ⟨hrestored k (hsame.resumes hk), fun x hx => (hbytes x ?_).trans (hsame.bytes x hx)⟩
    rw [InFrame, hsame.rsp]
    exact hx
  · exact absurd hcur haway

end Steps

end VectorForth.Context
