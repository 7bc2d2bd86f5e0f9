import VectorForth.Kernel.Switching

/-!
# The heap of the tasks

`task.c` takes a record and a stack for every task, and gives nothing back: the
heap is used from its start to its end, the ring keeps the dead tasks, and the
number of creations that can succeed is fixed.
-/

namespace VectorForth.Context

open ByteMemory LabelledRun RoundRobin BlockList
open CallStack hiding Word
open Heap (Word Stop Managed payloadSize Sound Blocks walkFuel)

/-! ## The blocks after `n` creations -/

/-- The record of the main task, and the record and the stack of every other one. -/
def taken : Nat → List Block
  | 0 => [⟨32, false⟩]
  | n + 1 => taken n ++ [⟨32, false⟩, ⟨8192, false⟩]

def taskBlocks (n : Nat) : List Block := taken n ++ [⟨1048480 - 8288 * n, true⟩]

/-- The heap has room for so many tasks beside the main one. -/
def taskLimit : Nat := 126

theorem taken_busy (n : Nat) : ∀ x ∈ taken n, x.free = false := by
  induction n with
  | zero =>
      intro x hx
      rw [List.mem_singleton.mp hx]
  | succ n ih =>
      intro x hx
      rcases List.mem_append.mp hx with hx | hx
      · exact ih x hx
      · rcases List.mem_pair.mp hx with rfl | rfl
        · rfl
        · rfl

theorem used_taken (n : Nat) : used (taken n) = 32 + 8224 * n := by
  induction n with
  | zero => rfl
  | succ n ih =>
      rw [taken, used_append, ih]
      show 32 + 8224 * n + (32 + (8192 + 0)) = _
      omega

section Creation

variable {taskExit entry t : Word} {m m' : Machine} {ts : List Word} {s : Scheduler.State}
  {c n : Nat} {bs : List Block} {old : Word}

theorem Change.blocks (hc : Change m m' ts old) (h : Kept m ts s c) (hb : Blocks m.heap bs) :
    Blocks m'.heap bs := by
  rw [hc.heap]
  exact hb.keep h.sound hc.managed

/-- The record comes out of the free block at the end. -/
theorem taskBlocks_record {heap : Heap.State} (hb : Blocks heap (taskBlocks n))
    (hn : n ≤ taskLimit) :
    ∃ heap' t, Heap.kmalloc heap taskSize = .ok (heap', t) ∧
      Blocks heap' (taken n ++ [⟨32, false⟩] ++ [⟨1048480 - 8288 * n - 64, true⟩]) := by
  have hlimit : taskLimit = 126 := rfl
  have hmin : Heap.headerSize + Heap.minBlock = 96 := rfl
  obtain ⟨heap', t, hk, hb'⟩ := (Heap.kmalloc_last hb (taken_busy n) (n := taskSize) (k := 32)
    (by decide) (by decide)).2 (by omega)
  refine ⟨heap', t, hk, ?_⟩
  have hrest : 1048480 - 8288 * n - 32 - Heap.headerSize = 1048480 - 8288 * n - 64 := by
    show _ - 32 - 32 = _
    omega
  rw [hrest] at hb'
  rw [List.append_assoc]
  exact hb'

theorem record_busy (n : Nat) : ∀ x ∈ taken n ++ [⟨32, false⟩], x.free = false := by
  intro x hx
  rcases List.mem_append.mp hx with hx | hx
  · exact taken_busy n x hx
  · rw [List.mem_singleton.mp hx]

/-- **A creation succeeds** while there have been fewer than the limit. -/
theorem Kept.create_blocks (taskExit entry : Word) (h : Kept m ts s c) (hb : Blocks m.heap (taskBlocks n))
    (hn : n < taskLimit) :
    ∃ m' t, taskCreate taskExit m entry = .ok (m', t) ∧ Blocks m'.heap (taskBlocks (n + 1)) := by
  have hlimit : taskLimit = 126 := rfl
  have hmin : Heap.headerSize + Heap.minBlock = 96 := rfl
  have hsize : Heap.headerSize = 32 := rfl
  obtain ⟨heap₁, t, hk₁, hb₁⟩ := taskBlocks_record hb (by omega)
  generalize hrest : 1048480 - 8288 * n - 64 = rest at hb₁
  have hmalloc := h.sound.malloc (by decide) (by decide) hk₁
  have hb₁' := hb₁.keep hmalloc.sound (setPid_managed (v := m.nextPid) hmalloc.sound hmalloc.large)
  obtain ⟨heap₂, base, hk₂, hb₂⟩ := (Heap.kmalloc_last hb₁' (record_busy n) (n := taskStackSize)
    (k := 8192) (by decide) (by decide)).2 (by omega)
  obtain ⟨m', hset, hcreated⟩ :=
    h.setUp taskExit entry (h.allocated hk₁ hk₂)
  refine ⟨m', t, (taskCreate_ok hk₁ hk₂).trans hset, ?_⟩
  have hleft : 1048480 - 8288 * (n + 1) = rest - 8192 - Heap.headerSize := by omega
  have hblocks := hcreated.blocks _ hb₂
  rw [taskBlocks, taken, hleft]
  simp only [List.append_assoc, List.cons_append, List.nil_append] at hblocks ⊢
  exact hblocks

/-- **At the limit it panics**, for want of a stack. -/
theorem Kept.create_full (h : Kept m ts s c) (hb : Blocks m.heap (taskBlocks taskLimit)) :
    taskCreate taskExit m entry = .error (.panic "Heap: Out of memory!") := by
  obtain ⟨heap₁, t, hk₁, hb₁⟩ := taskBlocks_record hb (Nat.le_refl _)
  have hmalloc := h.sound.malloc (by decide) (by decide) hk₁
  have hb₁' := hb₁.keep hmalloc.sound (setPid_managed (v := m.nextPid) hmalloc.sound hmalloc.large)
  have hk₂ := (Heap.kmalloc_last hb₁' (record_busy taskLimit) (n := taskStackSize) (k := 8192)
    (by decide) (by decide)).1 (by decide)
  simp only [taskCreate, hk₁, hk₂, bind, Except.bind]

end Creation

/-! ## Runs -/

def Op.isCreate : Op → Bool
  | .create _ => true
  | _ => false

/-- Nothing that was created is given back. -/
structure Stocked (sys : System) (n : Nat) : Prop where
  kept : ∃ s c, Kept sys.machine sys.tasks s c
  length : sys.tasks.length = n + 1
  limit : n ≤ taskLimit
  blocks : Blocks sys.machine.heap (taskBlocks n)

section Runs

variable {taskExit entry : Word} {sys sys' sys₀ : System} {n : Nat} {op : Op} {ops : List Op}

theorem Stocked.step (h : Stocked sys n) (hstep : Step taskExit sys op sys') :
    Stocked sys' (n + [op].countP Op.isCreate) := by
  obtain ⟨⟨s, c, hk⟩, hlen, hlimit, hb⟩ := h
  have hkept := (hk.step hstep).1
  cases hstep with
  | @work cpu mem hown =>
      exact ⟨hkept, hlen, hlimit, (hk.work_change cpu hown).1.blocks hk hb⟩
  | @create entry t m' hrun =>
      have hn : n < taskLimit := by
        refine Nat.lt_of_le_of_ne hlimit fun heq => ?_
        rw [heq] at hb
        rw [hk.create_full hb] at hrun
        cases hrun
      obtain ⟨m'', t', hrun', hb'⟩ := hk.create_blocks taskExit entry hb hn
      obtain ⟨rfl, -⟩ := Prod.mk.inj (Except.ok.inj (hrun'.symm.trans hrun))
      refine ⟨hkept, ?_, hn, hb'⟩
      show (sys.tasks ++ [t]).length = _
      rw [List.length_append, hlen]
      rfl
  | @yield ret m' hroom hrun =>
      refine ⟨hkept, hlen, hlimit, ?_⟩
      obtain ⟨s', j, m'', -, -, hyield, hy⟩ := hk.yield hroom ret
      obtain rfl := Except.ok.inj (hyield.symm.trans hrun)
      by_cases hjc : j = c
      · rw [hy.stays hjc]
        exact hb
      · exact (hy.leaves hjc).change.blocks hk hb
  | @exit ret m' hroom hmain hrun =>
      refine ⟨hkept, hlen, hlimit, ?_⟩
      have hmain' : c ≠ 0 := by
        rintro rfl
        exact hmain (hk.mirrors.current.trans hk.mirrors.list.symm)
      obtain ⟨s', j, m'', -, -, hjc, hexit, hy⟩ := hk.exit hroom hmain' ret
      obtain rfl := Except.ok.inj (hexit.symm.trans hrun)
      exact (hy.leaves hjc).change.blocks hk hb

theorem Stocked.run (h : Stocked sys n) (hrun : Run (Step taskExit) sys ops sys') :
    Stocked sys' (n + ops.countP Op.isCreate) := by
  induction hrun generalizing n with
  | nil sys => exact h
  | @cons sys sys₁ sys' op ops hstep _ ih =>
      have hrest := ih (h.step hstep)
      rw [Nat.add_assoc, ← List.countP_append] at hrest
      exact hrest

theorem Started.stocked (h : Started sys) : Stocked sys 0 := by
  have hkept := h.kept
  obtain ⟨m, hfresh, hinit, htasks⟩ := h
  obtain ⟨s, hheap⟩ := hfresh.1
  have hb : Blocks m.heap ([] ++ [⟨0x100000 - Heap.headerSize, true⟩]) := by
    rw [hheap]
    exact Heap.heapInit_blocks s
  obtain ⟨heap, main, hk, hb'⟩ := (Heap.kmalloc_last hb (fun x hx => absurd hx List.not_mem_nil)
    (n := taskSize) (k := 32) (by decide) (by decide)).2 (by decide)
  obtain ⟨m', hinit', -, -, -, hblocks⟩ := hfresh.starts hk
  obtain rfl := Except.ok.inj (hinit'.symm.trans hinit)
  refine ⟨hkept, ?_, Nat.zero_le _, hblocks _ hb'⟩
  rw [htasks]
  rfl

end Runs

/-! ## The ring -/

/-- The first `n` records on the list from `t` on. -/
def walk (mem : Mem) : Nat → Word → List Word
  | 0, _ => []
  | n + 1, t => t :: walk mem n (next mem t)

/-- The list from task `i` on, and round to the main task again. -/
theorem Kept.walk_eq {m : Machine} {ts : List Word} {s : Scheduler.State} {c : Nat}
    (h : Kept m ts s c) (k i : Nat) (hk : i + k = ts.length) (hi : i < ts.length) :
    walk m.mem (k + 1) (ptr ts i) = ts.drop i ++ [m.taskList] := by
  induction k generalizing i with
  | zero => omega
  | succ k ih =>
      have hget : ts.drop i = ptr ts i :: ts.drop (i + 1) := by
        rw [ptr, List.getD_eq_getElem _ _ hi]
        exact List.drop_eq_getElem_cons hi
      rw [walk, h.mirrors.next i hi, h.ring.next i hi, succ_mod hi, hget, List.cons_append]
      by_cases hlast : i + 1 = ts.length
      · obtain rfl : k = 0 := by omega
        rw [if_pos hlast, hlast, List.drop_length, h.mirrors.list]
        rfl
      · rw [if_neg hlast, ih (i + 1) (by omega) (by omega)]

/-! ## One short task after the other -/

/-- The tasks that are not dead. -/
def unfinished (sys : System) : Nat :=
  sys.tasks.countP fun t => state sys.machine.mem t != taskDead

/-- The main task is the only one left, with its own stack below the heap. -/
structure Idle (sys : System) : Prop where
  kept : ∃ s, Kept sys.machine sys.tasks s 0
  dead : ∀ t ∈ sys.tasks, t ≠ sys.machine.currentTask → state sys.machine.mem t = taskDead
  low : 64 ≤ sys.machine.cpu.sp.toNat
  high : sys.machine.cpu.sp.toNat + 8 ≤ Heap.heapVirtStart.toNat

section Idle

variable {taskExit entry ret t a b : Word} {m : Machine} {ts : List Word} {s : Scheduler.State}
  {c : Nat} {sys sys₁ sys₂ sys₃ : System} {r : Machine × Word}

theorem unfinished_le (us : List Word) (hnodup : sys.tasks.Nodup)
    (h : ∀ u ∈ sys.tasks, u ∉ us → state sys.machine.mem u = taskDead) :
    unfinished sys ≤ us.length := by
  rw [unfinished, List.countP_eq_length_filter]
  refine (List.subperm_of_subset (hnodup.filter _) fun u hu => ?_ : List.Subperm _ us).length_le
  obtain ⟨hmem, hstate⟩ := List.mem_filter.mp hu
  by_contra hne
  rw [h u hmem hne] at hstate
  exact absurd hstate (by decide)

/-- Idle, there is only the main task. -/
theorem Idle.unfinished (h : Idle sys) : unfinished sys ≤ 1 := by
  obtain ⟨s, hk⟩ := h.kept
  refine unfinished_le [sys.machine.currentTask] hk.mirrors.nodup fun u hu hne => ?_
  exact h.dead u hu (List.ne_of_not_mem_cons hne)

/-- Two tasks that need not be dead. -/
theorem unfinished_le_two (hnodup : sys.tasks.Nodup)
    (h : ∀ u ∈ sys.tasks, u ≠ a → u ≠ b → state sys.machine.mem u = taskDead) :
    unfinished sys ≤ 2 := by
  refine unfinished_le [a, b] hnodup fun u hu hne => ?_
  rw [List.mem_pair, not_or] at hne
  exact h u hu hne.1 hne.2

/-- A stack below the heap, while all frames are in the heap. -/
theorem Kept.room_below (h : Kept m ts s c) (hlow : 64 ≤ m.cpu.sp.toNat)
    (hhigh : m.cpu.sp.toNat + 8 ≤ Heap.heapVirtStart.toNat)
    (hframes : ∀ u ∈ ts, state m.mem u = taskReady →
      Heap.heapVirtStart.toNat ≤ (rsp m.mem u).toNat) : Room m ts := by
  refine ⟨hlow, fun x hx hx' hp => ?_⟩
  cases hp with
  | heap hmanaged => exact Heap.not_managed_of_outside (Or.inl (by omega)) hmanaged
  | record hu hin =>
      have hbound := (h.sound.bounds (mem_live hu)).1
      have := hin.1
      omega
  | frame hu hready hin =>
      have hbound := hframes _ hu hready
      have := hin.1
      omega

/-- A task at the bottom of its own stack, while all frames are below the heap. -/
theorem Kept.room_inside (h : Kept m ts s c) (ht : t ∈ ts.tail)
    (hsp : m.cpu.sp.toNat = (stackBase m.mem t).toNat + 8184)
    (hframes : ∀ u ∈ ts, state m.mem u = taskReady →
      (rsp m.mem u).toNat + 72 ≤ Heap.heapVirtStart.toNat) : Room m ts := by
  have hbase : stackBase m.mem t ∈ live m.mem ts :=
    List.mem_append_right _ (List.mem_map_of_mem ht)
  have hstack := h.stack t ht
  have hbound := (h.sound.bounds hbase).1
  refine ⟨by omega, fun x hx hx' hp => ?_⟩
  cases hp with
  | heap hmanaged => exact Heap.not_managed_of_mem hbase (by omega) (by omega) hmanaged
  | @record u hu hin =>
      have hsize := h.record u hu
      obtain ⟨hin₁, hin₂⟩ := hin
      -- the pointers are all different, stacks and records alike
      have hne : u ≠ stackBase m.mem t := fun heq =>
        (List.nodup_append.mp h.sound.nodup).2.2 u hu u
          (heq ▸ List.mem_map_of_mem ht) rfl
      have hapart := h.sound.apart (mem_live hu) hbase hne
      omega
  | frame hu hready hin =>
      have hfar := hframes _ hu hready
      have := hin.2
      omega

/-- The main task has created `t`. -/
structure Born (sys : System) (t base entry : Word) : Prop where
  kept : ∃ s, Kept sys.machine sys.tasks s 0
  tail : t ∈ sys.tasks.tail
  stack : stackBase sys.machine.mem t = base
  ready : state sys.machine.mem t = taskReady
  resumes : Resumes sys.machine.mem t (firstCpu entry base)
  frame : Heap.heapVirtStart.toNat ≤ (rsp sys.machine.mem t).toNat
  dead : ∀ u ∈ sys.tasks, u ≠ sys.machine.currentTask → u ≠ t →
    state sys.machine.mem u = taskDead
  low : 64 ≤ sys.machine.cpu.sp.toNat
  high : sys.machine.cpu.sp.toNat + 8 ≤ Heap.heapVirtStart.toNat

/-- `t` is running, and only the main task is waiting. -/
structure Active (sys : System) (t main : Word) (k : Cpu Reg) : Prop where
  kept : ∃ s c, Kept sys.machine sys.tasks s c
  current : sys.machine.currentTask = t
  tail : t ∈ sys.tasks.tail
  first : ptr sys.tasks 0 = main
  sp : sys.machine.cpu.sp.toNat = (stackBase sys.machine.mem t).toNat + 8184
  ready : state sys.machine.mem main = taskReady
  resumes : Resumes sys.machine.mem main k
  dead : ∀ u ∈ sys.tasks, u ≠ main → u ≠ t → state sys.machine.mem u = taskDead
  low : 64 ≤ k.sp.toNat
  high : k.sp.toNat + 8 ≤ Heap.heapVirtStart.toNat

theorem Idle.create {m' : Machine} (h : Idle sys)
    (hcreate : taskCreate taskExit sys.machine entry = .ok (m', t)) :
    m'.cpu = sys.machine.cpu ∧ ∃ base, Born ⟨m', sys.tasks ++ [t]⟩ t base entry := by
  obtain ⟨s, hk⟩ := h.kept
  have hstart := Heap.heapVirtStart_toNat
  obtain ⟨s', heap, base, -, hcreated, hkept, hresumes, -⟩ := hk.create hcreate
  have hcpu : m'.cpu = sys.machine.cpu := by rw [hcreated.rest]
  have hcurrent : m'.currentTask = sys.machine.currentTask := by rw [hcreated.rest]
  have hbound := hcreated.sound.bounds (List.mem_cons_self ..)
  have hstack := hcreated.stack
  have hne : sys.tasks ≠ [] := by
    intro hnil
    have hlt := hk.ring.lt
    rw [hnil] at hlt
    exact absurd hlt (Nat.not_lt_zero _)
  refine ⟨hcpu, base, ?_⟩
  constructor
  case kept => exact ⟨s', hkept⟩
  case tail =>
    show t ∈ (sys.tasks ++ [t]).tail
    rw [List.tail_append_of_ne_nil hne]
    exact List.mem_append_right _ (List.mem_singleton_self t)
  case stack => exact hcreated.stackBase
  case ready => exact hcreated.state
  case resumes => exact hresumes
  case frame =>
    have hrsp : (rsp m'.mem t).toNat = base.toNat + 8120 := by
      rw [hcreated.rsp, BitVec.toNat_add, BitVec.toNat_ofNat]
      omega
    show _ ≤ (rsp m'.mem t).toNat
    omega
  case dead =>
    intro u hu hcur hut
    rcases List.mem_append.mp hu with hu | hu
    · refine ((hcreated.records hk u hu).1.state).trans (h.dead u hu ?_)
      rw [← hcurrent]
      exact hcur
    · exact absurd (List.mem_singleton.mp hu) hut
  case low =>
    show 64 ≤ m'.cpu.sp.toNat
    rw [hcpu]
    exact h.low
  case high =>
    show m'.cpu.sp.toNat + 8 ≤ _
    rw [hcpu]
    exact h.high

theorem Born.yield {base : Word} (taskExit : Word) (h : Born sys t base entry) (ret : Word) :
    ∃ m', Step taskExit sys (.yield ret) ⟨m', sys.tasks⟩ ∧
      Restored (firstCpu entry base) m'.cpu ∧
      Active ⟨m', sys.tasks⟩ t sys.machine.currentTask { sys.machine.cpu with ip := ret } := by
  obtain ⟨s, hk⟩ := h.kept
  have hstart := Heap.heapVirtStart_toNat
  have ht := List.mem_of_mem_tail h.tail
  have hcur := hk.current_mem
  have htc := hk.ready_ne_current ht h.ready
  have hready : ∀ u ∈ sys.tasks, state sys.machine.mem u = taskReady → u = t := by
    intro u hu hu'
    by_contra hut
    rw [h.dead u hu (hk.ready_ne_current hu hu') hut] at hu'
    exact absurd hu' (by decide)
  have hroom : Room sys.machine sys.tasks := by
    refine hk.room_below h.low h.high fun u hu hu' => ?_
    rw [hready u hu hu']
    exact h.frame
  obtain ⟨s', j, m', -, hfirst, hyield, hy⟩ := hk.yield hroom ret
  -- the new task is the only one to switch to
  have hj : j ≠ 0 := by
    intro hj
    obtain ⟨i, hi, hptr⟩ := exists_ptr ht
    refine hfirst.self_iff.mp hj i hi ?_ ((hk.ready_iff hi).mp (by rw [hptr]; exact h.ready))
    rintro rfl
    exact htc (hptr.symm.trans hk.mirrors.current.symm)
  have hjlt := hy.kept.ring.lt
  have hjt : ptr sys.tasks j = t :=
    hready _ (ptr_mem hjlt) ((hk.ready_iff hjlt).mpr (hfirst.2.1 hj))
  have hl := hy.leaves hj
  rw [hjt] at hl
  have hrestored := hl.restored _ h.resumes
  have hbase : stackBase m'.mem t = base := (hl.change.base t ht).trans h.stack
  have hbound := hy.kept.sound.bounds
    (List.mem_append_right _ (List.mem_map_of_mem (f := stackBase m'.mem) h.tail))
  have hstack := hy.kept.stack t h.tail
  rw [hbase] at hbound hstack
  refine ⟨m', .yield hroom hyield, hrestored, ?_⟩
  constructor
  case kept => exact ⟨s', j, hy.kept⟩
  case current => exact hl.current
  case tail => exact h.tail
  case first => exact hk.mirrors.current.symm
  case sp =>
    have hsp : (firstCpu entry base).sp.toNat = base.toNat + 8184 := by
      rw [firstCpu, BitVec.toNat_add, BitVec.toNat_ofNat]
      omega
    show m'.cpu.sp.toNat = (stackBase m'.mem t).toNat + 8184
    rw [hbase, hrestored.sp, hsp]
  case ready =>
    show state m'.mem sys.machine.currentTask = taskReady
    rw [hl.state _ hcur, if_neg (Ne.symm htc), if_pos rfl]
  case resumes => exact hl.saved
  case dead =>
    intro u hu huc hut
    show state m'.mem u = taskDead
    rw [hl.state u hu, if_neg hut, if_neg huc]
    exact h.dead u hu huc hut
  case low => exact h.low
  case high => exact h.high

theorem Active.exit {main : Word} {k : Cpu Reg} (taskExit : Word) (h : Active sys t main k) (ret : Word) :
    ∃ m', Step taskExit sys (.exit ret) ⟨m', sys.tasks⟩ ∧ Restored k m'.cpu ∧
      Idle ⟨m', sys.tasks⟩ := by
  obtain ⟨s, c, hk⟩ := h.kept
  have hstart := Heap.heapVirtStart_toNat
  have hpos := hk.ring.lt
  have hmem : main ∈ sys.tasks := h.first ▸ ptr_mem (by omega)
  have hmt : main ≠ t := h.current ▸ hk.ready_ne_current hmem h.ready
  have hready : ∀ u ∈ sys.tasks, state sys.machine.mem u = taskReady → u = main := by
    intro u hu hu'
    by_contra hum
    rw [h.dead u hu hum (h.current ▸ hk.ready_ne_current hu hu')] at hu'
    exact absurd hu' (by decide)
  have hsp := congrArg BitVec.toNat h.resumes.sp
  have hrspHigh := h.resumes.high
  have hlow := h.low
  have hhigh := h.high
  rw [BitVec.toNat_add, BitVec.toNat_ofNat] at hsp
  have hroom : Room sys.machine sys.tasks := by
    refine hk.room_inside h.tail h.sp fun u hu hu' => ?_
    rw [hready u hu hu']
    omega
  have hc : c ≠ 0 := by
    rintro rfl
    exact hmt (h.first.symm.trans (hk.mirrors.current.symm.trans h.current))
  obtain ⟨s', j, m', -, hfirst, hj, hexit, hy⟩ := hk.exit hroom hc ret
  have hjlt := hy.kept.ring.lt
  have hjm : ptr sys.tasks j = main :=
    hready _ (ptr_mem hjlt) ((hk.ready_iff hjlt).mpr (hfirst.2.1 hj))
  have hzero : j = 0 :=
    (ptr_inj hk.mirrors.nodup hjlt (by omega)).mp (hjm.trans h.first.symm)
  have hl := hy.leaves hj
  rw [hjm] at hl
  have hrestored := hl.restored _ h.resumes
  have hmain : sys.machine.currentTask ≠ sys.machine.taskList := by
    rw [h.current, hk.mirrors.list, h.first]
    exact Ne.symm hmt
  refine ⟨m', .exit hroom hmain hexit, hrestored, ?_⟩
  constructor
  case kept => exact ⟨s', hzero ▸ hy.kept⟩
  case dead =>
    intro u hu hu'
    change u ≠ m'.currentTask at hu'
    rw [hl.current] at hu'
    show state m'.mem u = taskDead
    rw [hl.state u hu, if_neg hu']
    by_cases hut : u = t
    · rw [if_pos (hut.trans h.current.symm)]
    · rw [if_neg (fun heq => hut (heq.trans h.current))]
      exact h.dead u hu hu' hut
  case low =>
    show 64 ≤ m'.cpu.sp.toNat
    rw [hrestored.sp]
    exact h.low
  case high =>
    show m'.cpu.sp.toNat + 8 ≤ _
    rw [hrestored.sp]
    exact h.high

/-- A step that leaves at most `k` tasks unfinished. -/
def Within (k : Nat) (step : System → Op → System → Prop) (sys : System) (op : Op)
    (sys' : System) : Prop :=
  step sys op sys' ∧ unfinished sys' ≤ k

/-- So many tasks can be created, run and finished one after the other. -/
theorem Idle.rounds {n : Nat} (taskExit : Word) (h : Idle sys) (hs : Stocked sys 0)
    (hn : n ≤ taskLimit) :
    ∃ ops sys', Run (Within 2 (Step taskExit)) sys ops sys' ∧ Idle sys' ∧ Stocked sys' n := by
  induction n with
  | zero => exact ⟨[], sys, .nil sys, h, hs⟩
  | succ n ih =>
      obtain ⟨ops, sys₀, hrun, hidle, hstock⟩ := ih (by omega)
      obtain ⟨s, hk⟩ := hidle.kept
      obtain ⟨m₁, t, hcreate, -⟩ := hk.create_blocks taskExit 0#64 hstock.blocks hn
      obtain ⟨-, base, hborn⟩ := hidle.create hcreate
      obtain ⟨m₂, hyield, -, hactive⟩ := hborn.yield taskExit 0#64
      obtain ⟨m₃, hexit, -, hidle'⟩ := hactive.exit taskExit 0#64
      have hnodup : (sys₀.tasks ++ [t]).Nodup := by
        obtain ⟨s₁, hk₁⟩ := hborn.kept
        exact hk₁.mirrors.nodup
      refine ⟨_, _, ((hrun.snoc ⟨.create hcreate, ?_⟩).snoc ⟨hyield, ?_⟩).snoc ⟨hexit, ?_⟩,
        hidle', ?_⟩
      · exact unfinished_le_two hnodup hborn.dead
      · exact unfinished_le_two hnodup hactive.dead
      · exact hidle'.unfinished.trans (Nat.le_succ 1)
      · exact ((hstock.step (.create hcreate)).step hyield).step hexit

/-- The machine before `scheduler_init`, on the stack of the boot loader. -/
def bootMachine : Machine where
  heap := Heap.heapInit Heap.blankHeap
  cpu := {
    reg := fun _ => 0#64
    sp := 0xFFFF800000090000#64
    ip := 0#64
    flags := Flags.load 0x202#64 }
  currentTask := 0#64
  taskList := 0#64
  nextPid := 1#32

theorem exists_booted : ∃ sys, Started sys ∧ Idle sys := by
  have hfresh : Fresh bootMachine := ⟨⟨Heap.blankHeap, rfl⟩, rfl⟩
  have hb : Blocks bootMachine.heap ([] ++ [⟨0x100000 - Heap.headerSize, true⟩]) :=
    Heap.heapInit_blocks Heap.blankHeap
  obtain ⟨heap, main, hk, -⟩ := (Heap.kmalloc_last hb (fun x hx => absurd hx List.not_mem_nil)
    (n := taskSize) (k := 32) (by decide) (by decide)).2 (by decide)
  obtain ⟨m', hinit, hcur, hcpu, hkept, -⟩ := hfresh.starts hk
  refine ⟨⟨m', [main]⟩, ⟨bootMachine, hfresh, hinit, by rw [hcur]⟩, ?_⟩
  constructor
  case kept => exact ⟨_, hkept⟩
  case dead =>
    intro u hu hne
    exact absurd ((List.mem_singleton.mp hu).trans hcur.symm) hne
  case low =>
    show 64 ≤ m'.cpu.sp.toNat
    rw [hcpu]
    decide
  case high =>
    show m'.cpu.sp.toNat + 8 ≤ _
    rw [hcpu]
    decide

end Idle

/-- **Finished tasks keep what they had.** After any run the heap in use and the
ring are those of all the creations so far, and the next one succeeds exactly
while these are fewer than the limit; whether tasks have finished makes no
difference. -/
theorem creations_limited {taskExit : Word} {sys₀ sys : System} {ops : List Op}
    (h₀ : Started sys₀) (hrun : Run (Step taskExit) sys₀ ops sys) :
    ∃ n, n = ops.countP Op.isCreate ∧ n ≤ taskLimit ∧
      sys.machine.heap.heapUsed.toNat = 32 + 8224 * n ∧
      sys.tasks.length = n + 1 ∧ sys.tasks.Nodup ∧
      walk sys.machine.mem (n + 2) sys.machine.taskList = sys.tasks ++ [sys.machine.taskList] ∧
      ∀ entry, (n < taskLimit → ∃ r, taskCreate taskExit sys.machine entry = .ok r) ∧
        (n = taskLimit →
          taskCreate taskExit sys.machine entry = .error (.panic "Heap: Out of memory!")) := by
  have hs := h₀.stocked.run hrun
  rw [Nat.zero_add] at hs
  obtain ⟨⟨s, c, h⟩, hlen, hlimit, hb⟩ := hs
  have hwalk := h.walk_eq (ops.countP Op.isCreate + 1) 0 (by omega) (by omega)
  rw [← h.mirrors.list, List.drop_zero] at hwalk
  have hused : BlockList.used (taskBlocks (ops.countP Op.isCreate)) =
      32 + 8224 * ops.countP Op.isCreate := by
    rw [taskBlocks, used_append, used_taken]
    rfl
  refine ⟨_, rfl, hlimit, hb.used.trans hused, hlen, h.mirrors.nodup, hwalk, fun entry => ⟨?_, ?_⟩⟩
  · intro hn
    obtain ⟨m', t, hcreate, -⟩ := h.create_blocks taskExit entry hb hn
    exact ⟨_, hcreate⟩
  · intro hn
    rw [hn] at hb
    exact h.create_full hb

/-- A task is created, runs and finishes: its heap stays in use, and its record in the
ring. -/
theorem creations_limited_exit : ∃ sys₀ sys, Started sys₀ ∧
    Run (Step 0#64) sys₀ [.create 0#64, .yield 0#64, .exit 0#64] sys ∧
      sys.machine.heap.heapUsed.toNat = 8256 ∧ sys.tasks.length = 2 ∧
      ∃ r, taskCreate 0#64 sys.machine 0#64 = .ok r := by
  obtain ⟨sys₀, hstarted, hidle⟩ := exists_booted
  obtain ⟨s, hk⟩ := hidle.kept
  obtain ⟨m₁, t, hcreate, -⟩ := hk.create_blocks 0#64 0#64
    hstarted.stocked.blocks (by decide)
  obtain ⟨-, base, hborn⟩ := hidle.create hcreate
  obtain ⟨m₂, hyield, -, hactive⟩ := hborn.yield 0#64 0#64
  obtain ⟨m₃, hexit, -, -⟩ := hactive.exit 0#64 0#64
  have hrun := Run.cons (.create hcreate) (.cons hyield (.cons hexit (.nil _)))
  obtain ⟨n, rfl, -, hused, hlen, -, -, hnext⟩ := creations_limited hstarted hrun
  exact ⟨sys₀, _, hstarted, hrun, hused, hlen, (hnext 0#64).1 (by decide)⟩

/-- Two unfinished tasks at a time are enough to use the heap up. -/
theorem short_tasks_panic : ¬ ∀ (taskExit : Word) (k : Nat) (sys₀ sys : System) (ops : List Op),
    64 + 8288 * k ≤ 0x100000 → Started sys₀ → Run (Within k (Step taskExit)) sys₀ ops sys →
      unfinished sys < k → ∀ entry, ∃ r, taskCreate taskExit sys.machine entry = .ok r := by
  intro halways
  obtain ⟨sys₀, hstarted, hidle⟩ := exists_booted
  obtain ⟨ops, sys, hrun, hidle', hstock⟩ :=
    hidle.rounds 0#64 hstarted.stocked (Nat.le_refl taskLimit)
  obtain ⟨r, hr⟩ := halways 0#64 2 sys₀ sys ops (by decide) hstarted hrun
    (Nat.lt_succ_of_le hidle'.unfinished) 0#64
  obtain ⟨s, c, hk⟩ := hstock.kept
  rw [hk.create_full hstock.blocks] at hr
  cases hr

end VectorForth.Context
