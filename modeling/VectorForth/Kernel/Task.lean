import VectorForth.Lib.RoundRobin
import VectorForth.Lib.Run
import VectorForth.Vm.State

/-!
# The scheduler

`task.c`. The `task_t` records form a circular list through `next`; a pointer
is the number of the allocation that gave it. Both loops walk the list and
need not end in an arbitrary memory: a result of `none` is a loop that is
still running after a whole round. The stacks of the tasks are not part of
this model.

The invariant `Ring` says that the list is a ring in the order of creation.
The search of `yield` is then the search of `Lib.RoundRobin`, and its loop
lemma says where it ends.
-/

namespace VectorForth.Scheduler

open RoundRobin LabelledRun
open Forth (TaskState)

/-- `task_t`. -/
structure Node where
  pid : BitVec 32
  state : TaskState
  next : Nat

/-- The records in memory, and the static variables. -/
structure State where
  node : Nat → Node
  allocated : Nat
  currentTask : Option Nat
  taskList : Option Nat
  nextPid : BitVec 32

def State.setNode (s : State) (i : Nat) (v : Node) : State :=
  { s with node := Function.update s.node i v }

def State.setState (s : State) (i : Nat) (state : TaskState) : State :=
  s.setNode i { s.node i with state := state }

def State.setNext (s : State) (i next : Nat) : State :=
  s.setNode i { s.node i with next := next }

/-- `kmalloc(sizeof(task_t))`, filled in. -/
def State.alloc (s : State) (v : Node) : Nat × State :=
  (s.allocated, { s.setNode s.allocated v with allocated := s.allocated + 1 })

/-! ## task.c -/

/-- Before `scheduler_init`. -/
def unstarted : State where
  node := fun _ => { pid := 0#32, state := .dead, next := 0 }
  allocated := 0
  currentTask := none
  taskList := none
  nextPid := 1#32

def schedulerInit (s : State) : State :=
  let (main, s) := s.alloc { pid := 0#32, state := .running, next := s.allocated }
  { s with currentTask := some main, taskList := some main }

/-- `while (last->next != task_list) last = last->next`. -/
def lastTask (s : State) (list : Nat) : Nat → Nat → Option Nat
  | 0, _ => none
  | fuel + 1, last =>
      if (s.node last).next ≠ list then lastTask s list fuel (s.node last).next else some last

/-- `task_create`: the new task goes behind the last one. -/
def taskCreate (s : State) : Option State :=
  let (t, s) := s.alloc { pid := s.nextPid, state := .ready, next := 0 }
  let s := { s with nextPid := s.nextPid + 1#32 }
  match s.taskList with
  | none => none
  | some list =>
      (lastTask s list s.allocated list).map fun last => (s.setNext last t).setNext t list

/-- The search loop of `yield`. -/
def findNext (s : State) (current : Nat) : Nat → Nat → Option Nat
  | 0, _ => none
  | fuel + 1, next =>
      if (s.node next).state ≠ .ready ∧ next ≠ current then
        if (s.node next).state = .running then some next
        else findNext s current fuel (s.node next).next
      else some next

/-- The switch from `old` to `next`. -/
def switchTo (s : State) (old next : Nat) : State :=
  if next ≠ old then
    let s := if (s.node old).state = .running then s.setState old .ready else s
    { s.setState next .running with currentTask := some next }
  else s

def yield (s : State) : Option State :=
  match s.currentTask with
  | none => some s
  | some current =>
      (findNext s current s.allocated (s.node current).next).map (switchTo s current)

/-- `task_exit`, up to the `hlt` loop behind its `yield`. -/
def taskExit (s : State) : Option State :=
  match s.currentTask with
  | none => none
  | some current => yield (s.setState current .dead)

/-! ## The ring -/

/-- The list is a ring of `n` tasks in the order of creation, and `c` is the
current one. Nothing is said about the states. -/
structure Linked (s : State) (n c : Nat) : Prop where
  allocated : s.allocated = n
  list : s.taskList = some 0
  current : s.currentTask = some c
  lt : c < n
  next : ∀ i, i < n → (s.node i).next = (i + 1) % n
  pid : ∀ i, i < n → (s.node i).pid = BitVec.ofNat 32 i
  nextPid : s.nextPid = BitVec.ofNat 32 n

/-- In addition, the current task is the one that is running, and the main task
is not dead. -/
structure Ring (s : State) (n c : Nat) : Prop extends Linked s n c where
  running : ∀ i, i < n → ((s.node i).state = .running ↔ i = c)
  main : (s.node 0).state ≠ .dead

/-- The tasks that `yield` may switch to. -/
def State.Ready (s : State) (i : Nat) : Prop := (s.node i).state = .ready

section Fields

variable {s : State} {n c : Nat}

@[simp] theorem setState_next (i j : Nat) (state : TaskState) :
    ((s.setState i state).node j).next = (s.node j).next := by
  unfold State.setState State.setNode
  by_cases h : j = i
  · subst h
    simp
  · simp [h]

@[simp] theorem setState_pid (i j : Nat) (state : TaskState) :
    ((s.setState i state).node j).pid = (s.node j).pid := by
  unfold State.setState State.setNode
  by_cases h : j = i
  · subst h
    simp
  · simp [h]

theorem setState_state (i j : Nat) (state : TaskState) :
    ((s.setState i state).node j).state = if j = i then state else (s.node j).state := by
  unfold State.setState State.setNode
  by_cases h : j = i
  · subst h
    simp
  · simp [h]

@[simp] theorem setNext_state (i j next : Nat) :
    ((s.setNext i next).node j).state = (s.node j).state := by
  unfold State.setNext State.setNode
  by_cases h : j = i
  · subst h
    simp
  · simp [h]

@[simp] theorem setNext_pid (i j next : Nat) :
    ((s.setNext i next).node j).pid = (s.node j).pid := by
  unfold State.setNext State.setNode
  by_cases h : j = i
  · subst h
    simp
  · simp [h]

theorem setNext_next (i j next : Nat) :
    ((s.setNext i next).node j).next = if j = i then next else (s.node j).next := by
  unfold State.setNext State.setNode
  by_cases h : j = i
  · subst h
    simp
  · simp [h]

/-- States do not matter for the ring. -/
theorem Linked.setState (h : Linked s n c) (i : Nat) (state : TaskState) :
    Linked (s.setState i state) n c := by
  refine ⟨h.allocated, h.list, h.current, h.lt, fun j hj => ?_, fun j hj => ?_, h.nextPid⟩
  · rw [setState_next]
    exact h.next j hj
  · rw [setState_pid]
    exact h.pid j hj

end Fields

/-! ## The loops end -/

section Loops

variable {s : State} {n c : Nat}

/-- By induction on the rest of the round. -/
theorem lastTask_spec (hnext : ∀ i, i < n → (s.node i).next = (i + 1) % n) (fuel i : Nat)
    (hi : i < n) (hfuel : n ≤ i + fuel) : lastTask s 0 fuel i = some (n - 1) := by
  induction fuel generalizing i with
  | zero => omega
  | succ fuel ih =>
      have hsucc := succ_mod hi
      rw [lastTask, hnext i hi, hsucc]
      by_cases hlast : i + 1 = n
      · rw [if_pos hlast, if_neg (by simp)]
        congr 1
        omega
      · rw [if_neg hlast, if_pos (by omega)]
        exact ih (i + 1) (by omega) (by omega)

/-- `yield` stops at the first READY task behind the current one. -/
theorem findNext_spec (h : Linked s n c)
    (hrunning : ∀ i, i < n → (s.node i).state = .running → i = c) (fuel i : Nat) (hi : i < n)
    (hscanned : Scanned s.Ready n c i) (hfuel : stepsLeft n c i < fuel) :
    ∃ j, findNext s c fuel i = some j ∧ FirstAfter s.Ready n c j := by
  induction fuel generalizing i with
  | zero => omega
  | succ fuel ih =>
      rw [findNext]
      by_cases hgo : (s.node i).state ≠ .ready ∧ i ≠ c
      · have hstop : (s.node i).state ≠ .running := fun hr => hgo.2 (hrunning i hi hr)
        have hsteps := stepsLeft_next h.lt hi hgo.2
        rw [if_pos hgo, if_neg hstop, h.next i hi]
        exact ih _ (succ_mod_lt hi) (hscanned.next hi hgo.1) (by omega)
      · rw [if_neg hgo]
        refine ⟨i, rfl, hscanned.firstAfter hi fun hne => ?_⟩
        by_contra hready
        exact hgo ⟨hready, hne⟩

end Loops

/-! ## What each operation does -/

section Operations

variable {s t : State} {n c : Nat}

theorem schedulerInit_ring : Ring (schedulerInit unstarted) 1 0 := by
  refine ⟨⟨rfl, rfl, rfl, Nat.zero_lt_one, ?_, ?_, rfl⟩, ?_, ?_⟩
  · rintro i hi
    obtain rfl : i = 0 := by omega
    rfl
  · rintro i hi
    obtain rfl : i = 0 := by omega
    rfl
  · rintro i hi
    obtain rfl : i = 0 := by omega
    simp [schedulerInit, unstarted, State.alloc, State.setNode]
  · simp [schedulerInit, unstarted, State.alloc, State.setNode]

/-- `task_create` appends a READY task to the ring. -/
theorem taskCreate_spec (h : Linked s n c) :
    ∃ t, taskCreate s = some t ∧ Linked t (n + 1) c ∧
      (∀ i, i < n → (t.node i).state = (s.node i).state) ∧ (t.node n).state = .ready := by
  have hlt := h.lt
  -- the new record does not touch the ring
  have hold : ∀ i, i < n → (s.alloc ⟨s.nextPid, .ready, 0⟩).2.node i = s.node i := by
    intro i hi
    have hne : i ≠ s.allocated := by
      rw [h.allocated]
      omega
    simp [State.alloc, State.setNode, hne]
  have hnew : (s.alloc ⟨s.nextPid, .ready, 0⟩).2.node n = ⟨s.nextPid, .ready, 0⟩ := by
    simp [State.alloc, State.setNode, h.allocated]
  have hlast : ∀ a : State, a.node = (s.alloc ⟨s.nextPid, .ready, 0⟩).2.node →
      lastTask a 0 (n + 1) 0 = some (n - 1) := by
    intro a hnode
    apply lastTask_spec _ _ _ (by omega) (by omega)
    intro i hi
    rw [hnode, hold i hi]
    exact h.next i hi
  generalize ha : (s.alloc ⟨s.nextPid, .ready, 0⟩).2 = a at hold hnew hlast
  have hcreate : taskCreate s = some
      ((({ a with nextPid := s.nextPid + 1#32 } : State).setNext (n - 1) n).setNext n 0) := by
    have hlist : a.taskList = some 0 := by
      rw [← ha]
      exact h.list
    have hfuel : a.allocated = n + 1 := by
      rw [← ha, ← h.allocated]
      rfl
    have hfst : (s.alloc ⟨s.nextPid, .ready, 0⟩).1 = n := h.allocated
    have hpid : a.nextPid = s.nextPid := by
      rw [← ha]
      rfl
    rw [taskCreate]
    simp only [ha, hlist, hfuel, hfst, hpid]
    rw [hlast _ (by rfl), Option.map_some]
  refine ⟨_, hcreate, ⟨?_, ?_, ?_, by omega, ?_, ?_, ?_⟩, ?_, ?_⟩
  · subst ha
    show s.allocated + 1 = n + 1
    rw [h.allocated]
  · subst ha
    exact h.list
  · subst ha
    exact h.current
  · intro i hi
    rw [setNext_next, setNext_next]
    have hsucc := succ_mod hi
    split_ifs with hin hlastNode
    · rw [hin, Nat.mod_self]
    · rw [hsucc, if_neg (by omega)]
      omega
    · have hsucc' := succ_mod (show i < n by omega)
      show (a.node i).next = _
      rw [hold i (by omega), h.next i (by omega), hsucc', hsucc, if_neg (by omega),
        if_neg (by omega)]
  · intro i hi
    rw [setNext_pid, setNext_pid]
    show (a.node i).pid = _
    by_cases hin : i = n
    · rw [hin, hnew, h.nextPid]
    · rw [hold i (by omega)]
      exact h.pid i (by omega)
  · show s.nextPid + 1#32 = _
    rw [h.nextPid, BitVec.ofNat_add]
  · intro i hi
    rw [setNext_state, setNext_state]
    show (a.node i).state = _
    rw [hold i hi]
  · rw [setNext_state, setNext_state]
    show (a.node n).state = _
    rw [hnew]

/-- `yield` switches to the first READY task behind the current one. -/
theorem yield_spec (h : Linked s n c)
    (hrunning : ∀ i, i < n → (s.node i).state = .running → i = c) :
    ∃ t j, yield s = some t ∧ FirstAfter s.Ready n c j ∧ Linked t n j ∧
      (j = c → t = s) ∧
      (j ≠ c → ∀ i, (t.node i).state =
        if i = j then .running
        else if i = c ∧ (s.node c).state = .running then .ready
        else (s.node i).state) := by
  have hlt := h.lt
  obtain ⟨j, hfind, hfirst⟩ := findNext_spec h hrunning n ((c + 1) % n) (succ_mod_lt hlt)
    (scanned_start hlt) (stepsLeft_lt hlt (succ_mod_lt hlt))
  have hyield : yield s = some (switchTo s c j) := by
    rw [yield, h.current]
    simp only [h.allocated, h.next c hlt, hfind, Option.map_some]
  refine ⟨_, j, hyield, hfirst, ?_, ?_, ?_⟩
  · unfold switchTo
    split
    · have hstop : Linked (if (s.node c).state = .running then s.setState c .ready else s) n c := by
        split
        · exact h.setState c .ready
        · exact h
      have hgo := hstop.setState j .running
      exact ⟨hgo.allocated, hgo.list, rfl, hfirst.1, hgo.next, hgo.pid, hgo.nextPid⟩
    · rename_i hne
      rw [not_not.mp hne]
      exact h
  · rintro rfl
    rw [switchTo, if_neg (by simp)]
  · intro hne i
    rw [switchTo, if_pos hne]
    show ((State.setState _ j .running).node i).state = _
    rw [setState_state]
    by_cases hij : i = j
    · rw [if_pos hij, if_pos hij]
    · rw [if_neg hij, if_neg hij]
      split
      · rename_i hr
        rw [setState_state]
        simp only [hr, and_true]
      · rename_i hr
        simp only [hr, and_false, if_false]

/-- After a switch to `j`, the task that was running is in another state. -/
theorem running_moved {state after : TaskState} {i j : Nat} {left : Prop} [Decidable left]
    (hrunning : state = .running ↔ i = c) (hafter : after ≠ .running) (hleft : i = c → left) :
    ((if i = j then TaskState.running else if left then after else state) = .running ↔ i = j) := by
  by_cases hij : i = j
  · simp [hij]
  · rw [if_neg hij]
    refine ⟨fun hr => ?_, fun hc => absurd hc hij⟩
    split at hr
    · exact absurd hr hafter
    · rename_i hno
      exact absurd (hleft (hrunning.mp hr)) hno

theorem Ring.afterCreate (h : Ring s n c) :
    ∃ t, taskCreate s = some t ∧ Ring t (n + 1) c ∧
      (∀ i, i < n → (t.node i).state = (s.node i).state) ∧ t.Ready n := by
  obtain ⟨t, hcreate, hlinked, hold, hnew⟩ := taskCreate_spec h.toLinked
  have hlt := h.lt
  refine ⟨t, hcreate, ⟨hlinked, fun i hi => ?_, ?_⟩, hold, hnew⟩
  · by_cases hin : i = n
    · subst hin
      rw [hnew]
      constructor
      · rintro ⟨⟩
      · omega
    · rw [hold i (by omega)]
      exact h.running i (by omega)
  · rw [hold 0 (by omega)]
    exact h.main

theorem Ring.afterYield (h : Ring s n c) :
    ∃ t j, yield s = some t ∧ Ring t n j ∧ FirstAfter s.Ready n c j ∧ (j ≠ c → t.Ready c) ∧
      ∀ i, i < n → i ≠ c → i ≠ j → (t.node i).state = (s.node i).state := by
  have hlt := h.lt
  obtain ⟨t, j, hyield, hfirst, hlinked, hstay, hgo⟩ :=
    yield_spec h.toLinked fun i hi => (h.running i hi).mp
  refine ⟨t, j, hyield, ?_, hfirst, fun hne => ?_, fun i hi hic hij => ?_⟩
  · by_cases hne : j = c
    · rw [hstay hne, hne]
      exact h
    · refine ⟨hlinked, fun i hi => ?_, ?_⟩
      · rw [hgo hne i]
        exact running_moved (h.running i hi) (by rintro ⟨⟩) fun hic =>
          ⟨hic, (h.running c hlt).mpr rfl⟩
      · rw [hgo hne 0]
        split_ifs
        · rintro ⟨⟩
        · rintro ⟨⟩
        · exact h.main
  · rw [State.Ready, hgo hne c, if_neg (Ne.symm hne), if_pos ⟨rfl, (h.running c hlt).mpr rfl⟩]
  · by_cases hne : j = c
    · rw [hstay hne]
    · rw [hgo hne i, if_neg hij, if_neg (fun hc => hic hc.1)]

/-- A task other than the main one always finds another to switch to. -/
theorem Ring.afterExit (h : Ring s n c) (hmain : c ≠ 0) :
    ∃ t j, taskExit s = some t ∧ Ring t n j ∧ FirstAfter s.Ready n c j ∧ j ≠ c ∧
      (t.node c).state = .dead ∧
      ∀ i, i < n → i ≠ c → i ≠ j → (t.node i).state = (s.node i).state := by
  have hlt := h.lt
  have hstate := fun i => setState_state (s := s) c i .dead
  obtain ⟨t, j, hyield, hfirst, hlinked, -, hgo⟩ :=
    yield_spec (h.toLinked.setState c .dead) (by
      intro i hi hr
      rw [hstate] at hr
      split at hr
      · cases hr
      · exact (h.running i hi).mp hr)
  -- the main task is not dead and not running
  have hready : (s.setState c .dead).Ready 0 := by
    have hne : (s.node 0).state ≠ .running := fun hr => hmain ((h.running 0 (by omega)).mp hr).symm
    have := h.main
    rw [State.Ready, hstate, if_neg (Ne.symm hmain)]
    cases hs : (s.node 0).state with
    | running => exact absurd hs hne
    | ready => rfl
    | dead => exact absurd hs this
  have hne : j ≠ c := fun hj => hfirst.self_iff.mp hj 0 (by omega) (Ne.symm hmain) hready
  have hdead : ((s.setState c .dead).node c).state = .dead := by rw [hstate, if_pos rfl]
  have hexit : taskExit s = some t := by
    rw [taskExit, h.current]
    exact hyield
  have hsame : ∀ i, i ≠ c → ((s.setState c .dead).node i).state = (s.node i).state := by
    intro i hic
    rw [hstate, if_neg hic]
  refine ⟨t, j, hexit, ⟨hlinked, fun i hi => ?_, ?_⟩, ⟨hfirst.1, fun _ => ?_, ?_⟩, hne, ?_, ?_⟩
  · rw [hgo hne i, if_neg (show ¬ (i = c ∧ _) by rw [hdead]; simp), hstate]
    exact running_moved (h.running i hi) (by rintro ⟨⟩) id
  · rw [hgo hne 0, if_neg (show ¬ (0 = c ∧ _) by rw [hdead]; simp), hsame 0 (Ne.symm hmain)]
    split_ifs
    · rintro ⟨⟩
    · exact h.main
  · have := hfirst.2.1 hne
    rwa [State.Ready, hsame j hne] at this
  · intro i hi hbetween
    have hic : i ≠ c := by
      rintro rfl
      unfold Between at hbetween
      split at hbetween <;> omega
    have := hfirst.2.2 i hi hbetween
    rwa [State.Ready, hsame i hic] at this
  · rw [hgo hne c, if_neg (Ne.symm hne), if_neg (by rw [hdead]; simp), hdead]
  · intro i hi hic hij
    rw [hgo hne i, if_neg hij, if_neg (fun hc => hic hc.1), hsame i hic]

end Operations

end VectorForth.Scheduler
