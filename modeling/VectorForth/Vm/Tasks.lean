import VectorForth.Kernel.Task
import VectorForth.Vm.Effects

/-!
# The tasks of the machine

The machine keeps the ring of `task.c` as a list and an index. Its `yield` makes
the choice that the search over `next` pointers makes, and its list refines the
linked records: `Models` is kept by all three operations.
-/

namespace VectorForth.Forth

open RoundRobin

/-- The index `i` is a task that `yield` may switch to. -/
def ReadyAt (tasks : List Task) (i : Nat) : Prop := taskState tasks i = .ready

section Search

variable {tasks : List Task} {c : Nat}

theorem findReady_lt (fuel i : Nat) (hi : i < tasks.length) :
    findReady tasks c fuel i < tasks.length := by
  induction fuel generalizing i with
  | zero => exact hi
  | succ fuel ih =>
      rw [findReady]
      split
      · split
        · exact hi
        · exact ih _ (succ_mod_lt hi)
      · exact hi

/-- The list search finds what the pointer search finds. -/
theorem findReady_firstAfter (hc : c < tasks.length)
    (hrunning : ∀ i, i < tasks.length → taskState tasks i = .running → i = c) (fuel i : Nat)
    (hi : i < tasks.length) (hscanned : Scanned (ReadyAt tasks) tasks.length c i)
    (hfuel : stepsLeft tasks.length c i < fuel) :
    FirstAfter (ReadyAt tasks) tasks.length c (findReady tasks c fuel i) := by
  induction fuel generalizing i with
  | zero => omega
  | succ fuel ih =>
      rw [findReady]
      by_cases hgo : taskState tasks i ≠ .ready ∧ i ≠ c
      · have hstop : taskState tasks i ≠ .running := fun hr => hgo.2 (hrunning i hi hr)
        have hsteps := stepsLeft_next hc hi hgo.2
        rw [if_pos hgo, if_neg hstop]
        exact ih _ (succ_mod_lt hi) (hscanned.next hi hgo.1) (by omega)
      · rw [if_neg hgo]
        refine hscanned.firstAfter hi fun hne => ?_
        by_contra hready
        exact hgo ⟨hready, hne⟩

theorem nextTask_lt {d : Data} (hc : d.current < d.tasks.length) : nextTask d < d.tasks.length := by
  unfold nextTask
  split
  · exact hc
  · exact findReady_lt _ _ (succ_mod_lt hc)

theorem nextTask_firstAfter {d : Data} (hc : d.current < d.tasks.length)
    (hrunning : ∀ i, i < d.tasks.length → taskState d.tasks i = .running → i = d.current) :
    FirstAfter (ReadyAt d.tasks) d.tasks.length d.current (nextTask d) := by
  have hne : d.tasks ≠ [] := by
    intro hnil
    rw [hnil] at hc
    exact Nat.not_lt_zero _ hc
  rw [nextTask, if_neg hne]
  exact findReady_firstAfter hc hrunning _ _ (succ_mod_lt hc) (scanned_start hc)
    (stepsLeft_lt hc (succ_mod_lt hc))

end Search

/-! ## A switch -/

section Switch

variable {tasks : List Task} {c n : Nat} {F : List Frame}

@[simp] theorem length_switchTasks : (switchTasks tasks c n F).length = tasks.length := by
  simp [switchTasks]

/-- The next task becomes RUNNING; the one that is left becomes READY, unless it
is dead, and its frames are saved. -/
theorem getElem?_switchTasks (hne : n ≠ c) (i : Nat) :
    (switchTasks tasks c n F)[i]? = (tasks[i]?).map fun t =>
      { pid := t.pid
        state := if i = n then .running
          else if i = c ∧ t.state = .running then .ready else t.state
        frames := if i = c then F else t.frames } := by
  rw [switchTasks, List.getElem?_modify, List.getElem?_modify]
  cases tasks[i]? with
  | none => rfl
  | some t =>
      by_cases hic : i = c
      · subst hic
        simp [hne, Ne.symm hne]
      · by_cases hin : i = n
        · subst hin
          simp [hic, Ne.symm hic, setState]
        · simp [hic, hin, Ne.symm hic, Ne.symm hin]

/-- `yield` does nothing, or it saves the frames of the current task and goes on
with those that were saved for the next one. -/
theorem yield_cases (m : Machine) :
    (nextTask m.vm.data = m.vm.data.current ∧ yield m = m) ∨
    (nextTask m.vm.data ≠ m.vm.data.current ∧ yield m =
      { m.setData { m.vm.data with
          tasks := switchTasks m.vm.data.tasks m.vm.data.current (nextTask m.vm.data) m.frames
          current := nextTask m.vm.data } with
        frames := (m.vm.data.tasks[nextTask m.vm.data]?.map Task.frames).getD [] }) := by
  unfold yield
  dsimp only
  by_cases hne : nextTask m.vm.data = m.vm.data.current
  · exact Or.inl ⟨hne, by rw [if_neg (not_not.mpr hne)]⟩
  · exact Or.inr ⟨hne, by rw [if_pos hne]⟩

/-- The instruction pointer and the return stack belong to no task. -/
theorem yield_control {m : Machine} : (yield m).vm.ip = m.vm.ip ∧ (yield m).vm.rs = m.vm.rs := by
  rcases yield_cases m with ⟨-, hm⟩ | ⟨-, hm⟩ <;> rw [hm] <;> exact ⟨rfl, rfl⟩

/-- Only a few native words reach them. -/
theorem callCode_control {img : Image} {m m' : Machine} {code entry : Cell}
    (h : callCode img code entry m = some m') :
    (m'.vm.ip = m.vm.ip ∧ m'.vm.rs = m.vm.rs) ∨
      ∃ f w, code = img.addr f ∧ vmWord f = some w ∧ m' = { m with vm := w m.vm } := by
  unfold callCode at h
  split at h
  · cases h
    exact Or.inl ⟨rfl, rfl⟩
  · split at h
    · cases h
      exact Or.inl ⟨rfl, rfl⟩
    · split at h
      · rename_i f hf
        unfold callNative at h
        split at h
        · obtain ⟨r, -, rfl⟩ := Option.map_eq_some_iff.mp h
          exact Or.inl ⟨rfl, rfl⟩
        · split at h
          · rename_i w hw
            exact Or.inr ⟨f, w, (img.addr_of_decode hf).symm, hw, (Option.some.inj h).symm⟩
          · split at h <;> cases h
            · exact Or.inl ⟨rfl, rfl⟩
            · exact Or.inl ⟨rfl, rfl⟩
            · exact Or.inl yield_control
            · exact Or.inl ⟨rfl, rfl⟩
            · exact Or.inl ⟨rfl, rfl⟩
      · cases h

end Switch

/-! ## The list refines the linked records -/

/-- The records of `task.c` are the list of the machine. -/
structure Models (s : Scheduler.State) (d : Data) : Prop where
  linked : Scheduler.Linked s d.tasks.length d.current
  node : ∀ i t, d.tasks[i]? = some t → (s.node i).pid = t.pid ∧ (s.node i).state = t.state
  nextPid : s.nextPid = d.nextPid

section Refinement

variable {s : Scheduler.State} {d : Data} {m : Machine}

theorem Models.state (h : Models s d) {i : Nat} (hi : i < d.tasks.length) :
    (s.node i).state = taskState d.tasks i := by
  have hget := List.getElem?_eq_getElem hi
  rw [(h.node i _ hget).2, taskState, hget]
  rfl

/-- `task_create`. -/
theorem Models.taskCreate (h : Models s d) (entry : Frame) :
    ∃ s', Scheduler.taskCreate s = some s' ∧ Models s' (taskCreate d entry).2 := by
  obtain ⟨s', hcreate, hlinked, hold, hnew⟩ := Scheduler.taskCreate_spec h.linked
  have hlength : (Forth.taskCreate d entry).2.tasks.length = d.tasks.length + 1 := by
    simp [Forth.taskCreate]
  have hpid : BitVec.ofNat 32 d.tasks.length = d.nextPid := by
    rw [← h.linked.nextPid, h.nextPid]
  refine ⟨s', hcreate, ⟨by rw [hlength]; exact hlinked, ?_, ?_⟩⟩
  · intro i t ht
    have hi : i < d.tasks.length + 1 := by
      rw [← hlength]
      exact (List.getElem?_eq_some_iff.mp ht).1
    rw [hlinked.pid i hi]
    by_cases hlast : i = d.tasks.length
    · subst hlast
      rw [hnew, hpid]
      simp [Forth.taskCreate] at ht
      rw [← ht]
      exact ⟨rfl, rfl⟩
    · have hlt : i < d.tasks.length := by omega
      have ht' : d.tasks[i]? = some t := by
        rw [← ht]
        simp [Forth.taskCreate, List.getElem?_append_left hlt]
      rw [hold i hlt, ← h.linked.pid i hlt]
      exact h.node i t ht'
  · rw [hlinked.nextPid, BitVec.ofNat_add, hpid]
    rfl

/-- `yield`. -/
theorem Models.yield (h : Models s m.vm.data)
    (hrunning : ∀ i, i < m.vm.data.tasks.length → taskState m.vm.data.tasks i = .running →
      i = m.vm.data.current) :
    ∃ s', Scheduler.yield s = some s' ∧ Models s' (yield m).vm.data := by
  have hlt := h.linked.lt
  obtain ⟨s', j, hyield, hfirst, hlinked, hstay, hgo⟩ := Scheduler.yield_spec h.linked
    fun i hi hr => hrunning i hi (by rw [← h.state hi, hr])
  -- both searches are for the same task
  have hsame : FirstAfter (ReadyAt m.vm.data.tasks) m.vm.data.tasks.length m.vm.data.current j := by
    refine ⟨hfirst.1, fun hne => ?_, fun i hi hbetween => ?_⟩
    · rw [ReadyAt, ← h.state hfirst.1]
      exact hfirst.2.1 hne
    · rw [ReadyAt, ← h.state hi]
      exact hfirst.2.2 i hi hbetween
  obtain rfl : j = nextTask m.vm.data := hsame.unique (nextTask_firstAfter hlt hrunning)
  refine ⟨s', hyield, ?_⟩
  rcases yield_cases m with ⟨heq, hm⟩ | ⟨hne, hm⟩
  · rw [hm, hstay heq]
    exact h
  · rw [hm]
    refine ⟨?_, fun i t ht => ?_, ?_⟩
    · show Scheduler.Linked s' (switchTasks _ _ _ _).length _
      rw [length_switchTasks]
      exact hlinked
    · have ht' : (switchTasks m.vm.data.tasks m.vm.data.current (nextTask m.vm.data) m.frames)[i]? =
          some t := ht
      rw [getElem?_switchTasks hne] at ht'
      obtain ⟨t₀, ht₀, rfl⟩ := Option.map_eq_some_iff.mp ht'
      have hi := (List.getElem?_eq_some_iff.mp ht₀).1
      obtain ⟨hpid, hstate⟩ := h.node i t₀ ht₀
      refine ⟨by rw [hlinked.pid i hi, ← h.linked.pid i hi, hpid], ?_⟩
      rw [hgo hne i, hstate]
      by_cases hic : i = m.vm.data.current
      · subst hic
        rw [hstate]
      · simp only [hic, false_and, if_false]
    · rw [hlinked.nextPid, ← h.linked.nextPid]
      exact h.nextPid

/-- `task_exit`: the current task dies and yields. -/
theorem Models.taskExit (h : Models s d)
    (hrunning : ∀ i, i < d.tasks.length → taskState d.tasks i = .running → i = d.current)
    (hm : m.vm.data = { d with tasks := d.tasks.modify d.current (setState .dead) }) :
    ∃ s', Scheduler.taskExit s = some s' ∧ Models s' (Forth.yield m).vm.data := by
  have hcur : m.vm.data.current = d.current := by rw [hm]
  have hlen : m.vm.data.tasks.length = d.tasks.length := by simp [hm]
  have hdead : Models (s.setState d.current .dead) m.vm.data := by
    refine ⟨by rw [hlen, hcur]; exact h.linked.setState _ _, fun i t ht => ?_, ?_⟩
    · rw [hm, List.getElem?_modify] at ht
      obtain ⟨t₀, ht₀, rfl⟩ := Option.map_eq_some_iff.mp ht
      obtain ⟨hpid, hstate⟩ := h.node i t₀ ht₀
      rw [Scheduler.setState_pid, Scheduler.setState_state, hpid, hstate]
      by_cases hic : i = d.current
      · subst hic
        simp [setState]
      · simp [hic, Ne.symm hic]
    · rw [hm]
      exact h.nextPid
  rw [Scheduler.taskExit, h.linked.current]
  refine hdead.yield fun i hi hr => ?_
  rw [hcur]
  by_contra hne
  rw [hlen] at hi
  apply hne
  apply hrunning i hi
  rw [← h.state hi, ← hr, ← hdead.state (by rw [hlen]; exact hi), Scheduler.setState_state,
    if_neg hne]

end Refinement

end VectorForth.Forth
