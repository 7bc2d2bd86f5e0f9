import VectorForth.Kernel.Task

/-!
# Runs of the scheduler

What `scheduler_init`, `task_create`, `yield` and `task_exit` keep, over runs
of any length. The ring is kept by every step. A task that was READY when
another one yielded has been run before that one comes back: the round goes on
from the place the search stopped at, and jumps over no READY task.
-/

namespace VectorForth.Scheduler

open RoundRobin LabelledRun

inductive Op
  | create
  | yield
  | exit
  deriving DecidableEq

/-- The main task never exits. -/
def Step (s : State) : Op → State → Prop
  | .create, t => taskCreate s = some t
  | .yield, t => yield s = some t
  | .exit, t => s.currentTask ≠ some 0 ∧ taskExit s = some t

/-- The first `k` tasks on the list from `i` on. -/
def State.walk (s : State) : Nat → Nat → List Nat
  | 0, _ => []
  | k + 1, i => i :: s.walk k (s.node i).next

section Steps

variable {s t m : State} {n c : Nat} {op : Op} {ops : List Op}

/-- What a step does. -/
theorem Ring.step_cases (h : Ring s n c) (hstep : Step s op t) :
    (op = .create ∧ Ring t (n + 1) c ∧ (∀ i, i < n → (t.node i).state = (s.node i).state)) ∨
    (op ≠ .create ∧ ∃ j, Ring t n j ∧ FirstAfter s.Ready n c j ∧
      (op = .yield → j ≠ c → t.Ready c) ∧
      ∀ i, i < n → i ≠ c → i ≠ j → (t.node i).state = (s.node i).state) := by
  cases op with
  | create =>
      obtain ⟨t', hcreate, hring, hsame, -⟩ := h.afterCreate
      have ht : taskCreate s = some t := hstep
      obtain rfl : t = t' := by simpa [ht] using hcreate
      exact Or.inl ⟨rfl, hring, hsame⟩
  | yield =>
      obtain ⟨t', j, hyield, hring, hfirst, hready, hsame⟩ := h.afterYield
      have ht : Scheduler.yield s = some t := hstep
      obtain rfl : t = t' := by simpa [ht] using hyield
      exact Or.inr ⟨by rintro ⟨⟩, j, hring, hfirst, fun _ => hready, hsame⟩
  | exit =>
      obtain ⟨hmain, ht⟩ := hstep
      have hne : c ≠ 0 := by
        rintro rfl
        exact hmain h.current
      obtain ⟨t', j, hexit, hring, hfirst, -, -, hsame⟩ := h.afterExit hne
      obtain rfl : t = t' := by simpa [ht] using hexit
      exact Or.inr ⟨by rintro ⟨⟩, j, hring, hfirst, by rintro ⟨⟩, hsame⟩

/-- Every run keeps the ring, which grows with each creation. -/
theorem Ring.run (h : Ring s n c) (hrun : Run Step s ops t) :
    ∃ j, Ring t (n + ops.count .create) j := by
  induction hrun generalizing n c with
  | nil s => exact ⟨c, h⟩
  | cons hstep _ ih =>
      rcases h.step_cases hstep with ⟨rfl, hring, -⟩ | ⟨hop, j, hring, -⟩
      · rw [List.count_cons_self, Nat.add_comm _ 1, ← Nat.add_assoc]
        exact ih hring
      · rw [List.count_cons_of_ne hop]
        exact ih hring

/-- The list from task `i` on, and round to task 0 again. -/
theorem Ring.walk_eq (h : Ring s n c) (k i : Nat) (hk : i + k = n) (hi : i < n) :
    s.walk (k + 1) i = List.range' i k ++ [0] := by
  induction k generalizing i with
  | zero => omega
  | succ k ih =>
      rw [State.walk, h.next i hi, succ_mod hi, List.range'_succ, List.cons_append]
      by_cases hlast : i + 1 = n
      · obtain rfl : k = 0 := by omega
        rw [if_pos hlast]
        rfl
      · rw [if_neg hlast, ih (i + 1) (by omega) (by omega)]

/-! ## Dead tasks -/

/-- A dead task stays dead. -/
theorem Ring.dead_run (h : Ring s n c) {i : Nat} (hi : i < n) (hdead : (s.node i).state = .dead)
    (hrun : Run Step s ops t) : (t.node i).state = .dead ∧ t.currentTask ≠ some i := by
  induction hrun generalizing n c with
  | nil s =>
      refine ⟨hdead, fun hc => ?_⟩
      obtain rfl : c = i := Option.some.inj (h.current.symm.trans hc)
      have hrunning := (h.running c hi).mpr rfl
      rw [hdead] at hrunning
      cases hrunning
  | cons hstep _ ih =>
      have hic : i ≠ c := by
        rintro rfl
        have hrunning := (h.running i hi).mpr rfl
        rw [hdead] at hrunning
        cases hrunning
      rcases h.step_cases hstep with ⟨-, hring, hsame⟩ | ⟨-, j, hring, hfirst, -, hsame⟩
      · exact ih hring (by omega) (by rw [hsame i hi, hdead])
      · have hij : i ≠ j := by
          rintro rfl
          have hready : (_ : State).Ready i := hfirst.2.1 hic
          rw [State.Ready, hdead] at hready
          cases hready
        exact ih hring hi (by rw [hsame i hi hic hij, hdead])

/-! ## No starvation -/

/-- `u` runs somewhere on the way. -/
def Visits (s : State) (ops : List Op) (t : State) (u : Nat) : Prop :=
  ∃ ops₁ ops₂ m, ops = ops₁ ++ ops₂ ∧ Run Step s ops₁ m ∧ Run Step m ops₂ t ∧
    m.currentTask = some u

theorem Visits.cons {u : Nat} (hstep : Step s op m) (h : Visits m ops t u) :
    Visits s (op :: ops) t u := by
  obtain ⟨ops₁, ops₂, v, rfl, h₁, h₂, hu⟩ := h
  exact ⟨op :: ops₁, ops₂, v, rfl, .cons hstep h₁, h₂, hu⟩

/-- Until `c` is back, a READY task that the round has not reached yet stays
READY, and the round does not jump over it. -/
theorem Ring.visits {cur u : Nat} (h : Ring s n cur) (hrun : Run Step s ops t) (hc : c < n)
    (hu : u < n) (hcur : cur ≠ c) (hcready : s.Ready c) (huready : s.Ready u)
    (hround : ¬ Reached c u cur) (hback : t.currentTask = some c) : Visits s ops t u := by
  induction hrun generalizing n cur with
  | nil s => exact absurd (Option.some.inj (h.current.symm.trans hback)) hcur
  | cons hstep hrest ih =>
      refine Visits.cons hstep ?_
      rcases h.step_cases hstep with ⟨-, hring, hsame⟩ | ⟨-, j, hring, hfirst, -, hsame⟩
      · refine ih hring (by omega) (by omega) hcur ?_ ?_ hround hback
        · rw [State.Ready, hsame c hc]
          exact hcready
        · rw [State.Ready, hsame u hu]
          exact huready
      · have hpassed : ∀ i, i < n → State.Ready _ i → ¬ Between cur i j :=
          fun i hi hready hbetween => hfirst.2.2 i hi hbetween hready
        have hucur : u ≠ cur := by
          rintro rfl
          have hrunning := (h.running u hu).mpr rfl
          rw [huready] at hrunning
          cases hrunning
        by_cases hju : j = u
        · subst hju
          exact ⟨[], _, _, rfl, .nil _, hrest, hring.current⟩
        · by_cases hjc : j = c
          · subst hjc
            have huj : u ≠ j := Ne.symm hju
            rcases reached_or_between huj hcur with hreached | hbetween
            · exact absurd hreached hround
            · exact absurd hbetween (hpassed u hu huready)
          · refine ih hring hc hu hjc ?_ ?_ ?_ hback
            · rw [State.Ready, hsame c hc (Ne.symm hcur) (Ne.symm hjc)]
              exact hcready
            · rw [State.Ready, hsame u hu hucur (Ne.symm hju)]
              exact huready
            · intro hreached
              rcases hreached.move (hpassed c hc hcready) with hold | rfl | hbetween
              · exact hround hold
              · exact hju rfl
              · exact hpassed u hu huready hbetween

/-- Between two returns from `yield`, every READY task is run. -/
theorem Ring.no_starvation (h : Ring s n c) (hrun : Run Step s (.yield :: ops) t)
    (hback : t.currentTask = some c) {u : Nat} (hu : u < n) (hready : s.Ready u) (hne : u ≠ c) :
    ∃ ops₁ ops₂ m, ops = ops₁ ++ ops₂ ∧ Run Step s (.yield :: ops₁) m ∧ Run Step m ops₂ t ∧
      m.currentTask = some u := by
  cases hrun with
  | @cons _ m _ _ _ hstep hrest =>
      have hvisits : Visits m ops t u := by
        rcases h.step_cases hstep with ⟨⟨⟩, -⟩ | ⟨-, j, hring, hfirst, hleft, hsame⟩
        have hjc : j ≠ c := fun hj => hfirst.self_iff.mp hj u hu hne hready
        by_cases hju : j = u
        · subst hju
          exact ⟨[], ops, m, rfl, .nil _, hrest, hring.current⟩
        · refine hring.visits hrest h.lt hu hjc (hleft rfl hjc) ?_ ?_ hback
          · rw [State.Ready, hsame u hu hne (Ne.symm hju)]
            exact hready
          · intro hreached
            rcases reached_of_first hreached with rfl | hbetween
            · exact hju rfl
            · exact hfirst.2.2 u hu hbetween hready
      obtain ⟨ops₁, ops₂, v, rfl, h₁, h₂, hcur⟩ := hvisits
      exact ⟨ops₁, ops₂, v, rfl, .cons hstep h₁, h₂, hcur⟩

end Steps

/-- **The scheduler is a round robin.** After any run the list is the ring of
the tasks in the order of their creation, the current task is the one that is
running, and dead tasks stay dead. All three functions return; `yield` goes to
the first READY task behind its caller, and every task that was READY then has
been run before the caller goes on. -/
theorem scheduler_round_robin {ops : List Op} {s : State}
    (hrun : Run Step (schedulerInit unstarted) ops s) :
    ∃ n c, n = 1 + ops.count .create ∧
      s.taskList = some 0 ∧ s.walk (n + 1) 0 = List.range n ++ [0] ∧
      (∀ i, i < n → (s.node i).pid = BitVec.ofNat 32 i) ∧
      s.currentTask = some c ∧ c < n ∧ (∀ i, i < n → ((s.node i).state = .running ↔ i = c)) ∧
      (∀ i, i < n → (s.node i).state = .dead → ∀ ops' t, Run Step s ops' t →
        (t.node i).state = .dead ∧ t.currentTask ≠ some i) ∧
      (∃ t, taskCreate s = some t) ∧
      (∃ t j, yield s = some t ∧ t.currentTask = some j ∧ FirstAfter s.Ready n c j) ∧
      (c ≠ 0 → ∃ t j, taskExit s = some t ∧ t.currentTask = some j ∧ j ≠ c ∧
        FirstAfter s.Ready n c j) ∧
      ∀ ops' t u, Run Step s (.yield :: ops') t → t.currentTask = some c → u < n → u ≠ c →
        s.Ready u →
        ∃ ops₁ ops₂ m, ops' = ops₁ ++ ops₂ ∧ Run Step s (.yield :: ops₁) m ∧
          Run Step m ops₂ t ∧ m.currentTask = some u := by
  obtain ⟨c, h⟩ := schedulerInit_ring.run hrun
  have hwalk := h.walk_eq (1 + ops.count .create) 0 (by omega) (by omega)
  rw [← List.range_eq_range'] at hwalk
  obtain ⟨t₁, hcreate, -⟩ := h.afterCreate
  obtain ⟨t₂, j₂, hyield, hring₂, hfirst₂, -⟩ := h.afterYield
  refine ⟨_, c, rfl, h.list, hwalk, h.pid, h.current, h.lt, h.running, ?_, ⟨t₁, hcreate⟩,
    ⟨t₂, j₂, hyield, hring₂.current, hfirst₂⟩, ?_, ?_⟩
  · intro i hi hdead ops' t hrun'
    exact h.dead_run hi hdead hrun'
  · intro hmain
    obtain ⟨t₃, j₃, hexit, hring₃, hfirst₃, hne, -⟩ := h.afterExit hmain
    exact ⟨t₃, j₃, hexit, hring₃.current, hne, hfirst₃⟩
  · intro ops' t u hrun' hback hu hne hready
    exact h.no_starvation hrun' hback hu hready hne

/-- Two tasks beside the main one: after the first `yield` the first of them is
running. -/
theorem scheduler_round_robin_two :
    ∃ s, Run Step (schedulerInit unstarted) [.create, .create, .yield] s ∧
      s.walk 4 0 = [0, 1, 2, 0] ∧ s.currentTask = some 1 := by
  obtain ⟨s, hrun, hcur⟩ : ∃ s, Run Step (schedulerInit unstarted) [.create, .create, .yield] s ∧
      s.currentTask = some 1 :=
    ⟨_, .cons rfl (.cons rfl (.cons rfl (.nil _))), rfl⟩
  obtain ⟨n, c, rfl, -, hwalk, -⟩ := scheduler_round_robin hrun
  exact ⟨s, hrun, hwalk, hcur⟩

end VectorForth.Scheduler
