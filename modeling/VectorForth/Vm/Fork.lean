import VectorForth.Lib.Run
import VectorForth.Vm.Tasks

/-!
# What a forked task executes

`FORK` leaves its execution token in one global variable, and the new task reads
it when the scheduler first resumes it. A run is followed together with the
tokens that were forked on the way: the task of the i-th `FORK` runs the last
token forked before it started, its own or another.
-/

namespace VectorForth.Forth

open ByteMemory LabelledRun

/-- The token that the next step forks. -/
def forkedToken (img : Image) (m : Machine) : Option Cell :=
  if calledFun img m = some .wFork then some m.vm.data.dsPop.1 else none

/-- One step, labelled with the token it forks. -/
def ForkStep (img : Image) (m : Machine) (x : Option Cell) (m' : Machine) : Prop :=
  step img m = some m' ∧ x = forkedToken img m

/-- The tokens of a run, in the order of their `FORK`s. -/
def tokens (ops : List (Option Cell)) : List Cell := ops.filterMap id

/-- The C stack of the task `i`. -/
def framesOf (m : Machine) (i : Nat) : List Frame :=
  if i = m.vm.data.current then m.frames
  else ((m.vm.data.tasks[i]?).map Task.frames).getD []

/-- No forked task is waiting for its first activation. -/
structure NothingForked (m : Machine) : Prop where
  current : m.vm.data.current < m.vm.data.tasks.length
  frames : ∀ i, i < m.vm.data.tasks.length → Frame.wrapper ∉ framesOf m i

/-- The task `i` was forked, and has not run yet. -/
def Unstarted (m : Machine) (i : Nat) : Prop := framesOf m i = [.wrapper, .taskExit]

/-- The state of a run that began with `n₀` tasks and has forked `xs`. -/
structure Forked (n₀ : Nat) (xs : List Cell) (m : Machine) : Prop where
  count : m.vm.data.tasks.length = n₀ + xs.length
  target : ∀ x, xs.getLast? = some x → m.vm.data.forkTargetXt = x
  current : m.vm.data.current < m.vm.data.tasks.length
  frames : ∀ i, i < m.vm.data.tasks.length →
    (Unstarted m i ∧ n₀ ≤ i) ∨ Frame.wrapper ∉ framesOf m i

section Steps

variable {img : Image} {m m' m₁ : Machine} {n₀ : Nat} {xs : List Cell}

theorem framesOf_current : framesOf m m.vm.data.current = m.frames := if_pos rfl

theorem framesOf_other {i : Nat} (hi : i ≠ m.vm.data.current) :
    framesOf m i = ((m.vm.data.tasks[i]?).map Task.frames).getD [] := if_neg hi

/-- `yield` moves frames around, but every task keeps its own. -/
theorem framesOf_yield (hcur : m.vm.data.current < m.vm.data.tasks.length) (i : Nat) :
    framesOf (yield m) i = framesOf m i := by
  rcases yield_cases m with ⟨-, hm⟩ | ⟨hne, hm⟩
  · rw [hm]
  · have hnext : (yield m).vm.data.current = nextTask m.vm.data := by rw [hm]; rfl
    have htasks : (yield m).vm.data.tasks =
        switchTasks m.vm.data.tasks m.vm.data.current (nextTask m.vm.data) m.frames := by
      rw [hm]
      rfl
    have hframes : (yield m).frames =
        ((m.vm.data.tasks[nextTask m.vm.data]?).map Task.frames).getD [] := by rw [hm]
    by_cases hin : i = nextTask m.vm.data
    · subst hin
      rw [framesOf_other hne, ← hframes, ← framesOf_current, hnext]
    · rw [framesOf_other (by rwa [hnext]), htasks, getElem?_switchTasks hne]
      by_cases hic : i = m.vm.data.current
      · subst hic
        rw [framesOf_current, List.getElem?_eq_getElem hcur]
        simp
      · rw [framesOf_other hic]
        cases m.vm.data.tasks[i]? with
        | none => rfl
        | some t => simp [hic]

theorem yield_tasks : (yield m).vm.data.tasks.length = m.vm.data.tasks.length ∧
    (yield m).vm.data.forkTargetXt = m.vm.data.forkTargetXt ∧
    (m.vm.data.current < m.vm.data.tasks.length →
      (yield m).vm.data.current < m.vm.data.tasks.length) := by
  rcases yield_cases m with ⟨-, hm⟩ | ⟨-, hm⟩
  · rw [hm]
    exact ⟨rfl, rfl, id⟩
  · rw [hm]
    exact ⟨length_switchTasks, rfl, nextTask_lt⟩

/-- The part of the data that only `FORK` and the scheduler touch. -/
def SameTasks (d d' : Data) : Prop :=
  d'.forkTargetXt = d.forkTargetXt ∧ d'.current = d.current ∧
    d'.tasks.map Task.frames = d.tasks.map Task.frames

theorem Quiet.sameTasks {d d' : Data} (h : Quiet d d') : SameTasks d d' := by
  obtain ⟨_, _, _, _, rfl⟩ := h
  exact ⟨rfl, rfl, rfl⟩

theorem SameTasks.trans {d₁ d₂ d₃ : Data} (h : SameTasks d₁ d₂) (h' : SameTasks d₂ d₃) :
    SameTasks d₁ d₃ :=
  ⟨h'.1.trans h.1, h'.2.1.trans h.2.1, h'.2.2.trans h.2.2⟩

instance : Framing SameTasks := ⟨SameTasks.trans, Quiet.sameTasks⟩

theorem sameTasks_loud {f : CFun} {w : NativeM Unit} (hf : dataWord img f = some w)
    (hloud : f.loud = true) (hfork : f ≠ .wFork) : Keeps SameTasks w := by
  cases f <;> cases hloud <;> cases hf
  case wFork => exact absurd rfl hfork
  case wImmediate =>
    refine keeps_modify fun d => ?_
    split <;> exact ⟨rfl, rfl, rfl⟩
  case wBlock =>
    refine keeps_bind keeps_dsPop fun _ => keeps_bind ?_ fun _ => keeps_dsPush _
    rintro d a d' hrun
    cases hrun
    exact ⟨rfl, rfl, rfl⟩
  all_goals
    simp only [wStore, storeCell, wCstore, wPlusStore, wAllot, wComma, wCComma, wColon,
      wSemicolon, wCreate, wVariable, wConstant, wIf, wElse, wThen, wUntil, wAgain, wWhile,
      wRepeat, wDo, wLoop, wUpdate, wFlush]
    repeat'
      first
      | with_reducible refine keeps_ite ?_ ?_
      | with_reducible refine keeps_bind ?_ fun _ => ?_
      | exact keeps_modify fun d => ⟨rfl, rfl, rfl⟩
      | simp

/-- Every word but `FORK` leaves the tasks alone. -/
theorem sameTasks_word {f : CFun} {w : NativeM Unit} (hf : dataWord img f = some w)
    (hfork : f ≠ .wFork) : Keeps SameTasks w := by
  cases hloud : f.loud with
  | false => exact fun d a d' hrun => (keeps_word hf hloud d a d' hrun).sameTasks
  | true => exact sameTasks_loud hf hloud hfork

theorem Effect.sameTasks {fn : Option CFun} {top : Frame} {d d' : Data} (h : Effect img fn top d d') :
    SameTasks d d' := by
  cases h with
  | quiet hq => exact hq.sameTasks
  | compile _ _ hq => exact hq.sameTasks.trans ⟨rfl, rfl, rfl⟩
  | literal _ _ hq => exact hq.sameTasks.trans ⟨rfl, rfl, rfl⟩
  | unknown hq => exact hq.sameTasks.trans ⟨rfl, rfl, rfl⟩
  | block _ _ hq hq' => exact hq.sameTasks.trans (SameTasks.trans ⟨rfl, rfl, rfl⟩ hq'.sameTasks)
  | stroke => exact ⟨rfl, rfl, rfl⟩
  | save _ hq => exact SameTasks.trans ⟨rfl, rfl, rfl⟩ hq.sameTasks
  | exit =>
      refine ⟨rfl, rfl, ?_⟩
      dsimp only
      generalize d.current = i
      induction d.tasks generalizing i with
      | nil => simp
      | cons t ts ih =>
          cases i with
          | zero => rfl
          | succ i => simpa using ih i

theorem wFork_run (d : Data) : ∃ d', wFork.run d = some ((), d') ∧ d'.forkTargetXt = d.dsPop.1 ∧
    d'.current = d.current ∧
    d'.tasks.map Task.frames = d.tasks.map Task.frames ++ [[.wrapper, .taskExit]] := by
  obtain ⟨_, _, _, _, hpop⟩ := quiet_dsPop d
  generalize hd : (taskCreate { d.dsPop.2 with forkTargetXt := d.dsPop.1 } .wrapper).2 = d₁
  have hrun : wFork.run d = some ((), d₁.dsPush (d.dsPop.2.nextPid.setWidth 64)) := by
    rw [← hd]
    rfl
  obtain ⟨_, _, _, _, hpush⟩ := quiet_dsPush d₁ (d.dsPop.2.nextPid.setWidth 64)
  refine ⟨_, hrun, ?_⟩
  rw [hpush, ← hd, hpop]
  exact ⟨rfl, rfl, by simp [taskCreate]⟩

/-- What a step does to the tasks, before it yields: at most one is added. -/
theorem step_tasks (h : step img m = some m') :
    ∃ m₁ F extra, m₁.vm.data.current = m.vm.data.current ∧
      m₁.vm.data.tasks.map Task.frames = m.vm.data.tasks.map Task.frames ++ extra ∧
      m₁.frames = F ++ m.frames.tail ∧ Frame.wrapper ∉ F ∧ (m' = m₁ ∨ m' = yield m₁) ∧
      ((forkedToken img m = none ∧ extra = [] ∧
          m₁.vm.data.forkTargetXt = m.vm.data.forkTargetXt) ∨
        (∃ x, forkedToken img m = some x ∧ extra = [[.wrapper, .taskExit]] ∧
          m₁.vm.data.forkTargetXt = x)) := by
  obtain ⟨top, -, m₁, F, hword, heffect, hF, hno, hm⟩ := step_cases h
  by_cases hfork : calledFun img m = some .wFork
  · have hcalled : calledWord img m = some wFork := by
      rw [calledWord, hfork]
      rfl
    obtain ⟨d', hrun, htarget, hcur, htasks⟩ := wFork_run m.vm.data
    have hrun' := hword _ hcalled
    rw [hrun] at hrun'
    obtain rfl : d' = m₁.vm.data := by simpa using hrun'
    refine ⟨m₁, F, _, hcur, htasks, hF, hno, hm, Or.inr ⟨_, ?_, rfl, htarget⟩⟩
    rw [forkedToken, if_pos hfork]
  · have hsame : SameTasks m.vm.data m₁.vm.data := by
      cases hcalled : calledWord img m with
      | none => exact (heffect hcalled).sameTasks
      | some w =>
          obtain ⟨f, hf, hw⟩ := Option.bind_eq_some_iff.mp hcalled
          refine sameTasks_word hw ?_ _ () _ (hword w hcalled)
          rintro rfl
          exact hfork hf
    refine ⟨m₁, F, [], hsame.2.1, ?_, hF, hno, hm, Or.inl ⟨?_, rfl, hsame.1⟩⟩
    · rw [hsame.2.2, List.append_nil]
    · rw [forkedToken, if_neg hfork]

theorem framesOf_map {i : Nat} (hi : i ≠ m.vm.data.current) :
    framesOf m i = ((m.vm.data.tasks.map Task.frames)[i]?).getD [] := by
  rw [framesOf_other hi, List.getElem?_map]

/-- The frames of a task that is not running are kept when tasks are added. -/
theorem framesOf_append {extra : List (List Frame)} {i : Nat}
    (hcur : m₁.vm.data.current = m.vm.data.current)
    (htasks : m₁.vm.data.tasks.map Task.frames = m.vm.data.tasks.map Task.frames ++ extra)
    (hi : i < m.vm.data.tasks.length) (hic : i ≠ m.vm.data.current) :
    framesOf m₁ i = framesOf m i := by
  rw [framesOf_map (by rwa [hcur]), framesOf_map hic, htasks,
    List.getElem?_append_left (by simpa using hi)]

/-- A step of another task leaves the frames of a task alone. -/
theorem framesOf_step (h : step img m = some m') (hcur : m.vm.data.current < m.vm.data.tasks.length) :
    m'.vm.data.current < m'.vm.data.tasks.length ∧
      m.vm.data.tasks.length ≤ m'.vm.data.tasks.length ∧
      ∀ i, i < m.vm.data.tasks.length → i ≠ m.vm.data.current → framesOf m' i = framesOf m i := by
  obtain ⟨m₁, F, extra, hcur₁, htasks, -, -, hm, -⟩ := step_tasks h
  have hlen : m₁.vm.data.tasks.length = m.vm.data.tasks.length + extra.length := by
    simpa using congrArg List.length htasks
  have hlt : m₁.vm.data.current < m₁.vm.data.tasks.length := by omega
  rcases hm with rfl | rfl
  · exact ⟨hlt, by omega, fun i => framesOf_append hcur₁ htasks⟩
  · obtain ⟨hlen', -, hcur'⟩ := yield_tasks (m := m₁)
    refine ⟨by rw [hlen']; exact hcur' hlt, by omega, fun i hi hic => ?_⟩
    rw [framesOf_yield hlt]
    exact framesOf_append hcur₁ htasks hi hic

theorem Forked.yield (h : Forked n₀ xs m) : Forked n₀ xs (yield m) := by
  obtain ⟨hlen, htarget, hcur⟩ := yield_tasks (m := m)
  refine ⟨hlen.trans h.count, fun x hx => htarget.trans (h.target x hx), ?_, fun i hi => ?_⟩
  · rw [hlen]
    exact hcur h.current
  · rw [hlen] at hi
    rw [Unstarted, framesOf_yield h.current]
    exact h.frames i hi

/-- Once a task has started it has started for good. -/
theorem Forked.step (h : Forked n₀ xs m) (hstep : step img m = some m') :
    Forked n₀ (xs ++ (forkedToken img m).toList) m' ∧
      ∀ i, i < m.vm.data.tasks.length →
        Frame.wrapper ∉ framesOf m i ∨ (i = m.vm.data.current ∧ ∃ F, m.frames = .wrapper :: F) →
        Frame.wrapper ∉ framesOf m' i := by
  obtain ⟨m₁, F, extra, hcur, htasks, hF, hno, hm, hextra⟩ := step_tasks hstep
  have hlen : m₁.vm.data.tasks.length = m.vm.data.tasks.length + extra.length := by
    have := congrArg List.length htasks
    simpa using this
  -- the frames of the tasks there were before
  have hold : ∀ i, i < m.vm.data.tasks.length → i ≠ m.vm.data.current →
      framesOf m₁ i = framesOf m i := by
    intro i hi hic
    exact framesOf_append hcur htasks hi hic
  have hcurrent : framesOf m₁ m.vm.data.current = F ++ m.frames.tail := by
    rw [← hcur, framesOf_current, hF]
  have hstart := h.frames _ h.current
  rw [Unstarted, framesOf_current] at hstart
  have htail : Frame.wrapper ∉ F ++ m.frames.tail := by
    intro hmem
    rcases List.mem_append.mp hmem with hF | ht
    · exact hno hF
    · rcases hstart with ⟨hfresh, -⟩ | hnone
      · rw [hfresh] at ht
        simp at ht
      · exact hnone (List.mem_of_mem_tail ht)
  have hforked : Forked n₀ (xs ++ (forkedToken img m).toList) m₁ := by
    refine ⟨?_, ?_, by have := h.current; omega, fun i hi => ?_⟩
    · have hcount := h.count
      rcases hextra with ⟨hx, rfl, -⟩ | ⟨x, hx, rfl, -⟩ <;> rw [hx] <;> simp at hlen ⊢ <;> omega
    · rcases hextra with ⟨hx, -, htarget⟩ | ⟨x, hx, -, htarget⟩
      · rw [hx, Option.toList_none, List.append_nil, htarget]
        exact h.target
      · rw [hx, htarget]
        simp
    · by_cases hlt : i < m.vm.data.tasks.length
      · by_cases hic : i = m.vm.data.current
        · rw [hic, hcurrent]
          exact Or.inr htail
        · rw [Unstarted, hold i hlt hic]
          exact h.frames i hlt
      · rcases hextra with ⟨-, rfl, -⟩ | ⟨x, -, rfl, -⟩
        · simp at hlen
          omega
        · have hi' : i = m.vm.data.tasks.length := by
            simp at hlen
            omega
          have hcount := h.count
          have hcur' := h.current
          refine Or.inl ⟨?_, by omega⟩
          rw [Unstarted, framesOf_map (by omega), htasks, hi']
          simp
  have hdone : ∀ i, i < m.vm.data.tasks.length →
      Frame.wrapper ∉ framesOf m i ∨ (i = m.vm.data.current ∧ ∃ F, m.frames = .wrapper :: F) →
      Frame.wrapper ∉ framesOf m₁ i := by
    intro i hi hstarted
    by_cases hic : i = m.vm.data.current
    · rw [hic, hcurrent]
      exact htail
    · rw [hold i hi hic]
      rcases hstarted with hnone | ⟨heq, -⟩
      · exact hnone
      · exact absurd heq hic
  rcases hm with rfl | rfl
  · exact ⟨hforked, hdone⟩
  · refine ⟨hforked.yield, fun i hi hstarted => ?_⟩
    rw [framesOf_yield hforked.current]
    exact hdone i hi hstarted

/-! ## Runs -/

/-- The invariant of a run, and that what has started stays started. -/
theorem Forked.run {ops : List (Option Cell)} (h : Forked n₀ xs m)
    (hrun : Run (ForkStep img) m ops m') :
    Forked n₀ (xs ++ tokens ops) m' ∧ ∀ i, i < m.vm.data.tasks.length →
      Frame.wrapper ∉ framesOf m i → Frame.wrapper ∉ framesOf m' i := by
  induction hrun generalizing xs with
  | nil m => exact ⟨by simpa [tokens] using h, fun i _ hi => hi⟩
  | @cons m m₁ m₂ x ops hstep _ ih =>
      obtain ⟨hstep, rfl⟩ := hstep
      obtain ⟨hnext, hstarted⟩ := h.step hstep
      obtain ⟨hlast, hrest⟩ := ih hnext
      have htokens : tokens (forkedToken img m :: ops) =
          (forkedToken img m).toList ++ tokens ops := by
        cases forkedToken img m <;> rfl
      refine ⟨by rw [htokens, ← List.append_assoc]; exact hlast, fun i hi hno => ?_⟩
      have hcount := h.count
      have hcount' := hnext.count
      rw [List.length_append] at hcount'
      exact hrest i (by omega) (hstarted i hi (Or.inl hno))

theorem NothingForked.forked (h : NothingForked m) : Forked m.vm.data.tasks.length [] m :=
  ⟨rfl, by rintro x ⟨⟩, h.current, fun i hi => Or.inr (h.frames i hi)⟩

/-- `forth_thread_wrapper` runs the token in the global variable. -/
theorem step_wrapper {F : List Frame} (hF : m.frames = .wrapper :: F) (x : Cell) :
    step img m = some { m with frames := if x ≠ 0#64 then .execute x :: F else F } ↔
      m.vm.data.forkTargetXt = x := by
  have hstep : step img m = some { m with
      frames := if m.vm.data.forkTargetXt ≠ 0#64 then .execute m.vm.data.forkTargetXt :: F else F } := by
    simp only [step, hF]
  rw [hstep]
  constructor
  · intro h
    have hframes := congrArg Machine.frames (Option.some.inj h)
    dsimp only at hframes
    split_ifs at hframes with hx hy hy
    · injection hframes with hhead
      injection hhead
    · exact absurd (congrArg List.length hframes) (by simp)
    · exact absurd (congrArg List.length hframes) (by simp)
    · rw [not_not.mp hx, not_not.mp hy]
  · rintro rfl
    rfl

end Steps

/-- **A forked task runs the last token.** When the task of the i-th `FORK` is
first activated, it executes its own token exactly if that is the last one that
was forked before. No task is started twice. -/
theorem fork_runs_last_token {img : Image} {m₀ m : Machine} {ops : List (Option Cell)}
    {F : List Frame} (hstart : NothingForked m₀) (hrun : Run (ForkStep img) m₀ ops m)
    (hlaunch : m.frames = .wrapper :: F) :
    ∃ i x, m.vm.data.current = m₀.vm.data.tasks.length + i ∧ (tokens ops)[i]? = some x ∧
      (step img m = some { m with frames := if x ≠ 0#64 then .execute x :: F else F } ↔
        (tokens ops).getLast? = some x) ∧
      ∀ y ops' m', Run (ForkStep img) m (y :: ops') m' → (∃ F', m'.frames = .wrapper :: F') →
        m'.vm.data.current ≠ m.vm.data.current := by
  obtain ⟨h, -⟩ := hstart.forked.run hrun
  rw [List.nil_append] at h
  have hstarting := h.frames _ h.current
  rw [Unstarted, framesOf_current, hlaunch] at hstarting
  have hfresh : m₀.vm.data.tasks.length ≤ m.vm.data.current := by
    rcases hstarting with ⟨-, hle⟩ | hno
    · exact hle
    · simp at hno
  have hcount := h.count
  have hcur := h.current
  obtain ⟨i, hi⟩ := Nat.exists_eq_add_of_le hfresh
  have hlt : i < (tokens ops).length := by omega
  refine ⟨i, (tokens ops)[i], hi, List.getElem?_eq_getElem hlt, ?_, ?_⟩
  · -- the global variable holds the last token
    obtain ⟨y, hy⟩ : ∃ y, (tokens ops).getLast? = some y := by
      cases hlast : (tokens ops).getLast? with
      | none =>
          rw [List.getLast?_eq_none_iff.mp hlast] at hlt
          simp at hlt
      | some y => exact ⟨y, rfl⟩
    rw [step_wrapper hlaunch, h.target y hy, hy]
    exact Option.some_inj.symm
  · rintro y ops' m' hrun' ⟨F', hF'⟩ hsame
    cases hrun' with
    | @cons _ m₁ _ _ _ hstep hrest =>
        obtain ⟨hnext, hstarted⟩ := h.step hstep.1
        have hdone := hstarted _ h.current (Or.inr ⟨rfl, F, hlaunch⟩)
        have hlen : m.vm.data.current < m₁.vm.data.tasks.length := by
          rw [hnext.count, List.length_append]
          omega
        have hnever := (hnext.run hrest).2 _ hlen hdone
        rw [← hsame, framesOf_current, hF'] at hnever
        simp at hnever

/-! ## Two words forked in a row -/

/-- Entries without a name for `FORK`, `DROP` and `YIELD`, and the cells
`FORK DROP FORK DROP YIELD`. -/
def entryFork : Cell := 0xFFFF800010000000#64
def entryDrop : Cell := 0xFFFF800010000020#64
def entryYield : Cell := 0xFFFF800010000040#64
def forkBody : Cell := 0xFFFF800010000060#64

def forkMem : Mem :=
  writeCells (writeCells (writeCells (writeCells (fun _ => 0#8)
    (entryFork.toNat + 16) [linearImage.addr .wFork])
    (entryDrop.toNat + 16) [linearImage.addr .wDrop])
    (entryYield.toNat + 16) [linearImage.addr .wYield])
    forkBody.toNat [entryFork, entryDrop, entryFork, entryDrop, entryYield]

def mainTask : Task := { pid := 0#32, state := .running, frames := [] }

def forkData (ds : List Cell) (tasks : List Task) (target : Cell) (pid : BitVec 32) : Data :=
  { blankData with mem := forkMem, ds := ds, tasks := tasks, forkTargetXt := target, nextPid := pid }

/-- The cell `n` of the body is next. -/
def forkMachine (n : Nat) (d : Data) : Machine where
  vm := { data := d, rs := [0#64], ip := offset forkBody n }
  frames := [.inner]
  kbd := []
  inputBuffer := []

def forkedTask (pid : BitVec 32) : Task :=
  { pid := pid, state := .ready, frames := [.wrapper, .taskExit] }

section Sample

variable {x : Cell} {ds : List Cell} {tasks : List Task} {target : Cell} {pid : BitVec 32} {n : Nat}

theorem fork_sample_step {e : Cell} {f : CFun} {d : Data} (hmem : d.mem = forkMem)
    (hcell : cellAt forkMem (offset forkBody n) = e) (hin : InDict e)
    (hcode : cellAt forkMem (dictGetCodeField forkMem e) = linearImage.addr f)
    (hf : f ≠ .doColon) :
    step linearImage (forkMachine n d) =
        callCode linearImage (linearImage.addr f) e (forkMachine (n + 1) d) ∧
      calledFun linearImage (forkMachine n d) = some f := by
  have hnext : offset forkBody (n + 1) = offset forkBody n + 8#64 := by
    rw [← offset_offset, offset_one]
  constructor
  · have hstep : step linearImage ((forkMachine n d).conf d [0#64] (offset forkBody n) [.inner]) =
        callCode linearImage (linearImage.addr f) e
          ((forkMachine n d).conf d [0#64] (offset forkBody n + 8#64) [.inner]) :=
      step_inner_other (by rw [hmem]; exact hcell) hin (by rw [hmem]; exact hcode)
        (fun h => hf (linearImage.addr_inj h))
    rw [← hnext] at hstep
    exact hstep
  · simp only [calledFun, forkMachine, hmem, hcell, if_pos hin, hcode]
    exact linearImage.decode_addr f

theorem fork_sample_fork (hcell : cellAt forkMem (offset forkBody n) = entryFork)
    (hroom : ds.length < dataStackSize) :
    ForkStep linearImage (forkMachine n (forkData (x :: ds) tasks target pid)) (some x)
      (forkMachine (n + 1)
        (forkData (pid.setWidth 64 :: ds) (tasks ++ [forkedTask pid]) x (pid + 1#32))) := by
  obtain ⟨hstep, hcalled⟩ := fork_sample_step (d := forkData (x :: ds) tasks target pid) rfl hcell
    (by decide) (f := .wFork) (by decide +kernel) (by decide)
  have hpush : (forkData ds (tasks ++ [forkedTask pid]) x (pid + 1#32)).dsPush (pid.setWidth 64) =
      forkData (pid.setWidth 64 :: ds) (tasks ++ [forkedTask pid]) x (pid + 1#32) :=
    if_neg (Nat.not_le.mpr hroom)
  have hrun : wFork.run (forkData (x :: ds) tasks target pid) = some ((),
      (forkData ds (tasks ++ [forkedTask pid]) x (pid + 1#32)).dsPush (pid.setWidth 64)) := rfl
  rw [hpush] at hrun
  refine ⟨?_, ?_⟩
  · rw [hstep]
    exact callCode_native (m := forkMachine (n + 1) (forkData (x :: ds) tasks target pid)) rfl hrun
  · rw [forkedToken, if_pos hcalled]
    rfl

theorem fork_sample_drop (hcell : cellAt forkMem (offset forkBody n) = entryDrop) :
    ForkStep linearImage (forkMachine n (forkData (x :: ds) tasks target pid)) none
      (forkMachine (n + 1) (forkData ds tasks target pid)) := by
  obtain ⟨hstep, hcalled⟩ := fork_sample_step (d := forkData (x :: ds) tasks target pid) rfl hcell
    (by decide) (f := .wDrop) (by decide +kernel) (by decide)
  refine ⟨?_, ?_⟩
  · have hrun : wDrop.run (forkData (x :: ds) tasks target pid) = some ((),
        forkData ds tasks target pid) := rfl
    rw [hstep]
    exact callCode_native (m := forkMachine (n + 1) (forkData (x :: ds) tasks target pid)) rfl hrun
  · rw [forkedToken, if_neg (by rw [hcalled]; simp)]

theorem fork_sample_yield {d : Data} (hmem : d.mem = forkMem)
    (hcell : cellAt forkMem (offset forkBody n) = entryYield) :
    ForkStep linearImage (forkMachine n d) none (yield (forkMachine (n + 1) d)) := by
  obtain ⟨hstep, hcalled⟩ := fork_sample_step hmem hcell (by decide) (f := .wYield)
    (by decide +kernel) (by decide)
  refine ⟨?_, ?_⟩
  · rw [hstep]
    exact callCode_yield
  · rw [forkedToken, if_neg (by rw [hcalled]; simp)]

/-- `FORK DROP` twice and `YIELD`: the first new task is about to start. -/
theorem fork_sample_run (x y : Cell) :
    Run (ForkStep linearImage) (forkMachine 0 (forkData [x, y] [mainTask] 0#64 1#32))
      [some x, none, some y, none, none]
      (yield (forkMachine 5 (forkData [] [mainTask, forkedTask 1#32, forkedTask 2#32] y 3#32))) :=
  .cons (fork_sample_fork (by decide +kernel) (show 1 < dataStackSize by decide))
    (.cons (fork_sample_drop (by decide +kernel))
      (.cons (fork_sample_fork (by decide +kernel) (by decide))
        (.cons (fork_sample_drop (by decide +kernel))
          (.cons (fork_sample_yield rfl (by decide +kernel)) (.nil _)))))

/-- `FORK DROP YIELD`. -/
theorem fork_sample_run_one (x : Cell) :
    Run (ForkStep linearImage) (forkMachine 2 (forkData [x] [mainTask] 0#64 1#32))
      [some x, none, none]
      (yield (forkMachine 5 (forkData [] [mainTask, forkedTask 1#32] x 2#32))) :=
  .cons (fork_sample_fork (by decide +kernel) (by decide))
    (.cons (fork_sample_drop (by decide +kernel))
      (.cons (fork_sample_yield rfl (by decide +kernel)) (.nil _)))

theorem fork_sample_start (ds : List Cell) :
    NothingForked (forkMachine n (forkData ds [mainTask] 0#64 1#32)) := by
  refine ⟨Nat.zero_lt_one, fun i hi => ?_⟩
  obtain rfl : i = 0 := Nat.lt_one_iff.mp hi
  have hframes : framesOf (forkMachine n (forkData ds [mainTask] 0#64 1#32)) 0 = [.inner] := rfl
  rw [hframes]
  simp

end Sample

/-- With one `FORK` before the switch, the task runs its own token. -/
theorem fork_runs_last_token_one :
    step linearImage (yield (forkMachine 5 (forkData [] [mainTask, forkedTask 1#32] entryDrop 2#32))) =
      some { yield (forkMachine 5 (forkData [] [mainTask, forkedTask 1#32] entryDrop 2#32)) with
        frames := [.execute entryDrop, .taskExit] } := by
  obtain ⟨i, x, hi, hx, hiff, -⟩ := fork_runs_last_token (fork_sample_start [entryDrop])
    (fork_sample_run_one entryDrop) (F := [.taskExit]) rfl
  obtain rfl : i = 0 := by
    have hcur : 1 = 1 + i := hi
    omega
  obtain rfl : entryDrop = x := Option.some.inj hx
  exact hiff.mpr rfl

/-- Forked before its first activation, `YIELD` takes the place of `DROP` in the
first task. -/
theorem fork_token_lost : ∃ (m₀ m : Machine) (ops : List (Option Cell)) (F : List Frame),
    NothingForked m₀ ∧ Run (ForkStep linearImage) m₀ ops m ∧ m.frames = .wrapper :: F ∧
      ¬ ∃ i x, m.vm.data.current = m₀.vm.data.tasks.length + i ∧ (tokens ops)[i]? = some x ∧
        step linearImage m = some { m with frames := if x ≠ 0#64 then .execute x :: F else F } := by
  refine ⟨_, _, _, [.taskExit], fork_sample_start [entryDrop, entryYield],
    fork_sample_run entryDrop entryYield, rfl, ?_⟩
  rintro ⟨i, x, hi, hx, hstep⟩
  obtain rfl : i = 0 := by
    have hcur : 1 = 1 + i := hi
    omega
  obtain rfl : entryDrop = x := Option.some.inj hx
  have htarget : entryYield = entryDrop := (step_wrapper rfl entryDrop).mp hstep
  exact absurd htarget (by decide)

end VectorForth.Forth
