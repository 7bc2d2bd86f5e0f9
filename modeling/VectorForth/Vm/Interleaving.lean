import VectorForth.Vm.Fork

/-!
# Control state across a switch

`switch_context` saves the C stack and the callee-saved registers of a task. The
instruction pointer and the return stack of the virtual machine are static
variables that all tasks share. A task that calls `yield` finds its own back if
the tasks that run meanwhile only run native code; a second colon word takes its
place. It makes no difference where the call stands: in a colon body, in a word
run from the prompt, or in a loop that waits for a key.
-/

namespace VectorForth.Forth

open ByteMemory LabelledRun

/-- The words that move the return stack or the instruction pointer. `R@` and
`I` only read. -/
def CFun.movesControl (f : CFun) : Prop :=
  f = .doColon ∨ ((vmWord f).isSome = true ∧ f ≠ .wRFetch ∧ f ≠ .wI)

instance (f : CFun) : Decidable f.movesControl := inferInstanceAs (Decidable (_ ∨ _))

/-- The next step is one of the inner interpreter, starts a colon word, or calls
a word that moves the return stack or the instruction pointer. -/
def TouchesControl (img : Image) (m : Machine) : Prop :=
  match m.frames with
  | .inner :: _ => True
  | .execute entry :: _ => ∃ f,
      cellAt m.vm.data.mem (dictGetCodeField m.vm.data.mem entry) = img.addr f ∧ f.movesControl
  | _ => False

/-- Where the running task goes on behind its call of `yield`: its C stack and
the instruction pointer. `forth_run` and `run_editor` make the call while there
is no key, `background_worker` always. -/
def yieldReturn (img : Image) (m : Machine) : Option (List Frame × Cell) :=
  match m.frames with
  | .inner :: F =>
      if calledFun img m = some .wYield then some (.inner :: F, m.vm.ip + 8#64) else none
  | .execute _ :: F => if calledFun img m = some .wYield then some (F, m.vm.ip) else none
  | .editorKey _ _ _ :: _ => if m.kbd = [] then some (m.frames, m.vm.ip) else none
  | .repl :: _ => if m.kbd = [] then some (m.frames, m.vm.ip) else none
  | .worker :: _ => some (m.frames, m.vm.ip)
  | _ => none

section Native

variable {img : Image} {m m' : Machine}

theorem vmWord_reads {f : CFun} {w : Vm → Vm} (hw : vmWord f = some w) (hno : ¬ f.movesControl)
    (vm : Vm) : (w vm).ip = vm.ip ∧ (w vm).rs = vm.rs := by
  have hread : f = .wRFetch ∨ f = .wI := by
    by_contra hne
    rw [not_or] at hne
    exact hno (Or.inr ⟨by rw [hw]; rfl, hne⟩)
  rcases hread with rfl | rfl <;> cases hw <;> exact ⟨rfl, rfl⟩

/-- All other steps leave the instruction pointer and the return stack alone. -/
theorem step_control (h : step img m = some m') (hno : ¬ TouchesControl img m) :
    m'.vm.ip = m.vm.ip ∧ m'.vm.rs = m.vm.rs := by
  unfold step at h
  split at h
  · cases h
  · -- forth_execute of a native word
    rename_i entry rest hf
    have hcode : ∀ f, cellAt m.vm.data.mem (dictGetCodeField m.vm.data.mem entry) = img.addr f →
        ¬ f.movesControl := by
      intro f hcode hmoves
      apply hno
      simp only [TouchesControl, hf]
      exact ⟨f, hcode, hmoves⟩
    unfold forthExecute at h
    dsimp only at h
    split at h
    · rename_i hcolon
      exact absurd (Or.inl rfl) (hcode _ hcolon)
    · rcases callCode_control h with hcontrol | ⟨f, w, hf', hw, hm'⟩
      · exact hcontrol
      · rw [hm']
        exact vmWord_reads hw (hcode f hf') m.vm
  · rename_i rest hf
    refine absurd ?_ hno
    simp only [TouchesControl, hf]
  · -- forth_eval
    unfold forthEval at h
    dsimp only at h
    split at h
    · cases h
      exact ⟨rfl, rfl⟩
    · split at h
      · cases h
      · split at h
        · split at h <;> cases h <;> exact ⟨rfl, rfl⟩
        · split at h
          · split at h <;> cases h <;> exact ⟨rfl, rfl⟩
          · cases h
            exact ⟨rfl, rfl⟩
  · cases h
    exact ⟨rfl, rfl⟩
  · cases h
    exact ⟨rfl, rfl⟩
  · split at h
    · cases h
      exact yield_control
    · cases h
      unfold editorKey
      dsimp only
      split <;> exact ⟨rfl, rfl⟩
  · cases h
    exact ⟨rfl, rfl⟩
  · cases h
    exact yield_control
  · cases h
    exact ⟨rfl, rfl⟩
  · cases h
    exact yield_control
  · split at h
    · cases h
      exact yield_control
    · cases h
      unfold replKey
      split
      · dsimp only
        split <;> exact ⟨rfl, rfl⟩
      · split
        · split <;> exact ⟨rfl, rfl⟩
        · split <;> exact ⟨rfl, rfl⟩
  · cases h
    exact ⟨rfl, rfl⟩

theorem step_inner_yield {d : Data} {rs : List Cell} {ip e : Cell} {F : List Frame}
    (hcell : cellAt d.mem ip = e) (hin : InDict e)
    (hcode : cellAt d.mem (dictGetCodeField d.mem e) = img.addr .wYield) :
    step img (m.conf d rs ip (.inner :: F)) = some (yield (m.conf d rs (ip + 8#64) (.inner :: F))) :=
  (step_inner_other hcell hin hcode (fun h => by cases img.addr_inj h)).trans callCode_yield

/-- `YIELD` in a colon body. -/
theorem step_yield_inner {F : List Frame} (hframes : m.frames = .inner :: F)
    (hyield : calledFun img m = some .wYield) :
    step img m = some (yield (m.conf m.vm.data m.vm.rs (m.vm.ip + 8#64) m.frames)) := by
  have hcall := hyield
  simp only [calledFun, hframes] at hcall
  split at hcall
  · rename_i hin
    have hcode := (img.addr_of_decode hcall).symm
    have hinner : step img (m.conf m.vm.data m.vm.rs m.vm.ip (.inner :: F)) =
        some (yield (m.conf m.vm.data m.vm.rs (m.vm.ip + 8#64) (.inner :: F))) :=
      step_inner_yield rfl hin hcode
    rwa [← hframes, Machine.conf_self] at hinner
  · cases hcall

/-- `YIELD` run from native code. -/
theorem step_yield_execute {e : Cell} {F : List Frame} (hframes : m.frames = .execute e :: F)
    (hyield : calledFun img m = some .wYield) :
    step img m = some (yield (m.conf m.vm.data m.vm.rs m.vm.ip F)) := by
  simp only [calledFun, hframes] at hyield
  have hcode := (img.addr_of_decode hyield).symm
  have hexecute : step img (m.conf m.vm.data m.vm.rs m.vm.ip (.execute e :: F)) =
      some (yield (m.conf m.vm.data m.vm.rs m.vm.ip F)) :=
    (step_execute_other hcode (fun h => by cases img.addr_inj h)).trans callCode_yield
  rwa [← hframes, Machine.conf_self] at hexecute

/-- Any call of `yield`. -/
theorem step_yield {F : List Frame} {ip : Cell} (hyield : yieldReturn img m = some (F, ip)) :
    step img m = some (yield (m.conf m.vm.data m.vm.rs ip F)) := by
  unfold yieldReturn at hyield
  split at hyield
  · rename_i rest hf
    split at hyield
    · rename_i hcall
      cases hyield
      rw [← hf]
      exact step_yield_inner hf hcall
    · cases hyield
  · rename_i entry rest hf
    split at hyield
    · rename_i hcall
      cases hyield
      exact step_yield_execute hf hcall
    · cases hyield
  · rename_i hf
    split at hyield
    · rename_i hkbd
      cases hyield
      rw [Machine.conf_self]
      simp only [step, hf, hkbd]
    · cases hyield
  · rename_i hf
    split at hyield
    · rename_i hkbd
      cases hyield
      rw [Machine.conf_self]
      simp only [step, hf, hkbd]
    · cases hyield
  · rename_i hf
    cases hyield
    rw [Machine.conf_self]
    simp only [step, hf]
  · cases hyield

end Native

/-- **A task is undisturbed if the others run native code.** From any call of
`yield` until the scheduler resumes the task, no other task moves the instruction
pointer or the return stack: then the task goes on right behind its call, with
its own next cell and its own return stack. -/
theorem yield_returns_undisturbed {img : Image} {m m₁ m₂ : Machine} {F : List Frame} {ip : Cell}
    (hcur : m.vm.data.current < m.vm.data.tasks.length)
    (hyield : yieldReturn img m = some (F, ip)) (hstep : step img m = some m₁)
    (hrun : Via (step img)
      (fun x => x.vm.data.current ≠ m.vm.data.current ∧ ¬ TouchesControl img x) m₁ m₂)
    (hback : m₂.vm.data.current = m.vm.data.current) :
    m₂.frames = F ∧ m₂.vm.ip = ip ∧ m₂.vm.rs = m.vm.rs := by
  have hm₁ : m₁ = yield (m.conf m.vm.data m.vm.rs ip F) := by
    have h := (step_yield hyield).symm.trans hstep
    exact (Option.some.inj h).symm
  obtain ⟨hcur₁, hlen₁, -⟩ := framesOf_step hstep hcur
  have hown : framesOf m₁ m.vm.data.current = F := by
    rw [hm₁, framesOf_yield (m := m.conf m.vm.data m.vm.rs ip F) hcur]
    exact framesOf_current (m := m.conf m.vm.data m.vm.rs ip F)
  obtain ⟨hip, hrs⟩ := yield_control (m := m.conf m.vm.data m.vm.rs ip F)
  rw [← hm₁] at hip hrs
  have hlt : m.vm.data.current < m₁.vm.data.tasks.length := by omega
  -- what another task does by native code changes none of this
  suffices h : framesOf m₂ m.vm.data.current = F ∧ m₂.vm.ip = ip ∧ m₂.vm.rs = m.vm.rs by
    rw [← hback, framesOf_current] at h
    exact h
  clear hm₁ hstep hback hlen₁
  induction hrun with
  | refl x => exact ⟨hown, hip, hrs⟩
  | head hQ hx _ ih =>
      obtain ⟨hcur', hlen', hkeep⟩ := framesOf_step hx hcur₁
      obtain ⟨hip', hrs'⟩ := step_control hx hQ.2
      exact ih hcur' ((hkeep _ hlt (Ne.symm hQ.1)).trans hown) (hip'.trans hip) (hrs'.trans hrs)
        (by omega)

/-! ## A second colon word -/

/-- Entries without a name for `YIELD` and the colon word `U` with the body
`YIELD`, and the body `YIELD` of the word that the main task is in. -/
def entryU : Cell := 0xFFFF800010000080#64
def mainBody : Cell := 0xFFFF8000100000C0#64

def yieldMem : Mem :=
  writeCells (writeCells (writeCells (fun _ => 0#8)
    (entryYield.toNat + 16) [linearImage.addr .wYield])
    (entryU.toNat + 16) [linearImage.addr .doColon, entryYield, sentinelExit])
    mainBody.toNat [entryYield, sentinelExit]

/-- The main task is about to yield to `other`. -/
def yieldMachine (other : Task) : Machine where
  vm :=
    { data :=
        { blankData with mem := yieldMem, tasks := [mainTask, other], forkTargetXt := entryU }
      rs := [0#64]
      ip := mainBody }
  frames := [.inner]
  kbd := []
  inputBuffer := []

theorem yield_sample_step (other : Task) :
    calledFun linearImage (yieldMachine other) = some .wYield ∧
      step linearImage (yieldMachine other) = some (yield ((yieldMachine other).conf
        (yieldMachine other).vm.data [0#64] (mainBody + 8#64) [.inner])) := by
  have hcell : cellAt yieldMem mainBody = entryYield := by decide +kernel
  have hin : InDict entryYield := by decide
  have hcode : cellAt yieldMem (dictGetCodeField yieldMem entryYield) = linearImage.addr .wYield := by
    decide +kernel
  have hmem : (yieldMachine other).vm.data.mem = yieldMem := rfl
  constructor
  · have hframes : (yieldMachine other).frames = [.inner] := rfl
    have hip : (yieldMachine other).vm.ip = mainBody := rfl
    simp only [calledFun, hframes, hip, hmem, hcell, if_pos hin, hcode]
    exact linearImage.decode_addr _
  · exact step_inner_yield (m := yieldMachine other) (d := (yieldMachine other).vm.data) (F := [])
      hcell hin hcode

/-- Next to the background worker the main task is undisturbed. -/
theorem yield_returns_undisturbed_worker : ∃ m, m.frames = [.inner] ∧
    m.vm.ip = mainBody + 8#64 ∧ m.vm.rs = [0#64] ∧
      Via (step linearImage) (fun _ => True)
        (yieldMachine { pid := 1#32, state := .ready, frames := [.worker] }) m := by
  obtain ⟨hyield, hstep⟩ :=
    yield_sample_step { pid := 1#32, state := .ready, frames := [.worker] }
  generalize hother : ({ pid := 1#32, state := .ready, frames := [.worker] } : Task) = other at *
  generalize hm₁ : yield ((yieldMachine other).conf (yieldMachine other).vm.data [0#64]
    (mainBody + 8#64) [.inner]) = m₁ at hstep
  have hworker : m₁.frames = [.worker] ∧ m₁.vm.data.current = 1 ∧
      (yield m₁).vm.data.current = 0 := by
    subst hother hm₁
    exact ⟨rfl, rfl, rfl⟩
  obtain ⟨hframes, hcur, hback⟩ := hworker
  have hnext : step linearImage m₁ = some (yield m₁) := by simp only [step, hframes]
  have hvia : Via (step linearImage)
      (fun x => x.vm.data.current ≠ 0 ∧ ¬ TouchesControl linearImage x) m₁ (yield m₁) := by
    refine Via.single ⟨by rw [hcur]; decide, ?_⟩ hnext
    simp only [TouchesControl, hframes]
    exact not_false
  have hreturn : yieldReturn linearImage (yieldMachine other) = some ([.inner], mainBody + 8#64) := by
    have hframes : (yieldMachine other).frames = [.inner] := rfl
    simp only [yieldReturn, hframes, hyield, if_true]
    rfl
  obtain ⟨hF, hip, hrs⟩ :=
    yield_returns_undisturbed (show 0 < 2 by decide) hreturn hstep hvia hback
  exact ⟨yield m₁, hF, hip, hrs, .head trivial hstep (Via.single trivial hnext)⟩

/-- Next to a task that runs `U`, the main task comes back in the body of `U`. -/
theorem yield_disturbed : ∃ m m₁ m₂ F, m.vm.data.current < m.vm.data.tasks.length ∧
    m.frames = .inner :: F ∧ calledFun linearImage m = some .wYield ∧
    step linearImage m = some m₁ ∧
    Via (step linearImage) (fun x => x.vm.data.current ≠ m.vm.data.current) m₁ m₂ ∧
    m₂.vm.data.current = m.vm.data.current ∧
    ¬ (m₂.frames = .inner :: F ∧ m₂.vm.ip = m.vm.ip + 8#64 ∧ m₂.vm.rs = m.vm.rs) := by
  obtain ⟨hyield, hstep⟩ := yield_sample_step (forkedTask 1#32)
  generalize hm₁ : yield ((yieldMachine (forkedTask 1#32)).conf
    (yieldMachine (forkedTask 1#32)).vm.data [0#64] (mainBody + 8#64) [.inner]) = m₁ at hstep
  obtain ⟨hframes, hcur, htarget, hmem, hrs, hip⟩ : m₁.frames = [.wrapper, .taskExit] ∧
      m₁.vm.data.current = 1 ∧ m₁.vm.data.forkTargetXt = entryU ∧ m₁.vm.data.mem = yieldMem ∧
      m₁.vm.rs = [0#64] ∧ m₁.vm.ip = mainBody + 8#64 := by
    subst hm₁
    exact ⟨rfl, rfl, rfl, rfl, rfl, rfl⟩
  -- the new task starts `U`, which saves the `ip` of the main task
  have hstart := (@step_wrapper linearImage _ _ hframes entryU).mpr htarget
  have henter : step linearImage (m₁.conf m₁.vm.data m₁.vm.rs m₁.vm.ip [.execute entryU, .taskExit]) =
      some (m₁.conf m₁.vm.data (m₁.vm.ip :: m₁.vm.rs) (dictGetParamField m₁.vm.data.mem entryU)
        [.inner, .taskExit]) :=
    step_execute_colon (by rw [hmem]; decide +kernel) (by rw [hrs]; decide)
  have hagain : step linearImage (m₁.conf m₁.vm.data (m₁.vm.ip :: m₁.vm.rs)
      (dictGetParamField m₁.vm.data.mem entryU) [.inner, .taskExit]) = some (yield (m₁.conf
        m₁.vm.data (m₁.vm.ip :: m₁.vm.rs) (dictGetParamField m₁.vm.data.mem entryU + 8#64)
        [.inner, .taskExit])) :=
    step_inner_yield (e := entryYield) (by rw [hmem]; decide +kernel) (by decide)
      (by rw [hmem]; decide +kernel)
  have hother : ∀ x : Machine, x.vm.data = m₁.vm.data → x.vm.data.current ≠ 0 := by
    intro x hx
    rw [hx, hcur]
    decide
  refine ⟨_, m₁, _, [], show 0 < 2 by decide, rfl, hyield, hstep,
    .head (hother _ rfl) hstart (.head (hother _ rfl) henter (Via.single (hother _ rfl) hagain)),
    ?_, ?_⟩
  · subst hm₁
    rfl
  · rintro ⟨-, hback, -⟩
    rw [yield_control.1] at hback
    have hparam : dictGetParamField m₁.vm.data.mem entryU + 8#64 = mainBody + 8#64 := hback
    rw [hmem] at hparam
    exact absurd hparam (by decide +kernel)

end VectorForth.Forth
