import VectorForth.Vm.Interleaving
import VectorForth.Vm.Simulation

/-!
# Calls, exits and the return stack

What one step does to the return stack: `forth_execute` and `forth_inner` push
the address to return to, an exit pops one, and a few words move values. The
calls that are running are recorded beside the machine, with the values that
each has put on the return stack, as if there were always room: the record is
what the return stack should hold.
-/

namespace VectorForth.Forth

open ByteMemory LabelledRun

/-! ## Calls and exits -/

/-- The address that the next step has to save, if it enters a colon word. -/
def callReturn (img : Image) (m : Machine) : Option Cell :=
  match m.frames with
  | .execute entry :: _ =>
      if cellAt m.vm.data.mem (dictGetCodeField m.vm.data.mem entry) = img.addr .doColon then
        some m.vm.ip
      else none
  | .inner :: _ =>
      let cell := cellAt m.vm.data.mem m.vm.ip
      if InDict cell ∧ cellAt m.vm.data.mem (dictGetCodeField m.vm.data.mem cell) =
          img.addr .doColon then
        some (m.vm.ip + 8#64)
      else none
  | _ => none

/-- The next step is the exit of a word. -/
def AtExit (m : Machine) : Prop :=
  m.frames.head? = some .inner ∧ cellAt m.vm.data.mem m.vm.ip = sentinelExit

instance (m : Machine) : Decidable (AtExit m) := inferInstanceAs (Decidable (_ ∧ _))

/-- The next cell is no word, and the running activation gives up. -/
def AtInvalid (img : Image) (m : Machine) : Prop :=
  m.frames.head? = some .inner ∧ ¬ InDict (cellAt m.vm.data.mem m.vm.ip) ∧
    cellAt m.vm.data.mem m.vm.ip ≠ sentinelExit ∧
    cellAt m.vm.data.mem m.vm.ip ≠ img.addr .doLiteral

instance (img : Image) (m : Machine) : Decidable (AtInvalid img m) :=
  inferInstanceAs (Decidable (_ ∧ _ ∧ _ ∧ _))

/-- The return stack after `rs_push`. -/
def pushed (v : Cell) (rs : List Cell) : List Cell :=
  if rs.length ≥ returnStackSize then rs else v :: rs

/-- The return stack after `f`, called with the data stack `ds`, when values go
there by `push`. -/
def rsUpdate (push : Cell → List Cell → List Cell) (f : CFun) (ds rs : List Cell) : List Cell :=
  match f with
  | .wToR => push (ds.headD 0#64) rs
  | .wFromR => rs.tail
  | .rtDo => push (ds.headD 0#64) (push (ds.tail.headD 0#64) rs)
  | .rtLoop =>
      let i := rs.headD 0#64 + 1#64
      if i.slt (rs.tail.headD 0#64) then push i rs.tail else rs.tail.tail
  | _ => rs

/-- The cells that `f` takes from the return stack. -/
def CFun.rsTakes : CFun → Nat
  | .wFromR => 1
  | .rtLoop => 2
  | _ => 0

/-- Every `rs_push` of `f` finds a free slot. -/
def CFun.pushesFit (f : CFun) (rs : List Cell) : Prop :=
  match f with
  | .wToR => rs.length < returnStackSize
  | .rtDo => rs.length + 1 < returnStackSize
  | .rtLoop => (rs.headD 0#64 + 1#64).slt (rs.tail.headD 0#64) = true →
      rs.tail.length < returnStackSize
  | _ => True

theorem rsPush_rs (vm : Vm) (v : Cell) : (vm.rsPush v).rs = pushed v vm.rs := by
  unfold Vm.rsPush pushed
  split <;> rfl

theorem rsPop_headD (vm : Vm) : vm.rsPop.1 = vm.rs.headD 0#64 ∧ vm.rsPop.2.rs = vm.rs.tail := by
  unfold Vm.rsPop
  split <;> rename_i hrs <;> rw [hrs] <;> exact ⟨rfl, rfl⟩

theorem vmWord_rs {f : CFun} {w : Vm → Vm} (hf : vmWord f = some w) (vm : Vm) :
    (w vm).rs = rsUpdate pushed f vm.data.ds vm.rs := by
  obtain ⟨hpop, hrest⟩ := dsPop_headD vm.data
  cases f <;> cases hf
  case doLiteral => rfl
  case rtBranch => simp only [rtBranch, Vm.ipFetchAdvance, rsUpdate]
  case rt0branch =>
    unfold rt0branch
    dsimp only [Vm.ipFetchAdvance]
    split <;> rfl
  case rtDo =>
    simp only [rtDo, rsPush_rs, rsUpdate, hpop, (dsPop_headD _).1, hrest]
  case rtLoop =>
    obtain ⟨hi, hrs⟩ := rsPop_headD { vm with ip := vm.ip + 8#64 }
    simp only [rtLoop, Vm.ipFetchAdvance, rsUpdate, Vm.rsPeek, hi, hrs]
    split
    · simp only [rsPush_rs, hrs]
    · simp only [(rsPop_headD _).2]
  case wToR => simp only [wToR, rsPush_rs, rsUpdate, hpop]
  case wFromR => exact (rsPop_headD vm).2
  case wRFetch => rfl
  case wI => rfl

/-- The other words leave the return stack alone. -/
theorem rsUpdate_other {push : Cell → List Cell → List Cell} {f : CFun} (hf : vmWord f = none)
    (ds rs : List Cell) : rsUpdate push f ds rs = rs := by
  cases f <;> first | rfl | cases hf

theorem rsUpdate_reads {push : Cell → List Cell → List Cell} {f : CFun} (hf : ¬ f.movesControl)
    (ds rs : List Cell) : rsUpdate push f ds rs = rs := by
  cases f <;> first | rfl | exact absurd (by decide) hf

theorem pushed_eq {v : Cell} {rs : List Cell} (h : rs.length < returnStackSize) :
    pushed v rs = v :: rs := if_neg (Nat.not_le.mpr h)

theorem pushed_full {v : Cell} {rs : List Cell} (h : ¬ rs.length < returnStackSize) :
    pushed v rs = rs := if_pos (Nat.not_lt.mp h)

theorem exists_two_of_length {α : Type*} {l : List α} (h : 2 ≤ l.length) :
    ∃ a b rest, l = a :: b :: rest := by
  rcases l with - | ⟨a, - | ⟨b, rest⟩⟩
  · cases h
  · exact absurd h (by decide : ¬ 2 ≤ 1)
  · exact ⟨a, b, rest, rfl⟩

/-- A word that finds its cells in its own part of the return stack, and a slot
for every value, moves this part as if there were always room. -/
theorem rsUpdate_append {f : CFun} {ds own R : List Cell} (htakes : f.rsTakes ≤ own.length)
    (hfit : f.pushesFit (own ++ R)) :
    rsUpdate pushed f ds (own ++ R) = rsUpdate List.cons f ds own ++ R := by
  cases f <;> first | rfl | skip
  case rtDo =>
    have hfit : (own ++ R).length + 1 < returnStackSize := hfit
    simp only [rsUpdate]
    rw [pushed_eq (Nat.lt_of_succ_lt hfit), pushed_eq (by simpa using hfit)]
    rfl
  case rtLoop =>
    obtain ⟨i, limit, own, rfl⟩ := exists_two_of_length htakes
    have hfit : (i + 1#64).slt limit = true → (limit :: (own ++ R)).length < returnStackSize := hfit
    have hloop : ∀ push rest, rsUpdate push .rtLoop ds (i :: limit :: rest) =
        if (i + 1#64).slt limit then push (i + 1#64) (limit :: rest) else rest := fun _ _ => rfl
    rw [List.cons_append, List.cons_append, hloop, hloop]
    split
    · rename_i hagain
      rw [pushed_eq (hfit hagain)]
      rfl
    · rfl
  case wToR => exact pushed_eq hfit
  case wFromR =>
    obtain ⟨v, own, rfl⟩ := List.exists_cons_of_length_pos htakes
    rfl

/-- Without a slot for every value, one of them is missing. -/
theorem length_rsUpdate_lt {f : CFun} {own R : List Cell} (ds : List Cell)
    (htakes : f.rsTakes ≤ own.length)
    (hfit : ¬ f.pushesFit (own ++ R)) :
    (rsUpdate pushed f ds (own ++ R)).length < (rsUpdate List.cons f ds own ++ R).length := by
  cases f <;> first | exact absurd trivial hfit | skip
  case rtDo =>
    have hfull : ¬ (own ++ R).length + 1 < returnStackSize := hfit
    simp only [rsUpdate]
    by_cases hone : (own ++ R).length < returnStackSize
    · rw [pushed_eq hone, pushed_full (by simpa using hfull)]
      simp
    · rw [pushed_full hone, pushed_full hone]
      simp only [List.length_append, List.length_cons, List.cons_append]
      omega
  case rtLoop =>
    obtain ⟨i, limit, own, rfl⟩ := exists_two_of_length htakes
    have hfull : ¬ ((i + 1#64).slt limit = true →
      (limit :: (own ++ R)).length < returnStackSize) := hfit
    obtain ⟨hagain, hfull⟩ := Classical.not_imp.mp hfull
    have hloop : ∀ push rest, rsUpdate push .rtLoop ds (i :: limit :: rest) =
        if (i + 1#64).slt limit then push (i + 1#64) (limit :: rest) else rest := fun _ _ => rfl
    rw [List.cons_append, List.cons_append, hloop, hloop, if_pos hagain, if_pos hagain,
      pushed_full hfull]
    simp
  case wToR =>
    have hfull : ¬ (own ++ R).length < returnStackSize := hfit
    simp only [rsUpdate]
    rw [pushed_full hfull]
    simp

section Steps

variable {img : Image} {m m' : Machine}

theorem exists_inner_of_head (h : m.frames.head? = some .inner) :
    ∃ rest, m.frames = .inner :: rest := by
  cases hframes : m.frames with
  | nil => simp [hframes] at h
  | cons f rest =>
      rw [hframes, List.head?_cons] at h
      exact ⟨rest, by rw [Option.some.inj h]⟩

/-- A cell that names a colon word. -/
theorem step_enters {rest : List Frame} (hf : m.frames = .inner :: rest)
    (hin : InDict (cellAt m.vm.data.mem m.vm.ip))
    (hcode : cellAt m.vm.data.mem (dictGetCodeField m.vm.data.mem
      (cellAt m.vm.data.mem m.vm.ip)) = img.addr .doColon) :
    step img m = some { m with
      vm := enterColon (cellAt m.vm.data.mem m.vm.ip) { m.vm with ip := m.vm.ip + 8#64 } } := by
  simp [step, hf, forthInner, Vm.ipFetchAdvance, hin, hin.ne_sentinel, hin.ne_addr img, hcode]

/-- A call pushes the return address if there is room, and enters the word. -/
theorem step_call {ret : Cell} (h : step img m = some m') (hcall : callReturn img m = some ret) :
    m'.vm.rs = pushed ret m.vm.rs ∧ m'.frames = .inner :: m.frames.tail := by
  unfold callReturn at hcall
  split at hcall
  · rename_i entry rest hf
    simp only [step, hf, forthExecute] at h
    split at hcall
    · rename_i hcode
      cases hcall
      rw [if_pos hcode] at h
      cases h
      exact ⟨rsPush_rs m.vm m.vm.ip, by rw [hf]; rfl⟩
    · cases hcall
  · rename_i rest hf
    dsimp only at hcall
    split at hcall
    · rename_i hin
      obtain ⟨hin, hcode⟩ := hin
      cases hcall
      rw [step_enters hf hin hcode] at h
      cases h
      exact ⟨rsPush_rs { m.vm with ip := m.vm.ip + 8#64 } _, by rw [hf]; rfl⟩
    · cases hcall
  · cases hcall

/-- An exit goes where the top of the return stack says, and ends the activation
if it says nothing. -/
theorem step_exit (h : step img m = some m') (hexit : AtExit m) :
    m'.vm.rs = m.vm.rs.tail ∧ m'.vm.ip = m.vm.rs.headD 0#64 ∧
      m'.frames = if m.vm.rs.headD 0#64 = 0#64 then m.frames.tail else m.frames := by
  obtain ⟨hhead, hcell⟩ := hexit
  obtain ⟨rest, hf⟩ := exists_inner_of_head hhead
  obtain ⟨hip, hrs⟩ := rsPop_headD { m.vm with ip := m.vm.ip + 8#64 }
  unfold step at h
  simp only [hf, forthInner, Vm.ipFetchAdvance, hcell, if_true] at h
  rw [hip] at h
  split at h
  · rename_i hzero
    cases h
    exact ⟨hrs, rfl, by rw [if_pos hzero, hf]; rfl⟩
  · rename_i hzero
    cases h
    exact ⟨hrs, rfl, by rw [if_neg hzero, hf]⟩

/-- What a word does to the return stack. -/
def afterWord (push : Cell → List Cell → List Cell) (called : Option CFun) (ds rs : List Cell) :
    List Cell :=
  match called with
  | some f => rsUpdate push f ds rs
  | none => rs

theorem callCode_rs {code entry : Cell} (h : callCode img code entry m = some m') :
    m'.vm.rs = afterWord pushed (img.decode code) m.vm.data.ds m.vm.rs := by
  by_cases hword : ∃ f w, code = img.addr f ∧ vmWord f = some w
  · obtain ⟨f, w, rfl, hw⟩ := hword
    rw [callCode_vmWord hw] at h
    cases h
    rw [img.decode_addr]
    exact vmWord_rs hw m.vm
  · have hsame : m'.vm.rs = m.vm.rs := by
      rcases callCode_control h with ⟨-, hrs⟩ | ⟨f, w, hcode, hw, -⟩
      · exact hrs
      · exact absurd ⟨f, w, hcode, hw⟩ hword
    rw [hsame]
    cases hdecode : img.decode code with
    | none => rfl
    | some f =>
        refine (rsUpdate_other ?_ _ _).symm
        cases hw : vmWord f with
        | none => rfl
        | some w => exact absurd ⟨f, w, (img.addr_of_decode hdecode).symm, hw⟩ hword

theorem calledFun_inner {rest : List Frame} (hf : m.frames = .inner :: rest) :
    calledFun img m = if InDict (cellAt m.vm.data.mem m.vm.ip) then
      img.decode (cellAt m.vm.data.mem (dictGetCodeField m.vm.data.mem
        (cellAt m.vm.data.mem m.vm.ip))) else none := by
  simp only [calledFun, hf]

theorem callReturn_inner {rest : List Frame} (hf : m.frames = .inner :: rest)
    (hin : InDict (cellAt m.vm.data.mem m.vm.ip))
    (hcode : cellAt m.vm.data.mem (dictGetCodeField m.vm.data.mem
      (cellAt m.vm.data.mem m.vm.ip)) = img.addr .doColon) :
    callReturn img m = some (m.vm.ip + 8#64) := by
  simp only [callReturn, hf]
  rw [if_pos ⟨hin, hcode⟩]

/-- Everything else does what the called word does. -/
theorem step_other (h : step img m = some m') (hcall : callReturn img m = none)
    (hexit : ¬ AtExit m) :
    m'.vm.rs = afterWord pushed (calledFun img m) m.vm.data.ds m.vm.rs := by
  by_cases htouch : TouchesControl img m
  · have hstep := h
    unfold TouchesControl at htouch
    unfold step at hstep
    split at htouch
    · -- a cell of a body
      rename_i rest hf
      simp only [hf] at hstep
      have hcell : cellAt m.vm.data.mem m.vm.ip ≠ sentinelExit := by
        intro hcell
        exact hexit ⟨by rw [hf]; rfl, hcell⟩
      unfold forthInner at hstep
      dsimp only [Vm.ipFetchAdvance] at hstep
      rw [if_neg hcell] at hstep
      split at hstep
      · rename_i hlit
        have hout : ¬ InDict (cellAt m.vm.data.mem m.vm.ip) := by
          rw [hlit]
          exact img.addr_not_inDict _
        cases hstep
        rw [calledFun_inner hf, if_neg hout]
        rfl
      · split at hstep
        · rename_i hout
          cases hstep
          rw [calledFun_inner hf, if_neg hout]
          rfl
        · rename_i hin
          have hin := not_not.mp hin
          rw [calledFun_inner hf, if_pos hin]
          split at hstep
          · rename_i hcode
            simp only [callReturn, hf] at hcall
            rw [if_pos ⟨hin, hcode⟩] at hcall
            cases hcall
          · have hrs := callCode_rs hstep
            exact hrs
    · -- a word called from native code
      rename_i entry rest hf
      simp only [hf] at hstep
      have hcode : cellAt m.vm.data.mem (dictGetCodeField m.vm.data.mem entry) ≠
          img.addr .doColon := by
        intro hcode
        simp only [callReturn, hf] at hcall
        rw [if_pos hcode] at hcall
        cases hcall
      unfold forthExecute at hstep
      dsimp only at hstep
      rw [if_neg hcode] at hstep
      simp only [calledFun, hf]
      have hrs := callCode_rs hstep
      exact hrs
    · exact absurd htouch not_false
  · rw [(step_control h htouch).2]
    cases hcalled : calledFun img m with
    | none => rfl
    | some f =>
        by_cases hmoves : f.movesControl
        · refine absurd ?_ htouch
          unfold calledFun at hcalled
          unfold TouchesControl
          split at hcalled
          · rename_i hf
            simp only [hf]
            exact ⟨f, (img.addr_of_decode hcalled).symm, hmoves⟩
          · rename_i hf
            simp only [hf]
          · cases hcalled
        · exact (rsUpdate_reads hmoves _ _).symm

end Steps

/-! ## Steps of one task -/

/-- A step of one task. If it yields, the others run until the task is resumed,
and none of them moves the instruction pointer or the return stack. -/
inductive TaskStep (img : Image) (m m' : Machine) : Prop
  | own (h : step img m = some m') (htask : m'.vm.data.current = m.vm.data.current)
  | away {m₁ : Machine} {F : List Frame} {ip : Cell}
      (hcur : m.vm.data.current < m.vm.data.tasks.length)
      (hyield : yieldReturn img m = some (F, ip)) (hstep : step img m = some m₁)
      (hrun : Via (step img)
        (fun x => x.vm.data.current ≠ m.vm.data.current ∧ ¬ TouchesControl img x) m₁ m')
      (hback : m'.vm.data.current = m.vm.data.current)

section TaskSteps

variable {img : Image} {m m' : Machine} {F : List Frame} {ip : Cell}

/-- A call of `yield` is made by `YIELD`, or by a loop that calls no word. -/
theorem yieldReturn_cases (h : yieldReturn img m = some (F, ip)) :
    (∃ rest, m.frames = .inner :: rest ∧ F = m.frames ∧ calledFun img m = some .wYield) ∨
    (∃ e, m.frames = .execute e :: F ∧ calledFun img m = some .wYield) ∨
    (F = m.frames ∧ m.frames.head? ≠ some .inner ∧ callReturn img m = none ∧
      calledFun img m = none) := by
  unfold yieldReturn at h
  split at h
  · rename_i rest hf
    split at h
    · rename_i hcall
      cases h
      exact Or.inl ⟨rest, hf, hf.symm, hcall⟩
    · cases h
  · rename_i e rest hf
    split at h
    · rename_i hcall
      cases h
      exact Or.inr (Or.inl ⟨e, hf, hcall⟩)
    · cases h
  · rename_i hf
    split at h
    · cases h
      exact Or.inr (Or.inr ⟨rfl, by simp [hf], by simp [callReturn, hf], by simp [calledFun, hf]⟩)
    · cases h
  · rename_i hf
    split at h
    · cases h
      exact Or.inr (Or.inr ⟨rfl, by simp [hf], by simp [callReturn, hf], by simp [calledFun, hf]⟩)
    · cases h
  · rename_i hf
    cases h
    exact Or.inr (Or.inr ⟨rfl, by simp [hf], by simp [callReturn, hf], by simp [calledFun, hf]⟩)
  · cases h

/-- A colon call calls `do_colon`. -/
theorem calledFun_of_callReturn {ret : Cell} (h : callReturn img m = some ret) :
    calledFun img m = some .doColon := by
  unfold callReturn at h
  split at h
  · rename_i hf
    split at h
    · rename_i hcode
      simp only [calledFun, hf, hcode]
      exact img.decode_addr _
    · cases h
  · rename_i rest hf
    dsimp only at h
    split at h
    · rename_i hin
      rw [calledFun_inner hf, if_pos hin.1, hin.2]
      exact img.decode_addr _
    · cases h
  · cases h

theorem inDict_of_calledFun {rest : List Frame} {f : CFun} (hf : m.frames = .inner :: rest)
    (h : calledFun img m = some f) : InDict (cellAt m.vm.data.mem m.vm.ip) := by
  rw [calledFun_inner hf] at h
  by_contra hout
  rw [if_neg hout] at h
  cases h

theorem calledFun_of_exit (h : AtExit m) : calledFun img m = none := by
  obtain ⟨rest, hf⟩ := exists_inner_of_head h.1
  have hout : ¬ InDict (cellAt m.vm.data.mem m.vm.ip) := fun hin => hin.ne_sentinel h.2
  rw [calledFun_inner hf, if_neg hout]

/-- A step that calls `yield` is no call, no exit and no failure. -/
theorem yieldReturn_quiet (h : yieldReturn img m = some (F, ip)) :
    callReturn img m = none ∧ ¬ AtExit m ∧ ¬ AtInvalid img m := by
  have hcall : callReturn img m = none := by
    cases hret : callReturn img m with
    | none => rfl
    | some ret =>
        have hcolon := calledFun_of_callReturn hret
        rcases yieldReturn_cases h with ⟨-, -, -, hyield⟩ | ⟨-, -, hyield⟩ | ⟨-, -, hnone, -⟩
        · rw [hcolon] at hyield
          cases hyield
        · rw [hcolon] at hyield
          cases hyield
        · rw [← hret, hnone]
  refine ⟨hcall, ?_, ?_⟩
  · rintro ⟨hhead, hexit⟩
    rcases yieldReturn_cases h with ⟨rest, hf, -, hyield⟩ | ⟨e, hf, -⟩ | ⟨-, hno, -⟩
    · exact (inDict_of_calledFun hf hyield).ne_sentinel hexit
    · rw [hf] at hhead
      cases hhead
    · exact hno hhead
  · rintro ⟨hhead, hout, -⟩
    rcases yieldReturn_cases h with ⟨rest, hf, -, hyield⟩ | ⟨e, hf, -⟩ | ⟨-, hno, -⟩
    · exact hout (inDict_of_calledFun hf hyield)
    · rw [hf] at hhead
      cases hhead
    · exact hno hhead

theorem TaskStep.step_of_call {ret : Cell} (h : TaskStep img m m')
    (hcall : callReturn img m = some ret) : step img m = some m' := by
  cases h with
  | own h _ => exact h
  | away _ hyield _ _ _ =>
      rw [(yieldReturn_quiet hyield).1] at hcall
      cases hcall

theorem TaskStep.step_of_exit (h : TaskStep img m m') (hexit : AtExit m) :
    step img m = some m' := by
  cases h with
  | own h _ => exact h
  | away _ hyield _ _ _ => exact absurd hexit (yieldReturn_quiet hyield).2.1

theorem TaskStep.rs_other (h : TaskStep img m m') (hcall : callReturn img m = none)
    (hexit : ¬ AtExit m) :
    m'.vm.rs = afterWord pushed (calledFun img m) m.vm.data.ds m.vm.rs := by
  cases h with
  | own h _ => exact step_other h hcall hexit
  | away hcur hyield hstep hrun hback =>
      rw [(yield_returns_undisturbed hcur hyield hstep hrun hback).2.2]
      rcases yieldReturn_cases hyield with ⟨-, -, -, hcalled⟩ | ⟨-, -, hcalled⟩ | ⟨-, -, -, hcalled⟩
        <;> rw [hcalled] <;> rfl

/-- A `yield` that stays in the task does nothing. -/
theorem yield_stays (h : (yield m).vm.data.current = m.vm.data.current) : yield m = m := by
  rcases yield_cases m with ⟨-, hm⟩ | ⟨hne, hm⟩
  · exact hm
  · rw [hm] at h
    exact absurd h hne

/-- Native code starts no activation of `forth_inner` itself. -/
theorem callCode_frames {code entry : Cell} (h : callCode img code entry m = some m')
    (htask : m'.vm.data.current = m.vm.data.current) :
    ∃ N, Frame.inner ∉ N ∧ m'.frames = N ++ m.frames := by
  unfold callCode at h
  split at h
  · cases h
    exact ⟨[], by simp, rfl⟩
  · split at h
    · cases h
      exact ⟨[], by simp, rfl⟩
    · split at h
      · unfold callNative at h
        split at h
        · obtain ⟨r, -, rfl⟩ := Option.map_eq_some_iff.mp h
          exact ⟨[], by simp, rfl⟩
        · split at h
          · cases h
            exact ⟨[], by simp, rfl⟩
          · split at h <;> cases h
            · exact ⟨[.execute m.vm.data.dsPop.1], by simp, rfl⟩
            · exact ⟨[.eval, .load m.vm.data.dsPop.2.parsePtr], by simp, rfl⟩
            · rw [yield_stays htask]
              exact ⟨[], by simp, rfl⟩
            · exact ⟨[.editor _ _ _], by simp, rfl⟩
            · exact ⟨[], by simp, rfl⟩
      · cases h

theorem editorKey_frames {rest : List Frame} {blk cursor : Nat} {n : BitVec 32} {key : Byte} :
    ∃ N, Frame.inner ∉ N ∧ (editorKey img rest blk n cursor key m).frames = N ++ rest := by
  unfold editorKey
  dsimp only
  split
  · exact ⟨[], by simp, rfl⟩
  · exact ⟨[.editor _ _ _], by simp, rfl⟩

theorem replKey_frames {rest : List Frame} {c : Byte} (hf : m.frames = .repl :: rest) :
    ∃ N, Frame.inner ∉ N ∧ (replKey rest c m).frames = N ++ rest := by
  unfold replKey
  split
  · dsimp only
    split
    · exact ⟨[.eval, .prompt, .repl], by simp, rfl⟩
    · exact ⟨[.prompt, .repl], by simp, rfl⟩
  · refine ⟨[.repl], by simp, ?_⟩
    split
    · split <;> exact hf
    · split <;> exact hf

/-- A step that is no call, no exit and no failure leaves the activations of
`forth_inner` as they are. -/
theorem step_frames (h : step img m = some m') (htask : m'.vm.data.current = m.vm.data.current)
    (hcall : callReturn img m = none) (hexit : ¬ AtExit m) (hvalid : ¬ AtInvalid img m) :
    ∃ N, Frame.inner ∉ N ∧ (m'.frames = N ++ m.frames ∨
      m.frames.head? ≠ some .inner ∧ m'.frames = N ++ m.frames.tail) := by
  unfold step at h
  split at h
  · cases h
  · -- forth_execute
    rename_i entry rest hf
    have hcode : cellAt m.vm.data.mem (dictGetCodeField m.vm.data.mem entry) ≠
        img.addr .doColon := by
      intro hcode
      simp only [callReturn, hf] at hcall
      rw [if_pos hcode] at hcall
      cases hcall
    unfold forthExecute at h
    dsimp only at h
    rw [if_neg hcode] at h
    obtain ⟨N, hN, hframes⟩ := callCode_frames h htask
    exact ⟨N, hN, Or.inr ⟨by simp [hf], by rw [hframes, hf]; rfl⟩⟩
  · -- forth_inner
    rename_i rest hf
    have hhead : m.frames.head? = some .inner := by rw [hf]; rfl
    unfold forthInner at h
    dsimp only [Vm.ipFetchAdvance] at h
    rw [if_neg fun hcell => hexit ⟨hhead, hcell⟩] at h
    split at h
    · cases h
      exact ⟨[], by simp, Or.inl rfl⟩
    · rename_i hlit
      split at h
      · rename_i hout
        exact absurd ⟨hhead, hout, fun hcell => hexit ⟨hhead, hcell⟩, hlit⟩ hvalid
      · rename_i hin
        rw [if_neg fun hcode => ?_] at h
        · obtain ⟨N, hN, hframes⟩ := callCode_frames h htask
          exact ⟨N, hN, Or.inl hframes⟩
        · rw [callReturn_inner hf (not_not.mp hin) hcode] at hcall
          cases hcall
  · -- forth_eval
    rename_i rest hf
    have hhead : m.frames.head? ≠ some .inner := by simp [hf]
    unfold forthEval at h
    dsimp only at h
    split at h
    · cases h
      exact ⟨[], by simp, Or.inr ⟨hhead, by rw [hf]; rfl⟩⟩
    · split at h
      · cases h
      · split at h
        · split at h <;> cases h
          · exact ⟨[], by simp, Or.inl rfl⟩
          · exact ⟨[.execute _], by simp, Or.inl rfl⟩
        · split at h
          · split at h <;> cases h <;> exact ⟨[], by simp, Or.inl rfl⟩
          · cases h
            exact ⟨[], by simp, Or.inr ⟨hhead, by rw [hf]; rfl⟩⟩
  · rename_i hf
    cases h
    exact ⟨[], by simp, Or.inr ⟨by simp [hf], by rw [hf]; rfl⟩⟩
  · rename_i hf
    cases h
    exact ⟨[.editorKey _ _ _], by simp, Or.inr ⟨by simp [hf], by rw [hf]; rfl⟩⟩
  · -- run_editor
    rename_i hf
    split at h
    · cases h
      rw [yield_stays htask]
      exact ⟨[], by simp, Or.inl rfl⟩
    · cases h
      obtain ⟨N, hN, hframes⟩ := editorKey_frames
      exact ⟨N, hN, Or.inr ⟨by simp [hf], by rw [hframes, hf]; rfl⟩⟩
  · rename_i hf
    cases h
    rw [hf]
    split
    · exact ⟨[.execute _], by simp, Or.inr ⟨by simp, rfl⟩⟩
    · exact ⟨[], by simp, Or.inr ⟨by simp, rfl⟩⟩
  · -- task_exit
    rename_i rest hf
    cases h
    rw [yield_stays (by exact htask)]
    exact ⟨[.halt], by simp, Or.inr ⟨by simp [hf], by rw [hf]; rfl⟩⟩
  · cases h
    exact ⟨[], by simp, Or.inl rfl⟩
  · cases h
    rw [yield_stays htask]
    exact ⟨[], by simp, Or.inl rfl⟩
  · -- forth_run
    rename_i rest hf
    split at h
    · cases h
      rw [yield_stays htask]
      exact ⟨[], by simp, Or.inl rfl⟩
    · rename_i c kbd _
      cases h
      obtain ⟨N, hN, hframes⟩ := replKey_frames (c := c) (show Machine.frames { m with kbd } = _ from hf)
      exact ⟨N, hN, Or.inr ⟨by simp [hf], by rw [hframes, hf]; rfl⟩⟩
  · rename_i hf
    cases h
    exact ⟨[], by simp, Or.inr ⟨by simp [hf], by rw [hf]; rfl⟩⟩

theorem TaskStep.frames_other (h : TaskStep img m m') (hcall : callReturn img m = none)
    (hexit : ¬ AtExit m) (hvalid : ¬ AtInvalid img m) :
    ∃ N, Frame.inner ∉ N ∧ (m'.frames = N ++ m.frames ∨
      m.frames.head? ≠ some .inner ∧ m'.frames = N ++ m.frames.tail) := by
  cases h with
  | own h htask => exact step_frames h htask hcall hexit hvalid
  | away hcur hyield hstep hrun hback =>
      obtain ⟨hframes, -, -⟩ := yield_returns_undisturbed hcur hyield hstep hrun hback
      refine ⟨[], by simp, ?_⟩
      rw [hframes]
      rcases yieldReturn_cases hyield with ⟨-, -, hF, -⟩ | ⟨e, hf, -⟩ | ⟨hF, -⟩
      · exact Or.inl hF
      · exact Or.inr ⟨by simp [hf], by rw [hf]; rfl⟩
      · exact Or.inl hF

end TaskSteps

/-! ## The calls that are running -/

/-- What the running calls have saved: the values of the word that runs, then for
each call its return address and the values of its caller. -/
structure Calls where
  own : List Cell
  pending : List (Cell × List Cell)

def Calls.saved (c : Calls) : List Cell := c.own ++ c.pending.flatMap fun p => p.1 :: p.2

/-- No call yet. -/
def noCalls : Calls := ⟨[], []⟩

def Calls.call (c : Calls) (ret : Cell) : Calls := ⟨[], (ret, c.own) :: c.pending⟩

def Calls.exit (c : Calls) : Calls :=
  match c.pending with
  | [] => c
  | p :: pending => ⟨p.2, pending⟩

/-- What is to be saved after the next step, as if there were always room. -/
def callsAfter (img : Image) (m : Machine) (c : Calls) : Calls :=
  match callReturn img m with
  | some ret => c.call ret
  | none =>
      if AtExit m then c.exit
      else { c with own := afterWord List.cons (calledFun img m) m.vm.data.ds c.own }

/-- A step of one task inside a call from `K`, labelled with the state before
it. A word takes back only what its own activation has put on the return stack,
and has taken back all of it at its exit; an exit ends a call of the run. -/
structure CallStep (img : Image) (K : List Frame) (s p t : Machine × Calls) : Prop where
  label : p = s
  above : Above K s.1
  step : TaskStep img s.1 t.1
  takes : ∀ f, calledFun img s.1 = some f → f.rsTakes ≤ s.2.own.length
  exits : AtExit s.1 → s.2.own = [] ∧ s.2.pending ≠ []
  next : t.2 = callsAfter img s.1 s.2

/-- Every `rs_push` of the next step finds a free slot. -/
def HasRoom (img : Image) (m : Machine) : Prop :=
  ((callReturn img m).isSome = true → m.vm.rs.length < returnStackSize) ∧
    ∀ f, calledFun img m = some f → f.pushesFit m.vm.rs

/-- No return address and no value is missing: the return stack holds all that
is saved, above `R`. -/
def OnTrack (R : List Cell) (p : Machine × Calls) : Prop := p.1.vm.rs = p.2.saved ++ R

theorem onTrack_start (m : Machine) : OnTrack m.vm.rs (m, noCalls) := rfl

section CallSteps

variable {img : Image} {K : List Frame} {R : List Cell} {s p t e : Machine × Calls}
  {ps : List (Machine × Calls)}

/-- With room for what it pushes, a step keeps the return stack on track. -/
theorem CallStep.onTrack (h : CallStep img K s p t) (hs : OnTrack R s) (hroom : HasRoom img s.1) :
    OnTrack R t := by
  unfold OnTrack at *
  rw [h.next, callsAfter]
  cases hcall : callReturn img s.1 with
  | some ret =>
      rw [(step_call (h.step.step_of_call hcall) hcall).1,
        pushed_eq (hroom.1 (by rw [hcall]; rfl)), hs]
      simp [Calls.call, Calls.saved]
  | none =>
      dsimp only
      split
      · rename_i hexit
        obtain ⟨hown, hpending⟩ := h.exits hexit
        obtain ⟨⟨ret, own⟩, pending, hcons⟩ := List.exists_cons_of_ne_nil hpending
        rw [(step_exit (h.step.step_of_exit hexit) hexit).1, hs]
        simp [Calls.saved, Calls.exit, hown, hcons]
      · rename_i hexit
        rw [h.step.rs_other hcall hexit]
        cases hcalled : calledFun img s.1 with
        | none => exact hs
        | some f =>
            have hfit := hroom.2 f hcalled
            show rsUpdate pushed f s.1.vm.data.ds s.1.vm.rs = _
            rw [hs, Calls.saved, List.append_assoc] at hfit ⊢
            rw [rsUpdate_append (h.takes f hcalled) hfit]
            simp [Calls.saved, afterWord]

/-- A push that finds no slot loses a return address or a value for good. -/
theorem CallStep.lost (h : CallStep img K s p t) (hs : OnTrack R s) (hfull : ¬ HasRoom img s.1) :
    ¬ OnTrack R t := by
  intro ht
  have hlen := congrArg List.length ht
  unfold OnTrack at hs
  rw [h.next, callsAfter] at hlen
  by_cases hcalls : (callReturn img s.1).isSome = true → s.1.vm.rs.length < returnStackSize
  · -- a word moves a value
    obtain ⟨f, hcalled, hfit⟩ : ∃ f, calledFun img s.1 = some f ∧ ¬ f.pushesFit s.1.vm.rs := by
      by_contra hno
      refine hfull ⟨hcalls, fun f hcalled => ?_⟩
      by_contra hfit
      exact hno ⟨f, hcalled, hfit⟩
    have hcall : callReturn img s.1 = none := by
      cases hret : callReturn img s.1 with
      | none => rfl
      | some ret =>
          rw [calledFun_of_callReturn hret] at hcalled
          cases hcalled
          exact absurd trivial hfit
    have hexit : ¬ AtExit s.1 := fun hexit => by
      rw [calledFun_of_exit hexit] at hcalled
      cases hcalled
    rw [h.step.rs_other hcall hexit, hcall] at hlen
    simp only [hexit, if_false, hcalled, afterWord] at hlen
    rw [hs, Calls.saved, List.append_assoc] at hfit hlen
    have hlt := length_rsUpdate_lt s.1.vm.data.ds (h.takes f hcalled) hfit
    simp only [Calls.saved, List.length_append] at hlen hlt
    omega
  · -- a call
    obtain ⟨hsome, hno⟩ := Classical.not_imp.mp hcalls
    obtain ⟨ret, hret⟩ := Option.isSome_iff_exists.mp hsome
    rw [(step_call (h.step.step_of_call hret) hret).1, pushed_full hno, hret, hs] at hlen
    simp [Calls.call, Calls.saved] at hlen

end CallSteps

end VectorForth.Forth
