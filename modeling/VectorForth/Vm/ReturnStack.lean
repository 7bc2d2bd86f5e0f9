import VectorForth.Vm.Reentrancy

/-!
# The return stack when things go wrong

`rs_push` reports a full return stack and returns, and the caller enters the
word, or goes on without the value, all the same. An invalid cell makes
`forth_inner` return from the middle of a body, with the frames of the calls
around it still pushed. Both are described over runs: the addresses that pending
calls have to return to are followed beside the machine.
-/

namespace VectorForth.Forth

open ByteMemory LabelledRun

/-! ## Exhaustion -/

/-- The exit of a word leads to the cell after the call that entered it. -/
def ExitsToCaller (img : Image) (p : Machine × Calls) : Prop :=
  ∀ m' ret own pending, AtExit p.1 → p.2.pending = (ret, own) :: pending →
    Forth.step img p.1 = some m' → m'.vm.ip = ret

section Exhaustion

variable {img : Image} {K : List Frame} {R : List Cell} {s p e : Machine × Calls}
  {ps : List (Machine × Calls)}

theorem OnTrack.exitsToCaller (h : OnTrack R s) (hown : AtExit s.1 → s.2.own = []) :
    ExitsToCaller img s := by
  intro m' ret own pending hexit hpending hstep
  unfold OnTrack at h
  rw [(step_exit hstep hexit).2.1, h]
  simp [Calls.saved, hown hexit, hpending]

theorem start_mem (h : Run (CallStep img K) s ps e) : s ∈ ps ++ [e] := by
  cases h with
  | nil => simp
  | cons hstep _ =>
      rw [hstep.label]
      simp

/-- By induction on the run: the first push without a free slot leads to the
first state off track. -/
theorem onTrack_iff_room (h : Run (CallStep img K) s ps e) (hs : OnTrack R s) :
    (∀ p ∈ ps ++ [e], OnTrack R p) ↔ ∀ p ∈ ps, HasRoom img p.1 := by
  induction h with
  | nil s => simpa using hs
  | @cons s t e p ps hstep hrest ih =>
      have hlabel := hstep.label
      subst hlabel
      have hmem := start_mem hrest
      constructor
      · intro hall
        have hroom : HasRoom img p.1 := by
          by_contra hfull
          exact hstep.lost hs hfull (hall t (List.mem_cons_of_mem _ hmem))
        have htail := (ih (hstep.onTrack hs hroom)).mp fun q hq =>
          hall q (List.mem_cons_of_mem _ hq)
        rintro q hq
        rcases List.mem_cons.mp hq with rfl | hq
        · exact hroom
        · exact htail q hq
      · intro hall
        have ht := hstep.onTrack hs (hall p List.mem_cons_self)
        have htail := (ih ht).mpr fun q hq => hall q (List.mem_cons_of_mem _ hq)
        rintro q hq
        rcases List.mem_cons.mp hq with rfl | hq
        · exact hs
        · exact htail q hq

theorem exits_mem (h : Run (CallStep img K) s ps e) (hp : p ∈ ps) (hexit : AtExit p.1) :
    p.2.own = [] := by
  induction h with
  | nil => cases hp
  | cons hstep _ ih =>
      rcases List.mem_cons.mp hp with rfl | hp
      · rw [hstep.label] at hexit ⊢
        exact (hstep.exits hexit).1
      · exact ih hp

/-- **The return stack misdirects control exactly when a push finds it full.**
During a call from `K`, of any depth and shape, no return address and no value is
missing and every exit leads to the cell after its call, unless a colon word is
entered, or a word moves a value there, while the return stack has no free slot. -/
theorem control_on_track_iff_room {m₀ : Machine} (h : Run (CallStep img K) (m₀, noCalls) ps e) :
    (∀ p ∈ ps ++ [e], OnTrack m₀.vm.rs p ∧ (p ∈ ps → ExitsToCaller img p)) ↔
      ∀ p ∈ ps, HasRoom img p.1 := by
  rw [← onTrack_iff_room h (onTrack_start m₀)]
  constructor
  · intro hall p hp
    exact (hall p hp).1
  · intro hall p hp
    have htrack := hall p hp
    exact ⟨htrack, fun hmem => htrack.exitsToCaller fun hexit => exits_mem h hmem hexit⟩

/-- The call of `C` at the prompt, with the exits of `A` and `C`. -/
theorem control_on_track_prompt : ∃ ps t,
    Run (CallStep linearImage [.eval]) (samplePrompt entryC [], noCalls) ps t ∧
      t.1.frames = [.eval] ∧
        ∀ p ∈ ps ++ [t], OnTrack [] p ∧ (p ∈ ps → ExitsToCaller linearImage p) := by
  obtain ⟨ps, t, hrun, hback, hall⟩ := sample_run
  exact ⟨ps, t, hrun, hback, (control_on_track_iff_room hrun).mpr fun p hp => (hall p hp).room⟩

end Exhaustion

/-! ## Aborts -/

/-- Control is as it was at `m₀`. -/
def NoResidue (m₀ m : Machine) : Prop := m.vm.ip = m₀.vm.ip ∧ m.vm.rs = m₀.vm.rs

section Aborts

variable {img : Image} {K : List Frame} {m₀ m m' : Machine}

theorem step_invalid (h : step img m = some m') (hat : AtInvalid img m) :
    m'.vm.ip = m.vm.ip + 8#64 ∧ m'.vm.rs = m.vm.rs ∧ m'.frames = m.frames.tail := by
  obtain ⟨hhead, hout, hexit, hlit⟩ := hat
  obtain ⟨rest, hf⟩ := exists_inner_of_head hhead
  unfold step at h
  simp only [hf, forthInner, Vm.ipFetchAdvance, hexit, hlit, hout, if_false, not_false_eq_true,
    if_true] at h
  cases h
  exact ⟨rfl, rfl, by rw [hf]; rfl⟩

/-- The colon word that `m₀` is about to call from `K` stops at an invalid cell,
and control is back in `K`. -/
structure AbortsAt (img : Image) (K : List Frame) (m₀ m m' : Machine) : Prop where
  start : ∃ entry, m₀.frames = .execute entry :: K ∧
    cellAt m₀.vm.data.mem (dictGetCodeField m₀.vm.data.mem entry) = img.addr .doColon
  run : Via (step img) (Above K) m₀ m
  cell : AtInvalid img m
  frames : m.frames = .inner :: K
  stop : step img m = some m'

theorem InDict.next_ne_zero {a : Cell} (h : InDict a) : a + 8#64 ≠ 0#64 := by
  have htop := dictTop_lt
  obtain ⟨hlow, hhigh⟩ := h
  simp only [dictVirtBase, dictSize] at hlow hhigh
  intro hz
  have hnat := congrArg BitVec.toNat hz
  rw [BitVec.toNat_add, BitVec.toNat_ofNat, BitVec.toNat_ofNat] at hnat
  omega

/-- **An aborted word leaves a residue.** Control is as before only if the
instruction pointer stood just behind the invalid cell already, and the return
stack was down to where it was. At a prompt with a null instruction pointer this
is never so for a cell of the dictionary, and no colon word that is run next
returns cleanly. What is left on the return stack is all that the calls around
the cell have saved. -/
theorem abort_residue (h : AbortsAt img K m₀ m m') :
    (NoResidue m₀ m' ↔ m.vm.ip + 8#64 = m₀.vm.ip ∧ m.vm.rs = m₀.vm.rs) ∧
    (InDict m.vm.ip → m₀.vm.ip = 0#64 → ¬ NoResidue m₀ m' ∧
      ∀ (words : Words) (P : Set Nat) (cap : Nat) (r : Bool) (e : Cell) (b : Body) (d : Data)
        (x : Machine) (K' : List Frame), x.frames = .execute e :: K' → x.vm.ip = m'.vm.ip →
        Known img words P x.vm.data.mem → words e = some (.colon b) →
        x.vm.rs.length + 1 + cap ≤ returnStackSize →
        Exec img words P cap false r (.body b) ⟨x.vm.data, []⟩ ⟨d, []⟩ →
        ¬ ReturnsCleanly img K' x) ∧
    ∀ ps c, Run (CallStep img K) (m₀, noCalls) ps (m, c) →
      (∀ p ∈ ps, HasRoom img p.1) →
      m'.vm.rs = c.saved ++ m₀.vm.rs := by
  obtain ⟨hip, hrs, -⟩ := step_invalid h.stop h.cell
  refine ⟨by rw [NoResidue, hip, hrs], ?_, ?_⟩
  · intro hin hzero
    have hne : m'.vm.ip ≠ 0#64 := by
      rw [hip]
      exact hin.next_ne_zero
    constructor
    · rintro ⟨hsame, -⟩
      exact hne (hsame.trans hzero)
    · intro words P cap r e b d x K' hx hipx hknown he hroom hexec
      have hdirty : x.vm.ip ≠ 0#64 := by
        rw [hipx]
        exact hne
      exact not_returnsCleanly hx hknown he hroom hexec (Or.inl hdirty)
  · intro ps c hrun hroom
    rw [hrs]
    exact (onTrack_iff_room hrun (onTrack_start m₀)).mpr hroom (m, c) (by simp)

end Aborts

/-- An entry without a name for a word with the body of `BEGIN AGAIN`. -/
def entryAgain : Cell := 0xFFFF800010000080#64

def againMem : Mem :=
  writeCells (fun _ => 0#8) (entryAgain.toNat + 16)
    [linearImage.addr .doColon, linearImage.addr .rtBranch, 0xFFFF800010000098#64, sentinelExit]

/-- The prompt is about to run it. -/
def againPrompt : Machine where
  vm := { data := { blankData with mem := againMem }, rs := [], ip := 0#64 }
  frames := [.execute entryAgain, .eval]
  kbd := []
  inputBuffer := []

theorem again_aborts : ∃ m m', AbortsAt linearImage [.eval] againPrompt m m' ∧
    m.vm.ip = 0xFFFF800010000098#64 ∧ m.vm.rs = [0#64] := by
  have hcode : cellAt againMem (dictGetCodeField againMem entryAgain) =
      linearImage.addr .doColon := by
    decide +kernel
  have hparam : dictGetParamField againMem entryAgain = 0xFFFF800010000098#64 := by decide +kernel
  have hcell : cellAt againMem 0xFFFF800010000098#64 = linearImage.addr .rtBranch := by
    decide +kernel
  have henter : step linearImage againPrompt = some (againPrompt.conf againPrompt.vm.data [0#64]
      (dictGetParamField againMem entryAgain) [.inner, .eval]) :=
    step_execute_colon (m := againPrompt) (d := againPrompt.vm.data) hcode (by decide)
  rw [hparam] at henter
  refine ⟨_, _, ⟨⟨entryAgain, rfl, hcode⟩,
    Via.single ⟨[.execute entryAgain], by simp, rfl⟩ henter, ⟨rfl, ?_, ?_, ?_⟩, rfl,
    step_inner_raw hcell (by decide)⟩, rfl, rfl⟩
  · show ¬ InDict (cellAt againMem 0xFFFF800010000098#64)
    rw [hcell]
    exact linearImage.addr_not_inDict _
  · show cellAt againMem 0xFFFF800010000098#64 ≠ _
    rw [hcell]
    exact linearImage.addr_ne_sentinel _
  · show cellAt againMem 0xFFFF800010000098#64 ≠ _
    rw [hcell]
    decide

theorem abort_residue_again : ∃ m m', AbortsAt linearImage [.eval] againPrompt m m' ∧
    ¬ NoResidue againPrompt m' := by
  obtain ⟨m, m', h, hip, -⟩ := again_aborts
  have hin : InDict m.vm.ip := by
    rw [hip]
    decide
  exact ⟨m, m', h, ((abort_residue h).2.1 hin rfl).1⟩

/-- `BEGIN AGAIN` leaves its own `ip` and the frame of its call at the prompt. -/
theorem again_leaves_residue : ∃ m m', AbortsAt linearImage [.eval] againPrompt m m' ∧
    m'.vm.ip ≠ againPrompt.vm.ip ∧ m'.vm.rs ≠ againPrompt.vm.rs := by
  obtain ⟨m, m', h, hip, hrs⟩ := again_aborts
  obtain ⟨hip', hrs', -⟩ := step_invalid h.stop h.cell
  rw [hip] at hip'
  rw [hrs] at hrs'
  refine ⟨m, m', h, ?_, ?_⟩
  · rw [hip']
    decide
  · rw [hrs']
    decide

/-! ## A word that calls itself -/

/-- An entry without a name, with itself as its body. -/
def entryX : Cell := 0xFFFF800010000080#64

def selfMem : Mem :=
  writeCells (fun _ => 0#8) (entryX.toNat + 16)
    [linearImage.addr .doColon, entryX, sentinelExit]

/-- The prompt is about to run it. -/
def selfPrompt : Machine where
  vm := { data := { blankData with mem := selfMem }, rs := [], ip := 0#64 }
  frames := [.execute entryX, .eval]
  kbd := []
  inputBuffer := []

/-- The machine in the body of the word, and the calls that are running. -/
structure InSelf (n : Nat) (p : Machine × Calls) : Prop where
  frames : p.1.frames = [.inner, .eval]
  mem : p.1.vm.data.mem = selfMem
  ip : p.1.vm.ip = dictGetParamField selfMem entryX
  depth : p.2.pending.length = n + 1
  own : p.2.own = [] ∧ ∀ q ∈ p.2.pending, q.2 = []

theorem rsPush_keeps (vm : Vm) (v : Cell) :
    (vm.rsPush v).data.mem = vm.data.mem ∧ (vm.rsPush v).data.current = vm.data.current := by
  unfold Vm.rsPush
  split <;> exact ⟨rfl, rfl⟩

/-- What the cells of the word say. -/
theorem selfMem_cells :
    cellAt selfMem (dictGetParamField selfMem entryX) = entryX ∧
      cellAt selfMem (dictGetCodeField selfMem entryX) = linearImage.addr .doColon := by
  constructor <;> decide +kernel

theorem InSelf.calls {n : Nat} {p : Machine × Calls} (h : InSelf n p) :
    calledFun linearImage p.1 = some .doColon ∧
      callReturn linearImage p.1 = some (p.1.vm.ip + 8#64) ∧ ¬ AtExit p.1 := by
  obtain ⟨hbody, hcode⟩ := selfMem_cells
  have hcell : cellAt p.1.vm.data.mem p.1.vm.ip = entryX := by rw [h.mem, h.ip, hbody]
  have hin : InDict entryX := by decide
  refine ⟨?_, ?_, ?_⟩
  · rw [calledFun_inner h.frames, hcell, if_pos hin, h.mem, hcode]
    exact linearImage.decode_addr _
  · exact callReturn_inner h.frames (by rw [hcell]; exact hin) (by rw [hcell, h.mem, hcode])
  · rintro ⟨-, hexit⟩
    rw [hcell] at hexit
    exact absurd hexit (by decide)

/-- One more call, whether there is room for it or not. -/
theorem InSelf.step {n : Nat} {p : Machine × Calls} (h : InSelf n p) :
    ∃ t, CallStep linearImage [.eval] p p t ∧ InSelf (n + 1) t := by
  obtain ⟨hbody, hcode⟩ := selfMem_cells
  obtain ⟨hcalled, hret, hexit⟩ := h.calls
  have hcell : cellAt p.1.vm.data.mem p.1.vm.ip = entryX := by rw [h.mem, h.ip, hbody]
  have hstep := @step_enters linearImage _ _ h.frames (by rw [hcell]; decide)
    (by rw [hcell, h.mem, hcode])
  obtain ⟨hmem, hcurrent⟩ := rsPush_keeps { p.1.vm with ip := p.1.vm.ip + 8#64 } (p.1.vm.ip + 8#64)
  refine ⟨(_, callsAfter linearImage p.1 p.2),
    ⟨rfl, ⟨[.inner], by simp, h.frames⟩, .own hstep hcurrent, ?_, fun h => absurd h hexit, rfl⟩,
    ⟨h.frames, hmem.trans h.mem, ?_, ?_, ?_⟩⟩
  · intro f hf
    rw [hcalled] at hf
    cases hf
    exact Nat.zero_le _
  · show dictGetParamField p.1.vm.data.mem (cellAt p.1.vm.data.mem p.1.vm.ip) = _
    rw [hcell, h.mem]
  · simp [callsAfter, hret, Calls.call, h.depth]
  · simp only [callsAfter, hret, Calls.call]
    refine ⟨trivial, ?_⟩
    rintro q hq
    rcases List.mem_cons.mp hq with rfl | hq
    · exact h.own.1
    · exact h.own.2 q hq

theorem self_start :
    ∃ t, CallStep linearImage [.eval] (selfPrompt, noCalls) (selfPrompt, noCalls) t ∧
      InSelf 0 t := by
  obtain ⟨-, hcode⟩ := selfMem_cells
  have hmem : selfPrompt.vm.data.mem = selfMem := rfl
  have hframes : selfPrompt.frames = [.execute entryX, .eval] := rfl
  have hret : callReturn linearImage selfPrompt = some 0#64 := by
    simp only [callReturn, hframes, hmem]
    rw [if_pos hcode]
    rfl
  have hcalled : calledFun linearImage selfPrompt = some .doColon := by
    simp only [calledFun, hframes, hmem, hcode]
    exact linearImage.decode_addr _
  have hstep : step linearImage selfPrompt = some (selfPrompt.conf selfPrompt.vm.data [0#64]
      (dictGetParamField selfMem entryX) [.inner, .eval]) :=
    step_execute_colon (m := selfPrompt) (d := selfPrompt.vm.data) hcode (by decide)
  refine ⟨(_, callsAfter linearImage selfPrompt noCalls),
    ⟨rfl, ⟨[.execute entryX], by simp, rfl⟩, .own hstep rfl, ?_, ?_, rfl⟩,
    ⟨rfl, rfl, rfl, ?_, ?_⟩⟩
  · intro f hf
    rw [hcalled] at hf
    cases hf
    exact Nat.zero_le _
  · rintro ⟨hinner, -⟩
    rw [hframes] at hinner
    cases hinner
  · simp [callsAfter, hret, Calls.call, noCalls]
  · simp [callsAfter, hret, Calls.call, noCalls]

theorem self_run (n : Nat) : ∃ ps t,
    Run (CallStep linearImage [.eval]) (selfPrompt, noCalls) ps t ∧ InSelf n t := by
  induction n with
  | zero =>
      obtain ⟨t, hstep, ht⟩ := self_start
      exact ⟨_, t, .cons hstep (.nil t), ht⟩
  | succ n ih =>
      obtain ⟨ps, t, hrun, ht⟩ := ih
      obtain ⟨u, hstep, hu⟩ := ht.step
      exact ⟨_, u, hrun.snoc hstep, hu⟩

theorem length_saved_eq {pending : List (Cell × List Cell)} (h : ∀ q ∈ pending, q.2 = []) :
    (Calls.saved ⟨[], pending⟩).length = pending.length := by
  induction pending with
  | nil => rfl
  | cons q pending ih =>
      have hq := h q List.mem_cons_self
      have htail := ih fun q hq => h q (List.mem_cons_of_mem _ hq)
      simp only [Calls.saved, List.nil_append, List.flatMap_cons, List.length_append, hq,
        List.length_cons, List.length_nil] at htail ⊢
      omega

theorem InSelf.length_saved {n : Nat} {p : Machine × Calls} (h : InSelf n p) :
    p.2.saved.length = n + 1 := by
  obtain ⟨m, own, pending⟩ := p
  obtain ⟨hown, hpending⟩ : own = [] ∧ ∀ q ∈ pending, q.2 = [] := h.own
  rw [hown]
  exact (length_saved_eq hpending).trans h.depth

/-- Behind 256 calls the word is entered without a return address. -/
theorem self_call_off_track : ∃ ps e,
    Run (CallStep linearImage [.eval]) (selfPrompt, noCalls) ps e ∧
      ∃ p ∈ ps ++ [e], Above [.eval] p.1 ∧ ¬ OnTrack [] p := by
  obtain ⟨ps, t, hrun, ht⟩ := self_run 255
  obtain ⟨u, hstep, hu⟩ := ht.step
  refine ⟨_, u, hrun.snoc hstep, ?_⟩
  by_cases htrack : OnTrack [] t
  · refine ⟨u, by simp, ⟨[.inner], by simp, hu.frames⟩, hstep.lost htrack fun hroom => ?_⟩
    -- at the 257th call the return stack holds 256 cells
    have hfree := hroom.1 (by rw [ht.calls.2.1]; rfl)
    have hrs : t.1.vm.rs = t.2.saved ++ [] := htrack
    rw [hrs, List.append_nil, ht.length_saved] at hfree
    exact absurd hfree (by decide)
  · exact ⟨t, by simp, hstep.above, htrack⟩

end VectorForth.Forth
