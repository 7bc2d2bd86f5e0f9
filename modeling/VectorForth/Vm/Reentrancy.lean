import VectorForth.Vm.Abort
import VectorForth.Vm.Calls

/-!
# Re-entering the inner interpreter

`forth_inner` leaves its loop when the saved instruction pointer it pops is
null. A colon word called with `ip = 0` therefore returns to its caller at its
own exit. Called with any other `ip`, as `EXECUTE` and `LOAD` do from inside a
body, it pops the caller's `ip` and goes on with the caller's next cell in the
wrong activation. A word that meets a control construct returns early, with
its frame left behind.
-/

namespace VectorForth.Forth

open ByteMemory LabelledRun

/-- An activation of `forth_inner` is about to run the cell at `ip`, with the
return stack `rs`. -/
def AboutToRun (ip : Cell) (rs : List Cell) (m : Machine) : Prop :=
  (∃ F, m.frames = .inner :: F) ∧ m.vm.ip = ip ∧ m.vm.rs = rs

/-- The call on top of `K` returns with the instruction pointer and the return
stack it was called with, and has not run the caller's next cell before. -/
def ReturnsCleanly (img : Image) (K : List Frame) (m : Machine) : Prop :=
  ∃ m', Via (step img) (fun x => Above K x ∧ ¬ AboutToRun m.vm.ip m.vm.rs x) m m' ∧
    m'.frames = K ∧ m'.vm.ip = m.vm.ip ∧ m'.vm.rs = m.vm.rs

section

variable {img : Image} {words : Words} {P : Set Nat} {cap : Nat} {r : Bool} {e : Cell} {b : Body}
  {m : Machine} {K : List Frame} {d : Data}

/-- While the frame of the call is on the return stack, the caller's cell is not
next. -/
theorem Inside.clean {ip : Cell} {rs : List Cell} {x : Machine} (h : Inside K (ip :: rs) x)
    (jp : Cell) : Above K x ∧ ¬ AboutToRun jp rs x := by
  refine ⟨h.above, ?_⟩
  rintro ⟨-, -, hrs⟩
  have hlen := h.2.length_le
  rw [hrs, List.length_cons] at hlen
  omega

/-- The run of a colon word up to its exit never runs the caller's next cell. -/
theorem via_to_exit (hframes : m.frames = .execute e :: K)
    (hknown : Known img words P m.vm.data.mem) (he : words e = some (.colon b))
    (hroom : m.vm.rs.length + 1 + cap ≤ returnStackSize)
    (hexec : Exec img words P cap false r (.body b) ⟨m.vm.data, []⟩ ⟨d, []⟩) :
    ∃ k a, (k = 0 ↔ r = false) ∧ cellAt d.mem a = sentinelExit ∧
      Via (step img) (fun x => Above K x ∧ ¬ AboutToRun m.vm.ip m.vm.rs x) m
        (m.conf d (m.vm.ip :: m.vm.rs) a (List.replicate k .inner ++ .inner :: K)) := by
  obtain ⟨hstep, k, a, hk, hexit, hvia⟩ :=
    execute_to_exit hknown he hexec hroom m K m.vm.ip
  rw [← hframes, Machine.conf_self] at hstep
  refine ⟨k, a, hk, hexit, Via.head ⟨⟨[.execute e], by simp, hframes⟩, ?_⟩ hstep
    (hvia.mono fun x hx => hx.clean _)⟩
  rintro ⟨⟨F, hF⟩, -, -⟩
  rw [hframes] at hF
  cases hF

/-- Called with `ip = 0`, the word comes back to `K` at its own exit. -/
theorem via_to_return (hframes : m.frames = .execute e :: K)
    (hknown : Known img words P m.vm.data.mem) (he : words e = some (.colon b))
    (hroom : m.vm.rs.length + 1 + cap ≤ returnStackSize)
    (hexec : Exec img words P cap false false (.body b) ⟨m.vm.data, []⟩ ⟨d, []⟩)
    (hip : m.vm.ip = 0#64) :
    Via (step img) (fun x => Above K x ∧ ¬ AboutToRun m.vm.ip m.vm.rs x) m
      (m.conf d m.vm.rs 0#64 K) := by
  obtain ⟨k, a, hk, hexit, hvia⟩ := via_to_exit hframes hknown he hroom hexec
  obtain rfl : k = 0 := hk.mpr rfl
  refine hvia.trans (Via.single ?_ ?_)
  · exact (inside_conf (F := []) (L := [])).clean _
  · rw [hip]
    exact step_inner_return hexit

theorem execute_returns (hframes : m.frames = .execute e :: K)
    (hknown : Known img words P m.vm.data.mem) (he : words e = some (.colon b))
    (hroom : m.vm.rs.length + 1 + cap ≤ returnStackSize)
    (hexec : Exec img words P cap false false (.body b) ⟨m.vm.data, []⟩ ⟨d, []⟩)
    (hip : m.vm.ip = 0#64) : Returns img K m (m.conf d m.vm.rs 0#64 K) :=
  ⟨(via_to_return hframes hknown he hroom hexec hip).mono fun _ h => h.1, rfl⟩

/-- At its exit the word runs the caller's next cell, in an activation of its own. -/
theorem not_returnsCleanly (hframes : m.frames = .execute e :: K)
    (hknown : Known img words P m.vm.data.mem) (he : words e = some (.colon b))
    (hroom : m.vm.rs.length + 1 + cap ≤ returnStackSize)
    (hexec : Exec img words P cap false r (.body b) ⟨m.vm.data, []⟩ ⟨d, []⟩)
    (hbad : m.vm.ip ≠ 0#64 ∨ r = true) : ¬ ReturnsCleanly img K m := by
  obtain ⟨k, a, hk, hexit, hvia⟩ := via_to_exit hframes hknown he hroom hexec
  rw [replicate_append_cons] at hvia
  -- the state after the exit cell is still above `K` and resumes the caller
  obtain ⟨L, hL, hstep⟩ : ∃ L, L ≠ [] ∧
      step img (m.conf d (m.vm.ip :: m.vm.rs) a (.inner :: (List.replicate k .inner ++ K))) =
        some (m.conf d m.vm.rs m.vm.ip (L ++ K)) ∧ ∃ F, L = .inner :: F := by
    by_cases hip : m.vm.ip = 0#64
    · obtain ⟨j, rfl⟩ : ∃ j, k = j + 1 := by
        apply Nat.exists_eq_succ_of_ne_zero
        intro hz
        rw [hk.mp hz] at hbad
        simp [hip] at hbad
      refine ⟨List.replicate (j + 1) .inner, by simp, ?_, List.replicate j .inner, rfl⟩
      rw [hip]
      exact step_inner_return hexit
    · refine ⟨.inner :: List.replicate k .inner, by simp, ?_, List.replicate k .inner, rfl⟩
      exact step_inner_exit hexit hip
  obtain ⟨hstep, F, hF⟩ := hstep
  rintro ⟨m', hvia', hframes', -, -⟩
  have hresume : AboutToRun m.vm.ip m.vm.rs (m.conf d m.vm.rs m.vm.ip (L ++ K)) :=
    ⟨⟨F ++ K, by rw [Machine.conf_frames, hF]; rfl⟩, rfl, rfl⟩
  have hinside : Inside K (m.vm.ip :: m.vm.rs)
      (m.conf d (m.vm.ip :: m.vm.rs) a (.inner :: (List.replicate k .inner ++ K))) := by
    refine ⟨?_, List.suffix_refl _⟩
    rw [Machine.conf_frames, ← replicate_append_cons]
    exact List.suffix_append ..
  have hrun := hvia.trans (Via.single (hinside.clean _) hstep)
  have heq := hrun.exit_unique hvia' (fun h => h.2 hresume) (fun h => not_above_self hframes' h.1)
  apply hL
  apply List.self_eq_append_left.mp
  rw [← Machine.conf_frames m d m.vm.rs m.vm.ip (L ++ K), heq, hframes']

theorem not_returnsCleanly_of_construct (hframes : m.frames = .execute e :: K)
    (hknown : Known img words P m.vm.data.mem) (he : words e = some (.colon b))
    (hroom : m.vm.rs.length + 1 + cap ≤ returnStackSize)
    (hexec : Exec img words P cap true false (.body b) ⟨m.vm.data, []⟩ ⟨d, []⟩) :
    ¬ ReturnsCleanly img K m := by
  rintro ⟨m', hvia, hframes', -, hrs⟩
  obtain ⟨d'', X, ip', hreturns⟩ := execute_aborts hknown he hexec hroom m K m.vm.ip
  rw [← hframes, Machine.conf_self] at hreturns
  have heq : m' = m.conf d'' (X ++ m.vm.ip :: m.vm.rs) ip' K :=
    Returns.unique ⟨hvia.mono fun x hx => hx.1, hframes'⟩ hreturns
  rw [heq] at hrs
  have hlen := congrArg List.length hrs
  simp only [Machine.conf_vm, List.length_append, List.length_cons] at hlen
  omega

theorem cleanly_iff {c : Bool} (hframes : m.frames = .execute e :: K)
    (hknown : Known img words P m.vm.data.mem) (he : words e = some (.colon b))
    (hroom : m.vm.rs.length + 1 + cap ≤ returnStackSize)
    (hexec : Exec img words P cap c r (.body b) ⟨m.vm.data, []⟩ ⟨d, []⟩)
    (hone : c = false ∨ r = false) :
    ReturnsCleanly img K m ↔ m.vm.ip = 0#64 ∧ c = false ∧ r = false := by
  constructor
  · intro hclean
    cases c with
    | true =>
        obtain rfl : r = false := hone.resolve_left (by simp)
        exact absurd hclean (not_returnsCleanly_of_construct hframes hknown he hroom hexec)
    | false =>
        by_contra hbad
        apply not_returnsCleanly hframes hknown he hroom hexec _ hclean
        by_cases hip : m.vm.ip = 0#64
        · refine Or.inr ?_
          by_contra hr
          exact hbad ⟨hip, rfl, by simpa using hr⟩
        · exact Or.inl hip
  · rintro ⟨hip, rfl, rfl⟩
    exact ⟨_, via_to_return hframes hknown he hroom hexec hip, rfl, hip.symm, rfl⟩

end

/-! ## Runs of a call -/

/-- Nothing goes wrong in the next step: `forth_execute` calls a colon word with
`ip = 0` and `forth_inner` with any other, no cell is invalid, and every push
finds a free slot. -/
structure Orderly (img : Image) (m : Machine) : Prop where
  calls : ∀ ret, callReturn img m = some ret → (ret = 0#64 ↔ m.frames.head? ≠ some .inner)
  valid : ¬ AtInvalid img m
  room : HasRoom img m

/-- For each null address that is to be popped there is one activation of
`forth_inner`; the lowest belongs to the call from `K`. -/
structure Matched (K : List Frame) (p : Machine × Calls) : Prop where
  frames : ∃ L, p.1.frames = L ++ .inner :: K ∧
    L.count .inner + 1 = p.2.pending.countP (·.1 = 0#64)
  lowest : p.2.pending.getLast? = some (0#64, [])

/-- The call from `K` has returned. -/
structure CallReturned (K : List Frame) (p : Machine × Calls) : Prop where
  frames : p.1.frames = K
  calls : p.2 = noCalls
  ip : p.1.vm.ip = 0#64

section Runs

variable {img : Image} {K : List Frame} {R : List Cell} {s p t u : Machine × Calls}
  {ps : List (Machine × Calls)}

/-- Native code runs above an activation and below none. -/
theorem Matched.other {N : List Frame} (h : Matched K s) (hN : Frame.inner ∉ N)
    (hcalls : t.2.pending = s.2.pending)
    (hframes : t.1.frames = N ++ s.1.frames ∨
      s.1.frames.head? ≠ some .inner ∧ t.1.frames = N ++ s.1.frames.tail) : Matched K t := by
  obtain ⟨L, hL, hcount⟩ := h.frames
  have hzero : N.count .inner = 0 := List.count_eq_zero.mpr hN
  refine ⟨?_, by rw [hcalls]; exact h.lowest⟩
  rw [hcalls]
  rcases hframes with hframes | ⟨hhead, hframes⟩
  · exact ⟨N ++ L, by rw [hframes, hL, List.append_assoc], by rw [List.count_append, hzero]; omega⟩
  · rw [hL] at hhead hframes
    cases L with
    | nil => exact absurd rfl hhead
    | cons f L =>
        have hf : f ≠ .inner := fun hf => hhead (by rw [hf]; rfl)
        rw [List.count_cons_of_ne hf] at hcount
        exact ⟨N ++ L, by rw [hframes, List.append_assoc]; rfl,
          by rw [List.count_append, hzero]; omega⟩

theorem Matched.call {ret : Cell} {m' : Machine} (h : Matched K s)
    (hret : ret = 0#64 ↔ s.1.frames.head? ≠ some .inner)
    (hframes : m'.frames = .inner :: s.1.frames.tail) : Matched K (m', s.2.call ret) := by
  obtain ⟨L, hL, hcount⟩ := h.frames
  have hlowest : (s.2.call ret).pending.getLast? = some (0#64, []) := by
    rw [Calls.call, List.getLast?_cons, h.lowest]
    rfl
  refine ⟨?_, hlowest⟩
  show ∃ L', m'.frames = L' ++ .inner :: K ∧
    L'.count .inner + 1 = ((ret, s.2.own) :: s.2.pending).countP (·.1 = 0#64)
  rw [hL] at hret hframes
  cases L with
  | nil =>
      have hne : ret ≠ 0#64 := fun hz => hret.mp hz rfl
      exact ⟨[], hframes, by rw [List.countP_cons_of_neg (by simpa using hne)]; exact hcount⟩
  | cons f L =>
      refine ⟨.inner :: L, hframes, ?_⟩
      by_cases hf : f = .inner
      · have hne : ret ≠ 0#64 := fun hz => hret.mp hz (by rw [hf]; rfl)
        rw [List.countP_cons_of_neg (by simpa using hne), ← hcount, hf]
      · have hz : ret = 0#64 := hret.mpr fun hhead => hf (Option.some.inj hhead)
        rw [List.count_cons_of_ne hf] at hcount
        rw [List.countP_cons_of_pos (by simpa using hz), ← hcount, List.count_cons_self]

/-- The exit that pops the lowest null address is the return of the call. -/
theorem Matched.exit {ret : Cell} {own : List Cell} {pending : List (Cell × List Cell)}
    (h : Matched K s) (hpending : s.2.pending = (ret, own) :: pending)
    (hhead : s.1.frames.head? = some .inner) (hip : t.1.vm.ip = ret)
    (hframes : t.1.frames = if ret = 0#64 then s.1.frames.tail else s.1.frames)
    (hcalls : t.2 = ⟨own, pending⟩) : Matched K t ∨ CallReturned K t := by
  obtain ⟨L, hL, hcount⟩ := h.frames
  have hlowest := h.lowest
  rw [hpending] at hcount hlowest
  have hlater : pending ≠ [] → pending.getLast? = some (0#64, []) := by
    intro hne
    rwa [List.getLast?_cons_of_ne_nil hne] at hlowest
  by_cases hz : ret = 0#64
  · rw [if_pos hz] at hframes
    rw [List.countP_cons_of_pos (by simpa using hz)] at hcount
    cases L with
    | nil =>
        -- no null address is left, so no call is
        have hnil : pending = [] := by
          by_contra hne
          have hmem := List.mem_of_getLast? (hlater hne)
          have hpos : 0 < pending.countP (·.1 = 0#64) :=
            List.countP_pos_iff.mpr ⟨_, hmem, by simp⟩
          rw [List.count_nil] at hcount
          omega
        rw [hnil] at hlowest hcalls
        have hown : own = [] := congrArg Prod.snd (Option.some.inj hlowest)
        rw [hown] at hcalls
        exact Or.inr ⟨by rw [hframes, hL]; rfl, hcalls, hip.trans hz⟩
    | cons f L =>
        rw [hL] at hhead hframes
        obtain rfl : f = .inner := Option.some.inj hhead
        rw [List.count_cons_self] at hcount
        refine Or.inl ⟨⟨L, hframes, by rw [hcalls]; exact Nat.add_right_cancel hcount⟩, ?_⟩
        rw [hcalls]
        apply hlater
        rintro rfl
        simp at hcount
  · rw [if_neg hz] at hframes
    rw [List.countP_cons_of_neg (by simpa using hz)] at hcount
    refine Or.inl ⟨⟨L, hframes.trans hL, by rw [hcalls]; exact hcount⟩, ?_⟩
    rw [hcalls]
    apply hlater
    rintro rfl
    simp at hcount

theorem Matched.pending_ne_nil (h : Matched K s) : s.2.pending ≠ [] := by
  intro hnil
  have hlowest := h.lowest
  rw [hnil] at hlowest
  cases hlowest

/-- An orderly step keeps the null addresses and the activations matched, or is
the return of the call. -/
theorem CallStep.matched (h : CallStep img K s p t) (hs : Matched K s) (hr : OnTrack R s)
    (ho : Orderly img s.1) : Matched K t ∨ CallReturned K t := by
  have hnext := h.next
  unfold callsAfter at hnext
  cases hcall : callReturn img s.1 with
  | some ret =>
      obtain ⟨-, hframes⟩ := step_call (h.step.step_of_call hcall) hcall
      rw [hcall] at hnext
      have hmatched := hs.call (ho.calls ret hcall) hframes
      dsimp only at hnext
      rw [← hnext] at hmatched
      exact Or.inl hmatched
  | none =>
      rw [hcall] at hnext
      dsimp only at hnext
      split at hnext
      · rename_i hexit
        obtain ⟨hown, -⟩ := h.exits hexit
        obtain ⟨⟨ret, own⟩, pending, hpending⟩ := List.exists_cons_of_ne_nil hs.pending_ne_nil
        obtain ⟨-, hip, hframes⟩ := step_exit (h.step.step_of_exit hexit) hexit
        -- the address on top is the one of the innermost call
        have htop : s.1.vm.rs.headD 0#64 = ret := by
          rw [hr, Calls.saved, hown, hpending]
          rfl
        rw [htop] at hip hframes
        rw [Calls.exit, hpending] at hnext
        exact hs.exit hpending hexit.1 hip hframes hnext
      · rename_i hexit
        obtain ⟨N, hN, hframes⟩ := h.step.frames_other hcall hexit ho.valid
        exact Or.inl (hs.other hN (by rw [hnext]) hframes)

/-- By induction on the run: once the call has returned, it takes no more steps. -/
theorem run_matched (h : Run (CallStep img K) s ps t) (hs : Matched K s) (hr : OnTrack R s)
    (hall : ∀ p ∈ ps, Orderly img p.1) :
    (∀ p ∈ ps, Matched K p ∧ OnTrack R p) ∧ (Matched K t ∨ CallReturned K t) ∧ OnTrack R t := by
  induction h with
  | nil s => exact ⟨by simp, Or.inl hs, hr⟩
  | @cons s t u p ps hstep hrest ih =>
      have hlabel := hstep.label
      subst hlabel
      have ho := hall p List.mem_cons_self
      have ht := hstep.onTrack hr ho.room
      have hlater : ∀ q ∈ ps, Orderly img q.1 := fun q hq => hall q (List.mem_cons_of_mem _ hq)
      rcases hstep.matched hs hr ho with hmatched | hreturned
      · obtain ⟨hps, hu⟩ := ih hmatched ht hlater
        refine ⟨?_, hu⟩
        intro q hq
        rcases List.mem_cons.mp hq with rfl | hq
        · exact ⟨hs, hr⟩
        · exact hps q hq
      · cases hrest with
        | nil => exact ⟨by simpa using ⟨hs, hr⟩, Or.inr hreturned, ht⟩
        | cons hnext _ => exact absurd hnext.above (not_above_self hreturned.frames)

/-- While calls of the run are pending, the caller's cell is not next. -/
theorem Matched.not_aboutToRun {ip : Cell} (h : Matched K s) (hr : OnTrack R s) :
    ¬ AboutToRun ip R s.1 := by
  rintro ⟨-, -, hrs⟩
  obtain ⟨q, pending, hpending⟩ := List.exists_cons_of_ne_nil h.pending_ne_nil
  unfold OnTrack at hr
  rw [hrs] at hr
  have hlen := congrArg List.length hr
  simp only [Calls.saved, hpending, List.flatMap_cons, List.length_append, List.length_cons] at hlen
  omega

end Runs

section Clean

variable {img : Image} {m : Machine} {K : List Frame} {e : Cell}

theorem callReturn_execute (hframes : m.frames = .execute e :: K)
    (hcolon : cellAt m.vm.data.mem (dictGetCodeField m.vm.data.mem e) = img.addr .doColon) :
    callReturn img m = some m.vm.ip := by
  simp only [callReturn, hframes]
  rw [if_pos hcolon]

/-- In an orderly run that has returned, control is as it was. -/
theorem orderly_run_clean (hframes : m.frames = .execute e :: K)
    (hcolon : cellAt m.vm.data.mem (dictGetCodeField m.vm.data.mem e) = img.addr .doColon)
    {ps : List (Machine × Calls)} {t : Machine × Calls}
    (hrun : Run (CallStep img K) (m, noCalls) ps t) (hback : t.1.frames = K)
    (hall : ∀ p ∈ ps, Orderly img p.1) :
    t.1.vm.ip = m.vm.ip ∧ t.1.vm.rs = m.vm.rs ∧ ∀ p ∈ ps, ¬ AboutToRun m.vm.ip m.vm.rs p.1 := by
  have hcall := callReturn_execute hframes hcolon
  cases hrun with
  | nil =>
      rw [hframes] at hback
      exact absurd (congrArg List.length hback) (by simp)
  | @cons _ u _ p ps hstep hrest =>
      have hlabel := hstep.label
      subst hlabel
      have ho : Orderly img m := hall (m, noCalls) List.mem_cons_self
      have hip : m.vm.ip = 0#64 := (ho.calls _ hcall).mpr (by rw [hframes]; simp)
      obtain ⟨-, huframes⟩ := step_call (hstep.step.step_of_call hcall) hcall
      have hu : u.2 = noCalls.call m.vm.ip := by
        rw [hstep.next, callsAfter, hcall]
      have hmatched : Matched K u := by
        refine ⟨⟨[], by rw [huframes, hframes]; rfl, ?_⟩, ?_⟩ <;> rw [hu, hip] <;> rfl
      obtain ⟨hps, hend, htrack⟩ := run_matched hrest hmatched
        (hstep.onTrack (onTrack_start m) ho.room) fun q hq => hall q (List.mem_cons_of_mem _ hq)
      have hreturned : CallReturned K t := by
        refine hend.resolve_left fun h => ?_
        obtain ⟨L, hL, -⟩ := h.frames
        rw [hback] at hL
        exact absurd (congrArg List.length hL) (by simp; omega)
      refine ⟨by rw [hreturned.ip, hip], ?_, ?_⟩
      · unfold OnTrack at htrack
        rw [htrack, hreturned.calls]
        rfl
      · intro q hq
        rcases List.mem_cons.mp hq with rfl | hq
        · rintro ⟨⟨F, hF⟩, -⟩
          rw [hframes] at hF
          cases hF
        · exact (hps q hq).1.not_aboutToRun (hps q hq).2

/-- **A colon word returns to its caller exactly when nothing re-enters the
interpreter.** Whatever the word runs, a `LOAD`, a `YIELD` or an `EXECUTE`
included: if every step of the call is orderly, control is back as it was. And
for a structured execution of known words: exactly when the call was made with
`ip = 0`, no control construct is met, and no colon word goes through `EXECUTE`. -/
theorem returnsCleanly_iff (hframes : m.frames = .execute e :: K)
    (hcolon : cellAt m.vm.data.mem (dictGetCodeField m.vm.data.mem e) = img.addr .doColon) :
    (∀ ps t, Run (CallStep img K) (m, noCalls) ps t → t.1.frames = K →
      (∀ p ∈ ps, Orderly img p.1) →
        t.1.vm.ip = m.vm.ip ∧ t.1.vm.rs = m.vm.rs ∧
          ∀ p ∈ ps, ¬ AboutToRun m.vm.ip m.vm.rs p.1) ∧
    ∀ (words : Words) (P : Set Nat) (cap : Nat) (c r : Bool) (b : Body) (d : Data),
      Known img words P m.vm.data.mem → words e = some (.colon b) →
      m.vm.rs.length + 1 + cap ≤ returnStackSize →
      Exec img words P cap c r (.body b) ⟨m.vm.data, []⟩ ⟨d, []⟩ → (c = false ∨ r = false) →
        (ReturnsCleanly img K m ↔ m.vm.ip = 0#64 ∧ c = false ∧ r = false) := by
  constructor
  · intro ps t hrun hback hall
    exact orderly_run_clean hframes hcolon hrun hback hall
  · intro words P cap c r b d hknown he hroom hexec hone
    exact cleanly_iff hframes hknown he hroom hexec hone

end Clean

/-! ## A body that runs another word through `EXECUTE` -/

/-- Four entries without a name: `EXECUTE`, an empty colon word `A`, `B` with the
body `EXECUTE 7`, and `C` with the body `7 A`. -/
def entryExecute : Cell := 0xFFFF800010000000#64
def entryA : Cell := 0xFFFF800010000040#64
def entryB : Cell := 0xFFFF800010000080#64
def entryC : Cell := 0xFFFF8000100000C0#64

def sampleWords : Words := fun e =>
  if e = entryExecute then some (.native .wExecute)
  else if e = entryA then some (.colon .nil)
  else if e = entryB then some (.colon (.word entryExecute (.lit 7#64 .nil)))
  else if e = entryC then some (.colon (.lit 7#64 (.word entryA .nil)))
  else none

def sampleMem : Mem :=
  writeCells (writeCells (writeCells (writeCells (fun _ => 0#8)
    (entryExecute.toNat + 16) [linearImage.addr .wExecute])
    (entryA.toNat + 16) [linearImage.addr .doColon, sentinelExit])
    (entryB.toNat + 16)
      [linearImage.addr .doColon, entryExecute, linearImage.addr .doLiteral, 7#64, sentinelExit])
    (entryC.toNat + 16)
      [linearImage.addr .doColon, linearImage.addr .doLiteral, 7#64, entryA, sentinelExit]

theorem sampleWords_known : Known linearImage sampleWords Set.univ sampleMem := by
  intro e k h
  unfold sampleWords at h
  split_ifs at h <;> cases h <;> rename_i he <;> subst he
  · exact ⟨by decide, trivial, fun _ _ _ => trivial, by decide +kernel, fun b hb => by cases hb⟩
  · refine ⟨by decide, trivial, fun _ _ _ => trivial, by decide +kernel, ?_⟩
    intro b hb
    cases hb
    exact ⟨by decide +kernel, by decide +kernel, fun _ _ _ => trivial, by decide +kernel, trivial⟩
  · refine ⟨by decide, trivial, fun _ _ _ => trivial, by decide +kernel, ?_⟩
    intro b hb
    cases hb
    exact ⟨by decide +kernel, by decide +kernel, fun _ _ _ => trivial, by decide +kernel,
      by decide +kernel, by decide +kernel, by decide +kernel, trivial⟩
  · refine ⟨by decide, trivial, fun _ _ _ => trivial, by decide +kernel, ?_⟩
    intro b hb
    cases hb
    exact ⟨by decide +kernel, by decide +kernel, fun _ _ _ => trivial, by decide +kernel,
      by decide +kernel, by decide +kernel, by decide +kernel, trivial⟩

/-- `forth_eval` at the prompt is about to run `entry`. -/
def samplePrompt (entry : Cell) (ds : List Cell) : Machine where
  vm := { data := { blankData with mem := sampleMem, ds := ds }, rs := [], ip := 0#64 }
  frames := [.execute entry, .eval]
  kbd := []
  inputBuffer := []

/-- The prompt in the middle of `C`. -/
def inC (ds rs : List Cell) (ip : Cell) (F : List Frame) : Machine :=
  (samplePrompt entryC ds).conf (samplePrompt entryC ds).vm.data rs ip F

theorem inC_step {m m' : Machine} {c : Calls} (habove : Above [.eval] m)
    (hstep : step linearImage m = some m') (htask : m'.vm.data.current = m.vm.data.current)
    (htakes : calledFun linearImage m = none ∨ calledFun linearImage m = some .doColon)
    (hexits : AtExit m → c.own = [] ∧ c.pending ≠ []) :
    CallStep linearImage [.eval] (m, c) (m, c) (m', callsAfter linearImage m c) := by
  refine ⟨rfl, habove, .own hstep htask, fun f hf => ?_, hexits, rfl⟩
  rcases htakes with hnone | hcolon
  · rw [hnone] at hf
    cases hf
  · rw [hcolon] at hf
    cases hf
    exact Nat.zero_le _

theorem inC_orderly {m : Machine}
    (hcalls : callReturn linearImage m = none ∨
      callReturn linearImage m = some 0#64 ∧ m.frames.head? ≠ some .inner ∨
      callReturn linearImage m = some 0xFFFF8000100000F0#64 ∧ m.frames.head? = some .inner)
    (hvalid : ¬ AtInvalid linearImage m) (hroom : m.vm.rs.length < returnStackSize)
    (htakes : calledFun linearImage m = none ∨ calledFun linearImage m = some .doColon) :
    Orderly linearImage m := by
  refine ⟨fun ret hret => ?_, hvalid, fun _ => hroom, fun f hf => ?_⟩
  · rcases hcalls with hnone | ⟨hzero, hhead⟩ | ⟨hbody, hhead⟩
    · rw [hnone] at hret
      cases hret
    · rw [hzero] at hret
      exact iff_of_true (Option.some.inj hret).symm hhead
    · rw [hbody] at hret
      cases hret
      exact iff_of_false (by decide) (fun h => h hhead)
  · rcases htakes with hnone | hcolon
    · rw [hnone] at hf
      cases hf
    · rw [hcolon] at hf
      cases hf
      exact trivial

/-- `C` calls `A`, both return, and nothing goes wrong. -/
theorem sample_run : ∃ ps t,
    Run (CallStep linearImage [.eval]) (samplePrompt entryC [], noCalls) ps t ∧
      t.1.frames = [.eval] ∧ (∀ p ∈ ps, Orderly linearImage p.1) := by
  have hparam : dictGetParamField sampleMem entryC = 0xFFFF8000100000D8#64 ∧
      dictGetParamField sampleMem entryA = 0xFFFF800010000058#64 := by decide +kernel
  have hcode : cellAt sampleMem (dictGetCodeField sampleMem entryC) = linearImage.addr .doColon ∧
      cellAt sampleMem (dictGetCodeField sampleMem entryA) = linearImage.addr .doColon := by
    decide +kernel
  have h₁ : step linearImage (inC [] [] 0#64 [.execute entryC, .eval]) =
      some (inC [] [0#64] 0xFFFF8000100000D8#64 [.inner, .eval]) := by
    rw [← hparam.1]
    exact step_execute_colon hcode.1 (by decide)
  have h₂ : step linearImage (inC [] [0#64] 0xFFFF8000100000D8#64 [.inner, .eval]) =
      some (inC [7#64] [0#64] 0xFFFF8000100000E8#64 [.inner, .eval]) := by
    have hv : cellAt sampleMem (0xFFFF8000100000D8#64 + 8#64) = 7#64 := by decide +kernel
    refine (step_inner_literal (by decide +kernel)).trans ?_
    change some (inC [cellAt sampleMem (0xFFFF8000100000D8#64 + 8#64)] _ _ _) = _
    rw [hv]
    rfl
  have h₃ : step linearImage (inC [7#64] [0#64] 0xFFFF8000100000E8#64 [.inner, .eval]) =
      some (inC [7#64] [0xFFFF8000100000F0#64, 0#64] 0xFFFF800010000058#64 [.inner, .eval]) := by
    rw [← hparam.2]
    exact step_inner_colon (by decide +kernel) (by decide) hcode.2 (by decide)
  have h₄ : step linearImage
      (inC [7#64] [0xFFFF8000100000F0#64, 0#64] 0xFFFF800010000058#64 [.inner, .eval]) =
        some (inC [7#64] [0#64] 0xFFFF8000100000F0#64 [.inner, .eval]) :=
    step_inner_exit (by decide +kernel) (by decide)
  have h₅ : step linearImage (inC [7#64] [0#64] 0xFFFF8000100000F0#64 [.inner, .eval]) =
      some (inC [7#64] [] 0#64 [.eval]) :=
    step_inner_return (by decide +kernel)
  have hcall := inC_step (c := noCalls) ⟨[_], by simp, rfl⟩ h₁ rfl (by decide +kernel)
    (by decide +kernel)
  have hrun := Run.cons hcall
    (.cons (inC_step ⟨[_], by simp, rfl⟩ h₂ rfl (by decide +kernel) (by decide +kernel))
    (.cons (inC_step ⟨[_], by simp, rfl⟩ h₃ rfl (by decide +kernel) (by decide +kernel))
    (.cons (inC_step ⟨[_], by simp, rfl⟩ h₄ rfl (by decide +kernel) (by decide +kernel))
    (.cons (inC_step ⟨[_], by simp, rfl⟩ h₅ rfl (by decide +kernel) (by decide +kernel))
    (.nil _)))))
  refine ⟨_, _, hrun, rfl, ?_⟩
  intro p hp
  have hm : p.1 ∈ [inC [] [] 0#64 [.execute entryC, .eval],
      inC [] [0#64] 0xFFFF8000100000D8#64 [.inner, .eval],
      inC [7#64] [0#64] 0xFFFF8000100000E8#64 [.inner, .eval],
      inC [7#64] [0xFFFF8000100000F0#64, 0#64] 0xFFFF800010000058#64 [.inner, .eval],
      inC [7#64] [0#64] 0xFFFF8000100000F0#64 [.inner, .eval]] := List.mem_map_of_mem (f := Prod.fst) hp
  generalize p.1 = m at hm
  simp only [List.mem_cons, List.not_mem_nil, or_false] at hm
  rcases hm with rfl | rfl | rfl | rfl | rfl <;>
    exact inC_orderly (by decide +kernel) (by decide +kernel) (by decide) (by decide +kernel)

/-- The call of `C` at the prompt, as a run and as a structured execution. -/
theorem returnsCleanly_iff_prompt :
    (∃ ps t, Run (CallStep linearImage [.eval]) (samplePrompt entryC [], noCalls) ps t ∧
      t.1.vm.ip = 0#64 ∧ t.1.vm.rs = []) ∧
    ReturnsCleanly linearImage [.eval] (samplePrompt entryC []) := by
  have hcode : cellAt sampleMem (dictGetCodeField sampleMem entryC) = linearImage.addr .doColon := by
    decide +kernel
  have hiff := returnsCleanly_iff (m := samplePrompt entryC []) (K := [.eval]) rfl hcode
  constructor
  · obtain ⟨ps, t, hrun, hback, hall⟩ := sample_run
    obtain ⟨hip, hrs, -⟩ := hiff.1 ps t hrun hback hall
    exact ⟨ps, t, hrun, hip, hrs⟩
  · generalize hd : (samplePrompt entryC []).vm.data = d
    have hexec : Exec linearImage sampleWords Set.univ 1 false false
        (.body (.lit 7#64 (.word entryA .nil))) ⟨d, []⟩ ⟨d.dsPush 7#64, []⟩ :=
      .lit (.word (.colon rfl (show 0 < 1 by decide) .nil) .nil)
    rw [← hd] at hexec
    exact (hiff.2 _ _ _ _ _ _ _ sampleWords_known (by rfl) (by decide) hexec
      (Or.inl rfl)).mpr ⟨rfl, rfl, rfl⟩

/-- `B`, run at the prompt with the execution token of `A` on the stack, gets to
its `EXECUTE`; the call of `A` made there does not return before `B` has gone
on inside it. -/
theorem execute_runs_caller :
    ∃ (m : Machine) (K : List Frame),
      Via (step linearImage) (fun _ => True) (samplePrompt entryB [entryA]) m ∧
      m.frames = .execute entryA :: K ∧
      Exec linearImage sampleWords Set.univ 0 false false (.body .nil) ⟨m.vm.data, []⟩
        ⟨m.vm.data, []⟩ ∧
      ¬ ReturnsCleanly linearImage K m := by
  have hB := sampleWords_known entryB _ rfl
  have hE := sampleWords_known entryExecute _ rfl
  have hne : linearImage.addr .wExecute ≠ linearImage.addr .doColon := by decide
  generalize hd : ({ blankData with mem := sampleMem, ds := [entryA] } : Data) = d
  have hmem : d.mem = sampleMem := by rw [← hd]
  have hds : d.ds = entryA :: [] := by rw [← hd]
  rw [← hmem] at hB hE
  obtain ⟨-, -, -, hcell, -⟩ := hB.body _ rfl
  have hcall : step linearImage ((samplePrompt entryB []).conf d [] 0#64 [.execute entryB, .eval]) =
      some ((samplePrompt entryB []).conf d [0#64] (dictGetParamField d.mem entryB)
        [.inner, .eval]) :=
    step_execute_colon hB.code (by decide)
  have hexec : step linearImage ((samplePrompt entryB []).conf d [0#64]
      (dictGetParamField d.mem entryB) [.inner, .eval]) =
      some ((samplePrompt entryB []).conf { d with ds := [] } [0#64]
        (dictGetParamField d.mem entryB + 8#64) [.execute entryA, .inner, .eval]) :=
    (step_inner_other hcell hE.inDict hE.code hne).trans (callCode_execute hds)
  have hstart : samplePrompt entryB [entryA] =
      (samplePrompt entryB []).conf d [] 0#64 [.execute entryB, .eval] := by
    rw [← hd]
    rfl
  have hnil : Exec linearImage sampleWords Set.univ 0 false false (.body .nil)
      ⟨{ d with ds := [] }, []⟩ ⟨{ d with ds := [] }, []⟩ := .nil
  rw [hstart]
  refine ⟨_, _, Via.head trivial hcall (Via.single trivial hexec), rfl, .nil, ?_⟩
  refine not_returnsCleanly rfl ?_ (e := entryA) rfl
    (show 1 + 1 + 0 ≤ returnStackSize by decide) hnil (Or.inl ?_)
  · change Known linearImage sampleWords Set.univ d.mem
    rw [hmem]
    exact sampleWords_known
  · change dictGetParamField d.mem entryB + 8#64 ≠ 0#64
    rw [hmem]
    decide +kernel

end VectorForth.Forth
