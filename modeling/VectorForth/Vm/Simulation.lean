import VectorForth.Vm.Stepping

/-!
# The machine runs structured code

A structured execution without control constructs is carried out by the
machine cell by cell. The return stack holds the part of the running word,
then one frame for each pending call; `Inside` says that a run never touches
what lies below. A run that sends a colon word through `EXECUTE` ends with
activations of `forth_inner` left over, and the number of these is part of the
statement.
-/

namespace VectorForth.Forth

open ByteMemory LabelledRun

/-- The C stack still ends in the given activation, the return stack in `R`. -/
def Inside (K : List Frame) (R : List Cell) (m : Machine) : Prop :=
  (Frame.inner :: K) <:+ m.frames ∧ R <:+ m.vm.rs

theorem replicate_append_cons {α : Type*} (k : Nat) (x : α) (l : List α) :
    List.replicate k x ++ x :: l = x :: (List.replicate k x ++ l) := by
  induction k with
  | zero => rfl
  | succ k ih => rw [List.replicate_succ, List.cons_append, ih, List.cons_append]

theorem inside_conf {m : Machine} {d : Data} {L : List Cell} {ip : Cell} {F K : List Frame}
    {R : List Cell} : Inside K R (m.conf d (L ++ R) ip (F ++ .inner :: K)) :=
  ⟨List.suffix_append .., List.suffix_append ..⟩

theorem Inside.mono {K K' : List Frame} {R R' : List Cell} (hK : (Frame.inner :: K) <:+ .inner :: K')
    (hR : R <:+ R') {m : Machine} (h : Inside K' R' m) : Inside K R m :=
  ⟨hK.trans h.1, hR.trans h.2⟩

@[simp] theorem dsPush_mem (d : Data) (v : Cell) : (d.dsPush v).mem = d.mem := by
  unfold Data.dsPush
  split <;> rfl

@[simp] theorem dsPush_puts_mem (d : Data) (t : Text) : (d.puts t).mem = d.mem := rfl

/-! ## The words for the return stack -/

/-- A word that finds what it needs in its own part of the return stack does
not see the rest. -/
theorem vmWord_frame {f : CFun} {w : Vm → Vm} {n : Nat} (hf : vmWord f = some w)
    (hneed : rsNeed f = some n) {d : Data} {L R : List Cell} {ip : Cell} (hlen : n ≤ L.length)
    (hroom : (w ⟨d, L, 0#64⟩).rs.length + R.length ≤ returnStackSize) :
    w ⟨d, L ++ R, ip⟩ = ⟨(w ⟨d, L, 0#64⟩).data, (w ⟨d, L, 0#64⟩).rs ++ R, ip⟩ := by
  have hpeek : 1 ≤ L.length → (L ++ R).headD 0#64 = L.headD 0#64 := by
    intro h
    cases L with
    | nil => simp at h
    | cons v L => rfl
  cases f <;> cases hneed <;> cases hf
  · have hdata : (⟨d, L ++ R, ip⟩ : Vm).data.dsPop = d.dsPop := rfl
    simp only [wToR, Vm.rsPush] at hroom ⊢
    by_cases hfull : L.length ≥ returnStackSize
    · have hR : R = [] := by
        rw [if_pos hfull] at hroom
        apply List.eq_nil_of_length_eq_zero
        dsimp only at hroom
        omega
      subst hR
      simp [hfull]
    · rw [if_neg hfull] at hroom ⊢
      have hfull' : ¬ (L ++ R).length ≥ returnStackSize := by
        rw [List.length_append]
        simp only [List.length_cons] at hroom
        omega
      rw [if_neg hfull']
      rfl
  · cases L with
    | nil => simp at hlen
    | cons v L => rfl
  · simp only [wRFetch, Vm.rsPeek]
    rw [hpeek hlen]
  · simp only [wRFetch, Vm.rsPeek]
    rw [hpeek hlen]

/-! ## What every execution keeps -/

section Keeps

variable {img : Image} {words : Words} {P : Set Nat} {cap : Nat} {c r : Bool} {code : Code}
  {s t : Local}

theorem rsWord_mem {f : CFun} {w : Vm → Vm} {n : Nat} (hf : vmWord f = some w)
    (hneed : rsNeed f = some n) (vm : Vm) : (w vm).data.mem = vm.data.mem := by
  cases f <;> cases hneed <;> cases hf
  · simp only [wToR, Vm.rsPush, Data.dsPop]
    split <;> split <;> rfl
  · simp only [wFromR, Vm.rsPop]
    split <;> simp
  · simp [wRFetch]
  · simp [wRFetch]

/-- The protected bytes are as before. -/
theorem Exec.mem_eq (h : Exec img words P cap c r code s t) :
    Set.EqOn t.data.mem s.data.mem P := by
  induction h with
  | nil => exact Set.eqOn_refl _ _
  | lit _ ih => simpa using ih
  | word _ _ ih₁ ih₂ => exact ih₂.trans ih₁
  | ifYes _ _ _ _ ih₁ ih₂ => exact ih₂.trans ih₁
  | ifNo _ _ ih => exact ih
  | elseYes _ _ _ _ ih₁ ih₂ => exact ih₂.trans ih₁
  | elseNo _ _ _ ih₁ ih₂ => exact ih₂.trans ih₁
  | untilDone _ _ _ _ ih₁ ih₂ => exact ih₂.trans ih₁
  | untilAgain _ _ _ ih₁ ih₂ => exact ih₂.trans ih₁
  | whileDone _ _ _ ih₁ ih₂ => exact ih₂.trans ih₁
  | whileAgain _ _ _ _ _ ih₁ ih₂ ih₃ => exact ih₃.trans (ih₂.trans ih₁)
  | doLoop _ _ _ _ ih₁ ih₂ => exact ih₂.trans ih₁
  | loopAgain _ _ _ _ ih₁ ih₂ => exact ih₂.trans ih₁
  | loopDone _ _ _ ih => exact ih
  | native _ _ _ hkeep => exact hkeep
  | rsNative _ hf hneed _ _ =>
      intro x _
      rw [rsWord_mem hf hneed]
  | yield _ _ => exact Set.eqOn_refl _ _
  | var _ => simpa using Set.eqOn_refl _ _
  | const _ => simpa using Set.eqOn_refl _ _
  | colon _ _ _ ih => exact ih
  | execute _ _ _ _ ih => exact ih

/-- A word's part of the return stack stays within its slots. -/
theorem Exec.length_le (h : Exec img words P cap c r code s t) (hs : s.rs.length ≤ cap) :
    t.rs.length ≤ cap := by
  induction h with
  | nil => exact hs
  | lit _ ih => exact ih hs
  | word _ _ ih₁ ih₂ => exact ih₂ (ih₁ hs)
  | ifYes _ _ _ _ ih₁ ih₂ => exact ih₂ (ih₁ hs)
  | ifNo _ _ ih => exact ih hs
  | elseYes _ _ _ _ ih₁ ih₂ => exact ih₂ (ih₁ hs)
  | elseNo _ _ _ ih₁ ih₂ => exact ih₂ (ih₁ hs)
  | untilDone _ _ _ _ ih₁ ih₂ => exact ih₂ (ih₁ hs)
  | untilAgain _ _ _ ih₁ ih₂ => exact ih₂ (ih₁ hs)
  | whileDone _ _ _ ih₁ ih₂ => exact ih₂ (ih₁ hs)
  | whileAgain _ _ _ _ _ ih₁ ih₂ ih₃ => exact ih₃ (ih₂ (ih₁ hs))
  | doLoop _ hroom _ _ ih₁ ih₂ =>
      apply ih₂
      apply ih₁
      simp only [List.length_cons]
      omega
  | loopAgain _ hrs _ _ ih₁ ih₂ =>
      have hlen := ih₁ hs
      rw [hrs] at hlen
      exact ih₂ hlen
  | loopDone _ hrs _ ih =>
      have hlen := ih hs
      rw [hrs] at hlen
      simp only [List.length_cons] at hlen
      dsimp only
      omega
  | native => exact hs
  | rsNative _ _ _ _ hroom => exact hroom
  | yield _ _ => exact hs
  | var _ => exact hs
  | const _ => exact hs
  | colon => exact hs
  | execute _ _ _ _ ih => exact ih hs

end Keeps

/-! ## Simulation -/

section Simulates

variable {img : Image} {words : Words} {P : Set Nat}

/-- A body of `n` cells, with one more after it, lies in the dictionary. -/
def Fits (a : Cell) (n : Nat) : Prop :=
  dictVirtBase ≤ a.toNat ∧ a.toNat + 8 * (n + 1) ≤ dictVirtBase + dictSize

theorem Fits.offset {a : Cell} {n i j : Nat} (h : Fits a n) (hij : i + j ≤ n) :
    Fits (offset a i) j ∧ (offset a i).toNat = a.toNat + 8 * i := by
  have htop := dictTop_lt
  obtain ⟨hlow, hhigh⟩ := h
  have haddr : (Forth.offset a i).toNat = a.toNat + 8 * i := offset_toNat (by omega)
  exact ⟨⟨by omega, by omega⟩, haddr⟩

/-- The address after a cell of a body is not null. -/
theorem Fits.next_ne_zero {a : Cell} {n : Nat} (h : Fits a n) : a + 8#64 ≠ 0#64 := by
  have htop := dictTop_lt
  obtain ⟨hlow, hhigh⟩ := h
  intro hz
  have := congrArg BitVec.toNat hz
  rw [BitVec.toNat_add, BitVec.toNat_ofNat, BitVec.toNat_ofNat] at this
  simp only [dictVirtBase] at hlow
  omega

/-- What the machine does for `code`: `k` activations of `forth_inner` are left
over, none unless a colon word went through `EXECUTE`. -/
def Simulated (img : Image) (words : Words) (P : Set Nat) (cap : Nat) (r : Bool) (s t : Local) :
    Code → Prop
  | .body b => ∀ (m : Machine) (R : List Cell) (K : List Frame) (a : Cell),
      Known img words P s.data.mem → s.rs.length ≤ cap → R.length + cap ≤ returnStackSize →
      Fits a b.size → Within P a.toNat (8 * b.size) →
      CellsAt s.data.mem a (layout img b a) →
      ∃ k, (k = 0 ↔ r = false) ∧
        Via (step img) (Inside K R) (m.conf s.data (s.rs ++ R) a (.inner :: K))
          (m.conf t.data (t.rs ++ R) (offset a b.size) (List.replicate k .inner ++ .inner :: K))
  | .loop _ => True
  | .call e => ∀ (m : Machine) (R : List Cell) (K : List Frame),
      Known img words P s.data.mem → s.rs.length ≤ cap → R.length + cap ≤ returnStackSize →
      (∀ ip, cellAt s.data.mem ip = e → ip + 8#64 ≠ 0#64 → ∃ k, (k = 0 ↔ r = false) ∧
        Via (step img) (Inside K R) (m.conf s.data (s.rs ++ R) ip (.inner :: K))
          (m.conf t.data (t.rs ++ R) (ip + 8#64) (List.replicate k .inner ++ .inner :: K))) ∧
      ∀ ip, ip ≠ 0#64 → ∃ k, (k = 0 ↔ r = false ∧ ∀ b, words e ≠ some (.colon b)) ∧
        Via (step img) (Inside K R) (m.conf s.data (s.rs ++ R) ip (.execute e :: .inner :: K))
          (m.conf t.data (t.rs ++ R) ip (List.replicate k .inner ++ .inner :: K))

/-- A word that is done in one call. -/
theorem simulated_leaf {cap : Nat} {e : Cell} {k : Meaning} {s t : Local}
    (he : words e = some k) (hk : k.isColon = false) (hne : k.code img ≠ img.addr .doColon)
    (hcall : ∀ (m : Machine) (R : List Cell) (ip : Cell) (F : List Frame),
      R.length + cap ≤ returnStackSize →
      callCode img (k.code img) e (m.conf s.data (s.rs ++ R) ip F) =
        some (m.conf t.data (t.rs ++ R) ip F)) :
    Simulated img words P cap false s t (.call e) := by
  intro m R K hknown _ hroom
  have hentry := hknown e k he
  constructor
  · intro ip hcell _
    refine ⟨0, by simp, Via.single (inside_conf (F := [])) ?_⟩
    rw [step_inner_other hcell hentry.inDict hentry.code hne, hcall m R _ _ hroom]
    rfl
  · intro ip _
    refine ⟨0, ?_, Via.single (inside_conf (F := [_])) ?_⟩
    · simp only [true_and, true_iff]
      intro b hb
      rw [he] at hb
      cases Option.some.inj hb
      simp [Meaning.isColon] at hk
    · rw [step_execute_other hentry.code hne, hcall m R _ _ hroom]
      rfl

/-- The cells of a colon body and its exit. -/
theorem Known.colon {m : Mem} {e : Cell} {b : Body} (h : Known img words P m)
    (he : words e = some (.colon b)) :
    Fits (dictGetParamField m e) b.size ∧
    Within P (dictGetParamField m e).toNat (8 * (b.size + 1)) ∧
    CellsAt m (dictGetParamField m e) (layout img b (dictGetParamField m e)) ∧
    cellAt m (offset (dictGetParamField m e) b.size) = sentinelExit := by
  obtain ⟨hlow, hhigh, hin, hcells⟩ := (h e _ he).body b rfl
  rw [cellsAt_append, length_layout] at hcells
  exact ⟨⟨hlow, hhigh⟩, hin, hcells.1, hcells.2.1⟩

/-- The exit cell is still there when the body has run. -/
theorem exit_cell {m m' : Mem} {a : Cell} {n : Nat} (hfits : Fits a n)
    (hin : Within P a.toNat (8 * (n + 1))) (hm : Set.EqOn m' m P)
    (hcell : cellAt m (offset a n) = sentinelExit) : cellAt m' (offset a n) = sentinelExit := by
  have haddr := (hfits.offset (i := n) (j := 0) (by omega)).2
  rw [cellAt_congr hm, hcell]
  rw [haddr]
  exact hin.mono (by omega) (by omega)

section Cases

variable {cap : Nat} {c r : Bool} {s s' t : Local}

theorem simulated_nil : Simulated img words P cap false s s (.body .nil) := by
  intro m R K a _ _ _ _ _ _
  refine ⟨0, by simp, ?_⟩
  rw [Body.size, offset_zero]
  exact Via.refl _

theorem simulated_lit {v : Cell} {rest : Body}
    (ih : Simulated img words P cap r ⟨s.data.dsPush v, s.rs⟩ t (.body rest)) :
    Simulated img words P cap r s t (.body (.lit v rest)) := by
  intro m R K a hknown hlen hroom hfits hin hcells
  obtain ⟨hcell, hv, hrest⟩ := hcells
  rw [offset_offset] at hrest
  rw [Body.size] at hfits hin
  obtain ⟨hfits', haddr⟩ := hfits.offset (i := 2) (j := rest.size) (by omega)
  obtain ⟨k, hk, hvia⟩ := ih m R K (offset a 2) (by simpa using hknown) hlen hroom hfits'
    (by rw [haddr]; exact hin.mono (by omega) (by omega)) (by simpa using hrest)
  have hstep : step img (m.conf s.data (s.rs ++ R) a (.inner :: K)) =
      some (m.conf (s.data.dsPush v) (s.rs ++ R) (offset a 2) (.inner :: K)) := by
    rw [offset_one] at hv
    rw [step_inner_literal hcell, hv, ← offset_one, ← offset_one, offset_offset]
  rw [offset_offset] at hvia
  exact ⟨k, hk, Via.head (inside_conf (F := [])) hstep hvia⟩

theorem simulated_word {r₁ r₂ : Bool} {e : Cell} {rest : Body}
    (hmem : Set.EqOn s'.data.mem s.data.mem P) (hlen' : s.rs.length ≤ cap → s'.rs.length ≤ cap)
    (ihcall : Simulated img words P cap r₁ s s' (.call e))
    (ihrest : Simulated img words P cap r₂ s' t (.body rest)) :
    Simulated img words P cap (r₁ || r₂) s t (.body (.word e rest)) := by
  intro m R K a hknown hlen hroom hfits hin hcells
  obtain ⟨hcell, hrest⟩ := hcells
  rw [Body.size] at hfits hin
  obtain ⟨hfits', haddr⟩ := hfits.offset (i := 1) (j := rest.size) (by omega)
  obtain ⟨k₁, hk₁, hcall⟩ := (ihcall m R K hknown hlen hroom).1 a hcell hfits.next_ne_zero
  have htop := dictTop_lt
  have hcells' : CellsAt s'.data.mem (offset a 1) (layout img rest (offset a 1)) := by
    apply hrest.congr hmem
    · rw [length_layout, haddr]
      exact hin.mono (by omega) (by omega)
    · rw [length_layout]
      have := hfits'.2
      omega
  -- the rest runs above the activations that the word has left
  obtain ⟨k₂, hk₂, hvia⟩ := ihrest m R (List.replicate k₁ .inner ++ K) (offset a 1)
    (hknown.congr hmem) (hlen' hlen) hroom hfits'
    (by rw [haddr]; exact hin.mono (by omega) (by omega)) hcells'
  refine ⟨k₂ + k₁, ?_, hcall.trans ?_⟩
  · rw [Bool.or_eq_false_iff, ← hk₁, ← hk₂]
    omega
  · have hsuffix : (Frame.inner :: K) <:+ .inner :: (List.replicate k₁ .inner ++ K) := by
      rw [← replicate_append_cons]
      exact List.suffix_append ..
    have hvia' := hvia.mono fun x => Inside.mono hsuffix (List.suffix_refl _)
    rw [← replicate_append_cons, ← List.append_assoc, List.replicate_append_replicate,
      offset_offset] at hvia'
    exact hvia'

/-- The body of a colon word, from entry to exit. -/
theorem simulated_colon {e : Cell} {b : Body} {d : Data} (he : words e = some (.colon b))
    (hslot : s.rs.length < cap) (hmem : Set.EqOn d.mem s.data.mem P)
    (ih : Simulated img words P (cap - s.rs.length - 1) r ⟨s.data, []⟩ ⟨d, []⟩ (.body b)) :
    Simulated img words P cap r s ⟨d, s.rs⟩ (.call e) := by
  intro m R K hknown hlen hroom
  have hentry := hknown e _ he
  obtain ⟨hfits, hin, hcells, hexit⟩ := hknown.colon he
  have hexit' := exit_cell hfits hin hmem hexit
  have hfree : (s.rs ++ R).length < returnStackSize := by
    rw [List.length_append]
    omega
  -- the callee runs above the return address `ret`, which its exit cell pops
  have hbody : ∀ (ret : Cell) (K' : List Frame), ret ≠ 0#64 →
      (Frame.inner :: K) <:+ (.inner :: K') →
      ∃ k, (k = 0 ↔ r = false) ∧
        Via (step img) (Inside K R)
          (m.conf s.data (ret :: (s.rs ++ R)) (dictGetParamField s.data.mem e) (.inner :: K'))
          (m.conf d (s.rs ++ R) ret (List.replicate k .inner ++ .inner :: K')) := by
    intro ret K' hret hsuffix
    obtain ⟨k, hk, hvia⟩ := ih m (ret :: (s.rs ++ R)) K' (dictGetParamField s.data.mem e) hknown
      (Nat.zero_le _) (by rw [List.length_cons, List.length_append]; omega) hfits
      (hin.mono (Nat.le_refl _) (by omega)) hcells
    have hR : R <:+ ret :: (s.rs ++ R) := ⟨ret :: s.rs, rfl⟩
    refine ⟨k, hk, (hvia.mono fun x => Inside.mono hsuffix hR).trans ?_⟩
    rw [replicate_append_cons]
    apply Via.single
    · refine ⟨hsuffix.trans ?_, hR⟩
      rw [Machine.conf_frames, ← replicate_append_cons]
      exact List.suffix_append ..
    · exact step_inner_exit hexit' hret
  constructor
  · intro ip hcell hnext
    obtain ⟨k, hk, hvia⟩ := hbody (ip + 8#64) K hnext (List.suffix_refl _)
    exact ⟨k, hk, Via.head (inside_conf (F := []))
      (step_inner_colon hcell hentry.inDict hentry.code hfree) hvia⟩
  · intro ip hip
    obtain ⟨k, hk, hvia⟩ := hbody ip (.inner :: K) hip (List.suffix_cons ..)
    refine ⟨k + 1, ?_, Via.head (inside_conf (F := [_]))
      (step_execute_colon hentry.code hfree) ?_⟩
    · simp only [Nat.add_eq_zero_iff, one_ne_zero, and_false, false_iff, not_and]
      intro _ h
      exact h b he
    · rw [List.replicate_succ', List.append_assoc]
      exact hvia

theorem simulated_execute {e xt : Cell} {k : Meaning} {ds : List Cell}
    (he : words e = some (.native .wExecute)) (hds : s.data.ds = xt :: ds)
    (hk : words xt = some k)
    (ih : Simulated img words P cap r ⟨{ s.data with ds := ds }, s.rs⟩ t (.call xt)) :
    Simulated img words P cap (k.isColon || r) s t (.call e) := by
  intro m R K hknown hlen hroom
  have hentry := hknown e _ he
  have hne : img.addr .wExecute ≠ img.addr .doColon := fun h => by cases img.addr_inj h
  have hflag : (r = false ∧ ∀ b, words xt ≠ some (.colon b)) ↔ (k.isColon || r) = false := by
    rw [Bool.or_eq_false_iff, hk, and_comm]
    cases k <;> simp [Meaning.isColon]
  have hexec := (ih m R K hknown hlen hroom).2
  constructor
  · intro ip hcell hnext
    obtain ⟨j, hj, hvia⟩ := hexec (ip + 8#64) hnext
    refine ⟨j, hj.trans hflag, Via.head (inside_conf (F := [])) ?_ hvia⟩
    rw [step_inner_other hcell hentry.inDict hentry.code hne]
    exact callCode_execute hds
  · intro ip hip
    obtain ⟨j, hj, hvia⟩ := hexec ip hip
    refine ⟨j, ?_, Via.head (inside_conf (F := [_])) ?_ hvia⟩
    · rw [hj, hflag, he]
      simp
    · rw [step_execute_other hentry.code hne]
      exact callCode_execute hds

end Cases

/-- **The machine carries out every structured execution that meets no control
construct.** -/
theorem Exec.simulated {cap : Nat} {c r : Bool} {code : Code} {s t : Local}
    (h : Exec img words P cap c r code s t) (hc : c = false) :
    Simulated img words P cap r s t code := by
  induction h with
  | nil => exact simulated_nil
  | lit _ ih => exact simulated_lit (ih hc)
  | word hcall _ ihcall ihrest =>
      rw [Bool.or_eq_false_iff] at hc
      exact simulated_word hcall.mem_eq hcall.length_le (ihcall hc.1) (ihrest hc.2)
  | native he hf hrun _ =>
      refine simulated_leaf he rfl ?_ ?_
      · intro h
        rw [img.addr_inj h] at hf
        cases hf
      · intro m R ip F _
        exact callCode_native hf hrun
  | rsNative he hf hneed hlen hroom =>
      refine simulated_leaf he rfl ?_ ?_
      · intro h
        rw [img.addr_inj h] at hf
        cases hf
      · intro m R ip F hR
        rw [Meaning.code, callCode_vmWord hf, Machine.conf_vm,
          vmWord_frame hf hneed hlen (by omega)]
        rfl
  | yield he hstay =>
      refine simulated_leaf he rfl ?_ ?_
      · intro h
        cases img.addr_inj h
      · intro m R ip F _
        rw [Meaning.code, callCode_yield, yield_of_stay hstay]
  | var he =>
      refine simulated_leaf he rfl ?_ ?_
      · intro h
        cases img.addr_inj h
      · intro m R ip F _
        exact callCode_variable
  | const he =>
      refine simulated_leaf he rfl ?_ ?_
      · intro h
        cases img.addr_inj h
      · intro m R ip F _
        exact callCode_constant
  | colon he hslot hbody ih => exact simulated_colon he hslot hbody.mem_eq (ih hc)
  | execute he hds hk _ ih => exact simulated_execute he hds hk (ih hc)
  | ifYes | ifNo | elseYes | elseNo | untilDone | untilAgain | whileDone | whileAgain | doLoop
  | loopAgain | loopDone => cases hc

/-- A colon word called from anywhere: one step into the body, then the body up
to its exit cell, with the frame of the call on top of the return stack. -/
theorem execute_to_exit {cap : Nat} {r : Bool} {e : Cell} {b : Body} {d d' : Data}
    (hknown : Known img words P d.mem) (he : words e = some (.colon b))
    (hexec : Exec img words P cap false r (.body b) ⟨d, []⟩ ⟨d', []⟩)
    {rs : List Cell} (hroom : rs.length + 1 + cap ≤ returnStackSize) (m : Machine)
    (K : List Frame) (ip : Cell) :
    step img (m.conf d rs ip (.execute e :: K)) =
        some (m.conf d (ip :: rs) (dictGetParamField d.mem e) (.inner :: K)) ∧
    ∃ k a, (k = 0 ↔ r = false) ∧ cellAt d'.mem a = sentinelExit ∧
      Via (step img) (Inside K (ip :: rs))
        (m.conf d (ip :: rs) (dictGetParamField d.mem e) (.inner :: K))
        (m.conf d' (ip :: rs) a (List.replicate k .inner ++ .inner :: K)) := by
  obtain ⟨hfits, hin, hcells, hexit⟩ := hknown.colon he
  refine ⟨step_execute_colon (hknown e _ he).code (by omega), ?_⟩
  obtain ⟨k, hk, hvia⟩ := hexec.simulated rfl m (ip :: rs) K (dictGetParamField d.mem e) hknown
    (Nat.zero_le _) (by rw [List.length_cons]; omega) hfits
    (hin.mono (Nat.le_refl _) (by omega)) hcells
  exact ⟨k, _, hk, exit_cell hfits hin hexec.mem_eq hexit, hvia⟩

end Simulates

/-! ## Returning to the caller -/

/-- The C stack is above `K`: what was called from `K` is still running. -/
def Above (K : List Frame) (m : Machine) : Prop := ∃ L, L ≠ [] ∧ m.frames = L ++ K

/-- The call on top of `K` returns, for the first time, in `m'`. -/
def Returns (img : Image) (K : List Frame) (m m' : Machine) : Prop :=
  Via (step img) (Above K) m m' ∧ m'.frames = K

theorem not_above_self {K : List Frame} {m : Machine} (h : m.frames = K) : ¬ Above K m := by
  rintro ⟨L, hL, hK⟩
  rw [h] at hK
  exact hL (List.self_eq_append_left.mp hK)

theorem Returns.unique {img : Image} {K : List Frame} {m m₁ m₂ : Machine}
    (h₁ : Returns img K m m₁) (h₂ : Returns img K m m₂) : m₁ = m₂ :=
  h₁.1.exit_unique h₂.1 (not_above_self h₁.2) (not_above_self h₂.2)

theorem Inside.above {K : List Frame} {R : List Cell} {m : Machine} (h : Inside K R m) :
    Above K m := by
  obtain ⟨⟨L, hL⟩, -⟩ := h
  exact ⟨L ++ [.inner], by simp, by rw [← hL, List.append_assoc]; rfl⟩

end VectorForth.Forth
