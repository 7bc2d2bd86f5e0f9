import VectorForth.Vm.Simulation

/-!
# Control constructs stop the inner interpreter

The compiling words for control constructs emit the address of a C function.
`forth_inner` takes every cell but two for the address of a word, and such an
address is outside the dictionary: it gives up, and the frames of the words it
was in stay on the return stack.
-/

namespace VectorForth.Forth

open ByteMemory LabelledRun

section

variable {img : Image} {words : Words} {P : Set Nat} {cap : Nat} {c r : Bool} {s s' t : Local}

/-- The machine gives up inside `code`, with `R` still below on the return stack. -/
def Aborts (img : Image) (words : Words) (P : Set Nat) (cap : Nat) (s : Local) : Code → Prop
  | .body b => ∀ (m : Machine) (R : List Cell) (K : List Frame) (a : Cell),
      Known img words P s.data.mem → s.rs.length ≤ cap → R.length + cap ≤ returnStackSize →
      Fits a b.size → Within P a.toNat (8 * b.size) →
      CellsAt s.data.mem a (layout img b a) →
      ∃ d X ip, Via (step img) (Inside K R) (m.conf s.data (s.rs ++ R) a (.inner :: K))
        (m.conf d (X ++ R) ip K)
  | .loop _ => True
  | .call e => ∀ (m : Machine) (R : List Cell) (K : List Frame),
      Known img words P s.data.mem → s.rs.length ≤ cap → R.length + cap ≤ returnStackSize →
      ∀ ip, cellAt s.data.mem ip = e → ip + 8#64 ≠ 0#64 →
      ∃ d X ip', Via (step img) (Inside K R) (m.conf s.data (s.rs ++ R) ip (.inner :: K))
        (m.conf d (X ++ R) ip' K)

/-- A word that is no colon definition meets no construct, unless it sends a
colon word through `EXECUTE`. -/
theorem Exec.call_plain {code : Code} (h : Exec img words P cap c r code s t) (hr : r = false)
    {e : Cell} (hcode : code = .call e) (he : ∀ b, words e ≠ some (.colon b)) : c = false := by
  induction h generalizing e with
  | native | rsNative | yield | var | const => rfl
  | colon he' =>
      cases hcode
      exact absurd he' (he _)
  | @execute cap c r e' xt k ds s t he' hds hk _ ih =>
      rw [Bool.or_eq_false_iff] at hr
      apply ih hr.2 rfl
      intro b hb
      rw [hk] at hb
      cases Option.some.inj hb
      cases hr.1
  | nil => rfl
  | lit | word | ifYes | ifNo | elseYes | elseNo | untilDone | untilAgain | whileDone | whileAgain
  | doLoop | loopAgain | loopDone => cases hcode

/-- The first cell of a construct is the address of a C function. -/
theorem aborts_raw {b : Body} {f : CFun} (hf : f ≠ .doLiteral)
    (hlayout : ∀ a, ∃ cs, layout img b a = img.addr f :: cs) :
    Aborts img words P cap s (.body b) := by
  intro m R K a _ _ _ _ _ hcells
  obtain ⟨cs, hcs⟩ := hlayout a
  rw [hcs] at hcells
  exact ⟨_, _, _, Via.single (inside_conf (F := [])) (step_inner_raw hcells.1 hf)⟩

/-- A construct that runs a body before its first own cell: either the body
gives up, or that cell does. -/
theorem aborts_after {b body : Body} {f : CFun} (hf : f ≠ .doLiteral)
    (hlayout : ∀ a, ∃ cs, layout img b a = layout img body a ++ img.addr f :: cs)
    (hbody : Exec img words P cap c false (.body body) s s')
    (ih : c = true → Aborts img words P cap s (.body body)) :
    Aborts img words P cap s (.body b) := by
  intro m R K a hknown hlen hroom hfits hin hcells
  obtain ⟨cs, hcs⟩ := hlayout a
  have hsize : b.size = body.size + (cs.length + 1) := by
    rw [← length_layout img b a, hcs, List.length_append, length_layout, List.length_cons]
  rw [hcs, cellsAt_append, length_layout] at hcells
  have hfits' : Fits a body.size := ⟨hfits.1, by have := hfits.2; omega⟩
  have hin' : Within P a.toNat (8 * body.size) := hin.mono (Nat.le_refl _) (by omega)
  cases c with
  | true => exact ih rfl m R K a hknown hlen hroom hfits' hin' hcells.1
  | false =>
      obtain ⟨k, hk, hvia⟩ := hbody.simulated rfl m R K a hknown hlen hroom hfits' hin' hcells.1
      obtain rfl : k = 0 := hk.mpr rfl
      have haddr := (hfits.offset (i := body.size) (j := 0) (by omega)).2
      have hcell : cellAt s'.data.mem (offset a body.size) = img.addr f := by
        rw [cellAt_congr hbody.mem_eq, hcells.2.1]
        rw [haddr]
        exact hin.mono (by omega) (by omega)
      exact ⟨_, _, _, hvia.trans (Via.single (inside_conf (F := [])) (step_inner_raw hcell hf))⟩

theorem aborts_lit {v : Cell} {rest : Body}
    (ih : Aborts img words P cap ⟨s.data.dsPush v, s.rs⟩ (.body rest)) :
    Aborts img words P cap s (.body (.lit v rest)) := by
  intro m R K a hknown hlen hroom hfits hin hcells
  obtain ⟨hcell, hv, hrest⟩ := hcells
  rw [offset_offset] at hrest
  rw [Body.size] at hfits hin
  obtain ⟨hfits', haddr⟩ := hfits.offset (i := 2) (j := rest.size) (by omega)
  obtain ⟨d, X, ip, hvia⟩ := ih m R K (offset a 2) (by simpa using hknown) hlen hroom hfits'
    (by rw [haddr]; exact hin.mono (by omega) (by omega)) (by simpa using hrest)
  have hstep : step img (m.conf s.data (s.rs ++ R) a (.inner :: K)) =
      some (m.conf (s.data.dsPush v) (s.rs ++ R) (offset a 2) (.inner :: K)) := by
    rw [offset_one] at hv
    rw [step_inner_literal hcell, hv, ← offset_one, ← offset_one, offset_offset]
  exact ⟨d, X, ip, Via.head (inside_conf (F := [])) hstep hvia⟩

theorem aborts_word {c₁ c₂ : Bool} {e : Cell} {rest : Body}
    (hcall : Exec img words P cap c₁ false (.call e) s s') (hc : (c₁ || c₂) = true)
    (ihcall : c₁ = true → Aborts img words P cap s (.call e))
    (ihrest : c₂ = true → Aborts img words P cap s' (.body rest)) :
    Aborts img words P cap s (.body (.word e rest)) := by
  intro m R K a hknown hlen hroom hfits hin hcells
  obtain ⟨hcell, hrest⟩ := hcells
  rw [Body.size] at hfits hin
  obtain ⟨hfits', haddr⟩ := hfits.offset (i := 1) (j := rest.size) (by omega)
  cases c₁ with
  | true => exact ihcall rfl m R K hknown hlen hroom a hcell hfits.next_ne_zero
  | false =>
      obtain ⟨k, hk, hvia⟩ :=
        (hcall.simulated rfl m R K hknown hlen hroom).1 a hcell hfits.next_ne_zero
      obtain rfl : k = 0 := hk.mpr rfl
      have htop := dictTop_lt
      have hin' : Within P (offset a 1).toNat (8 * rest.size) := by
        rw [haddr]
        exact hin.mono (by omega) (by omega)
      have hcells' : CellsAt s'.data.mem (offset a 1) (layout img rest (offset a 1)) := by
        apply hrest.congr hcall.mem_eq
        · rwa [length_layout]
        · rw [length_layout]
          have := hfits'.2
          omega
      obtain ⟨d, X, ip, hvia'⟩ := ihrest hc m R K (offset a 1) (hknown.congr hcall.mem_eq)
        (hcall.length_le hlen) hroom hfits' hin' hcells'
      exact ⟨d, X, ip, hvia.trans hvia'⟩

theorem aborts_colon {e : Cell} {b : Body} (he : words e = some (.colon b))
    (hslot : s.rs.length < cap)
    (ih : Aborts img words P (cap - s.rs.length - 1) ⟨s.data, []⟩ (.body b)) :
    Aborts img words P cap s (.call e) := by
  intro m R K hknown hlen hroom ip hcell hnext
  obtain ⟨hfits, hin, hcells, -⟩ := hknown.colon he
  obtain ⟨d, X, ip', hvia⟩ := ih m ((ip + 8#64) :: (s.rs ++ R)) K _ hknown (Nat.zero_le _)
    (by rw [List.length_cons, List.length_append]; omega) hfits
    (hin.mono (Nat.le_refl _) (by omega)) hcells
  have hR : R <:+ (ip + 8#64) :: (s.rs ++ R) := ⟨(ip + 8#64) :: s.rs, rfl⟩
  refine ⟨d, X ++ (ip + 8#64) :: s.rs, ip', Via.head (inside_conf (F := []))
    (step_inner_colon hcell (hknown e _ he).inDict (hknown e _ he).code ?_) ?_⟩
  · rw [List.length_append]
    omega
  · have hvia' := hvia.mono fun x => Inside.mono (List.suffix_refl _) hR
    rwa [List.append_assoc]

/-- **An execution that meets a control construct gives up at it.** -/
theorem Exec.aborts {code : Code} (h : Exec img words P cap c r code s t) (hc : c = true)
    (hr : r = false) : Aborts img words P cap s code := by
  induction h with
  | nil | native | rsNative | yield | var | const => cases hc
  | lit _ ih => exact aborts_lit (ih hc hr)
  | word hcall _ ihcall ihrest =>
      rw [Bool.or_eq_false_iff] at hr
      obtain ⟨rfl, rfl⟩ := hr
      exact aborts_word hcall hc (fun h => ihcall h rfl) (fun h => ihrest h rfl)
  | ifYes | ifNo => exact aborts_raw (by decide) fun a => ⟨_, rfl⟩
  | elseYes | elseNo => exact aborts_raw (by decide) fun a => ⟨_, rfl⟩
  | doLoop => exact aborts_raw (by decide) fun a => ⟨_, rfl⟩
  | untilDone hbody _ _ _ ihbody _ =>
      rw [Bool.or_eq_false_iff] at hr
      obtain ⟨rfl, rfl⟩ := hr
      exact aborts_after (by decide) (fun a => ⟨_, rfl⟩) hbody fun h => ihbody h rfl
  | untilAgain hbody _ _ ihbody _ =>
      rw [Bool.or_eq_false_iff] at hr
      obtain ⟨rfl, rfl⟩ := hr
      exact aborts_after (by decide) (fun a => ⟨_, rfl⟩) hbody fun h => ihbody h rfl
  | whileDone htest _ _ ihtest _ =>
      rw [Bool.or_eq_false_iff] at hr
      obtain ⟨rfl, rfl⟩ := hr
      exact aborts_after (by decide) (fun a => ⟨_, rfl⟩) htest fun h => ihtest h rfl
  | whileAgain htest _ _ _ _ ihtest _ _ =>
      rw [Bool.or_eq_false_iff, Bool.or_eq_false_iff] at hr
      obtain ⟨⟨rfl, rfl⟩, rfl⟩ := hr
      exact aborts_after (by decide) (fun a => ⟨_, rfl⟩) htest fun h => ihtest h rfl
  | loopAgain | loopDone => trivial
  | colon he hslot _ ih => exact aborts_colon he hslot (ih hc hr)
  | execute he hds hk hcall _ =>
      rw [Bool.or_eq_false_iff] at hr
      rw [hcall.call_plain hr.2 rfl] at hc
      · cases hc
      · intro b hb
        rw [hk] at hb
        cases Option.some.inj hb
        cases hr.1

/-- A colon word that meets a construct returns to its caller with frames left
on the return stack. -/
theorem execute_aborts {e : Cell} {b : Body} {d d' : Data} (hknown : Known img words P d.mem)
    (he : words e = some (.colon b))
    (hexec : Exec img words P cap true false (.body b) ⟨d, []⟩ ⟨d', []⟩)
    {rs : List Cell} (hroom : rs.length + 1 + cap ≤ returnStackSize) (m : Machine)
    (K : List Frame) (ip : Cell) :
    ∃ d'' X ip', Returns img K (m.conf d rs ip (.execute e :: K))
      (m.conf d'' (X ++ ip :: rs) ip' K) := by
  obtain ⟨hfits, hin, hcells, -⟩ := hknown.colon he
  obtain ⟨d'', X, ip', hvia⟩ := hexec.aborts rfl rfl m (ip :: rs) K (dictGetParamField d.mem e)
    hknown (Nat.zero_le _) (by rw [List.length_cons]; omega) hfits
    (hin.mono (Nat.le_refl _) (by omega)) hcells
  refine ⟨d'', X, ip', Via.head ⟨[.execute e], by simp, rfl⟩
    (step_execute_colon (hknown e _ he).code (by omega)) ?_, rfl⟩
  exact hvia.mono fun x hx => hx.above

end

end VectorForth.Forth
