import VectorForth.Vm.Links
import VectorForth.Vm.Locality

/-!
# What a longer dictionary leaves alone

While words are defined the dictionary grows at `HERE`. Nothing below the old
`HERE` is written, but for the flags of the newest entry, as long as no word
stores at will, `ALLOT` does not take memory back, and each hole that `ELSE`,
`THEN` and `REPEAT` fill was left after that time. Code that was compiled before
therefore runs as it did.
-/

namespace VectorForth.Forth

open ByteMemory LabelledRun TwoRuns

/-! ## The old part of the dictionary -/

/-- The byte with the flags of the newest entry. -/
def flagsAddr (d : Data) : Nat := (d.dictLatest + 8#64).toNat

/-- The dictionary of `d` was extended to that of `d'`: what lies from `lo` up to
the old `HERE` is the same, but for the flags of the entry that was the newest. -/
structure Extended (lo : Nat) (d d' : Data) : Prop where
  here : d.dictHere.toNat ≤ d'.dictHere.toNat
  latest : d'.dictLatest = d.dictLatest ∨ d.dictHere.toNat ≤ flagsAddr d'
  kept : ∀ x, lo ≤ x → x < d.dictHere.toNat → (x ≠ flagsAddr d → d'.mem x = d.mem x) ∧
    d'.mem x &&& fLenmask = d.mem x &&& fLenmask

section Extended

variable {lo : Nat} {d d' d'' : Data} {a : Act} {as : List Act} {X : Set Nat}

theorem Extended.refl (d : Data) : Extended lo d d :=
  ⟨Nat.le_refl _, Or.inl rfl, fun _ _ _ => ⟨fun _ => rfl, rfl⟩⟩

/-- Nothing of the old part is written. -/
theorem Extended.above (h : Extended lo d d') (hlatest : d''.dictLatest = d'.dictLatest)
    (hmem : SameBeyond lo X d' d'') (hX : ∀ x ∈ X, d.dictHere.toNat ≤ x)
    (hhere : d.dictHere.toNat ≤ d''.dictHere.toNat) : Extended lo d d'' := by
  refine ⟨hhere, ?_, ?_⟩
  · rw [flagsAddr, hlatest]
    exact h.latest
  · intro x hlo hx
    rw [hmem x hlo fun hmem => absurd (hX x hmem) (Nat.not_le_of_lt hx)]
    exact h.kept x hlo hx

theorem Extended.entry (h : Extended lo d d') (hdoes : Does lo d' .entry d'')
    (htop : d'.dictHere.toNat + 64 < 2 ^ 64) : Extended lo d d'' := by
  obtain ⟨d₁, d₂, code, flags, -, -, hmem₁, hcreated, hhere₂, hlatest₂, hmem₂⟩ := hdoes
  have hold := h.here
  have halign := alignCell_toNat (a := d'.dictHere) (by omega)
  generalize alignCell d'.dictHere = e at halign hcreated
  have hfield := hcreated.field.1
  have hfieldTop := hcreated.top
  obtain ⟨m, here, hsame⟩ := hcreated.same
  have hlatest : d''.dictLatest = e := by rw [hlatest₂, hsame]
  refine ⟨by rw [hhere₂]; omega, Or.inr ?_, ?_⟩
  · have htop' : d₂.dictHere.toNat < 2 ^ 64 := d₂.dictHere.isLt
    rw [flagsAddr, hlatest, BitVec.toNat_add, BitVec.toNat_ofNat]
    omega
  · intro x hlo hx
    rw [hmem₂, hcreated.frame x (by omega), hmem₁]
    exact h.kept x hlo hx

/-- Other flags, and the same length of the name. -/
theorem Extended.flags (h : Extended lo d d') (hdoes : Does lo d' .flags d'') :
    Extended lo d d'' := by
  obtain ⟨hhere, hlatest, hmem, hlen⟩ := hdoes
  refine ⟨by rw [hhere]; exact h.here, by rw [flagsAddr, hlatest]; exact h.latest, ?_⟩
  intro x hlo hx
  obtain ⟨hsame, hmask⟩ := h.kept x hlo hx
  by_cases hflags : x = flagsAddr d'
  · -- the newest entry is the old one still
    have hlatest' : flagsAddr d' = flagsAddr d := by
      rcases h.latest with hl | hl
      · rw [flagsAddr, hl, flagsAddr]
      · omega
    refine ⟨fun hne => absurd (hflags.trans hlatest') hne, ?_⟩
    rw [← hmask, hflags]
    exact hlen
  · rw [hmem x hlo hflags]
    exact ⟨hsame, hmask⟩

/-- **One act extends the dictionary** if `ALLOT` does not take back and only cells
above the old `HERE` are filled. -/
theorem Extended.act (h : Extended lo d d') (hdoes : Does lo d' a d'')
    (htop : d'.dictHere.toNat + 64 < 2 ^ 64)
    (hallot : a = .allot → d'.dictHere.toNat ≤ d''.dictHere.toNat)
    (hpatch : ∀ x, a = .patch x → d.dictHere.toNat ≤ x.toNat) : Extended lo d d'' := by
  have hold := h.here
  have halign := alignCell_toNat (a := d'.dictHere) (by omega)
  have hgrows : d.dictHere.toNat ≤ d''.dictHere.toNat := by
    by_cases ha : a = .allot
    · exact le_trans hold (hallot ha)
    · exact le_trans hold (hdoes.here_le ha htop).1
  cases a with
  | other =>
      obtain ⟨hhere, hlatest, hmem⟩ := hdoes
      exact h.above hlatest hmem (by simp) hgrows
  | emit =>
      obtain ⟨hhere, hlatest, hmem⟩ := hdoes
      exact h.above hlatest hmem (fun x hx => by have := hx.1; omega) hgrows
  | byte =>
      obtain ⟨hhere, hlatest, hmem⟩ := hdoes
      exact h.above hlatest hmem (fun x hx => by rw [Set.mem_singleton_iff.mp hx]; exact hold) hgrows
  | entry => exact h.entry hdoes htop
  | flags => exact h.flags hdoes
  | allot =>
      obtain ⟨hlatest, hmem⟩ := hdoes
      exact h.above hlatest hmem (by simp) hgrows
  | patch x =>
      obtain ⟨hhere, hlatest, hmem⟩ := hdoes
      exact h.above hlatest hmem (fun y hy => le_trans (hpatch x rfl) hy.1) hgrows

theorem Extended.acts (hrun : Run (Does lo) d' as d'') (h : Extended lo d d')
    (hbuilds : ∀ a ∈ as, a.builds = true)
    (htop : d'.dictHere.toNat + 64 * as.length < 2 ^ 64) : Extended lo d d'' := by
  induction hrun with
  | nil => exact h
  | @cons d' d₁ d'' a as hdoes _ ih =>
      rw [List.length_cons] at htop
      have ha := hbuilds a List.mem_cons_self
      have hnot := Act.builds_ne ha
      have hgrow := hdoes.here_le hnot (by omega)
      have h₁ := h.act hdoes (by omega) (fun h => absurd h hnot) (by rintro x rfl; cases ha)
      exact ih h₁ (fun b hb => hbuilds b (List.mem_cons_of_mem _ hb)) (by omega)

end Extended

/-! ## Steps that extend the dictionary -/

/-- The hole that the next step leaves: `IF`, `WHILE` and `ELSE` compile a branch
and leave the cell behind it to be filled. -/
def newHoles (img : Image) (m : Machine) : List Cell :=
  match calledFun img m with
  | some .wIf | some .wWhile | some .wElse => [alignCell m.vm.data.dictHere + 8#64]
  | _ => []

/-- A step that extends the dictionary. A state comes with the holes that were
left on the way to it; blocks are only used if their buffers end below `lo`. -/
structure ExtendStep (img : Image) (lo : Nat) (s s' : Machine × List Cell) : Prop where
  step : step img s.1 = some s'.1
  holes : s'.2 = newHoles img s.1 ++ s.2
  stores : ∀ f, calledFun img s.1 = some f → f.stores = false
  blocks : ∀ f, calledFun img s.1 = some f → f.blocks = true → BuffersBelow img lo
  editor : ¬ AtEditorKey s.1
  allot : calledFun img s.1 = some .wAllot →
    s.1.vm.data.dictHere.toNat ≤ s'.1.vm.data.dictHere.toNat
  fills : ∀ f, calledFun img s.1 = some f → f.patches = true →
    s.1.vm.data.ds.headD 0#64 ∈ s.2
  room : s'.1.vm.data.dictHere.toNat ≤ dictVirtBase + dictSize

section Steps

variable {img : Image} {lo : Nat} {m : Machine} {s s' : Machine × List Cell} {d : Data}

theorem newHoles_le (htop : m.vm.data.dictHere.toNat + 64 < 2 ^ 64) {hole : Cell}
    (h : hole ∈ newHoles img m) : m.vm.data.dictHere.toNat ≤ hole.toNat := by
  have halign := alignCell_toNat (a := m.vm.data.dictHere) (by omega)
  unfold newHoles at h
  split at h
  case h_4 => cases h
  all_goals
    rw [List.mem_singleton] at h
    rw [h, BitVec.toNat_add, BitVec.toNat_ofNat]
    omega

/-- What holds of a state with its holes along an extension of `d`. -/
structure Extending (lo : Nat) (d : Data) (s : Machine × List Cell) : Prop where
  old : Extended lo d s.1.vm.data
  holes : ∀ hole ∈ s.2, d.dictHere.toNat ≤ hole.toNat
  room : s.1.vm.data.dictHere.toNat ≤ dictVirtBase + dictSize

theorem ExtendStep.extending (h : ExtendStep img lo s s') (hs : Extending lo d s) :
    Extending lo d s' := by
  have hdictTop : dictVirtBase + dictSize + 1024 < 2 ^ 64 := by decide
  have hroom := hs.room
  have hold := hs.old.here
  refine ⟨?_, ?_, h.room⟩
  · rcases step_acts h.step h.blocks h.stores h.editor (by omega) with
      ⟨hrun, hlen, hbuilds⟩ | ⟨hcalled, hdoes, -⟩ | ⟨hcalled, hpatches, hrun, hlen, hemits, hdoes⟩
    · exact hs.old.acts hrun hbuilds (by omega)
    · exact hs.old.act hdoes (by omega) (fun _ => h.allot hcalled) (by rintro x ⟨⟩)
    · rename_i f as d₁
      have hbuilds : ∀ a ∈ as, a.builds = true := by
        intro a ha
        rw [hemits a ha]
        rfl
      have hgrow := here_le_of_acts hrun (fun a ha => Act.builds_ne (hbuilds a ha)) (by omega)
      refine (hs.old.acts hrun hbuilds (by omega)).act hdoes (by omega) (by rintro ⟨⟩) ?_
      rintro x hx
      cases hx
      exact hs.holes _ (h.fills f hcalled hpatches)
  · intro hole hmem
    rw [h.holes] at hmem
    rcases List.mem_append.mp hmem with hnew | hmem
    · exact le_trans hold (newHoles_le (by omega) hnew)
    · exact hs.holes hole hmem

/-- The invariant of a run that extends the dictionary. -/
theorem extending_of_run (hroom : m.vm.data.dictHere.toNat ≤ dictVirtBase + dictSize)
    (hrun : Relation.ReflTransGen (ExtendStep img lo) (m, []) s) : Extending lo m.vm.data s := by
  induction hrun with
  | refl => exact ⟨.refl _, by simp, hroom⟩
  | tail _ hstep ih => exact hstep.extending ih

/-- **What was there stays as it was**: a run that extends the dictionary writes
nothing from `lo` up to the old `HERE`, but for the flags of the entry that was
the newest. -/
theorem old_memory_kept {m' : Machine} {holes : List Cell}
    (hroom : m.vm.data.dictHere.toNat ≤ dictVirtBase + dictSize)
    (hrun : Relation.ReflTransGen (ExtendStep img lo) (m, []) (m', holes)) :
    Extended lo m.vm.data m'.vm.data := (extending_of_run hroom hrun).old

/-! ## Old code -/

/-- The machine with the dictionary of `d`. -/
def Machine.withDict (m : Machine) (d : Data) : Machine :=
  m.setData { m.vm.data with mem := d.mem, dictHere := d.dictHere, dictLatest := d.dictLatest }

theorem Extended.machineAlike (h : Extended 0 d d') {c : Machine} (hc : c.vm.data.mem = d.mem) :
    MachineAlike d.dictHere.toNat (flagsAddr d) c (c.withDict d') := by
  refine ⟨_, d'.mem, c.vm.data.disk, d'.dictHere, d'.dictLatest, ?_, fun _ _ _ => rfl⟩
  rw [hc]
  exact fun x hx => h.kept x (Nat.zero_le _) hx

/-- **Old code runs as it did**: take a machine with the dictionary as it was, and
a run of it that reads only what lies below the old `HERE` and consults no name.
With the extended dictionary the same run is made, to the same stacks and the
same output, and it is stuck in the same places. -/
theorem old_code_runs_alike {m' c c' : Machine} {holes : List Cell}
    (hroom : m.vm.data.dictHere.toNat ≤ dictVirtBase + dictSize)
    (hrun : Relation.ReflTransGen (ExtendStep img 0) (m, []) (m', holes))
    (hc : c.vm.data.mem = m.vm.data.mem)
    (hvia : Via (step img) (Clear img m.vm.data.dictHere.toNat (flagsAddr m.vm.data)) c c') :
    ∃ n, Via (step img) (fun _ => True) (c.withDict m'.vm.data) n ∧
      MachineAlike m.vm.data.dictHere.toNat (flagsAddr m.vm.data) c' n ∧
      (Clear img m.vm.data.dictHere.toNat (flagsAddr m.vm.data) c' →
        (step img c' = none ↔ step img n = none)) := by
  have hstart := (extending_of_run hroom hrun).old.machineAlike hc
  have hstep := fun s t => @step_alike m.vm.data.dictHere.toNat (flagsAddr m.vm.data) img s t
  obtain ⟨n, hvia', hend⟩ := lockstep hstep hvia hstart
  exact ⟨n, hvia'.mono fun _ _ => trivial, hend, fun hclear => stuck_iff hstep hclear hend⟩

end Steps

/-! ## `CREATE` -/

section Create

variable {img : Image} {lo : Nat} {d d' : Data} {m m' : Machine} {rs : List Cell} {ip e : Cell}
  {F rest : List Frame} {w p name q : Text} {flags : Byte} {holes : List Cell} {f : CFun}

/-- A step of `forth_eval`. -/
theorem extendStep_eval (hframes : m.frames = .eval :: rest) (hstep : step img m = some m')
    (hroom : m'.vm.data.dictHere.toNat ≤ dictVirtBase + dictSize) :
    ExtendStep img lo (m, holes) (m', holes) := by
  have hcalled : calledFun img m = none := by
    rw [calledFun, hframes]
  have hholes : newHoles img m = [] := by
    rw [newHoles, hcalled]
  refine ⟨hstep, by rw [hholes]; rfl, ?_, ?_, ?_, ?_, ?_, hroom⟩
  · exact fun f hf => absurd (hcalled.symm.trans hf) (by simp)
  · exact fun f hf => absurd (hcalled.symm.trans hf) (by simp)
  · rintro ⟨blk, n, cursor, hhead⟩
    rw [hframes] at hhead
    cases hhead
  · exact fun hf => absurd (hcalled.symm.trans hf) (by simp)
  · exact fun f hf => absurd (hcalled.symm.trans hf) (by simp)

/-- A step that executes `CREATE`. -/
theorem extendStep_create (hframes : m.frames = .execute e :: rest)
    (hcalled : calledFun img m = some .wCreate) (hstep : step img m = some m')
    (hroom : m'.vm.data.dictHere.toNat ≤ dictVirtBase + dictSize) :
    ExtendStep img lo (m, holes) (m', holes) := by
  have hholes : newHoles img m = [] := by
    rw [newHoles, hcalled]
  have hword : ∀ f, calledFun img m = some f → f = .wCreate := by
    intro f hf
    rw [hcalled] at hf
    exact (Option.some.inj hf).symm
  refine ⟨hstep, by rw [hholes]; rfl, ?_, ?_, ?_, ?_, ?_, hroom⟩
  · intro f hf
    rw [hword f hf]
    rfl
  · intro f hf hblocks
    rw [hword f hf] at hblocks
    cases hblocks
  · rintro ⟨blk, n, cursor, hhead⟩
    rw [hframes] at hhead
    cases hhead
  · exact fun hf => absurd (hword _ hf) (by decide)
  · intro f hf hpatches
    rw [hword f hf] at hpatches
    cases hpatches

/-- `CREATE` and a name extend the dictionary. -/
theorem extend_create (h : Finds img d w .wCreate flags e) (hmode : d.forthState = .interpret)
    (hlex : nextWord 64 d.parsePtr = (w, p)) (hw : w ≠ []) (hname : nextWord 64 p = (name, q))
    (hne : name ≠ []) (htop : d.dictHere.toNat + 64 ≤ dictVirtBase + dictSize)
    (hd' : ((d.at q).dictCreate name 0#8).dictSetCode (img.addr .doVariable) = d') :
    Relation.ReflTransGen (ExtendStep img lo) (m.conf d rs ip (.eval :: F), holes)
      (m.conf d' rs ip (.eval :: F), holes) := by
  have hdictTop : dictVirtBase + dictSize + 1024 < 2 ^ 64 := by decide
  have hdoes : Does lo (d.at q) .entry
      (((d.at q).dictCreate name 0#8).dictSetCode (img.addr .doVariable)) :=
    does_create (by rw [at_dictHere]; omega)
  have hgrow := hdoes.here_le Act.noConfusion (by rw [at_dictHere]; omega)
  rw [at_dictHere, hd'] at hgrow
  have hrun : (wCreate img).run (d.at p) = some ((), d') := by
    rw [← hd']
    exact wCreate_run hname hne
  obtain ⟨hfound, hcall⟩ := @step_eval_calls img d p m rs ip e F w hlex hw h.find
    (ne_zero_of_base_le h.low) (Or.inl hmode) _ _ _ h.code rfl hrun
  have hcalled : calledFun img (m.conf (d.at p) rs ip (.execute e :: .eval :: F)) = some .wCreate := by
    show img.decode (cellAt d.mem (dictGetCodeField d.mem e)) = _
    rw [h.code, img.decode_addr]
  have hhere : (d.at p).dictHere.toNat ≤ dictVirtBase + dictSize := by
    rw [at_dictHere]
    omega
  exact .tail (.single (extendStep_eval rfl hfound hhere))
    (extendStep_create rfl hcalled hcall (le_trans hgrow.2 htop))

end Create

/-- The dictionary of `s` after `CREATE A`. -/
def withA (img : Image) (s : Data) : Data :=
  ((s.at (text " CREATE B")).dictCreate [chr 'A'] 0#8).dictSetCode (img.addr .doVariable)

/-- And after `CREATE B`. -/
def withB (img : Image) (s : Data) : Data :=
  (((withA img s).at []).dictCreate [chr 'B'] 0#8).dictSetCode (img.addr .doVariable)

/-- The machine that is about to do `F` with the dictionary of `d`. -/
def createdMachine (d : Data) (F : List Frame) : Machine where
  vm := { data := d, rs := [], ip := 0#64 }
  frames := F
  kbd := []
  inputBuffer := []

/-- What `CREATE A` leaves behind. -/
structure HasA (img : Image) (d : Data) : Prop where
  code : cellAt d.mem (dictGetCodeField d.mem d.dictLatest) = img.addr .doVariable
  field : (dictGetCodeField d.mem d.dictLatest).toNat = d.dictLatest.toNat + 16
  here : d.dictHere.toNat = d.dictLatest.toNat + 24
  room : d.dictHere.toNat + 64 ≤ dictVirtBase + dictSize
  mode : d.forthState = .interpret
  parse : d.parsePtr = text " CREATE B"
  create : ∃ e, Finds img d (text "CREATE") .wCreate 0#8 e

theorem hasA {img : Image} {s : Data} {words : Words} {P : Set Nat} (hd : AtPrompt img words P s)
    (htop : s.dictHere.toNat ≤ dictVirtBase + 64 * 128)
    (hfound : ∃ e, Finds img s (text "CREATE") .wCreate 0#8 e) : HasA img (withA img s) := by
  obtain ⟨e, hcreate⟩ := hfound
  have hdictTop : dictVirtBase + 64 * 128 + 1024 < dictVirtBase + dictSize := by decide
  have hbound : dictVirtBase + dictSize + 1024 < 2 ^ 64 := by decide
  have halign := alignCell_toNat (a := s.dictHere) (by omega)
  obtain ⟨hcreated, hname, hhere⟩ := created_letter (d := s.at (text " CREATE B")) (c := chr 'A')
    (img.addr .doVariable) (by rw [at_dictHere]; omega)
  rw [at_dictHere] at hhere hname hcreated
  unfold withA
  generalize hdef : ((s.at (text " CREATE B")).dictCreate [chr 'A'] 0#8).dictSetCode
    (img.addr .doVariable) = d at hcreated hname hhere
  have hfinds := (hcreate.at _).created (hd.at _) hcreated (by rw [at_dictHere]; omega) hname
    (by decide) rfl rfl (by omega)
  have hfieldTop := hcreated.top
  have hcode := hcreated.code
  obtain ⟨hlatest, hmode, hparse⟩ : d.dictLatest = alignCell s.dictHere ∧
      d.forthState = .interpret ∧ d.parsePtr = text " CREATE B" := by
    obtain ⟨m, here, hsame⟩ := hcreated.same
    rw [hsame]
    exact ⟨rfl, hd.mode, rfl⟩
  rw [← hlatest] at hcode hfieldTop hhere halign
  exact ⟨hcode, by omega, hhere, by omega, hmode, hparse, e, hfinds⟩

theorem entryReads_variable {img : Image} (vm : Vm) {e : Cell}
    (h : img.decode (cellAt vm.data.mem (dictGetCodeField vm.data.mem e)) = some .doVariable) :
    entryReads img vm e = cellBytes (dictGetCodeField vm.data.mem e) := by
  unfold entryReads
  rw [h]
  exact Set.union_empty _

theorem hasA_startup (img : Image) : HasA img (withA img (startup img)) := by
  obtain ⟨words, P, hd, htop, hfound, -⟩ := startup_spec img
  exact hasA hd htop (hfound (text "CREATE") _ rfl)

theorem HasA.extend {img : Image} {s : Data} (h : HasA img (withA img s)) (F : List Frame) :
    Relation.ReflTransGen (ExtendStep img 0) (createdMachine (withA img s) (.eval :: F), [])
      (createdMachine (withB img s) (.eval :: F), []) := by
  obtain ⟨e, hfinds⟩ := h.create
  have hlex : nextWord 64 (withA img s).parsePtr = (text "CREATE", text " B") := by
    rw [h.parse]
    rfl
  have hname : nextWord 64 (text " B") = ([chr 'B'], []) := rfl
  exact extend_create (m := createdMachine (withA img s) []) hfinds h.mode hlex (by decide) hname
    (by simp) h.room rfl

theorem HasA.clear {img : Image} {d : Data} (h : HasA img d) (F : List Frame) :
    Clear img d.dictHere.toNat (flagsAddr d) (createdMachine d (.execute d.dictLatest :: F)) := by
  have hhere := h.here
  have hroom := h.room
  have hbound : dictVirtBase + dictSize + 1024 < 2 ^ 64 := by decide
  have hflags : flagsAddr d = d.dictLatest.toNat + 8 := by
    rw [flagsAddr, BitVec.toNat_add, BitVec.toNat_ofNat]
    omega
  have hfield := h.field
  have hdecode : img.decode (cellAt d.mem (dictGetCodeField d.mem d.dictLatest)) =
      some .doVariable := by
    rw [h.code, img.decode_addr]
  refine ⟨?_, ?_, ?_, by rintro ⟨⟩⟩
  · have hreads : entryReads img ⟨d, [], 0#64⟩ d.dictLatest =
        cellBytes (dictGetCodeField d.mem d.dictLatest) := entryReads_variable ⟨d, [], 0#64⟩ hdecode
    show Shared _ _ (entryReads img ⟨d, [], 0#64⟩ d.dictLatest)
    rw [hreads, hflags]
    intro x hx
    obtain ⟨hlow, hhigh⟩ := Set.mem_Ico.mp hx
    omega
  · rintro entry ⟨⟩
    show flagsAddr d < _
    omega
  · intro f hf
    cases hdecode.symm.trans hf
    rfl

theorem old_memory_kept_created :
    Extended 0 (withA linearImage (startup linearImage)) (withB linearImage (startup linearImage)) := by
  have h := hasA_startup linearImage
  have hrun := h.extend []
  generalize withB linearImage (startup linearImage) = d' at *
  generalize withA linearImage (startup linearImage) = d at *
  exact old_memory_kept (le_trans (Nat.le_add_right _ 64) h.room) hrun

/-- `A` still pushes its address when `B` has been created. -/
theorem old_code_runs_alike_created : ∃ a n d, d = withA linearImage (startup linearImage) ∧
    Via (step linearImage) (fun _ => True) ((createdMachine d [.execute d.dictLatest, .repl]).withDict
      (withB linearImage (startup linearImage))) n ∧
    MachineAlike d.dictHere.toNat (flagsAddr d) (createdMachine (d.dsPush a) [.repl]) n := by
  have h := hasA_startup linearImage
  have hrun := h.extend []
  generalize withB linearImage (startup linearImage) = d' at *
  generalize withA linearImage (startup linearImage) = d at *
  have hstep : step linearImage (createdMachine d [.execute d.dictLatest, .repl]) =
      some (createdMachine (d.dsPush (dictGetParamField d.mem d.dictLatest)) [.repl]) := by
    refine (step_execute_other (m := createdMachine d []) h.code ?_).trans callCode_variable
    exact fun h => by cases linearImage.addr_inj h
  obtain ⟨n, hvia, hend, -⟩ := old_code_runs_alike (le_trans (Nat.le_add_right _ 64) h.room) hrun
    (c := createdMachine d [.execute d.dictLatest, .repl]) rfl (Via.single (h.clear _) hstep)
  exact ⟨_, n, d, rfl, hvia, hend⟩

end VectorForth.Forth
