import VectorForth.Vm.Growth
import VectorForth.Vm.Startup

/-!
# Lookup and the history of definitions

`dict_find` against the history of the dictionary: the names as they were given,
newest first. `dict_create` keeps 31 characters of a name, `dict_find` compares
all characters of the name it looks for. So a lookup finds the newest definition
of a name as long as nothing beyond the 31st character decides.
-/

namespace VectorForth.Forth

open ByteMemory LabelledRun

/-! ## Histories -/

/-- A definition: the name it was given, its entry, and whether it is hidden. -/
structure Definition where
  name : Text
  entry : Cell
  hidden : Bool

/-- Equal up to ASCII case. -/
def sameName (a b : Text) : Bool := a.map toUpper == b.map toUpper

/-- The entry of the newest visible definition that `p` accepts, or 0. -/
def newestBy (p : Text → Bool) (defs : List Definition) : Cell :=
  ((defs.find? fun k => !k.hidden && p k.name).map (·.entry)).getD 0#64

/-- What lookup is meant to find: the newest visible definition of that name. -/
def newest (defs : List Definition) (name : Text) : Cell :=
  newestBy (fun given => sameName given name) defs

/-- The dictionary with its history, newest definition first. -/
structure Book where
  data : Data
  defs : List Definition

inductive DictOp
  | primitive (p : Primitive)
  | colon (name : Text)
  | create (name : Text)
  | var (name : Text)
  | const (name : Text)
  | semicolon
  | immediate
  | other

/-- The bytes of a header that lookup reads. -/
def headerBytes (m : Mem) (e : Cell) : Set Nat :=
  Set.Ico e.toNat (e.toNat + 9 + (dictGetNameLen m e).toNat)

/-- One step of the history. `.other` is whatever leaves the headers alone:
compiling, `ALLOT` above the newest header, stores elsewhere. -/
inductive DictStep (img : Image) : Book → DictOp → Book → Prop
  | primitive {d : Data} {defs : List Definition} {p : Primitive} (hp : Plain p) :
      DictStep img ⟨d, defs⟩ (.primitive p) ⟨d.dictAddPrimitive img p.name p.fn p.flags,
        ⟨text p.name, alignCell d.dictHere, false⟩ :: defs⟩
  | colon {d d' : Data} {defs : List Definition} {name p : Text}
      (hlex : nextWord 64 d.parsePtr = (name, p)) (hname : name ≠ [])
      (hrun : (wColon img).run d = some ((), d')) :
      DictStep img ⟨d, defs⟩ (.colon name) ⟨d', ⟨name, alignCell d.dictHere, true⟩ :: defs⟩
  | create {d d' : Data} {defs : List Definition} {name p : Text}
      (hlex : nextWord 64 d.parsePtr = (name, p)) (hname : name ≠ [])
      (hrun : (wCreate img).run d = some ((), d')) :
      DictStep img ⟨d, defs⟩ (.create name) ⟨d', ⟨name, alignCell d.dictHere, false⟩ :: defs⟩
  | var {d d' : Data} {defs : List Definition} {name p : Text}
      (hlex : nextWord 64 d.parsePtr = (name, p)) (hname : name ≠ [])
      (hrun : (wVariable img).run d = some ((), d')) :
      DictStep img ⟨d, defs⟩ (.var name) ⟨d', ⟨name, alignCell d.dictHere, false⟩ :: defs⟩
  | const {d d' : Data} {defs : List Definition} {name p : Text}
      (hlex : nextWord 64 d.parsePtr = (name, p)) (hname : name ≠ [])
      (hrun : (wConstant img).run d = some ((), d')) :
      DictStep img ⟨d, defs⟩ (.const name) ⟨d', ⟨name, alignCell d.dictHere, false⟩ :: defs⟩
  | semicolon {d d' : Data} {k : Definition} {defs : List Definition}
      (hrun : wSemicolon.run d = some ((), d')) :
      DictStep img ⟨d, k :: defs⟩ .semicolon ⟨d', { k with hidden := false } :: defs⟩
  | immediate {d d' : Data} {defs : List Definition}
      (hrun : wImmediate.run d = some ((), d')) : DictStep img ⟨d, defs⟩ .immediate ⟨d', defs⟩
  | other {d d' : Data} {defs : List Definition} (hlatest : d'.dictLatest = d.dictLatest)
      (hheaders : ∀ k ∈ defs, Set.EqOn d'.mem d.mem (headerBytes d.mem k.entry))
      (hlow : dictVirtBase ≤ d'.dictHere.toNat)
      (habove : ∀ k ∈ defs, ∀ y ∈ headerBytes d.mem k.entry, y < d'.dictHere.toNat) :
      DictStep img ⟨d, defs⟩ .other ⟨d', defs⟩

/-- A step whose entries and cells fit into the dictionary. -/
def FitStep (img : Image) (s : Book) (op : DictOp) (t : Book) : Prop :=
  DictStep img s op t ∧ t.data.dictHere.toNat ≤ dictVirtBase + dictSize

/-! ## The chain of entries is the history -/

/-- The entries from `e` on are those of `defs`, all below `hi`. An entry holds
the first 31 characters of its name. -/
inductive Recorded (m : Mem) : Nat → Cell → List Definition → Prop
  | nil {hi : Nat} : Recorded m hi 0#64 []
  | cons {hi : Nat} {k : Definition} {defs : List Definition} :
      dictVirtBase ≤ k.entry.toNat →
      k.entry.toNat + 9 + (dictGetNameLen m k.entry).toNat ≤ hi →
      (k.hidden = false ↔ dictGetFlagsLen m k.entry &&& fHidden = 0#8) →
      dictGetName m k.entry = k.name.take 31 →
      Recorded m k.entry.toNat (cellAt m k.entry) defs → Recorded m hi k.entry (k :: defs)

section Recorded

variable {m m' : Mem} {hi : Nat} {e : Cell} {k : Definition} {defs : List Definition}

theorem Recorded.mono {hi' : Nat} (h : Recorded m hi e defs) (hle : hi ≤ hi') :
    Recorded m hi' e defs := by
  cases h with
  | nil => exact .nil
  | cons hbase htop hhidden hname hrest => exact .cons hbase (by omega) hhidden hname hrest

theorem Recorded.chain (h : Recorded m hi e defs) : Chain m hi defs.length e := by
  induction h with
  | nil => exact .nil
  | cons hbase htop _ _ _ ih => exact .cons hbase htop ih

/-- Every header lies below the end of the history. -/
theorem Recorded.header_lt (h : Recorded m hi e defs) (hk : k ∈ defs) :
    dictVirtBase ≤ k.entry.toNat ∧ ∀ y ∈ headerBytes m k.entry, y < hi := by
  induction h with
  | nil => cases hk
  | cons hbase htop _ _ _ ih =>
      rcases List.mem_cons.mp hk with rfl | hk
      · refine ⟨hbase, ?_⟩
        rintro y ⟨-, hy⟩
        omega
      · obtain ⟨hlow, hall⟩ := ih hk
        refine ⟨hlow, ?_⟩
        rintro y hy
        have := hall y hy
        omega

theorem headerBytes_congr (hm : Set.EqOn m' m (headerBytes m e))
    (htop : e.toNat + 9 < 2 ^ 64) :
    cellAt m' e = cellAt m e ∧ dictGetFlagsLen m' e = dictGetFlagsLen m e ∧
      dictGetName m' e = dictGetName m e := by
  have hflags : dictGetFlagsLen m' e = dictGetFlagsLen m e := by
    apply hm
    rw [headerBytes, Set.mem_Ico, BitVec.toNat_add, BitVec.toNat_ofNat]
    omega
  have hlen : dictGetNameLen m' e = dictGetNameLen m e := by
    rw [dictGetNameLen, dictGetNameLen, hflags]
  refine ⟨?_, hflags, ?_⟩
  · rw [cellAt, cellAt, read64_congr]
    intro x hx hx'
    apply hm
    rw [headerBytes, Set.mem_Ico]
    omega
  · rw [dictGetName, dictGetName, hlen]
    apply List.map_congr_left
    intro i hi
    rw [List.mem_range] at hi
    apply hm
    rw [headerBytes, Set.mem_Ico, BitVec.toNat_add, BitVec.toNat_ofNat]
    omega

/-- A memory with the same headers holds the same history. -/
theorem Recorded.congr {hi' : Nat} (h : Recorded m hi e defs) (hhi : hi < 2 ^ 64)
    (hm : ∀ k ∈ defs, Set.EqOn m' m (headerBytes m k.entry))
    (hle : ∀ k ∈ defs, ∀ y ∈ headerBytes m k.entry, y < hi') : Recorded m' hi' e defs := by
  induction h generalizing hi' with
  | nil => exact .nil
  | @cons hi k defs hbase htop hhidden hname hrest ih =>
      have hk : k ∈ k :: defs := List.mem_cons_self ..
      obtain ⟨hlink, hflags, hname'⟩ := headerBytes_congr (hm k hk) (by omega)
      have hlast : k.entry.toNat + 8 + (dictGetNameLen m k.entry).toNat < hi' := by
        apply hle k hk
        rw [headerBytes, Set.mem_Ico]
        omega
      refine .cons hbase ?_ ?_ ?_ ?_
      · rw [dictGetNameLen, hflags, ← dictGetNameLen]
        omega
      · rw [hflags]
        exact hhidden
      · rw [hname']
        exact hname
      · rw [hlink]
        refine ih (by omega) (fun k' hk' => hm k' (List.mem_cons_of_mem _ hk')) ?_
        intro k' hk' y hy
        exact (hrest.header_lt hk').2 y hy

theorem Recorded.congr_below (h : Recorded m hi e defs) (hhi : hi < 2 ^ 64)
    (hm : ∀ y, y < hi → m' y = m y) : Recorded m' hi e defs :=
  h.congr hhi (fun _ hk y hy => hm y ((h.header_lt hk).2 y hy)) fun _ hk => (h.header_lt hk).2

/-- The flag bits of the newest entry are changed. -/
theorem Recorded.reflag {b : Byte} {hidden : Bool} (h : Recorded m hi e (k :: defs))
    (hhi : hi < 2 ^ 64) (hlen : b &&& fLenmask = dictGetNameLen m e)
    (hhidden : hidden = false ↔ b &&& fHidden = 0#8) :
    Recorded (write8 m (e + 8#64).toNat b) hi e ({ k with hidden := hidden } :: defs) := by
  cases h with
  | cons hbase htop _ hname hrest =>
      have haddr : (k.entry + 8#64).toNat = k.entry.toNat + 8 := by
        rw [BitVec.toNat_add, BitVec.toNat_ofNat]
        omega
      have hflags : dictGetFlagsLen (write8 m (k.entry + 8#64).toNat b) k.entry = b :=
        write8_same _ _ _
      have hlen' : dictGetNameLen (write8 m (k.entry + 8#64).toNat b) k.entry =
          dictGetNameLen m k.entry := by
        rw [dictGetNameLen, hflags, hlen]
      have hout : ∀ y, y ≠ k.entry.toNat + 8 → write8 m (k.entry + 8#64).toNat b y = m y :=
        fun y hy => write8_outside (by omega)
      have hlink : cellAt (write8 m (k.entry + 8#64).toNat b) k.entry = cellAt m k.entry := by
        rw [cellAt, cellAt, read64_congr]
        intro y _ hy
        exact hout y (by omega)
      have hname' : dictGetName (write8 m (k.entry + 8#64).toNat b) k.entry =
          dictGetName m k.entry := by
        rw [dictGetName, dictGetName, hlen']
        apply List.map_congr_left
        intro i hi'
        rw [List.mem_range] at hi'
        apply hout
        rw [BitVec.toNat_add, BitVec.toNat_ofNat]
        omega
      refine .cons (k := { k with hidden := hidden }) hbase ?_ ?_ ?_ ?_
      · rw [hlen']
        exact htop
      · rw [hflags]
        exact hhidden
      · exact hname'.trans hname
      · dsimp only
        rw [hlink]
        exact hrest.congr_below (by omega) fun y hy => hout y (by omega)

/-! ## What `dict_find` finds -/

/-- The walk finds the newest visible entry whose stored name matches. -/
theorem Recorded.find (h : Recorded m hi e defs) (name : Text) {fuel : Nat}
    (hfuel : defs.length < fuel) :
    dictFindFrom m name fuel e =
      some (newestBy (fun given => sameName (given.take 31) name) defs) := by
  induction h generalizing fuel with
  | nil =>
      obtain ⟨n, rfl⟩ := Nat.exists_eq_add_of_lt hfuel
      rfl
  | @cons hi k defs hbase htop hhidden hname hrest ih =>
      obtain ⟨n, rfl⟩ := Nat.exists_eq_succ_of_ne_zero (Nat.ne_of_gt (Nat.zero_lt_of_lt hfuel))
      rw [List.length_cons] at hfuel
      rw [dictFindFrom, if_neg (ne_zero_of_base_le hbase), nameMatches, hname, ih (by omega),
        newestBy, newestBy, List.find?_cons]
      cases hvisible : k.hidden with
      | false =>
          cases hmatch : sameName (k.name.take 31) name with
          | true => rw [if_pos ⟨hhidden.mp hvisible, hmatch⟩]; rfl
          | false =>
              rw [if_neg]
              · rfl
              · rintro ⟨-, hfound⟩
                rw [sameName] at hmatch
                rw [hmatch] at hfound
                cases hfound
      | true =>
          rw [if_neg]
          · rfl
          · rintro ⟨hflag, -⟩
            rw [hhidden.mpr hflag] at hvisible
            cases hvisible

end Recorded

/-! ## Steps of the history -/

section Steps

variable {img : Image} {d d' : Data} {defs : List Definition} {name p : Text}

/-- The dictionary holds its history. -/
structure Book.Holds (s : Book) : Prop where
  recorded : Recorded s.data.mem s.data.dictHere.toNat s.data.dictLatest s.defs
  low : dictVirtBase ≤ s.data.dictHere.toNat
  high : s.data.dictHere.toNat ≤ dictVirtBase + dictSize

/-- A new header above the old ones. -/
theorem Book.Holds.entry (h : Book.Holds ⟨d, defs⟩) (hname : name.length < 256) (p : Text)
    (flags : Byte) (code : Cell) {hidden : Bool} (hhidden : hidden = false ↔ flags &&& fHidden = 0#8)
    (hd' : d' = ((d.at p).dictCreate name flags).dictSetCode code) :
    Recorded d'.mem d'.dictHere.toNat d'.dictLatest
        (⟨name, alignCell d.dictHere, hidden⟩ :: defs) ∧
      dictVirtBase ≤ d'.dictHere.toNat ∧ d'.dictHere.toNat ≤ d.dictHere.toNat + 62 := by
  obtain ⟨hrec, hlow, hhigh⟩ := h
  dsimp only at hrec hlow hhigh
  have hdictTop : dictVirtBase + dictSize + 1024 < 2 ^ 64 := by decide
  have halign := alignCell_toNat (a := d.dictHere) (by omega)
  have hcreated : Created (d.at p) d' (alignCell d.dictHere) code flags := by
    rw [hd']
    exact dictCreate_spec (d := d.at p) (by rw [at_dictHere]; omega)
  have hstored : dictGetName d'.mem (alignCell d.dictHere) = name.take 31 := by
    rw [hd']
    exact dictCreate_stores (d := d.at p) (by rw [at_dictHere]; omega) hname
  generalize alignCell d.dictHere = e at halign hcreated hstored ⊢
  obtain ⟨hfieldLow, hfieldHigh⟩ := hcreated.field
  have htop := hcreated.top
  have hlatest : d'.dictLatest = e := by
    obtain ⟨m, here, hsame⟩ := hcreated.same
    rw [hsame]
  refine ⟨?_, by omega, by omega⟩
  rw [hlatest]
  refine .cons (k := ⟨name, e, hidden⟩) (by dsimp only; omega) (by dsimp only; omega) ?_ hstored ?_
  · dsimp only
    rw [hcreated.flags_eq.1]
    exact hhidden
  · dsimp only
    rw [hcreated.link]
    refine (hrec.congr_below (by omega) fun y hy => ?_).mono (by omega)
    exact hcreated.frame y (by omega)

/-- A cell is compiled above the headers. -/
theorem Recorded.comma {v : Cell} (h : Recorded d.mem d.dictHere.toNat d.dictLatest defs)
    (htop : d.dictHere.toNat + 32 < 2 ^ 64) :
    Recorded (d.dictComma v).mem (d.dictComma v).dictHere.toNat (d.dictComma v).dictLatest defs ∧
      d.dictHere.toNat ≤ (d.dictComma v).dictHere.toNat := by
  have halign := alignCell_toNat (a := d.dictHere) (by omega)
  have hhere : (d.dictComma v).dictHere.toNat = (alignCell d.dictHere).toNat + 8 := by
    have hcomma : (d.dictComma v).dictHere = alignCell d.dictHere + 8#64 := rfl
    rw [hcomma, BitVec.toNat_add, BitVec.toNat_ofNat]
    omega
  refine ⟨?_, by omega⟩
  have hkept : Recorded (d.dictComma v).mem d.dictHere.toNat d.dictLatest defs := by
    refine h.congr_below (by omega) fun y hy => ?_
    have hmem : (d.dictComma v).mem = write64 d.mem (alignCell d.dictHere).toNat v.toNat := rfl
    rw [hmem, write64_outside (by omega)]
  exact hkept.mono (by omega)

/-- `dict_add_primitive`, `:` and `CREATE` add a header. -/
theorem Book.Holds.header (h : Book.Holds ⟨d, defs⟩) (hname : name.length < 256)
    {flags : Byte} {code : Cell} {hidden : Bool} (hhidden : hidden = false ↔ flags &&& fHidden = 0#8)
    (hd' : SameDict (((d.at p).dictCreate name flags).dictSetCode code) d')
    (hfits : d'.dictHere.toNat ≤ dictVirtBase + dictSize) :
    Book.Holds ⟨d', ⟨name, alignCell d.dictHere, hidden⟩ :: defs⟩ := by
  obtain ⟨hrec, hlow, -⟩ := h.entry hname p flags code hhidden rfl
  obtain ⟨hhere, hlatest, hmem⟩ := hd'
  rw [← hhere, ← hlatest, ← hmem] at hrec
  rw [← hhere] at hlow
  exact ⟨hrec, hlow, hfits⟩

/-- `VARIABLE` and `CONSTANT` add a header and a cell. -/
theorem Book.Holds.headerCell (h : Book.Holds ⟨d, defs⟩) (hname : name.length < 256)
    {flags : Byte} {code v : Cell} {hidden : Bool}
    (hhidden : hidden = false ↔ flags &&& fHidden = 0#8) {d₁ : Data}
    (hd₁ : SameDict (((d.at p).dictCreate name flags).dictSetCode code) d₁)
    (hd' : d' = d₁.dictComma v) (hfits : d'.dictHere.toNat ≤ dictVirtBase + dictSize) :
    Book.Holds ⟨d', ⟨name, alignCell d.dictHere, hidden⟩ :: defs⟩ := by
  have hdictTop : dictVirtBase + dictSize + 1024 < 2 ^ 64 := by decide
  have hhigh := h.high
  obtain ⟨hrec, hlow, htop⟩ := h.entry hname p flags code hhidden rfl
  obtain ⟨hhere, hlatest, hmem⟩ := hd₁
  rw [← hhere, ← hlatest, ← hmem] at hrec
  rw [← hhere] at hlow htop
  dsimp only at hhigh
  obtain ⟨hrec', hle⟩ := hrec.comma (v := v) (by omega)
  subst hd'
  exact ⟨hrec', by dsimp only; omega, hfits⟩

theorem wVariable_run (hlex : nextWord 64 d.parsePtr = (name, p)) (hname : name ≠ []) :
    (wVariable img).run d =
      some ((), (((d.at p).dictCreate name 0#8).dictSetCode (img.addr .doVariable)).dictComma
        0#64) := by
  have hbind : (wVariable img).run d =
      ((wCreate img).run d).bind fun r => some ((), r.2.dictComma 0#64) := rfl
  rw [hbind, wCreate_run hlex hname]
  rfl

theorem wConstant_run (hlex : nextWord 64 d.parsePtr = (name, p)) (hname : name ≠ []) :
    (wConstant img).run d =
      some ((), (((d.at p).dictCreate name 0#8).dictSetCode (img.addr .doConstant)).dsPop.2.dictComma
        (((d.at p).dictCreate name 0#8).dictSetCode (img.addr .doConstant)).dsPop.1) := by
  have hnamed : (wConstant img).run d = (parseWord 64 >>= fun name =>
      if name = [] then return () else (modify (·.dictCreate name 0#8) >>= fun _ =>
        modify (·.dictSetCode (img.addr .doConstant)) >>= fun _ =>
          dsPop >>= fun v => modify (·.dictComma v)) : NativeM Unit).run d := rfl
  rw [hnamed, named_run, hlex, if_neg hname]
  rfl

/-- The hidden flag and the name length after `;` and after `IMMEDIATE`. -/
theorem revealed_flags (b : Byte) :
    (b &&& ~~~fHidden) &&& fLenmask = b &&& fLenmask ∧ (b &&& ~~~fHidden) &&& fHidden = 0#8 := by
  revert b
  decide

theorem immediate_flags (b : Byte) :
    (b ^^^ fImmediate) &&& fLenmask = b &&& fLenmask ∧
      (b ^^^ fImmediate) &&& fHidden = b &&& fHidden := by
  revert b
  decide

theorem Recorded.hidden_iff {m : Mem} {hi : Nat} {e : Cell} {k : Definition}
    (h : Recorded m hi e (k :: defs)) :
    k.entry = e ∧ (k.hidden = false ↔ dictGetFlagsLen m e &&& fHidden = 0#8) := by
  cases h with
  | cons _ _ hhidden _ _ => exact ⟨rfl, hhidden⟩

/-- `;` compiles a cell and reveals the newest definition. -/
theorem Book.Holds.semicolon {k : Definition} (h : Book.Holds ⟨d, k :: defs⟩)
    (hrun : wSemicolon.run d = some ((), d'))
    (hfits : d'.dictHere.toNat ≤ dictVirtBase + dictSize) :
    Book.Holds ⟨d', { k with hidden := false } :: defs⟩ := by
  have hdictTop : dictVirtBase + dictSize + 1024 < 2 ^ 64 := by decide
  obtain ⟨hrec, hlow, hhigh⟩ := h
  dsimp only at hrec hlow hhigh
  obtain ⟨hcomma, hle⟩ := hrec.comma (v := sentinelExit) (by omega)
  rw [wSemicolon_run] at hrun
  cases hrun
  obtain ⟨hlen, hvisible⟩ := revealed_flags
    (dictGetFlagsLen (d.dictComma sentinelExit).mem (d.dictComma sentinelExit).dictLatest)
  have hfits' : (d.dictComma sentinelExit).dictHere.toNat ≤ dictVirtBase + dictSize := hfits
  refine ⟨?_, le_trans hlow hle, hfits⟩
  exact hcomma.reflag (by omega) hlen ⟨fun _ => hvisible, fun _ => rfl⟩

/-- `IMMEDIATE` changes another flag of the newest definition. -/
theorem Book.Holds.immediate (h : Book.Holds ⟨d, defs⟩) (hrun : wImmediate.run d = some ((), d')) :
    Book.Holds ⟨d', defs⟩ := by
  have hdictTop : dictVirtBase + dictSize + 1024 < 2 ^ 64 := by decide
  have hmodify : wImmediate.run d = some ((), if d.dictLatest ≠ 0#64 then
      d.setByte (d.dictLatest + 8#64) (dictGetFlagsLen d.mem d.dictLatest ^^^ fImmediate) else d) :=
    rfl
  rw [hmodify] at hrun
  cases hrun
  split
  · rename_i hne
    obtain ⟨hrec, hlow, hhigh⟩ := h
    dsimp only at hrec hlow hhigh
    refine ⟨?_, hlow, hhigh⟩
    cases defs with
    | nil =>
        dsimp only at hrec ⊢
        generalize d.dictLatest = e at hrec hne
        cases hrec
        exact absurd rfl hne
    | cons k defs =>
        obtain ⟨-, hhidden⟩ := hrec.hidden_iff
        obtain ⟨hlen, hflag⟩ := immediate_flags (dictGetFlagsLen d.mem d.dictLatest)
        exact hrec.reflag (by omega) hlen (by rw [hflag]; exact hhidden)
  · exact h

/-- **A step keeps the history in the dictionary.** -/
theorem DictStep.holds {s t : Book} {op : DictOp} (hstep : DictStep img s op t)
    (hfits : t.data.dictHere.toNat ≤ dictVirtBase + dictSize) (h : s.Holds) : t.Holds := by
  cases hstep with
  | @primitive d defs q hp =>
      exact h.header (p := d.parsePtr) (by have := hp.1; omega) (by simp [hp.2]) ⟨rfl, rfl, rfl⟩ hfits
  | colon hlex hname hrun =>
      rw [wColon_run hlex hname] at hrun
      cases hrun
      have hlen := length_nextWord hlex
      exact h.header (by omega) (by decide) ⟨rfl, rfl, rfl⟩ hfits
  | create hlex hname hrun =>
      rw [wCreate_run hlex hname] at hrun
      cases hrun
      have hlen := length_nextWord hlex
      exact h.header (by omega) (by decide) ⟨rfl, rfl, rfl⟩ hfits
  | var hlex hname hrun =>
      rw [wVariable_run hlex hname] at hrun
      cases hrun
      have hlen := length_nextWord hlex
      exact h.headerCell (by omega) (by decide) ⟨rfl, rfl, rfl⟩ rfl hfits
  | const hlex hname hrun =>
      rw [wConstant_run hlex hname] at hrun
      cases hrun
      have hlen := length_nextWord hlex
      exact h.headerCell (by omega) (by decide) (sameDict_dsPop _) rfl hfits
  | semicolon hrun => exact h.semicolon hrun hfits
  | immediate hrun => exact h.immediate hrun
  | other hlatest hheaders hlow habove =>
      have hdictTop : dictVirtBase + dictSize + 1024 < 2 ^ 64 := by decide
      obtain ⟨hrec, -, hhigh⟩ := h
      dsimp only at hrec hhigh hfits
      refine ⟨?_, hlow, hfits⟩
      dsimp only
      rw [hlatest]
      exact hrec.congr (by omega) hheaders habove

end Steps

/-! ## When the newest definition is found -/

section Newest

variable {m : Mem} {hi : Nat} {e : Cell} {defs : List Definition} {name given : Text}

theorem Recorded.entry_inj (h : Recorded m hi e defs) {k k' : Definition} (hk : k ∈ defs)
    (hk' : k' ∈ defs) (heq : k.entry = k'.entry) : k = k' := by
  induction h with
  | nil => cases hk
  | @cons hi x defs hbase htop _ _ hrest ih =>
      have hbelow : ∀ y ∈ defs, y.entry ≠ x.entry := by
        intro y hy hyx
        obtain ⟨-, hall⟩ := hrest.header_lt hy
        have hself : y.entry.toNat ∈ headerBytes m y.entry := by
          rw [headerBytes, Set.mem_Ico]
          omega
        have hlt := hall _ hself
        rw [hyx] at hlt
        exact lt_irrefl _ hlt
      rcases List.mem_cons.mp hk with rfl | hold <;> rcases List.mem_cons.mp hk' with rfl | hold'
      · rfl
      · exact absurd heq.symm (hbelow k' hold')
      · exact absurd heq (hbelow k hold)
      · exact ih hold hold'

theorem sameName_length (h : sameName given name = true) : given.length = name.length := by
  have hlen := congrArg List.length (eq_of_beq h)
  rwa [List.length_map, List.length_map] at hlen

/-- A name of fewer than 31 characters is compared in full. -/
theorem sameName_take (hname : name.length < 31) (given : Text) :
    sameName (given.take 31) name = sameName given name := by
  by_cases hlen : given.length ≤ 31
  · rw [List.take_of_length_le hlen]
  · rw [Bool.eq_iff_iff]
    constructor <;> intro h <;> have hsame := sameName_length h
    · rw [List.length_take] at hsame
      omega
    · omega

/-- The first that `p` accepts is the first that `q` accepts, if `q` accepts it
and `q` accepts nothing else. -/
theorem find?_of_imp {α : Type} {p q : α → Bool} {xs : List α} {x : α} (hfind : xs.find? p = some x)
    (hq : q x = true) (himp : ∀ y, q y = true → p y = true) : xs.find? q = some x := by
  rw [List.find?_eq_some_iff_append] at hfind ⊢
  obtain ⟨-, before, after, hxs, hbefore⟩ := hfind
  refine ⟨hq, before, after, hxs, ?_⟩
  intro y hy
  have hnot := hbefore y hy
  cases hqy : q y with
  | false => rfl
  | true =>
      rw [himp y hqy] at hnot
      cases hnot

theorem newestBy_of_none {p : Text → Bool}
    (h : ∀ k ∈ defs, k.hidden = false → p k.name = false) : newestBy p defs = 0#64 := by
  have hnone : (defs.find? fun k => !k.hidden && p k.name) = none := by
    rw [List.find?_eq_none]
    intro k hk
    cases hhidden : k.hidden with
    | true => simp
    | false => simp [h k hk hhidden]
  rw [newestBy, hnone]
  rfl

theorem newestBy_of_find {p : Text → Bool} {k : Definition}
    (h : (defs.find? fun k => !k.hidden && p k.name) = some k) :
    newestBy p defs = k.entry ∧ k ∈ defs ∧ k.hidden = false ∧ p k.name = true := by
  have hp := List.find?_some h
  simp only [Bool.and_eq_true, Bool.not_eq_true'] at hp
  refine ⟨?_, List.mem_of_find?_eq_some h, hp⟩
  rw [newestBy, h]
  rfl

/-- What is accepted is an entry of the history, so not 0. -/
theorem Recorded.newestBy_ne_zero (h : Recorded m hi e defs) {p : Text → Bool} {k : Definition}
    (hk : k ∈ defs) (hvisible : k.hidden = false) (hp : p k.name = true) :
    newestBy p defs ≠ 0#64 := by
  cases hfind : defs.find? fun k => !k.hidden && p k.name with
  | none =>
      rw [List.find?_eq_none] at hfind
      exact absurd (by simp [hvisible, hp]) (hfind k hk)
  | some k' =>
      obtain ⟨hnewest, hmem, -, -⟩ := newestBy_of_find hfind
      rw [hnewest]
      exact ne_zero_of_base_le (h.header_lt hmem).1

/-- No character beyond the 31st decides which definition `name` means: a name of
more than 31 characters is not defined at all, and the newest definition that
agrees with a name of 31 characters that far is itself no longer. -/
def Decided (defs : List Definition) (name : Text) : Prop :=
  (31 < name.length → ∀ k ∈ defs, k.hidden = false → sameName k.name name = false) ∧
  (name.length = 31 → ∀ k,
    (defs.find? fun k => !k.hidden && sameName (k.name.take 31) name) = some k →
      k.name.length ≤ 31)

/-- Names of exactly 31 characters. -/
theorem Recorded.newest_cut_iff (h : Recorded m hi e defs) (hname : name.length = 31) :
    newestBy (fun given => sameName (given.take 31) name) defs = newest defs name ↔
      ∀ k, (defs.find? fun k => !k.hidden && sameName (k.name.take 31) name) = some k →
        k.name.length ≤ 31 := by
  have himp : ∀ k : Definition, (!k.hidden && sameName k.name name) = true →
      (!k.hidden && sameName (k.name.take 31) name) = true := by
    intro k hk
    rw [Bool.and_eq_true] at hk ⊢
    rw [List.take_of_length_le (by rw [sameName_length hk.2, hname])]
    exact hk
  cases hfind : defs.find? fun k => !k.hidden && sameName (k.name.take 31) name with
  | none =>
      refine ⟨fun _ k hk => (by cases hk), fun _ => ?_⟩
      have hnone : (defs.find? fun k => !k.hidden && sameName k.name name) = none := by
        rw [List.find?_eq_none] at hfind ⊢
        exact fun k hk hmatch => hfind k hk (himp k hmatch)
      rw [newestBy, newest, newestBy, hfind, hnone]
  | some k =>
      obtain ⟨hcut, hmem, hvisible, hmatch⟩ := newestBy_of_find
        (p := fun given => sameName (given.take 31) name) hfind
      rw [hcut]
      constructor
      · rintro heq k' ⟨⟩
        by_contra hlong
        cases hfull : defs.find? fun k => !k.hidden && sameName k.name name with
        | none =>
            rw [newest, newestBy, hfull] at heq
            exact ne_zero_of_base_le (h.header_lt hmem).1 heq
        | some k' =>
            obtain ⟨hnewest, hmem', -, hmatch'⟩ := newestBy_of_find
              (p := fun given => sameName given name) hfull
            rw [newest, hnewest] at heq
            obtain rfl := h.entry_inj hmem hmem' heq
            have hlen := sameName_length hmatch'
            omega
      · intro hlen
        have hle := hlen k rfl
        have hfull := find?_of_imp (q := fun k => !k.hidden && sameName k.name name) hfind
          (by rw [List.take_of_length_le hle] at hmatch; simp [hvisible, hmatch]) himp
        obtain ⟨hnewest, -⟩ := newestBy_of_find (p := fun given => sameName given name) hfull
        exact hnewest.symm

theorem Recorded.newest_iff (h : Recorded m hi e defs) (name : Text) :
    newestBy (fun given => sameName (given.take 31) name) defs = newest defs name ↔
      Decided defs name := by
  rcases Nat.lt_trichotomy name.length 31 with hshort | hcut | hlong
  · have hsame : (fun given => sameName (given.take 31) name) = fun given => sameName given name :=
      funext (sameName_take hshort)
    rw [hsame, Decided]
    exact ⟨fun _ => ⟨fun hlong => by omega, fun hcut => by omega⟩, fun _ => rfl⟩
  · rw [h.newest_cut_iff hcut, Decided]
    exact ⟨fun hall => ⟨fun hlong => by omega, fun _ => hall⟩, fun hall => hall.2 hcut⟩
  · -- no stored name is that long
    have hnone : newestBy (fun given => sameName (given.take 31) name) defs = 0#64 := by
      refine newestBy_of_none fun k _ _ => ?_
      rw [Bool.eq_false_iff]
      intro hmatch
      have hlen := sameName_length hmatch
      rw [List.length_take] at hlen
      omega
    rw [hnone, Decided]
    constructor
    · intro heq
      refine ⟨fun _ k hk hvisible => ?_, fun hcut => by omega⟩
      rw [Bool.eq_false_iff]
      intro hmatch
      exact h.newestBy_ne_zero (p := fun given => sameName given name) hk hvisible hmatch heq.symm
    · rintro ⟨hall, -⟩
      exact (newestBy_of_none (hall hlong)).symm

end Newest

/-! ## Runs -/

section Runs

variable {img : Image} {d : Data} {s : Book} {ops : List DictOp}

/-- `dict_init` leaves an empty dictionary. -/
structure EmptyDict (d : Data) : Prop where
  latest : d.dictLatest = 0#64
  here : d.dictHere.toNat = dictVirtBase

theorem EmptyDict.holds (h : EmptyDict d) : Book.Holds ⟨d, []⟩ := by
  refine ⟨?_, le_of_eq h.here.symm, ?_⟩
  · dsimp only
    rw [h.latest]
    exact .nil
  · dsimp only
    rw [h.here]
    exact Nat.le_add_right _ _

theorem holds_of_run (hrun : Run (FitStep img) ⟨d, []⟩ ops s) (hd : EmptyDict d) : s.Holds :=
  hrun.invariant (I := Book.Holds) (fun _ _ _ hs hstep => hstep.1.holds hstep.2 hs) hd.holds

theorem Book.Holds.find (h : s.Holds) (name : Text) :
    dictFind s.data name =
      some (newestBy (fun given => sameName (given.take 31) name) s.defs) := by
  have hlength := h.recorded.chain.length_lt h.high
  exact h.recorded.find name (by omega)

/-- **Lookup finds the newest definition exactly when no character beyond the
31st decides**, in every state that the dictionary reaches. -/
theorem lookup_newest_iff (hd : EmptyDict d) (hrun : Run (FitStep img) ⟨d, []⟩ ops s)
    (name : Text) : dictFind s.data name = some (newest s.defs name) ↔ Decided s.defs name := by
  have hs := holds_of_run hrun hd
  rw [hs.find, Option.some_inj]
  exact hs.recorded.newest_iff name

/-- Registering the primitives is such a run. -/
theorem registerAll_run (ps : List Primitive) {defs : List Definition}
    (hs : Book.Holds ⟨d, defs⟩) (hplain : ∀ p ∈ ps, Plain p)
    (hroom : d.dictHere.toNat + 64 * ps.length ≤ dictVirtBase + dictSize) :
    ∃ defs', Run (FitStep img) ⟨d, defs⟩ (ps.map .primitive) ⟨registerAll img ps d, defs'⟩ := by
  induction ps generalizing d defs with
  | nil => exact ⟨defs, .nil _⟩
  | cons p ps ih =>
      rw [List.length_cons] at hroom
      have hp := hplain p (List.mem_cons_self ..)
      have hname : (text p.name).length < 256 := by
        have hshort := hp.1
        omega
      have hhidden : false = false ↔ p.flags &&& fHidden = 0#8 := by simp [hp.2]
      have hcreated : d.dictAddPrimitive img p.name p.fn p.flags =
          ((d.at d.parsePtr).dictCreate (text p.name) p.flags).dictSetCode (img.addr p.fn) := rfl
      obtain ⟨-, -, htop⟩ := hs.entry hname d.parsePtr p.flags (img.addr p.fn) hhidden hcreated
      have hstep : FitStep img ⟨d, defs⟩ (.primitive p) ⟨d.dictAddPrimitive img p.name p.fn p.flags,
          ⟨text p.name, alignCell d.dictHere, false⟩ :: defs⟩ :=
        ⟨.primitive hp, by dsimp only; omega⟩
      obtain ⟨defs', hrest⟩ := ih (hstep.1.holds hstep.2 hs)
        (fun q hq => hplain q (List.mem_cons_of_mem _ hq)) (by omega)
      exact ⟨defs', .cons hstep hrest⟩

/-- So the dictionary of `forth_init` has a history. -/
theorem startup_run (img : Image) : ∃ defs, Run (FitStep img) ⟨blankData, []⟩
    (primitives.map .primitive) ⟨startup img, defs⟩ := by
  have hplain : ∀ p ∈ primitives, Plain p := by decide
  have hroom : blankData.dictHere.toNat + 64 * primitives.length ≤ dictVirtBase + dictSize := by
    decide
  have hempty : EmptyDict blankData := ⟨rfl, rfl⟩
  exact registerAll_run primitives hempty.holds hplain hroom

/-- `CREATE` in an empty dictionary. -/
theorem create_run {name : Text} (hlex : nextWord 64 name = (name, [])) (hname : name ≠ []) :
    ∃ s, Run (FitStep img) ⟨blankData.at name, []⟩ [.create name] s ∧
      s.defs = [⟨name, alignCell blankData.dictHere, false⟩] := by
  have hempty : EmptyDict (blankData.at name) := ⟨rfl, rfl⟩
  have hlen := length_nextWord hlex
  have hname256 : name.length < 256 := by omega
  have hhidden : false = false ↔ 0#8 &&& fHidden = 0#8 := by decide
  obtain ⟨-, -, htop⟩ := hempty.holds.entry hname256 [] 0#8 (img.addr .doVariable) hhidden rfl
  have hroom : (blankData.at name).dictHere.toNat + 62 ≤ dictVirtBase + dictSize := by
    rw [at_dictHere]
    decide
  refine ⟨_, .cons ⟨.create (p := []) hlex hname (wCreate_run hlex hname), ?_⟩ (.nil _), rfl⟩
  exact le_trans htop hroom

end Runs

/-- After `CREATE A` the lookup of `a` finds the new entry. -/
theorem lookup_newest_a : ∃ s, Run (FitStep linearImage) ⟨blankData.at (text "A"), []⟩
      [.create (text "A")] s ∧
    dictFind s.data (text "a") = some (newest s.defs (text "a")) ∧
      newest s.defs (text "a") = 0xFFFF800010000000#64 := by
  have hlex : nextWord 64 (text "A") = (text "A", []) := by decide +kernel
  obtain ⟨s, hrun, hdefs⟩ := @create_run linearImage _ hlex (by decide +kernel)
  refine ⟨s, hrun, (lookup_newest_iff ⟨rfl, rfl⟩ hrun (text "a")).mpr ?_, ?_⟩
  · refine ⟨fun hlong => absurd hlong (by decide), fun hcut => absurd hcut (by decide)⟩
  · rw [hdefs]
    decide +kernel

/-- What `:`, `CREATE` and `CONSTANT` accept as a name. -/
def IsToken (name : Text) : Prop :=
  1 ≤ name.length ∧ name.length ≤ 63 ∧ ∀ c ∈ name, isspace c = false ∧ c ≠ 0#8

/-- A name of 32 characters. -/
def longName : Text := List.replicate 32 (chr 'A')

/-- A word with a name of 32 characters is not found by its own name. -/
theorem long_name_not_found : IsToken longName ∧
    ∃ s, Run (FitStep linearImage) ⟨blankData.at longName, []⟩ [.create longName] s ∧
      dictFind s.data longName = some 0#64 ∧
        dictFind s.data longName ≠ some (newest s.defs longName) := by
  refine ⟨⟨by decide, by decide, by decide⟩, ?_⟩
  have hlex : nextWord 64 longName = (longName, []) := by decide +kernel
  obtain ⟨s, hrun, hdefs⟩ := @create_run linearImage _ hlex (by decide)
  have hfind := (holds_of_run hrun ⟨rfl, rfl⟩).find longName
  have hmiss : newestBy (fun given => sameName (given.take 31) longName) s.defs = 0#64 := by
    rw [hdefs]
    decide +kernel
  have hnewest : newest s.defs longName = 0xFFFF800010000000#64 := by
    rw [hdefs]
    decide +kernel
  rw [hmiss] at hfind
  refine ⟨s, hrun, hfind, ?_⟩
  rw [hfind, hnewest]
  decide

end VectorForth.Forth
