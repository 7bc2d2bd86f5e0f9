import Mathlib.Logic.Relation
import VectorForth.Vm.Growth
import VectorForth.Vm.Startup

/-!
# The links of the dictionary

`dict_find` and `dict_list_words` follow the links from the newest entry until
they meet a null link. As long as nothing is written over a header, every link
leads to a lower address and the walk ends. `ALLOT` with a negative operand can
move `HERE` back over a header: the next entry is then written over an older
one, and its link can lead to itself.
-/

namespace VectorForth.Forth

open ByteMemory LabelledRun

/-! ## Headers -/

/-- Where the header of the newest entry ends. -/
def headerEnd (d : Data) : Nat :=
  if d.dictLatest = 0#64 then dictVirtBase
  else d.dictLatest.toNat + 9 + (dictGetNameLen d.mem d.dictLatest).toNat

/-- The links lead down from the newest entry to a null link, and all headers lie
below `HERE`. -/
structure Rooted (d : Data) : Prop where
  chain : ∃ n, Chain d.mem (headerEnd d) n d.dictLatest
  fits : headerEnd d ≤ d.dictHere.toNat

section Chains

variable {m m' : Mem} {hi n : Nat} {e : Cell}

/-- Only memory from the dictionary on matters to a chain. -/
theorem Chain.congr_beyond (h : Chain m hi n e) (hhi : hi ≤ 2 ^ 64)
    (hm : ∀ x, dictVirtBase ≤ x → x < hi → m' x = m x) : Chain m' hi n e := by
  induction h with
  | nil => exact .nil
  | @cons hi n e hbase htop _ ih =>
      have hflags : dictGetFlagsLen m' e = dictGetFlagsLen m e := by
        have haddr : (e + 8#64).toNat = e.toNat + 8 := by
          rw [BitVec.toNat_add, BitVec.toNat_ofNat]
          omega
        exact hm _ (by omega) (by omega)
      have hlink : cellAt m' e = cellAt m e := by
        rw [cellAt, cellAt, read64_congr]
        intro x hx hx'
        exact hm x (by omega) (by omega)
      refine .cons hbase ?_ ?_
      · rw [dictGetNameLen, hflags]
        exact htop
      · rw [hlink]
        exact ih (by omega) fun x hx hx' => hm x hx (by omega)

/-- An empty chain, or a first entry above the rest. -/
theorem Chain.uncons (h : Chain m hi n e) : (n = 0 ∧ e = 0#64) ∨ ∃ k, n = k + 1 ∧
    dictVirtBase ≤ e.toNat ∧ e.toNat + 9 + (dictGetNameLen m e).toNat ≤ hi ∧
      Chain m e.toNat k (cellAt m e) := by
  cases h with
  | nil => exact Or.inl ⟨rfl, rfl⟩
  | cons hbase htop hrest => exact Or.inr ⟨_, rfl, hbase, htop, hrest⟩

/-- A chain whose first entry has got other flags. -/
theorem Chain.reflag (h : Chain m hi (n + 1) e) (hhi : hi ≤ 2 ^ 64)
    (hm : ∀ x, dictVirtBase ≤ x → x < hi → x ≠ (e + 8#64).toNat → m' x = m x)
    (hlen : dictGetNameLen m' e = dictGetNameLen m e) : Chain m' hi (n + 1) e := by
  cases h with
  | cons hbase htop hrest =>
      have haddr : (e + 8#64).toNat = e.toNat + 8 := by
        rw [BitVec.toNat_add, BitVec.toNat_ofNat]
        omega
      have hlink : cellAt m' e = cellAt m e := by
        rw [cellAt, cellAt, read64_congr]
        intro x hx hx'
        exact hm x (by omega) (by omega) (by omega)
      refine .cons hbase (by rwa [hlen]) ?_
      rw [hlink]
      exact hrest.congr_beyond (by omega) fun x hx hx' => hm x hx (by omega) (by omega)

end Chains

section Rooted

variable {d d' : Data} {a : Act}

theorem Rooted.base_le (h : Rooted d) : dictVirtBase ≤ headerEnd d := by
  obtain ⟨n, hchain⟩ := h.chain
  unfold headerEnd
  split
  · exact Nat.le_refl _
  · rename_i hne
    rcases hchain.uncons with ⟨-, hnull⟩ | ⟨k, -, hbase, -, -⟩
    · exact absurd hnull hne
    · omega

/-- The headers are not touched, but for the flags of the newest. -/
theorem Rooted.keep (h : Rooted d) (hlatest : d'.dictLatest = d.dictLatest)
    (hmem : ∀ x, dictVirtBase ≤ x → x < headerEnd d → x ≠ (d.dictLatest + 8#64).toNat →
      d'.mem x = d.mem x)
    (hlen : d.dictLatest ≠ 0#64 →
      dictGetNameLen d'.mem d.dictLatest = dictGetNameLen d.mem d.dictLatest)
    (hhere : headerEnd d ≤ d'.dictHere.toNat) : Rooted d' ∧ headerEnd d' = headerEnd d := by
  have hfits := h.fits
  obtain ⟨n, hchain⟩ := h.chain
  have hend : headerEnd d' = headerEnd d := by
    rw [headerEnd, headerEnd, hlatest]
    split
    · rfl
    · rename_i hne
      rw [hlen hne]
  refine ⟨⟨?_, by rwa [hend]⟩, hend⟩
  rw [hend, hlatest]
  rcases hchain.uncons with ⟨-, hnull⟩ | ⟨k, rfl, hbase, -, -⟩
  · rw [hnull]
    exact ⟨0, .nil⟩
  · exact ⟨k + 1, hchain.reflag (by omega) hmem (hlen (ne_zero_of_base_le hbase))⟩

/-- Nothing below the end of the headers is written. -/
theorem Rooted.keep_above (h : Rooted d) {X : Set Nat} (hlatest : d'.dictLatest = d.dictLatest)
    (hmem : SameBeyond dictVirtBase X d d') (hX : ∀ x ∈ X, headerEnd d ≤ x)
    (hhere : headerEnd d ≤ d'.dictHere.toNat) : Rooted d' ∧ headerEnd d' = headerEnd d := by
  have hsame : ∀ x, dictVirtBase ≤ x → x < headerEnd d → d'.mem x = d.mem x := by
    intro x hbase hlt
    exact hmem x hbase fun hx => absurd (hX x hx) (by omega)
  refine h.keep hlatest (fun x hbase hlt _ => hsame x hbase hlt) ?_ hhere
  intro hne
  obtain ⟨n, hchain⟩ := h.chain
  have hfits := h.fits
  rcases hchain.uncons with ⟨-, hnull⟩ | ⟨k, -, hbase, htop, -⟩
  · exact absurd hnull hne
  · have haddr : (d.dictLatest + 8#64).toNat = d.dictLatest.toNat + 8 := by
      rw [BitVec.toNat_add, BitVec.toNat_ofNat]
      omega
    rw [dictGetNameLen, dictGetNameLen, dictGetFlagsLen, dictGetFlagsLen,
      hsame _ (by omega) (by omega)]

/-- A new entry above the old ones. -/
theorem Rooted.entry (h : Rooted d) (hdoes : Does dictVirtBase d .entry d')
    (htop : d.dictHere.toNat + 64 < 2 ^ 64) : Rooted d' := by
  obtain ⟨d₁, d₂, code, flags, -, hlatest₁, hmem₁, hcreated, hhere₂, hlatest₂, hmem₂⟩ := hdoes
  have hfits := h.fits
  have hbase := h.base_le
  have halign := alignCell_toNat (a := d.dictHere) (by omega)
  generalize alignCell d.dictHere = e at halign hcreated
  obtain ⟨hfieldLow, hfieldHigh⟩ := hcreated.field
  have hfieldTop := hcreated.top
  obtain ⟨m, here, hsame⟩ := hcreated.same
  have hlatest : d'.dictLatest = e := by rw [hlatest₂, hsame]
  have hne := ne_zero_of_base_le (e := e) (by omega)
  have hend : headerEnd d' = e.toNat + 9 + (dictGetNameLen d'.mem e).toNat := by
    rw [headerEnd, hlatest, if_neg hne]
  obtain ⟨n, hchain⟩ := h.chain
  rw [← hhere₂, ← hmem₂] at hfieldTop
  rw [← hmem₂] at hfieldLow hfieldHigh
  refine ⟨⟨n + 1, ?_⟩, by omega⟩
  rw [hlatest, hend]
  refine .cons (by omega) (Nat.le_refl _) ?_
  have hlink := hcreated.link
  rw [← hmem₂, hlatest₁] at hlink
  rw [hlink]
  refine (hchain.congr_beyond (by omega) fun x _ hx => ?_).mono (by omega)
  rw [hmem₂, hcreated.frame x (by omega), hmem₁]

/-- **One act keeps the dictionary rooted** if `ALLOT` stays above the headers and
no cell is written over them. Only a new entry moves the end of the headers. -/
theorem Rooted.act (h : Rooted d) (hdoes : Does dictVirtBase d a d')
    (htop : d.dictHere.toNat + 64 < 2 ^ 64)
    (hallot : a = .allot → headerEnd d ≤ d'.dictHere.toNat)
    (hpatch : ∀ x, a = .patch x → headerEnd d ≤ x.toNat) :
    Rooted d' ∧ (a ≠ .entry → headerEnd d' = headerEnd d) := by
  have hfits := h.fits
  have halign := alignCell_toNat (a := d.dictHere) (by omega)
  have hgrows : a ≠ .allot → headerEnd d ≤ d'.dictHere.toNat :=
    fun ha => le_trans hfits (hdoes.here_le ha htop).1
  cases a with
  | other =>
      obtain ⟨hhere, hlatest, hmem⟩ := hdoes
      obtain ⟨hrooted, hend⟩ := h.keep_above hlatest hmem (by simp) (hgrows Act.noConfusion)
      exact ⟨hrooted, fun _ => hend⟩
  | emit =>
      obtain ⟨hhere, hlatest, hmem⟩ := hdoes
      obtain ⟨hrooted, hend⟩ := h.keep_above hlatest hmem
        (fun x hx => by have := hx.1; omega) (hgrows Act.noConfusion)
      exact ⟨hrooted, fun _ => hend⟩
  | byte =>
      obtain ⟨hhere, hlatest, hmem⟩ := hdoes
      obtain ⟨hrooted, hend⟩ := h.keep_above hlatest hmem
        (fun x hx => by rw [Set.mem_singleton_iff.mp hx]; exact hfits) (hgrows Act.noConfusion)
      exact ⟨hrooted, fun _ => hend⟩
  | entry =>
      exact ⟨h.entry hdoes htop, fun hne => absurd rfl hne⟩
  | flags =>
      obtain ⟨hhere, hlatest, hmem, hlen⟩ := hdoes
      obtain ⟨hrooted, hend⟩ := h.keep hlatest (fun x hbase _ hx => hmem x hbase hx)
        (fun _ => hlen) (hgrows Act.noConfusion)
      exact ⟨hrooted, fun _ => hend⟩
  | allot =>
      obtain ⟨hlatest, hmem⟩ := hdoes
      obtain ⟨hrooted, hend⟩ := h.keep_above hlatest hmem (by simp) (hallot rfl)
      exact ⟨hrooted, fun _ => hend⟩
  | patch x =>
      obtain ⟨hhere, hlatest, hmem⟩ := hdoes
      obtain ⟨hrooted, hend⟩ := h.keep_above hlatest hmem
        (fun y hy => le_trans (hpatch x rfl) hy.1) (hgrows Act.noConfusion)
      exact ⟨hrooted, fun _ => hend⟩

/-- The acts that build keep it rooted, one after the other. -/
theorem Rooted.acts {as : List Act} (hrun : Run (Does dictVirtBase) d as d') (h : Rooted d)
    (hbuilds : ∀ a ∈ as, a.builds = true)
    (htop : d.dictHere.toNat + 64 * as.length < 2 ^ 64) :
    Rooted d' ∧ ((∀ a ∈ as, a ≠ .entry) → headerEnd d' = headerEnd d) := by
  induction hrun with
  | nil => exact ⟨h, fun _ => rfl⟩
  | @cons d d₁ d' a as hdoes _ ih =>
      rw [List.length_cons] at htop
      have ha := hbuilds a List.mem_cons_self
      have hnot := Act.builds_ne ha
      have hgrow := hdoes.here_le hnot (by omega)
      obtain ⟨h₁, hend₁⟩ := h.act hdoes (by omega) (fun h => absurd h hnot) (by rintro x rfl; cases ha)
      obtain ⟨h', hend'⟩ := ih h₁ (fun b hb => hbuilds b (List.mem_cons_of_mem _ hb)) (by omega)
      refine ⟨h', fun hne => ?_⟩
      rw [hend' fun b hb => hne b (List.mem_cons_of_mem _ hb), hend₁ (hne a List.mem_cons_self)]

theorem Rooted.congr (h : Rooted d) (hsame : SameDict d d') : Rooted d' := by
  have hfits := h.fits
  obtain ⟨hhere, hlatest, hmem⟩ := hsame
  refine (h.keep hlatest (fun x _ _ _ => congrFun hmem x) ?_ (by rwa [hhere])).1
  intro _
  rw [hmem]

theorem rooted_of_atPrompt {img : Image} {words : Words} {P : Set Nat} (h : AtPrompt img words P d) :
    Rooted d := by
  obtain ⟨n, hchain⟩ := h.chain
  have hlow := h.low
  rcases hchain.uncons with ⟨rfl, hnull⟩ | ⟨k, rfl, hbase, htop, hrest⟩
  · have hend : headerEnd d = dictVirtBase := by rw [headerEnd, if_pos hnull]
    refine ⟨⟨0, ?_⟩, by omega⟩
    rw [hnull]
    exact .nil
  · have hend : headerEnd d = d.dictLatest.toNat + 9 + (dictGetNameLen d.mem d.dictLatest).toNat := by
      rw [headerEnd, if_neg (ne_zero_of_base_le hbase)]
    refine ⟨⟨k + 1, ?_⟩, by omega⟩
    rw [hend]
    exact .cons hbase (Nat.le_refl _) hrest

end Rooted

/-! ## Walks that end -/

section Walks

variable {m : Mem} {hi n : Nat} {e : Cell}

theorem Chain.find_ends (h : Chain m hi n e) (name : Text) {fuel : Nat} (hfuel : n < fuel) :
    ∃ found, dictFindFrom m name fuel e = some found := by
  induction h generalizing fuel with
  | nil =>
      obtain ⟨k, rfl⟩ := Nat.exists_eq_add_of_lt hfuel
      exact ⟨0#64, rfl⟩
  | @cons hi n e hbase htop _ ih =>
      obtain ⟨k, rfl⟩ := Nat.exists_eq_succ_of_ne_zero (Nat.ne_of_gt (Nat.zero_lt_of_lt hfuel))
      rw [dictFindFrom, if_neg (ne_zero_of_base_le hbase)]
      split
      · exact ⟨e, rfl⟩
      · exact ih (by omega)

/-- Native code that returns and leaves memory alone. -/
def Ends {α : Type} (m : Mem) (w : NativeM α) : Prop :=
  ∀ d : Data, d.mem = m → ∃ a d', w.run d = some (a, d') ∧ d'.mem = m

theorem ends_puts (t : Text) : Ends m (puts t) := fun d hd => ⟨(), d.puts t, rfl, hd⟩

theorem ends_bind {α β : Type} {w : NativeM α} {g : α → NativeM β} (hw : Ends m w)
    (hg : ∀ a, Ends m (g a)) : Ends m (w >>= g) := by
  intro d hd
  obtain ⟨a, d₁, hrun, hd₁⟩ := hw d hd
  obtain ⟨b, d₂, hrun', hd₂⟩ := hg a d₁ hd₁
  refine ⟨b, d₂, ?_, hd₂⟩
  rw [StateT.run_bind, hrun]
  exact hrun'

theorem ends_get {α : Type} {g : Data → NativeM α} (hg : ∀ d, d.mem = m → Ends m (g d)) :
    Ends m (get >>= g) := fun d hd => hg d hd d hd

theorem Chain.list_ends (h : Chain m hi n e) {fuel : Nat} (hfuel : n < fuel) (count : Nat) :
    Ends m (dictListWordsFrom fuel e count) := by
  induction h generalizing fuel count with
  | nil =>
      obtain ⟨k, rfl⟩ := Nat.exists_eq_add_of_lt hfuel
      exact ends_bind (ends_puts _) fun _ => ends_bind (ends_puts _) fun _ => ends_puts _
  | @cons hi n e hbase htop _ ih =>
      obtain ⟨k, rfl⟩ := Nat.exists_eq_succ_of_ne_zero (Nat.ne_of_gt (Nat.zero_lt_of_lt hfuel))
      have hrest : ∀ count', Ends m (dictListWordsFrom k (cellAt m e) count') :=
        fun count' => ih (by omega) count'
      rw [dictListWordsFrom, if_neg (ne_zero_of_base_le hbase)]
      refine ends_get fun d hd => ?_
      rw [hd]
      dsimp only
      split
      · refine ends_bind (ends_puts _) fun _ => ends_bind (ends_puts _) fun _ => ?_
        split
        · exact ends_bind (ends_puts _) fun _ => hrest _
        · exact hrest _
      · exact hrest _

end Walks

/-- The links from the newest entry lead down through the dictionary to a null
link, and both walks along them come to an end. -/
structure WellFounded (d : Data) : Prop where
  chain : ∃ n, Chain d.mem (dictVirtBase + dictSize) n d.dictLatest
  find : ∀ name, ∃ found, dictFind d name = some found
  list : ∃ d', dictListWords.run d = some ((), d')

theorem Rooted.wellFounded {d : Data} (h : Rooted d)
    (htop : d.dictHere.toNat ≤ dictVirtBase + dictSize) : WellFounded d := by
  obtain ⟨n, hchain⟩ := h.chain
  have hchain := hchain.mono (le_trans h.fits htop)
  have hfuel := hchain.length_lt (Nat.le_refl _)
  refine ⟨⟨n, hchain⟩, fun name => hchain.find_ends name (by omega), ?_⟩
  have hends : Ends d.mem (dictListWordsFrom chainFuel d.dictLatest 0) :=
    hchain.list_ends (by omega) 0
  obtain ⟨⟨⟩, d', hrun, -⟩ := hends d rfl
  exact ⟨d', hrun⟩

/-! ## A word made at the first prompt -/

section Making

variable {img : Image} {words : Words} {P : Set Nat} {d d' : Data} {w name : Text} {f : CFun}
  {flags : Byte} {e : Cell}

/-- A new word at the prompt: what was found before is still found, also after `HERE`
has been moved back to the new entry. -/
theorem Finds.created {d'' : Data} {code new : Cell} (h : Finds img d w f flags e)
    (hd : AtPrompt img words P d) (hcreated : Created d d' new code 0#8)
    (hle : d.dictHere.toNat ≤ new.toNat) (hname : dictGetName d'.mem new = name)
    (hother : (name.map toUpper == w.map toUpper) = false) (hlatest : d''.dictLatest = d'.dictLatest)
    (hmem : d''.mem = d'.mem) (hhere : new.toNat ≤ d''.dictHere.toNat) :
    Finds img d'' w f flags e := by
  have htop := hcreated.top
  have hfield := hcreated.field.1
  refine h.keep ?_ (by omega) fun y hy => ?_
  · have hsame : dictFind d'' w = dictFind d' w := by rw [dictFind, dictFind, hmem, hlatest]
    rw [hsame, hcreated.dictFind hd hle rfl hname, hother]
    exact if_neg Bool.false_ne_true
  · rw [hmem]
    exact hcreated.frame y (by omega)

/-- What an entry with a name of one letter looks like. -/
theorem created_letter {c : Byte} (code : Cell) (hroom : d.dictHere.toNat + 64 < 2 ^ 64) :
    Created d ((d.dictCreate [c] 0#8).dictSetCode code) (alignCell d.dictHere) code 0#8 ∧
      dictGetName ((d.dictCreate [c] 0#8).dictSetCode code).mem (alignCell d.dictHere) = [c] ∧
      ((d.dictCreate [c] 0#8).dictSetCode code).dictHere.toNat =
        (alignCell d.dictHere).toNat + 24 := by
  have hcreated : Created d ((d.dictCreate [c] 0#8).dictSetCode code) (alignCell d.dictHere) code
      0#8 := dictCreate_spec hroom
  have hname : dictGetName ((d.dictCreate [c] 0#8).dictSetCode code).mem (alignCell d.dictHere) =
      [c] := dictCreate_name hroom (by simp)
  refine ⟨hcreated, hname, ?_⟩
  have halign := alignCell_toNat (a := d.dictHere) (by omega)
  have hhere := hcreated.here
  generalize (d.dictCreate [c] 0#8).dictSetCode code = d' at hname hhere ⊢
  generalize alignCell d.dictHere = e at halign hname hhere ⊢
  have hlen : (dictGetNameLen d'.mem e).toNat = 1 := by
    have hlength := congrArg List.length hname
    simpa [dictGetName] using hlength
  have hend : (e + 9#64 + (dictGetNameLen d'.mem e).setWidth 64).toNat = e.toNat + 10 := by
    rw [BitVec.toNat_add, BitVec.toNat_add, BitVec.toNat_ofNat, BitVec.toNat_setWidth, hlen]
    omega
  have hfield := alignCell_toNat (a := e + 9#64 + (dictGetNameLen d'.mem e).setWidth 64) (by omega)
  rw [hhere, dictGetParamField, dictGetCodeField, BitVec.toNat_add, BitVec.toNat_ofNat]
  omega

end Making

/-- `CREATE A` at the first prompt, with the text behind it. -/
def createdA (rest : Text) : Data :=
  (((startup linearImage).at rest).dictCreate [chr 'A'] 0#8).dictSetCode
    (linearImage.addr .doVariable)

/-- The entry `e` of `A` is the newest one, and the words of `forth_init` are still found. -/
structure MadeA (rest : Text) (e : Cell) (d : Data) : Prop where
  ds : d.ds = []
  base : d.forthBase = 10
  rest : d.parsePtr = rest
  mode : d.forthState = .interpret
  latest : d.dictLatest = e
  low : dictVirtBase ≤ e.toNat
  high : e.toNat ≤ dictVirtBase + 64 * 128 + 8
  aligned : e.toNat % 8 = 0
  here : d.dictHere.toNat = e.toNat + 24
  name : dictGetName d.mem e = [chr 'A']
  found : ∀ name p, tableFind primitives name = some p →
    ([chr 'A'].map toUpper == name.map toUpper) = false → ∃ old, ∀ d' : Data,
      d'.dictLatest = d.dictLatest → d'.mem = d.mem → e.toNat ≤ d'.dictHere.toNat →
        Finds linearImage d' name p.fn p.flags old
  other : ∀ name, tableFind primitives name = none →
    ([chr 'A'].map toUpper == name.map toUpper) = false → dictFind d name = some 0#64

theorem createdA_made (rest : Text) : ∃ e, MadeA rest e (createdA rest) := by
  obtain ⟨words, P, hd, htop, hfound, hmiss⟩ := startup_spec linearImage
  obtain ⟨m₀, here, latest, hsame⟩ := startup_same linearImage
  have hds : (startup linearImage).ds = [] := by rw [hsame]; rfl
  have hbase : (startup linearImage).forthBase = 10 := by rw [hsame]; rfl
  unfold createdA
  generalize startup linearImage = s at *
  have hlow := hd.low
  have hdictTop : dictVirtBase + 64 * 128 + 1024 < 2 ^ 64 := by decide
  have halign := alignCell_toNat (a := s.dictHere) (by omega)
  obtain ⟨hcreated, hname, hhere⟩ := created_letter (d := s.at rest) (c := chr 'A')
    (linearImage.addr .doVariable) (by rw [at_dictHere]; omega)
  rw [at_dictHere] at hhere hname hcreated
  obtain ⟨m', here', hsame'⟩ := hcreated.same
  generalize ((s.at rest).dictCreate [chr 'A'] 0#8).dictSetCode (linearImage.addr .doVariable) = d
    at hcreated hname hhere hsame'
  generalize alignCell s.dictHere = e at *
  have hle : s.dictHere.toNat ≤ e.toNat := by omega
  refine ⟨e, ?_, ?_, ?_, ?_, ?_, by omega, by omega, by omega, hhere, hname, ?_, ?_⟩
  · rw [hsame', ← hds]; rfl
  · rw [hsame', ← hbase]; rfl
  · rw [hsame']; rfl
  · rw [hsame', ← hd.mode]; rfl
  · rw [hsame']
  · intro name p hp hother
    obtain ⟨old, hold⟩ := hfound name p hp
    exact ⟨old, fun d' hlatest hmem hhere' =>
      (hold.at rest).created (hd.at rest) hcreated hle hname hother hlatest hmem hhere'⟩
  · intro name hp hother
    rw [hcreated.dictFind (hd.at rest) hle rfl hname, hother]
    exact (if_neg Bool.false_ne_true).trans (hmiss name hp)

/-! ## Runs -/

/-- A step that stores nothing at will; holes are filled and `HERE` is moved only
above the headers, and the dictionary does not overflow. -/
structure LinkStep (img : Image) (m m' : Machine) : Prop where
  step : step img m = some m'
  stores : ∀ f, calledFun img m = some f → f.stores = false
  editor : ¬ AtEditorKey m
  allot : calledFun img m = some .wAllot → headerEnd m.vm.data ≤ m'.vm.data.dictHere.toNat
  patches : ∀ f, calledFun img m = some f → f.patches = true →
    headerEnd m.vm.data ≤ (m.vm.data.ds.headD 0#64).toNat
  room : m'.vm.data.dictHere.toNat ≤ dictVirtBase + dictSize

section Runs

variable {img : Image} {m m' : Machine}

theorem LinkStep.rooted (hbuf : BuffersBelow img dictVirtBase) (h : LinkStep img m m')
    (hm : Rooted m.vm.data)
    (htop : m.vm.data.dictHere.toNat ≤ dictVirtBase + dictSize) : Rooted m'.vm.data := by
  have hdictTop : dictVirtBase + dictSize + 1024 < 2 ^ 64 := by decide
  rcases step_acts h.step (fun _ _ _ => hbuf) h.stores h.editor (by omega) with
    ⟨hrun, hlen, hbuilds⟩ | ⟨hcalled, hdoes, -⟩ | ⟨hcalled, hpatches, hrun, hlen, hemits, hdoes⟩
  · exact (hm.acts hrun hbuilds (by omega)).1
  · exact (hm.act hdoes (by omega) (fun _ => h.allot hcalled) (by rintro x ⟨⟩)).1
  · rename_i f as d₁
    have hbuilds : ∀ a ∈ as, a.builds = true := by
      intro a ha
      rw [hemits a ha]
      rfl
    have hgrow := here_le_of_acts hrun (fun a ha => Act.builds_ne (hbuilds a ha)) (by omega)
    obtain ⟨h₁, hend⟩ := hm.acts hrun hbuilds (by omega)
    have hend := hend fun a ha => by rw [hemits a ha]; exact Act.noConfusion
    refine (h₁.act hdoes (by omega) (by rintro ⟨⟩) ?_).1
    rintro x hx
    cases hx
    rw [hend]
    exact h.patches f hcalled hpatches

theorem via_of_links (h : Relation.ReflTransGen (LinkStep img) m m') :
    Via (step img) (fun _ => True) m m' := by
  induction h with
  | refl => exact .refl _
  | tail _ hstep ih => exact ih.trans (Via.single trivial hstep.step)

end Runs

section Evaluation

variable {img : Image} {d d' : Data} {m : Machine} {rs : List Cell} {ip e : Cell} {F : List Frame}
  {w p : Text} {f : CFun} {flags : Byte} {g : NativeM Unit}

/-- `forth_eval` reads a token or calls nothing: only the room is left to check. -/
theorem linkStep_eval {m' : Machine} (hstep : step img (m.conf d rs ip (.eval :: F)) = some m')
    (hroom : m'.vm.data.dictHere.toNat ≤ dictVirtBase + dictSize) :
    LinkStep img (m.conf d rs ip (.eval :: F)) m' := by
  refine ⟨hstep, ?_, ?_, ?_, ?_, hroom⟩
  · rintro f ⟨⟩
  · rintro ⟨blk, n, cursor, ⟨⟩⟩
  · rintro ⟨⟩
  · rintro f ⟨⟩

/-- A word at the prompt that stores nothing at will and moves `HERE` only above the
headers. -/
theorem Finds.links (h : Finds img d w f flags e) (hlex : nextWord 64 d.parsePtr = (w, p))
    (hw : w ≠ []) (hmode : d.forthState = .interpret) (hf : dataWord img f = some g)
    (hg : g.run (d.at p) = some ((), d')) (hstores : f.stores = false) (hpatches : f.patches = false)
    (hallot : f = .wAllot → headerEnd d ≤ d'.dictHere.toNat)
    (hroom : d.dictHere.toNat ≤ dictVirtBase + dictSize)
    (hroom' : d'.dictHere.toNat ≤ dictVirtBase + dictSize) :
    Relation.ReflTransGen (LinkStep img) (m.conf d rs ip (.eval :: F))
      (m.conf d' rs ip (.eval :: F)) := by
  obtain ⟨hread, hcall⟩ :=
    step_eval_calls hlex hw h.find (ne_zero_of_base_le h.low) (Or.inl hmode) h.code hf hg
  have hcalled : calledFun img (m.conf (d.at p) rs ip (.execute e :: .eval :: F)) = some f := by
    change img.decode (cellAt d.mem (dictGetCodeField d.mem e)) = some f
    rw [h.code]
    exact img.decode_addr f
  refine (Relation.ReflTransGen.single (linkStep_eval hread hroom)).tail
    ⟨hcall, ?_, ?_, ?_, ?_, hroom'⟩
  · intro f' hf'
    cases hcalled.symm.trans hf'
    exact hstores
  · rintro ⟨blk, n, cursor, ⟨⟩⟩
  · intro hf'
    cases hcalled.symm.trans hf'
    exact hallot rfl
  · intro f' hf' hpatch
    cases hcalled.symm.trans hf'
    rw [hpatches] at hpatch
    cases hpatch

end Evaluation

section Making

variable {m : Machine} {F : List Frame} {line mid rest w p : Text} {e v : Cell} {d : Data}

/-- `CREATE A` at the first prompt keeps to the conditions. -/
theorem createdA_links (hline : nextWord 64 line = (text "CREATE", mid))
    (hname : nextWord 64 mid = ([chr 'A'], rest)) :
    Relation.ReflTransGen (LinkStep linearImage)
      (m.conf ((startup linearImage).at line) [] 0#64 (.eval :: F))
      (m.conf (createdA rest) [] 0#64 (.eval :: F)) := by
  obtain ⟨words, P, hd, htop, hfound, -⟩ := startup_spec linearImage
  obtain ⟨e, hmade⟩ := createdA_made rest
  obtain ⟨old, hcreate⟩ := hfound (text "CREATE") _ rfl
  have hdict : dictVirtBase + 64 * 128 + 1024 ≤ dictVirtBase + dictSize := by decide
  have hhere := hmade.here
  have hhigh := hmade.high
  unfold createdA at *
  generalize startup linearImage = s at *
  have hrun : (wCreate linearImage).run ((s.at line).at mid) = some ((),
      ((s.at rest).dictCreate [chr 'A'] 0#8).dictSetCode (linearImage.addr .doVariable)) :=
    wCreate_run hname (by simp)
  generalize ((s.at rest).dictCreate [chr 'A'] 0#8).dictSetCode (linearImage.addr .doVariable) = d
    at *
  have hcreate : Finds linearImage (s.at line) (text "CREATE") .wCreate 0#8 old := hcreate.at line
  refine hcreate.links hline (by decide) hd.mode rfl hrun rfl rfl nofun ?_ (by omega)
  exact le_trans (Nat.le_add_right_of_le htop) hdict

theorem MadeA.headerEnd_eq (h : MadeA rest e d) : headerEnd d = e.toNat + 10 := by
  have hne : d.dictLatest ≠ 0#64 := by
    rw [h.latest]
    exact ne_zero_of_base_le h.low
  have hlen : (dictGetNameLen d.mem e).toNat = 1 := by
    have hlength := congrArg List.length h.name
    simpa [dictGetName] using hlength
  rw [headerEnd, if_neg hne, h.latest, hlen]

/-- A number behind it. -/
theorem MadeA.push (h : MadeA rest e d) (hlex : nextWord 64 rest = (w, p)) (hw : w ≠ [])
    (hmiss : tableFind primitives w = none) (hother : ([chr 'A'].map toUpper == w.map toUpper) = false)
    (hnum : tryParseNumber 10 w = some v) :
    step linearImage (m.conf d [] 0#64 (.eval :: F)) =
      some (m.conf { d.at p with ds := [v] } [] 0#64 (.eval :: F)) := by
  rw [step_eval_push (h.rest ▸ hlex) hw (h.other w hmiss hother) (h.base ▸ hnum) h.mode,
    Data.dsPush, at_ds, h.ds, if_neg (by decide)]

end Making

section Runs

variable {img : Image} {m m' : Machine}

/-- **The dictionary chain stays well founded** in all states that are reached
from the dictionary of `forth_init`, as long as no word stores at will, `ALLOT`
and the filling of holes stay above the headers, and the dictionary does not
overflow. -/
theorem links_wellFounded {d : Data} (hbuf : BuffersBelow img dictVirtBase)
    (hmode : d.forthState = .interpret)
    (hlatest : d.dictLatest = 0#64) (hhere : d.dictHere = BitVec.ofNat 64 dictVirtBase)
    (hstart : SameDict (registerPrimitives img d) m.vm.data)
    (hrun : Relation.ReflTransGen (LinkStep img) m m') : WellFounded m'.vm.data := by
  obtain ⟨words, P, (hprompt : AtPrompt img words P _), -⟩ :=
    registerPrimitives_atPrompt hmode hlatest hhere
  suffices h : Rooted m'.vm.data ∧ m'.vm.data.dictHere.toNat ≤ dictVirtBase + dictSize from
    h.1.wellFounded h.2
  induction hrun with
  | refl =>
      constructor
      · exact (rooted_of_atPrompt hprompt).congr hstart
      · rw [hstart.1]
        exact hprompt.high
  | tail _ hstep ih => exact ⟨hstep.rooted hbuf ih.1 ih.2, hstep.room⟩

/-- `CREATE A 8 ALLOT` at the first prompt. -/
theorem links_wellFounded_startup : ∃ m,
    Relation.ReflTransGen (LinkStep linearImage)
      (startupPrompt linearImage (text "CREATE A 8 ALLOT")) m ∧
    m.vm.data.parsePtr = [] ∧ m.vm.data.dictHere.toNat = m.vm.data.dictLatest.toNat + 32 ∧
    WellFounded m.vm.data := by
  obtain ⟨m, hm⟩ : ∃ m : Machine, startupPrompt linearImage (text "CREATE A 8 ALLOT") =
      m.conf ((startup linearImage).at (text "CREATE A 8 ALLOT")) [] 0#64
        [.eval, .prompt, .repl] := ⟨startupPrompt linearImage (text "CREATE A 8 ALLOT"), rfl⟩
  have hstart : SameDict (registerPrimitives linearImage blankData)
      ((startup linearImage).at (text "CREATE A 8 ALLOT")) := by
    unfold startup
    exact ⟨rfl, rfl, rfl⟩
  have hbuf : BuffersBelow linearImage dictVirtBase := by
    unfold BuffersBelow
    decide
  obtain ⟨e, hmade⟩ := createdA_made (text " 8 ALLOT")
  have hlex : nextWord 64 (text "CREATE A 8 ALLOT") = (text "CREATE", text " A 8 ALLOT") := rfl
  have hname : nextWord 64 (text " A 8 ALLOT") = ([chr 'A'], text " 8 ALLOT") := rfl
  have hcreate := createdA_links (m := m) (F := [.prompt, .repl]) hlex hname
  rw [hm]
  generalize startup linearImage = s at *
  generalize createdA (text " 8 ALLOT") = d at *
  have hdict : dictVirtBase + 64 * 128 + 1024 ≤ dictVirtBase + dictSize := by decide
  have htop : dictVirtBase + dictSize < 2 ^ 64 := by decide
  have hhere := hmade.here
  have hhigh := hmade.high
  -- `8` is pushed
  have hpush := hmade.push (m := m) (F := [.prompt, .repl]) (p := text " ALLOT") (w := text "8")
    (v := 8#64) rfl (by decide) rfl (by decide) (by decide)
  have hpushed := hcreate.tail (linkStep_eval hpush (show d.dictHere.toNat ≤ _ by omega))
  -- `ALLOT` moves `HERE` up
  obtain ⟨old, hold⟩ := hmade.found (text "ALLOT") _ rfl (by decide)
  have hallot : Finds linearImage { d.at (text " ALLOT") with ds := [8#64] } (text "ALLOT") .wAllot
      0#8 old := hold _ rfl rfl (show e.toNat ≤ d.dictHere.toNat by omega)
  have hmoved : (d.dictHere + 8#64).toNat = e.toNat + 32 := by
    rw [BitVec.toNat_add, BitVec.toNat_ofNat]
    omega
  have hend := hmade.headerEnd_eq
  have hlast : Relation.ReflTransGen (LinkStep linearImage)
      (m.conf { d.at (text " ALLOT") with ds := [8#64] } [] 0#64 [.eval, .prompt, .repl])
      (m.conf { d.at [] with ds := [], dictHere := d.dictHere + 8#64 } [] 0#64
        [.eval, .prompt, .repl]) :=
    hallot.links (p := []) rfl (by decide) hmade.mode rfl rfl rfl rfl
      (fun _ => show headerEnd d ≤ (d.dictHere + 8#64).toNat by omega)
      (show d.dictHere.toNat ≤ _ by omega) (show (d.dictHere + 8#64).toNat ≤ _ by omega)
  refine ⟨_, hpushed.trans hlast, rfl, ?_, links_wellFounded (d := blankData) hbuf rfl rfl rfl
    (m := m.conf (s.at (text "CREATE A 8 ALLOT")) [] 0#64 [.eval, .prompt, .repl]) hstart
    (hpushed.trans hlast)⟩
  show (d.dictHere + 8#64).toNat = d.dictLatest.toNat + 32
  rw [hmoved, hmade.latest]

end Runs

/-! ## An entry that links to itself -/

/-- A link to itself is followed for ever. -/
theorem dictFindFrom_self {mem : Mem} {e : Cell} {name : Text} (hne : e ≠ 0#64)
    (hlink : cellAt mem e = e) (hmatch : nameMatches mem e name = false) (fuel : Nat) :
    dictFindFrom mem name fuel e = none := by
  induction fuel with
  | zero => rfl
  | succ fuel ih =>
      rw [dictFindFrom, if_neg hne, if_neg (by rw [hmatch]; simp), hlink, ih]

theorem not_wellFounded_self {d : Data} (hne : d.dictLatest ≠ 0#64)
    (hlink : cellAt d.mem d.dictLatest = d.dictLatest) :
    ¬ ∃ n, Chain d.mem (dictVirtBase + dictSize) n d.dictLatest := by
  rintro ⟨n, hchain⟩
  rcases hchain.uncons with ⟨-, hnull⟩ | ⟨k, -, -, -, hrest⟩
  · exact hne hnull
  · rw [hlink] at hrest
    rcases hrest.uncons with ⟨-, hnull⟩ | ⟨j, -, -, htop, -⟩
    · exact hne hnull
    · omega

/-- An entry of 24 bytes, `ALLOT` back over it, and a second entry in its place. -/
def overlapLine : Text := text "CREATE A -24 ALLOT CREATE A"

/-- **A negative `ALLOT` can tie the chain into a loop.** -/
theorem overlap_never_ends : ∃ m, Via (step linearImage) (fun _ => True)
    (startupPrompt linearImage overlapLine) m ∧ m.frames = [.eval, .prompt, .repl] ∧
      m.vm.data.parsePtr = [] ∧ (¬ ∃ n, Chain m.vm.data.mem (dictVirtBase + dictSize) n
        m.vm.data.dictLatest) ∧ dictFind m.vm.data (text "B") = none := by
  obtain ⟨m, hm⟩ : ∃ m : Machine, startupPrompt linearImage overlapLine =
      m.conf ((startup linearImage).at overlapLine) [] 0#64 [.eval, .prompt, .repl] :=
    ⟨startupPrompt linearImage overlapLine, rfl⟩
  obtain ⟨e, hmade⟩ := createdA_made (text " -24 ALLOT CREATE A")
  have hlex : nextWord 64 overlapLine = (text "CREATE", text " A -24 ALLOT CREATE A") := rfl
  have hname : nextWord 64 (text " A -24 ALLOT CREATE A") =
      ([chr 'A'], text " -24 ALLOT CREATE A") := rfl
  have hfirst := createdA_links (m := m) (F := [.prompt, .repl]) hlex hname
  rw [hm]
  generalize startup linearImage = s at *
  generalize createdA (text " -24 ALLOT CREATE A") = d at *
  have hdictTop : dictVirtBase + 64 * 128 + 1024 < 2 ^ 64 := by decide
  have hlow := hmade.low
  have hhigh := hmade.high
  have hhere := hmade.here
  -- `-24 ALLOT`
  have hpush := Via.single (Q := fun _ => True) trivial (hmade.push (m := m) (F := [.prompt, .repl])
    (p := text " ALLOT CREATE A") (w := text "-24") (v := -24#64) rfl (by decide) rfl (by decide)
    (by decide))
  have hback : d.dictHere + -24#64 = e := by
    apply BitVec.eq_of_toNat_eq
    rw [BitVec.toNat_add, hhere]
    have hneg : (-24#64 : Cell).toNat = 2 ^ 64 - 24 := rfl
    omega
  obtain ⟨old, hold⟩ := hmade.found (text "ALLOT") _ rfl (by decide)
  have hallot : Finds linearImage { d.at (text " ALLOT CREATE A") with ds := [-24#64] }
      (text "ALLOT") .wAllot 0#8 old := hold _ rfl rfl (show e.toNat ≤ d.dictHere.toNat by omega)
  have hmove : Via (step linearImage) (fun _ => True)
      (m.conf { d.at (text " ALLOT CREATE A") with ds := [-24#64] } [] 0#64 [.eval, .prompt, .repl])
      (m.conf { d.at (text " CREATE A") with ds := [], dictHere := e } [] 0#64
        [.eval, .prompt, .repl]) := by
    refine eval_finds (p := text " CREATE A") hallot rfl (by decide) (Or.inl hmade.mode) rfl ?_
    rw [← hback]
    rfl
  -- `CREATE A` once more, at the same place
  obtain ⟨old', hold'⟩ := hmade.found (text "CREATE") _ rfl (by decide)
  have hcreate : Finds linearImage { d.at (text " CREATE A") with ds := [], dictHere := e }
      (text "CREATE") .wCreate 0#8 old' := hold' _ rfl rfl (Nat.le_refl _)
  have hagain : Via (step linearImage) (fun _ => True)
      (m.conf { d.at (text " CREATE A") with ds := [], dictHere := e } [] 0#64
        [.eval, .prompt, .repl])
      (m.conf ((({ d.at [] with ds := [], dictHere := e } : Data).dictCreate [chr 'A'] 0#8).dictSetCode
        (linearImage.addr .doVariable)) [] 0#64 [.eval, .prompt, .repl]) :=
    eval_finds (p := text " A") hcreate rfl (by decide) (Or.inl hmade.mode) rfl
      (wCreate_run rfl (by simp))
  obtain ⟨hcreated, hname, -⟩ := created_letter (d := { d.at [] with ds := [], dictHere := e })
    (c := chr 'A') (linearImage.addr .doVariable) (by dsimp only; omega)
  have hsameEntry : alignCell e = e := by
    have halign := hmade.aligned
    apply BitVec.eq_of_toNat_eq
    rw [alignCell_toNat (by omega)]
    omega
  dsimp only at hcreated hname
  rw [hsameEntry] at hcreated hname
  generalize (({ d.at [] with ds := [], dictHere := e } : Data).dictCreate [chr 'A'] 0#8).dictSetCode
    (linearImage.addr .doVariable) = d' at hagain hcreated hname
  have hlink : cellAt d'.mem e = e := hcreated.link.trans hmade.latest
  obtain ⟨hlatest, hparse⟩ : d'.dictLatest = e ∧ d'.parsePtr = [] := by
    obtain ⟨m', here', hsame'⟩ := hcreated.same
    rw [hsame']
    exact ⟨rfl, rfl⟩
  have hne := ne_zero_of_base_le hlow
  refine ⟨_, (via_of_links hfirst).trans (hpush.trans (hmove.trans hagain)), rfl, hparse, ?_, ?_⟩
  · refine not_wellFounded_self ?_ ?_
    · exact hlatest ▸ hne
    · exact hlatest.symm ▸ hlink
  · have hmatch : nameMatches d'.mem e (text "B") = false := by
      rw [nameMatches, hname]
      decide
    have hloop := dictFindFrom_self hne hlink hmatch chainFuel
    rw [← hlatest] at hloop
    exact hloop

end VectorForth.Forth
