import VectorForth.Kernel.Stdlib
import VectorForth.Vm.Links
import VectorForth.Vm.Modes
import VectorForth.Vm.See

/-!
# What the machine shows of itself

`.S` prints the stack as text that puts the same stack there again when it is
evaluated. `WORDS` prints the visible names, newest first: the tokens of its
output, and just these, are what `dict_find` finds, up to letter case.
-/

namespace VectorForth.Forth

open ByteMemory LabelledRun

/-! ## `.S` -/

/-- The stack as `.S` prints it, the top last. -/
def stackText (ds : List Cell) : Text := spaced (ds.reverse.map (ltoa · 10))

def depthText (ds : List Cell) : Text :=
  text "<" ++ itoa (BitVec.ofNat 32 ds.length) 10 ++ text "> "

section Stack

variable {img : Image} {m : Machine} {d : Data} {rs : List Cell} {ip : Cell} {F : List Frame}
  {sp rest : Text} {vs : List Cell}

theorem wDotS_run (d : Data) :
    wDotS.run d = some ((), d.puts (depthText d.ds ++ stackText d.ds)) := by
  have hspaced : (d.ds.reverse.flatMap fun v => ltoa v 10 ++ [chr ' ']) = stackText d.ds := by
    rw [stackText, spaced, List.flatMap_map]
  have hrun : wDotS.run d = some ((), (d.puts (depthText d.ds)).puts
      (d.ds.reverse.flatMap fun v => ltoa v 10 ++ [chr ' '])) := rfl
  rw [hrun, hspaced, puts_puts]

theorem ltoa_unbroken (v : Cell) : Unbroken (ltoa v 10) := by
  constructor
  · exact ltoa_ne_nil (by decide) (by decide) v
  · exact ltoa_token (by decide) (by decide) v

theorem ltoa_parses (v : Cell) : tryParseNumber 10 (ltoa v 10) = some v := by
  obtain ⟨hne, htoken⟩ := ltoa_unbroken v
  apply (tryParseNumber_iff (by decide) htoken).mpr
  exact ⟨[], _, _, rfl, .current, hne, signed_ltoa (by decide) (by decide) v⟩

/-- Numbers in a text are pushed from left to right. -/
theorem numbers_push (hsp : ∀ c ∈ sp, isspace c = true) (hmode : d.forthState = .interpret)
    (hbase : d.forthBase = 10) (hnames : ∀ v ∈ vs, dictFind d (ltoa v 10) = some 0#64)
    (hroom : d.ds.length + vs.length ≤ dataStackSize) :
    ∃ q, (∀ c ∈ q, isspace c = true) ∧ Via (step img) (fun _ => True)
      (m.conf (d.at (sp ++ spaced (vs.map (ltoa · 10)))) rs ip (.eval :: F))
      (m.conf ((d.withStack (vs.reverse ++ d.ds)).at q) rs ip (.eval :: F)) := by
  induction vs generalizing d sp with
  | nil =>
      refine ⟨sp, hsp, ?_⟩
      rw [List.map_nil, spaced, List.flatMap_nil, List.append_nil]
      exact Via.refl _
  | cons v vs ih =>
      have htext : spaced ((v :: vs).map (ltoa · 10)) =
          ltoa v 10 ++ ([chr ' '] ++ spaced (vs.map (ltoa · 10))) := by simp [spaced]
      have hlex : nextWord 64 (d.at (sp ++ spaced ((v :: vs).map (ltoa · 10)))).parsePtr =
          (ltoa v 10, [chr ' '] ++ spaced (vs.map (ltoa · 10))) := by
        rw [htext]
        refine nextWord_unbroken hsp (ltoa_unbroken v) (length_ltoa v) ?_
        rintro c ⟨⟩
        rfl
      have hnum : tryParseNumber d.forthBase (ltoa v 10) = some v := by
        rw [hbase]
        exact ltoa_parses v
      rw [List.length_cons] at hroom
      have hpush : (d.at ([chr ' '] ++ spaced (vs.map (ltoa · 10)))).dsPush v =
          (d.withStack (v :: d.ds)).at ([chr ' '] ++ spaced (vs.map (ltoa · 10))) := by
        rw [dsPush_at, dsPush_eq (show d.ds.length < dataStackSize by omega)]
      obtain ⟨q, hq, hrest⟩ := ih blank_space (d := d.withStack (v :: d.ds)) hmode hbase
        (fun v' hv' => hnames v' (List.mem_cons_of_mem _ hv')) (by
          rw [Data.withStack_ds, List.length_cons]
          omega)
      refine ⟨q, hq, .head trivial (step_eval_push hlex (ltoa_unbroken v).1
        (hnames v (List.mem_cons_self ..)) hnum hmode) ?_⟩
      have hback : (d.withStack (v :: d.ds)).withStack (vs.reverse ++ (v :: d.ds)) =
          d.withStack ((v :: vs).reverse ++ d.ds) := by
        rw [List.reverse_cons, List.append_assoc]
        rfl
      rw [Data.withStack_ds, hback] at hrest
      have hsame : ∀ t, (d.at (sp ++ spaced ((v :: vs).map (ltoa · 10)))).at t = d.at t :=
        fun t => rfl
      rw [hsame, hpush]
      exact hrest

/-- **`.S` prints the stack so that it reads back.** What it prints behind the depth
puts the same stack on an empty one, at a prompt in base 10 where no word is called
like a number of the stack. -/
theorem stack_reads_back {e : Data} (hlen : d.ds.length ≤ dataStackSize) (hempty : e.ds = [])
    (hmode : e.forthState = .interpret) (hbase : e.forthBase = 10)
    (hnames : ∀ v ∈ d.ds, dictFind e (ltoa v 10) = some 0#64) :
    wDotS.run d = some ((), d.puts (depthText d.ds ++ stackText d.ds)) ∧
      ∃ q, Via (step img) (fun _ => True) (m.conf (e.at (stackText d.ds)) rs ip (.eval :: F))
        (m.conf (((e.withStack d.ds).at q).puts (text " ok\n")) rs ip F) := by
  refine ⟨wDotS_run d, ?_⟩
  have hroom : e.ds.length + d.ds.reverse.length ≤ dataStackSize := by
    rw [hempty, List.length_nil, Nat.zero_add, List.length_reverse]
    exact hlen
  have hnone : ∀ c ∈ ([] : Text), isspace c = true := fun c hc => absurd hc List.not_mem_nil
  obtain ⟨q, hq, hpushed⟩ := @numbers_push img m e rs ip F [] d.ds.reverse hnone hmode hbase
    (fun v hv => hnames v (List.mem_reverse.mp hv)) hroom
  rw [List.reverse_reverse, hempty, List.append_nil] at hpushed
  refine ⟨[], hpushed.trans (Via.single trivial ?_)⟩
  exact step_eval_end (nextWord_spaces hq) hmode

/-- A stack of two, printed by one machine and read by another without words. -/
theorem stack_reads_back_two : ∃ q,
    wDotS.run { blankData with ds := [-7#64, 5#64] } = some ((), Data.puts
      { blankData with ds := [-7#64, 5#64] } (text "<2> 5 -7 ")) ∧
    Via (step linearImage) (fun _ => True)
      ((startupPrompt linearImage []).conf (blankData.at (text "5 -7 ")) [] 0#64 [.eval])
      ((startupPrompt linearImage []).conf
        (((blankData.withStack [-7#64, 5#64]).at q).puts (text " ok\n")) [] 0#64 []) := by
  have hnames : ∀ v ∈ [-7#64, 5#64], dictFind blankData (ltoa v 10) = some 0#64 := fun _ _ => rfl
  obtain ⟨hprint, q, hread⟩ := @stack_reads_back linearImage (startupPrompt linearImage [])
    { blankData with ds := [-7#64, 5#64] } [] 0#64 [] blankData (by decide) rfl rfl rfl hnames
  exact ⟨q, hprint, hread⟩

end Stack

/-! ## `WORDS` -/

/-- The names of the visible entries from `entry` on, the newest first. -/
def visibleNames (m : Mem) : Nat → Cell → List Text
  | 0, _ => []
  | fuel + 1, entry =>
      if entry = 0#64 then []
      else if dictGetFlagsLen m entry &&& fHidden = 0#8 then
        dictGetName m entry :: visibleNames m fuel (cellAt m entry)
      else visibleNames m fuel (cellAt m entry)

/-- The names in rows of ten, with `count` names printed before, and their number. -/
def wordsText : Nat → List Text → Text
  | count, [] => text "\n" ++ (itoa (BitVec.ofNat 32 count) 10 ++ text " words total\n")
  | count, w :: ws =>
      w ++ ([chr ' '] ++ ((if (count + 1) % 10 = 0 then text "\n" else []) ++
        wordsText (count + 1) ws))

section Names

variable {m : Mem} {d : Data} {hi n fuel : Nat} {e : Cell} {name : Text} {ws : List Text}

theorem visibleNames_cons (hne : e ≠ 0#64) : visibleNames m (fuel + 1) e =
    if dictGetFlagsLen m e &&& fHidden = 0#8 then
      dictGetName m e :: visibleNames m fuel (cellAt m e)
    else visibleNames m fuel (cellAt m e) := if_neg hne

theorem listWords_end (count : Nat) (d : Data) :
    (dictListWordsFrom (fuel + 1) 0#64 count).run d = some ((), d.puts (wordsText count [])) := by
  have hrun : (dictListWordsFrom (fuel + 1) 0#64 count).run d = some ((), ((d.puts [chr '\n']).puts
      (itoa (BitVec.ofNat 32 count) 10)).puts (text " words total\n")) := rfl
  rw [hrun, puts_puts, puts_puts]
  rfl

/-- What `dict_list_words` prints of a visible entry. -/
theorem listWords_visible (hne : e ≠ 0#64) (hvisible : dictGetFlagsLen d.mem e &&& fHidden = 0#8)
    (count : Nat) : (dictListWordsFrom (fuel + 1) e count).run d =
      (dictListWordsFrom fuel (cellAt d.mem e) (count + 1)).run
        (d.puts (dictGetName d.mem e ++ ([chr ' '] ++
          (if (count + 1) % 10 = 0 then text "\n" else [])))) := by
  rw [dictListWordsFrom, if_neg hne]
  have hget : ∀ g : Data → NativeM Unit, (get >>= g).run d = (g d).run d := fun g => rfl
  have hputs : ∀ (t : Text) (g : Unit → NativeM Unit) (d : Data),
      (puts t >>= g).run d = (g ()).run (d.puts t) := fun t g d => rfl
  rw [hget]
  dsimp only
  rw [if_pos hvisible, hputs, putchar, hputs]
  split
  · rw [putchar, hputs, puts_puts, puts_puts]
    rfl
  · rw [puts_puts, List.append_nil]

theorem listWords_hidden (hne : e ≠ 0#64) (hhidden : dictGetFlagsLen d.mem e &&& fHidden ≠ 0#8)
    (count : Nat) : (dictListWordsFrom (fuel + 1) e count).run d =
      (dictListWordsFrom fuel (cellAt d.mem e) count).run d := by
  rw [dictListWordsFrom, if_neg hne]
  have hget : ∀ g : Data → NativeM Unit, (get >>= g).run d = (g d).run d := fun g => rfl
  rw [hget]
  dsimp only
  rw [if_neg hhidden]

theorem visibleNames_length {w : Text} (hw : w ∈ visibleNames m fuel e) : w.length ≤ 31 := by
  induction fuel generalizing e with
  | zero => cases hw
  | succ fuel ih =>
      by_cases hne : e = 0#64
      · rw [visibleNames, if_pos hne] at hw
        cases hw
      · rw [visibleNames_cons hne] at hw
        split at hw
        · rcases List.mem_cons.mp hw with rfl | hw
          · exact length_dictGetName m e
          · exact ih hw
        · exact ih hw

/-- `dict_list_words` prints the names along the chain. -/
theorem listWords_run (h : Chain m hi n e) (hfuel : n < fuel) (count : Nat) (hd : d.mem = m) :
    (dictListWordsFrom fuel e count).run d =
      some ((), d.puts (wordsText count (visibleNames m fuel e))) := by
  induction h generalizing fuel count d with
  | nil =>
      obtain ⟨k, rfl⟩ := Nat.exists_eq_succ_of_ne_zero (Nat.ne_of_gt hfuel)
      exact listWords_end count d
  | @cons hi n e hbase htop _ ih =>
      obtain ⟨k, rfl⟩ := Nat.exists_eq_succ_of_ne_zero (Nat.ne_of_gt (Nat.zero_lt_of_lt hfuel))
      have hne := ne_zero_of_base_le hbase
      have hk : n < k := Nat.lt_of_succ_lt_succ hfuel
      rw [visibleNames_cons hne]
      by_cases hvisible : dictGetFlagsLen m e &&& fHidden = 0#8
      · rw [if_pos hvisible, listWords_visible hne (by rwa [hd]), hd]
        have hrest := @ih (d.puts (dictGetName m e ++ ([chr ' '] ++
          (if (count + 1) % 10 = 0 then text "\n" else [])))) k hk (count + 1) hd
        rw [hrest, puts_puts, wordsText, List.append_assoc, List.append_assoc]
      · rw [listWords_hidden hne (by rwa [hd]), hd, ih hk count hd, if_neg hvisible]

/-- `dict_find` finds the names along the chain, up to letter case. -/
theorem find_iff_listed (h : Chain m hi n e) (hfuel : n < fuel) (name : Text) :
    (∃ found, dictFindFrom m name fuel e = some found ∧ found ≠ 0#64) ↔
      ∃ w ∈ visibleNames m fuel e, w.map toUpper = name.map toUpper := by
  induction h generalizing fuel with
  | nil =>
      obtain ⟨k, rfl⟩ := Nat.exists_eq_succ_of_ne_zero (Nat.ne_of_gt hfuel)
      constructor
      · rintro ⟨found, hfind, hfound⟩
        exact absurd (Option.some.inj hfind).symm hfound
      · rintro ⟨w, hw, -⟩
        cases hw
  | @cons hi n e hbase htop _ ih =>
      obtain ⟨k, rfl⟩ := Nat.exists_eq_succ_of_ne_zero (Nat.ne_of_gt (Nat.zero_lt_of_lt hfuel))
      have hne := ne_zero_of_base_le hbase
      have hrest := ih (Nat.lt_of_succ_lt_succ hfuel)
      rw [visibleNames_cons hne, dictFindFrom, if_neg hne]
      by_cases hvisible : dictGetFlagsLen m e &&& fHidden = 0#8
      · rw [if_pos hvisible]
        by_cases hmatch : nameMatches m e name = true
        · rw [if_pos ⟨hvisible, hmatch⟩]
          constructor
          · intro _
            exact ⟨_, List.mem_cons_self .., beq_iff_eq.mp hmatch⟩
          · intro _
            exact ⟨e, rfl, hne⟩
        · rw [if_neg fun hc => hmatch hc.2, hrest]
          constructor
          · rintro ⟨w, hw, heq⟩
            exact ⟨w, List.mem_cons_of_mem _ hw, heq⟩
          · rintro ⟨w, hw, heq⟩
            rcases List.mem_cons.mp hw with rfl | hw
            · exact absurd (beq_iff_eq.mpr heq) hmatch
            · exact ⟨w, hw, heq⟩
      · rw [if_neg hvisible, if_neg fun hc => hvisible hc.1, hrest]

theorem itoa_unbroken (v : BitVec 32) : Unbroken (itoa v 10) := by
  have hdigits : ∀ n : Nat, Unbroken (printed 10 n) := fun n =>
    ⟨(canonical_printed (by decide) (by decide)).nonempty, printed_token (by decide) (by decide)⟩
  rw [Stdlib.itoa_eq]
  split
  · constructor
    · exact List.cons_ne_nil _ _
    · rintro c (_ | ⟨_, hc⟩)
      · rfl
      · exact (hdigits _).2 c hc
  · exact hdigits _

/-- The tokens of what `WORDS` prints. -/
theorem wordsText_lexes (hws : ∀ w ∈ ws, Unbroken w ∧ w.length ≤ 31) {sp : Text}
    (hsp : ∀ c ∈ sp, isspace c = true) (count : Nat) : Lexes (sp ++ wordsText count ws)
      (ws ++ [itoa (BitVec.ofNat 32 (count + ws.length)) 10, text "words", text "total"])
      (text "\n") := by
  induction ws generalizing sp count with
  | nil =>
      have hlong := Stdlib.length_itoa_le (BitVec.ofNat 32 count)
      have hspace : ∀ c ∈ sp ++ text "\n", isspace c = true := by
        intro c hc
        rcases List.mem_append.mp hc with hc | hc
        · exact hsp c hc
        · rw [List.eq_of_mem_singleton hc]
          rfl
      rw [wordsText, ← List.append_assoc]
      refine .cons (nextWord_unbroken hspace (itoa_unbroken _) (by omega) ?_)
        (itoa_unbroken _).1 ?_
      · rintro c ⟨⟩
        rfl
      · have htotal : Lexes (text " total\n") [text "total"] (text "\n") :=
          .cons rfl (List.cons_ne_nil _ _) .nil
        exact .cons rfl (List.cons_ne_nil _ _) htotal
  | cons w ws ih =>
      obtain ⟨hw, hlen⟩ := hws w (List.mem_cons_self ..)
      have hblank : ∀ c ∈ [chr ' '] ++ (if (count + 1) % 10 = 0 then text "\n" else []),
          isspace c = true := by
        intro c hc
        rcases List.mem_append.mp hc with hc | hc
        · exact blank_space c hc
        · split at hc
          · rw [List.eq_of_mem_singleton hc]
            rfl
          · cases hc
      have hrest := ih (fun w' hw' => hws w' (List.mem_cons_of_mem _ hw')) hblank (count + 1)
      have hcount : count + 1 + ws.length = count + (w :: ws).length := by
        rw [List.length_cons]
        omega
      rw [hcount, List.append_assoc] at hrest
      refine .cons (nextWord_unbroken hsp hw (by omega) ?_) hw.1 hrest
      rintro c ⟨⟩
      rfl

/-- The names along a chain depend on the memory below its end only. -/
theorem Chain.visible_congr {m' : Mem} {fuel' : Nat} (h : Chain m hi n e)
    (hm : ∀ x, x < hi → m' x = m x) (hfuel : n < fuel) (hfuel' : n < fuel') :
    visibleNames m' fuel' e = visibleNames m fuel e := by
  induction h generalizing fuel fuel' with
  | nil =>
      obtain ⟨k, rfl⟩ := Nat.exists_eq_succ_of_ne_zero (Nat.ne_of_gt hfuel)
      obtain ⟨k', rfl⟩ := Nat.exists_eq_succ_of_ne_zero (Nat.ne_of_gt hfuel')
      rfl
  | @cons hi n e hbase htop _ ih =>
      obtain ⟨k, rfl⟩ := Nat.exists_eq_succ_of_ne_zero (Nat.ne_of_gt (Nat.zero_lt_of_lt hfuel))
      obtain ⟨k', rfl⟩ := Nat.exists_eq_succ_of_ne_zero (Nat.ne_of_gt (Nat.zero_lt_of_lt hfuel'))
      obtain ⟨hlink, hflags, hname⟩ := header_congr hm htop
      have hne := ne_zero_of_base_le hbase
      have hrest := ih (fun x hx => hm x (by omega)) (Nat.lt_of_succ_lt_succ hfuel)
        (Nat.lt_of_succ_lt_succ hfuel')
      rw [visibleNames_cons hne, visibleNames_cons hne, hlink, hflags, hname, hrest]

end Names

/-- The names that `dict_find` goes through. -/
def visible (d : Data) : List Text := visibleNames d.mem chainFuel d.dictLatest

section Table

variable {img : Image} {words : Words} {P : Set Nat} {d d' : Data} {e code : Cell} {flags : Byte}
  {new : Text}

/-- A new visible entry comes in front. -/
theorem Created.visible (h : Created d d' e code flags) (hd : AtPrompt img words P d)
    (hle : d.dictHere.toNat ≤ e.toNat) (hvisible : flags &&& fHidden = 0#8)
    (hnew : dictGetName d'.mem e = new) : Forth.visible d' = new :: Forth.visible d := by
  obtain ⟨n, hchain⟩ := hd.chain
  have hlatest : d'.dictLatest = e := by
    obtain ⟨m, here, hsame⟩ := h.same
    rw [hsame]
  have hlow := hd.low
  have hne := ne_zero_of_base_le (e := e) (by omega)
  have hlength := hchain.length_lt hd.high
  have hrest : visibleNames d'.mem (chainFuel - 1) d.dictLatest = Forth.visible d :=
    hchain.visible_congr (fun x hx => h.frame x (by omega)) (by omega) (by omega)
  have hfuel : chainFuel = (chainFuel - 1) + 1 := by omega
  rw [Forth.visible, hlatest, hfuel, visibleNames_cons hne, if_pos (h.flags_eq.1.trans hvisible),
    hnew, h.link, hrest]

/-- Of a table of primitives, the names are seen from the end. -/
theorem registerAll_visible (ps : List Primitive) (hd : AtPrompt img words P d)
    (hplain : ∀ p ∈ ps, Plain p)
    (hroom : d.dictHere.toNat + 64 * ps.length ≤ dictVirtBase + dictSize) :
    visible (registerAll img ps d) = (ps.map (text ·.name)).reverse ++ visible d := by
  induction ps using List.reverseRecOn with
  | nil => rw [List.map_nil, List.reverse_nil, List.nil_append, registerAll, List.foldl_nil]
  | append_singleton ps p ih =>
      rw [List.length_append, List.length_singleton] at hroom
      have hplain' : ∀ q ∈ ps, Plain q := fun q hq => hplain q (List.mem_append_left _ hq)
      have hseen := ih hplain' (by omega)
      obtain ⟨words₁, P₁, hd₁, htable⟩ := registerAll_table ps hd hplain' (by omega)
      obtain ⟨hlength, hflags⟩ := hplain p (by simp)
      have hall : registerAll img (ps ++ [p]) d =
          (registerAll img ps d).dictAddPrimitive img p.name p.fn p.flags := by
        rw [registerAll, List.foldl_append]
        rfl
      have htop := htable.top
      have hdictTop : dictVirtBase + dictSize + 1024 < 2 ^ 64 := by decide
      rw [hall, List.map_append, List.reverse_append, List.append_assoc, ← hseen]
      generalize registerAll img ps d = d₁ at hd₁ htop
      have halign := alignCell_toNat (a := d₁.dictHere) (by omega)
      have hone : visible (d₁.dictAddPrimitive img p.name p.fn p.flags) =
          text p.name :: visible d₁ :=
        Created.visible (dictCreate_spec (by omega)) hd₁ (by omega) hflags
          (dictCreate_name (by omega) hlength)
      rw [hone, List.map_singleton, List.reverse_singleton, List.singleton_append]

theorem startup_visible (img : Image) :
    visible (startup img) = (primitives.map (text ·.name)).reverse := by
  have hempty : AtPrompt img (fun _ => none) ∅ blankData := atPrompt_empty rfl rfl rfl
  have hplain : ∀ p ∈ primitives, Plain p := by decide
  have hlen : primitives.length ≤ 128 := by decide
  have hbase : blankData.dictHere.toNat = dictVirtBase := rfl
  have hdict : dictVirtBase + 64 * 128 ≤ dictVirtBase + dictSize := by decide
  have hstart : startup img = registerAll img primitives blankData := rfl
  have hnone : visible blankData = [] := rfl
  rw [hstart]
  generalize primitives = ps at hplain hlen
  rw [registerAll_visible ps hempty hplain (by omega), hnone, List.append_nil]

end Table

/-- **`WORDS` shows what is found.** It ends, its tokens are the names of the visible
entries and their number, and `dict_find` finds just these names, up to letter
case. -/
theorem words_lists {d : Data} (h : Rooted d) (hhigh : d.dictHere.toNat ≤ dictVirtBase + dictSize)
    (hnames : ∀ w ∈ visible d, Unbroken w) : ∃ out, wWords.run d = some ((), d.puts out) ∧
      Lexes out (visible d ++ [itoa (BitVec.ofNat 32 (visible d).length) 10, text "words",
        text "total"]) (text "\n") ∧
      ∀ name, (∃ e, dictFind d name = some e ∧ e ≠ 0#64) ↔
        ∃ w ∈ visible d, w.map toUpper = name.map toUpper := by
  obtain ⟨n, hchain⟩ := h.chain
  have hlength := (hchain.mono h.fits).length_lt hhigh
  have hshort : ∀ w ∈ visible d, Unbroken w ∧ w.length ≤ 31 := by
    intro w hw
    exact ⟨hnames w hw, visibleNames_length hw⟩
  refine ⟨wordsText 0 (visible d), ?_, ?_, ?_⟩
  · exact listWords_run hchain (by omega) 0 rfl
  · have hnone : ∀ c ∈ ([] : Text), isspace c = true := fun c hc => absurd hc List.not_mem_nil
    have hlexes := wordsText_lexes hshort hnone 0
    rwa [Nat.zero_add] at hlexes
  · exact find_iff_listed hchain (by omega)

/-- At the first prompt `WORDS` shows the table of primitives. -/
theorem words_lists_startup : ∃ out, wWords.run (startup linearImage) =
      some ((), (startup linearImage).puts out) ∧
    Lexes out ((primitives.map (text ·.name)).reverse ++
      [itoa (BitVec.ofNat 32 primitives.length) 10, text "words", text "total"]) (text "\n") := by
  obtain ⟨words, P, hprompt, -, -⟩ := startup_spec linearImage
  have hseen := startup_visible linearImage
  have hlength : (visible (startup linearImage)).length = primitives.length := by
    rw [hseen, List.length_reverse, List.length_map]
  have hunbroken : ∀ w ∈ visible (startup linearImage), Unbroken w := by
    rw [hseen]
    intro w hw
    have hall : ∀ p ∈ primitives, text p.name ≠ [] ∧ (text p.name).all (!isspace ·) = true := by
      decide +kernel
    obtain ⟨p, hp, rfl⟩ := List.mem_map.mp (List.mem_reverse.mp hw)
    obtain ⟨hne, hblank⟩ := hall p hp
    refine ⟨hne, ?_⟩
    intro c hc
    simpa using List.all_eq_true.mp hblank c hc
  generalize startup linearImage = d at *
  obtain ⟨out, hrun, hlexes, -⟩ :=
    words_lists (rooted_of_atPrompt hprompt) hprompt.high hunbroken
  rw [hlength, hseen] at hlexes
  exact ⟨out, hrun, hlexes⟩

end VectorForth.Forth
