import VectorForth.Lib.Segments
import VectorForth.Vm.Startup

/-!
# What the parser takes from a text

`parse_word` and `parse_until` copy into buffers of fixed sizes and stop when
the buffer is full. Where it never fills up, the tokens of a text are its
maximal runs of non-space characters, and a comment or a string ends at its
delimiter. Where it does, the rest of the token, of the comment or of the string
is read as source.
-/

namespace VectorForth.Forth

open ByteMemory LabelledRun Segments

/-! ## Tokens -/

/-- Calls of `parse_word` as in the loop of `forth_eval`, until one returns
nothing; at most `fuel` of them. -/
def parseWordsFrom : Nat → NativeM (List Text)
  | 0 => pure []
  | fuel + 1 => do
      let token ← parseWord 64
      if token = [] then return []
      return token :: (← parseWordsFrom fuel)

/-- All tokens of the text; each takes at least one character. -/
def parseWords : NativeM (List Text) := do parseWordsFrom ((← get).parsePtr.length + 1)

section Tokens

variable {d : Data} {p p' q w : Text} {ws : List Text} {n : Nat}

/-- A token is the front part of the run after the white space. -/
theorem nextWord_split (h : nextWord n p = (w, p')) :
    w = ((p.dropWhile isspace).takeWhile fun c => !isspace c).take (n - 1) ∧
      w ++ p' = p.dropWhile isspace := by
  unfold nextWord at h
  obtain ⟨rfl, rfl⟩ := Prod.mk.inj h
  exact ⟨rfl, List.prefix_iff_eq_append.mp
    ((List.take_prefix _ _).trans (List.takeWhile_prefix _))⟩

/-- Only white space yields no token. -/
theorem nextWord_nil (h : nextWord 64 p = ([], p')) : p' = [] ∧ ∀ c ∈ p, isspace c = true := by
  obtain ⟨hw, hsplit⟩ := nextWord_split h
  have hrun : p.dropWhile isspace = [] := by
    cases ht : p.dropWhile isspace with
    | nil => rfl
    | cons c t =>
        have hc : isspace c = false := by
          have := List.head?_dropWhile_not isspace p
          rw [ht] at this
          simpa using this
        rw [ht, List.takeWhile_cons_of_pos (by simp [hc])] at hw
        cases hw
  rw [hrun] at hsplit
  exact ⟨hsplit, List.dropWhile_eq_nil_iff.mp hrun⟩

/-- Unless the buffer is full, the token is the first run of the text. -/
theorem nextWord_segment (h : nextWord 64 p = (w, p')) (hw : w ≠ [])
    (hshort : ∀ s ∈ segments isspace p, s.length ≤ 63) :
    segments isspace p = w :: segments isspace p' := by
  obtain ⟨hfront, hsplit⟩ := nextWord_split h
  rw [← segments_dropWhile] at hshort ⊢
  generalize p.dropWhile isspace = t at hfront hsplit hshort ⊢
  have hne : (t.takeWhile fun c => !isspace c) ≠ [] := by
    intro hnil
    rw [hnil, List.take_nil] at hfront
    exact hw hfront
  have hsegments := segments_takeWhile hne
  rw [hsegments] at hshort ⊢
  have hlen := hshort _ (List.mem_cons_self ..)
  rw [List.take_of_length_le hlen] at hfront
  have hrest : p' = t.dropWhile fun c => !isspace c := by
    refine List.append_cancel_left (hsplit.trans ?_)
    rw [hfront, List.takeWhile_append_dropWhile]
  rw [hfront, hrest]

/-- No character of a token is white space, and none that follows is lost. -/
theorem nextWord_filter (h : nextWord n p = (w, p')) :
    w ++ (p'.filter fun c => !isspace c) = p.filter fun c => !isspace c := by
  obtain ⟨hfront, hsplit⟩ := nextWord_split h
  have hword : w.filter (fun c => !isspace c) = w := by
    rw [List.filter_eq_self]
    intro c hc
    rw [hfront] at hc
    have hc' := List.mem_of_mem_take hc
    exact List.mem_takeWhile_imp (p := fun c => !isspace c) hc'
  have hspace : (p.takeWhile isspace).filter (fun c => !isspace c) = [] := by
    rw [List.filter_eq_nil_iff]
    intro c hc
    simp [List.mem_takeWhile_imp hc]
  calc w ++ (p'.filter fun c => !isspace c)
      = (w ++ p').filter fun c => !isspace c := by rw [List.filter_append, hword]
    _ = (p.takeWhile isspace ++ p.dropWhile isspace).filter fun c => !isspace c := by
        rw [hsplit, List.filter_append, hspace, List.nil_append]
    _ = p.filter fun c => !isspace c := by rw [List.takeWhile_append_dropWhile]

/-- The loop ends by itself, when only white space is left. -/
theorem parseWordsFrom_run {fuel : Nat} (hfuel : d.parsePtr.length < fuel) :
    ∃ ws q, (parseWordsFrom fuel).run d = some (ws, d.at []) ∧ Lexes d.parsePtr ws q ∧
      nextWord 64 q = ([], []) := by
  induction fuel generalizing d with
  | zero => omega
  | succ fuel ih =>
      cases h : nextWord 64 d.parsePtr with
      | mk w p' =>
      have hparse : (parseWord 64).run d = some (w, d.at p') := by
        show some ((nextWord 64 d.parsePtr).1, d.at (nextWord 64 d.parsePtr).2) = _
        rw [h]
      by_cases hw : w = []
      · subst hw
        obtain ⟨rfl, -⟩ := nextWord_nil h
        refine ⟨[], d.parsePtr, ?_, .nil, h⟩
        rw [parseWordsFrom, StateT.run_bind, hparse]
        rfl
      · have hlen : p'.length < d.parsePtr.length := by
          have hsplit := congrArg List.length (nextWord_split h).2
          have hdrop := (List.dropWhile_suffix isspace (l := d.parsePtr)).length_le
          have hpos := List.length_pos_iff.mpr hw
          rw [List.length_append] at hsplit
          omega
        obtain ⟨ws, q, hrun, hlex, hend⟩ := ih (d := d.at p') (by show p'.length < fuel; omega)
        refine ⟨w :: ws, q, ?_, .cons h hw hlex, hend⟩
        rw [parseWordsFrom, StateT.run_bind, hparse]
        simp only [hw, if_false, Option.bind_eq_bind, Option.bind_some]
        rw [StateT.run_bind, hrun]
        rfl

/-- Every token fits the buffer. -/
theorem Lexes.short (h : Lexes p ws q) : ∀ w ∈ ws, w.length ≤ 63 := by
  induction h with
  | nil => exact fun w hw => absurd hw List.not_mem_nil
  | cons hnext _ _ ih =>
      intro v hv
      rcases List.mem_cons.mp hv with rfl | hv
      · exact length_nextWord hnext
      · exact ih v hv

/-- Short runs are the tokens: induction on the tokens. -/
theorem Lexes.eq_segments (h : Lexes p ws q) (hend : nextWord 64 q = ([], []))
    (hshort : ∀ s ∈ segments isspace p, s.length ≤ 63) : ws = segments isspace p := by
  induction h with
  | nil => rw [segments_eq_nil (nextWord_nil hend).2]
  | cons hnext hw _ ih =>
      have hfirst := nextWord_segment hnext hw hshort
      rw [hfirst] at hshort ⊢
      rw [← ih hend fun s hs => hshort s (List.mem_cons_of_mem _ hs)]

/-- Whatever their lengths, the tokens hold the non-space characters in order. -/
theorem Lexes.flatten (h : Lexes p ws q) (hend : nextWord 64 q = ([], [])) :
    ws.flatten = p.filter fun c => !isspace c := by
  induction h with
  | @nil p =>
      symm
      rw [List.flatten_nil, List.filter_eq_nil_iff]
      intro c hc
      simp [(nextWord_nil hend).2 c hc]
  | cons hnext _ _ ih => rw [List.flatten_cons, ih hend, nextWord_filter hnext]

theorem lexes_eq_iff (h : Lexes p ws q) (hend : nextWord 64 q = ([], [])) :
    ws = segments isspace p ↔ ∀ s ∈ segments isspace p, s.length ≤ 63 := by
  constructor
  · rintro rfl
    exact h.short
  · exact h.eq_segments hend

/-- **The tokens are the maximal runs of non-space characters** exactly when no
run is longer than 63. -/
theorem parseWords_iff (d : Data) : ∃ tokens, parseWords.run d = some (tokens, d.at []) ∧
    (tokens = segments isspace d.parsePtr ↔
      ∀ run ∈ segments isspace d.parsePtr, run.length ≤ 63) := by
  obtain ⟨ws, q, hrun, hlex, hend⟩ := parseWordsFrom_run (d := d) (Nat.lt_succ_self _)
  exact ⟨ws, hrun, lexes_eq_iff hlex hend⟩

/-- 64 characters without a space between them are seen as two words. -/
theorem long_token_split : ∃ tokens d',
    parseWords.run (blankData.at (List.replicate 64 (chr '1'))) = some (tokens, d') ∧
      tokens = [List.replicate 63 (chr '1'), [chr '1']] ∧
      segments isspace (List.replicate 64 (chr '1')) = [List.replicate 64 (chr '1')] :=
  ⟨_, _, rfl, by decide, by decide⟩

end Tokens

/-! ## Comments and strings -/

section Enclosed

variable {d : Data} {delim : Byte} {p q : Text} {n : Nat}

/-- The text after the blank that closes a token. -/
def afterBlank (p : Text) : Text := if p.head? = some (chr ' ') then p.tail else p

/-- What stands before the first `delim`. -/
def enclosed (delim : Byte) (p : Text) : Text := (afterBlank p).takeWhile fun c => c != delim

/-- What follows the first `delim`; nothing if there is none. -/
def beyond (delim : Byte) (p : Text) : Text :=
  ((afterBlank p).dropWhile fun c => c != delim).drop 1

theorem nextUntil_eq : nextUntil delim n p =
    ((enclosed delim p).take (n - 1),
      let rest := (afterBlank p).drop ((enclosed delim p).take (n - 1)).length
      if rest.head? = some delim then rest.tail else rest) := rfl

/-- `parse_until` finds the delimiter if the buffer holds what stands before it. -/
theorem nextUntil_short (h : (enclosed delim p).length ≤ n - 1) :
    nextUntil delim n p = (enclosed delim p, beyond delim p) := by
  have hsplit : enclosed delim p ++ (afterBlank p).dropWhile (fun c => c != delim) = afterBlank p :=
    List.takeWhile_append_dropWhile
  have hrest : (afterBlank p).drop (enclosed delim p).length =
      (afterBlank p).dropWhile fun c => c != delim := by
    conv_lhs => rw [← hsplit]
    exact List.drop_left
  rw [nextUntil_eq, List.take_of_length_le h]
  dsimp only
  rw [hrest, beyond]
  cases hdrop : (afterBlank p).dropWhile fun c => c != delim with
  | nil => rfl
  | cons c t =>
      have hc : c = delim := by
        have := List.head?_dropWhile_not (fun c => c != delim) (afterBlank p)
        rw [hdrop] at this
        simpa using this
      rw [hc, List.head?_cons, if_pos rfl]
      rfl

/-- Otherwise it stops in front of it. -/
theorem nextUntil_long (h : n - 1 < (enclosed delim p).length) :
    (nextUntil delim n p).2 ≠ beyond delim p := by
  have hsplit : enclosed delim p ++ (afterBlank p).dropWhile (fun c => c != delim) = afterBlank p :=
    List.takeWhile_append_dropWhile
  have hstop : ∃ c rest, (afterBlank p).drop (n - 1) = c :: rest ∧ c ≠ delim := by
    refine ⟨(enclosed delim p)[n - 1], (enclosed delim p).drop (n - 1 + 1) ++
      (afterBlank p).dropWhile (fun c => c != delim), ?_, ?_⟩
    · rw [← List.cons_append, ← List.drop_eq_getElem_cons h, ← List.drop_append_of_le_length h.le,
        hsplit]
    · have := List.mem_takeWhile_imp (p := fun c => c != delim) (List.getElem_mem h)
      simpa using this
  obtain ⟨c, rest, hdrop, hc⟩ := hstop
  have hrest : (nextUntil delim n p).2 = (afterBlank p).drop (n - 1) := by
    rw [nextUntil_eq]
    dsimp only
    rw [List.length_take_of_le h.le, hdrop, List.head?_cons, if_neg (fun h => hc (Option.some.inj h))]
  intro heq
  have hlen := congrArg List.length (hrest.symm.trans heq)
  have htotal := congrArg List.length hsplit
  rw [beyond, List.length_drop, List.length_drop] at hlen
  rw [List.length_append] at htotal
  omega

/-- What `parse_until` returns is what stands before the delimiter, and it stops
behind it, exactly when the buffer holds the one. -/
theorem nextUntil_iff (hn : 0 < n) :
    nextUntil delim n p = (enclosed delim p, beyond delim p) ↔ (enclosed delim p).length < n := by
  constructor
  · intro h
    by_contra hlong
    exact nextUntil_long (n := n) (by omega) (congrArg Prod.snd h)
  · intro hshort
    exact nextUntil_short (by omega)

/-- The words that read on to a delimiter, with the sizes of their buffers. -/
def CFun.encloses : CFun → Option (Byte × Nat)
  | .wParen => some (chr ')', 256)
  | .wDotQuote => some (chr '"', 128)
  | _ => none

/-- What they print of it. -/
def CFun.shows : CFun → Text → Text
  | .wDotQuote, t => t
  | _, _ => []

variable {img : Image} {m : Machine} {rs : List Cell} {ip e : Cell} {F : List Frame} {w : Text}
  {f : CFun}

/-- The word itself. -/
theorem dataWord_encloses (hf : f.encloses = some (delim, n)) : ∃ g, dataWord img f = some g ∧
    g.run d = some ((), (d.at (nextUntil delim n d.parsePtr).2).puts
      (f.shows (nextUntil delim n d.parsePtr).1)) := by
  cases f <;> cases hf
  case wParen =>
    refine ⟨_, rfl, ?_⟩
    have hshows : ∀ t, CFun.shows .wParen t = [] := fun _ => rfl
    rw [hshows, Data.puts, List.map_nil, List.append_nil]
    rfl
  case wDotQuote => exact ⟨_, rfl, rfl⟩

/-- `forth_eval` on a token that stands for one of them: the token is read, then
the word is called. -/
theorem eval_encloses (hlex : nextWord 64 d.parsePtr = (w, p)) (hw : w ≠ [])
    (hfind : dictFind d w = some e) (he : e ≠ 0#64)
    (hrun : d.forthState = .interpret ∨ dictGetFlags d.mem e &&& fImmediate ≠ 0#8)
    (hcode : cellAt d.mem (dictGetCodeField d.mem e) = img.addr f)
    (hf : f.encloses = some (delim, n)) :
    steps img 2 (m.conf d rs ip (.eval :: F)) =
      some (m.conf ((d.at (nextUntil delim n p).2).puts (f.shows (nextUntil delim n p).1)) rs ip
        (.eval :: F)) := by
  obtain ⟨g, hg, hrest⟩ : ∃ g, dataWord img f = some g ∧ g.run (d.at p) =
      some ((), ((d.at p).at (nextUntil delim n p).2).puts (f.shows (nextUntil delim n p).1)) :=
    dataWord_encloses hf
  obtain ⟨hread, hcall⟩ := @step_eval_calls img d p m rs ip e F w hlex hw hfind he hrun f g _ hcode
    hg hrest
  rw [steps, hread, Option.bind_some, steps, hcall, Option.bind_some, steps]
  rfl

/-- **A comment or a string is consumed to its delimiter**, what a string holds
is printed, and `forth_eval` goes on behind the delimiter, exactly when the
buffer holds what is enclosed. -/
theorem eval_encloses_iff (hlex : nextWord 64 d.parsePtr = (w, p)) (hw : w ≠ [])
    (hfind : dictFind d w = some e) (he : e ≠ 0#64)
    (hrun : d.forthState = .interpret ∨ dictGetFlags d.mem e &&& fImmediate ≠ 0#8)
    (hcode : cellAt d.mem (dictGetCodeField d.mem e) = img.addr f)
    (hf : f.encloses = some (delim, n)) :
    steps img 2 (m.conf d rs ip (.eval :: F)) =
        some (m.conf ((d.at (beyond delim p)).puts (f.shows (enclosed delim p))) rs ip
          (.eval :: F)) ↔
      (enclosed delim p).length < n := by
  have hn : 0 < n := by
    cases f <;> cases hf <;> decide
  rw [eval_encloses hlex hw hfind he hrun hcode hf, ← nextUntil_iff hn]
  constructor
  · intro h
    by_contra hne
    have hlong : n - 1 < (enclosed delim p).length := by
      rw [nextUntil_iff hn] at hne
      omega
    exact nextUntil_long hlong (congrArg (fun m : Machine => m.vm.data.parsePtr) (Option.some.inj h))
  · intro h
    rw [h]

/-- `." hi" DUP` at the first prompt. -/
theorem eval_encloses_hi : ∃ d, d = (startup linearImage).at (text ".\" hi\" DUP") ∧
    steps linearImage 2 ((startupPrompt linearImage []).conf d [] 0#64 [.eval, .prompt]) =
      some ((startupPrompt linearImage []).conf ((d.at (text " DUP")).puts (text "hi")) [] 0#64
        [.eval, .prompt]) := by
  obtain ⟨words, P, hprompt, -, hfound, -⟩ := startup_spec linearImage
  obtain ⟨e, he⟩ := hfound (text ".\"") ⟨".\"", .wDotQuote, fImmediate⟩ rfl
  have hlex : nextWord 64 (text ".\" hi\" DUP") = (text ".\"", text " hi\" DUP") := by decide
  have hat := he.at (text ".\" hi\" DUP")
  refine ⟨_, rfl, ?_⟩
  exact (eval_encloses_iff (d := (startup linearImage).at (text ".\" hi\" DUP")) (f := .wDotQuote)
    hlex (by decide) hat.find (ne_zero_of_base_le he.low) (Or.inl (hprompt.at _).mode) hat.code rfl).mpr
    (by decide)

/-- `."` at the first prompt. -/
theorem startup_string {line p : Text} (hlex : nextWord 64 line = (text ".\"", p)) :
    ∃ m', steps linearImage 2 (startupPrompt linearImage line) = some m' ∧
      m'.frames = [.eval, .prompt, .repl] ∧
      m'.vm.data.parsePtr = (nextUntil (chr '"') 128 p).2 := by
  obtain ⟨words, P, hprompt, -, hfound, -⟩ := startup_spec linearImage
  obtain ⟨e, he⟩ := hfound (text ".\"") ⟨".\"", .wDotQuote, fImmediate⟩ rfl
  have hat := he.at line
  have hconf : (startupPrompt linearImage line).conf ((startup linearImage).at line) [] 0#64
      [.eval, .prompt, .repl] = startupPrompt linearImage line := rfl
  have heval : steps linearImage 2 ((startupPrompt linearImage line).conf
      ((startup linearImage).at line) [] 0#64 [.eval, .prompt, .repl]) =
      some ((startupPrompt linearImage line).conf
        ((((startup linearImage).at line).at (nextUntil (chr '"') 128 p).2).puts
          (nextUntil (chr '"') 128 p).1) [] 0#64 [.eval, .prompt, .repl]) :=
    eval_encloses (f := .wDotQuote) hlex (by decide) hat.find (ne_zero_of_base_le he.low)
      (Or.inl (hprompt.at line).mode) hat.code rfl
  rw [hconf] at heval
  exact ⟨_, heval, rfl, rfl⟩

/-- A line whose string is longer than the buffer. -/
def longString : Text := text ".\" " ++ List.replicate 127 (chr 'x') ++ text " BYE \""

/-- The end of the string is left to be interpreted. -/
theorem long_string_runs : ∃ m', steps linearImage 2 (startupPrompt linearImage longString) = some m' ∧
    m'.frames = [.eval, .prompt, .repl] ∧ m'.vm.data.parsePtr = text " BYE \"" ∧
    beyond (chr '"') (longString.drop 2) = [] := by
  have hlex : nextWord 64 longString = (text ".\"", longString.drop 2) := by decide +kernel
  have hrest : (nextUntil (chr '"') 128 (longString.drop 2)).2 = text " BYE \"" := by
    decide +kernel
  obtain ⟨m', hsteps, hframes, hparse⟩ := startup_string hlex
  exact ⟨m', hsteps, hframes, hparse.trans hrest, by decide +kernel⟩

end Enclosed

end VectorForth.Forth
