import VectorForth.Vm.Calculation
import VectorForth.Vm.Tokens

/-!
# The two modes of the outer interpreter

A sequence of numbers, calculating words, comments and strings can be evaluated
directly, or compiled into a new word that is run afterwards. A string is
immediate: it is printed while the new word is compiled, and not when that word
runs. So both ways agree only where no string prints anything.
-/

namespace VectorForth.Forth

open ByteMemory LabelledRun

/-! ## What a text is made of -/

/-- A number, a word that is found, or a comment or a string with what it encloses. -/
inductive Phrase
  | number (v : Cell)
  | word (entry : Cell)
  | enclosed (f : CFun) (t : Text)

/-- The text `p` is made of `items`, and `q` is left. -/
inductive Reads (words : Words) (d : Data) : Text → List Phrase → Text → Prop
  | nil {p : Text} : Reads words d p [] p
  | number {p p' q w : Text} {v : Cell} {items : List Phrase} (hlex : nextWord 64 p = (w, p'))
      (hw : w ≠ []) (hres : Resolves words d w (.lit v)) (hrest : Reads words d p' items q) :
      Reads words d p (.number v :: items) q
  | word {p p' q w : Text} {e : Cell} {items : List Phrase} (hlex : nextWord 64 p = (w, p'))
      (hw : w ≠ []) (hres : Resolves words d w (.word e)) (hrest : Reads words d p' items q) :
      Reads words d p (.word e :: items) q
  | enclosed {p p' p'' q w t : Text} {f : CFun} {delim : Byte} {n : Nat} {items : List Phrase}
      (hlex : nextWord 64 p = (w, p')) (hw : w ≠ []) (hres : Resolves words d w (.control f))
      (hf : f.encloses = some (delim, n)) (hclosed : delim ∈ p')
      (huntil : nextUntil delim n p' = (t, p'')) (hrest : Reads words d p'' items q) :
      Reads words d p (.enclosed f t :: items) q

section Text

variable {words : Words} {d : Data} {p p' q w x : Text} {items : List Phrase} {delim : Byte}
  {n : Nat}

/-- A token ends at the blank that follows. -/
theorem nextWord_append (hlex : nextWord 64 p = (w, p')) (hw : w ≠ []) :
    nextWord 64 (p ++ chr ' ' :: x) = (w, p' ++ chr ' ' :: x) := by
  obtain ⟨hword, hrest⟩ := Prod.mk.inj hlex
  have hdrop : (p ++ chr ' ' :: x).dropWhile isspace = p.dropWhile isspace ++ chr ' ' :: x := by
    rw [List.dropWhile_append, if_neg]
    intro hempty
    rw [List.isEmpty_iff.mp hempty] at hword
    exact hw hword.symm
  have htake : (p.dropWhile isspace ++ chr ' ' :: x).takeWhile (fun c => !isspace c) =
      (p.dropWhile isspace).takeWhile fun c => !isspace c := by
    rw [List.takeWhile_append]
    split <;> rename_i h
    · rw [List.takeWhile_cons_of_neg (by decide), List.append_nil]
      exact (List.IsPrefix.eq_of_length (List.takeWhile_prefix _) h).symm
    · rfl
  have hle : w.length ≤ (p.dropWhile isspace).length := by
    rw [← hword, List.length_take]
    have := (List.takeWhile_prefix (fun c => !isspace c) (l := p.dropWhile isspace)).length_le
    omega
  unfold nextWord
  dsimp only
  rw [hdrop, htake, hword, List.drop_append_of_le_length hle]
  refine Prod.ext rfl ?_
  rw [← hrest, hword]

/-- What follows the delimiter does not matter. -/
theorem nextUntil_append (hclosed : delim ∈ p) (hdelim : delim ≠ chr ' ') :
    nextUntil delim n (p ++ x) = ((nextUntil delim n p).1, (nextUntil delim n p).2 ++ x) := by
  have hblank : afterBlank (p ++ x) = afterBlank p ++ x := by
    unfold afterBlank
    cases p with
    | nil => cases hclosed
    | cons c p =>
        rw [List.cons_append, List.head?_cons, List.head?_cons]
        split <;> rfl
  have hmem : delim ∈ afterBlank p := by
    unfold afterBlank
    split <;> rename_i h
    · cases p with
      | nil => cases hclosed
      | cons c p =>
          rw [List.head?_cons, Option.some.injEq] at h
          rcases List.mem_cons.mp hclosed with rfl | hmem
          · exact absurd h hdelim
          · exact hmem
    · exact hclosed
  have hshort : (enclosed delim p).length < (afterBlank p).length := by
    refine lt_of_le_of_ne (List.takeWhile_prefix _).length_le ?_
    intro heq
    have hall := List.IsPrefix.eq_of_length (List.takeWhile_prefix _) heq
    rw [← hall] at hmem
    simpa using List.mem_takeWhile_imp hmem
  have henclosed : enclosed delim (p ++ x) = enclosed delim p := by
    rw [enclosed, hblank, List.takeWhile_append]
    exact if_neg (Nat.ne_of_lt hshort)
  have hlen : ((enclosed delim p).take (n - 1)).length < (afterBlank p).length := by
    rw [List.length_take]
    omega
  rw [nextUntil_eq, nextUntil_eq, henclosed, hblank]
  dsimp only
  rw [List.drop_append_of_le_length hlen.le]
  generalize hrest : (afterBlank p).drop ((enclosed delim p).take (n - 1)).length = rest
  cases rest with
  | nil =>
      rw [List.drop_eq_nil_iff] at hrest
      omega
  | cons c rest =>
      rw [List.cons_append, List.head?_cons, List.head?_cons]
      split <;> rfl

/-- The text is made of the same items if more text follows. -/
theorem Reads.append (h : Reads words d p items q) :
    Reads words d (p ++ chr ' ' :: x) items (q ++ chr ' ' :: x) := by
  induction h with
  | nil => exact .nil
  | number hlex hw hres _ ih => exact .number (nextWord_append hlex hw) hw hres ih
  | word hlex hw hres _ ih => exact .word (nextWord_append hlex hw) hw hres ih
  | @enclosed p p' p'' q w t f delim n items hlex hw hres hf hclosed huntil _ ih =>
      have hdelim : delim ≠ chr ' ' := by
        cases f <;> cases hf <;> decide
      refine .enclosed (nextWord_append hlex hw) hw hres hf (List.mem_append_left _ hclosed) ?_ ih
      rw [nextUntil_append hclosed hdelim, huntil]

end Text

/-! ## Direct evaluation -/

def Phrase.run (call : Cell → Data → Option Data) : Phrase → Data → Option Data
  | .number v, d => some (d.dsPush v)
  | .word e, d => call e d
  | .enclosed f t, d => some (d.puts (f.shows t))

/-- The effects of the items, from left to right. -/
def runItems (call : Cell → Data → Option Data) : List Phrase → Data → Option Data
  | [], d => some d
  | item :: items, d => (item.run call d).bind (runItems call items)

/-- The words among the items are calculations. -/
def Calculates (words : Words) (depth : Nat) (items : List Phrase) : Prop :=
  ∀ e, Phrase.word e ∈ items → OfKind words depth e

section Direct

variable {img : Image} {words : Words} {P : Set Nat} {K F : List Frame} {m : Machine} {d : Data}
  {rs : List Cell} {ip e : Cell} {depth : Nat} {f : CFun} {p p' q w t : Text} {items : List Phrase}
  {r : Option Data}

theorem AtPrompt.tell (h : AtPrompt img words P d) (ds : List Cell) (o : List Out) :
    AtPrompt img words P (d.tell ds o) :=
  ⟨h.mode, h.known, h.protect, h.chain, h.low, h.high⟩

theorem tell_puts (ds : List Cell) (o : List Out) :
    (d.tell ds o).puts t = d.tell ds (o ++ t.map .putchar) := by
  rw [Data.puts, tell_output, List.append_assoc]
  rfl

theorem comesTo_map {after : Data → Machine} {g : Data → Data} :
    ComesTo img K m after (r.map g) ↔ ComesTo img K m (fun d => after (g d)) r := by
  cases r <;> exact Iff.rfl

/-- A calculation does not look at the text. -/
theorem denoteWord_at (h : OfKind words depth e) :
    denoteWord img words depth e (d.at p) = (denoteWord img words depth e d).map (·.at p) := by
  have hmirrors : Mirrors d (d.at p) (typedWord img words depth e d)
      (denoteWord img words depth e d) (denoteWord img words depth e (d.at p)) :=
    denoteWord_mirrors h rfl rfl
  generalize denoteWord img words depth e d = r at hmirrors ⊢
  generalize denoteWord img words depth e (d.at p) = r' at hmirrors ⊢
  cases hmirrors with
  | traps => rfl
  | acts _ heq =>
      rw [heq.mpr fun x _ => rfl]
      rfl

/-- An immediate word, or any word in interpret state, that reads on to a delimiter. -/
theorem eval_enclosed (hF : K <:+ F) (hlex : nextWord 64 p = (w, p')) (hw : w ≠ [])
    (hfind : dictFind d w = some e) (he : e ≠ 0#64)
    (hrun : d.forthState = .interpret ∨ dictGetFlags d.mem e &&& fImmediate ≠ 0#8)
    (hcode : cellAt d.mem (dictGetCodeField d.mem e) = img.addr f) {delim : Byte} {n : Nat}
    (hf : f.encloses = some (delim, n)) (huntil : nextUntil delim n p' = (t, q)) :
    Via (step img) (Above K) (m.conf (d.at p) rs ip (.eval :: F))
      (m.conf ((d.puts (f.shows t)).at q) rs ip (.eval :: F)) := by
  obtain ⟨g, hg, hrest⟩ : ∃ g, dataWord img f = some g ∧ g.run (d.at p') =
      some ((), ((d.at p').at (nextUntil delim n p').2).puts (f.shows (nextUntil delim n p').1)) :=
    dataWord_encloses hf
  rw [huntil] at hrest
  obtain ⟨hread, hcall⟩ :=
    @step_eval_calls img (d.at p) p' m rs ip e F w hlex hw hfind he hrun f g _ hcode hg hrest
  have habove : Above K (m.conf ((d.at p).at p') rs ip (.execute e :: .eval :: F)) :=
    above_conf (hF.trans (List.suffix_cons ..))
  exact .head (above_conf hF) hread (Via.single habove hcall)

/-- **The items of a text are evaluated one after the other.** -/
theorem eval_items (hF : K <:+ F) (hd : AtPrompt img words P d)
    (hreads : Reads words d p items q) (hkind : Calculates words depth items)
    (hroom : rs.length + depth ≤ returnStackSize) :
    ComesTo img K (m.conf (d.at p) rs 0#64 (.eval :: F))
      (fun d' => m.conf (d'.at q) rs 0#64 (.eval :: F))
      (runItems (denoteWord img words depth) items d) := by
  -- what has been evaluated has changed the stack and the output
  suffices h : ∀ ds o, ComesTo img K (m.conf ((d.tell ds o).at p) rs 0#64 (.eval :: F))
      (fun d' => m.conf (d'.at q) rs 0#64 (.eval :: F))
      (runItems (denoteWord img words depth) items (d.tell ds o)) by
    have h' := h d.ds []
    rwa [tell_self] at h'
  induction hreads with
  | nil => exact fun ds o => Via.refl _
  | @number p p' q w v items hlex hw hres _ ih =>
      intro ds o
      cases hres with
      | lit hfind hnum =>
      have hpush : ((d.tell ds o).at p').dsPush v =
          (d.tell (afterPush v ds) (o ++ pushMessage ds)).at p' := by
        rw [dsPush_at, dsPush_tell, tell_tell, tell_ds]
      have hstep : step img (m.conf ((d.tell ds o).at p) rs 0#64 (.eval :: F)) =
          some (m.conf (((d.tell ds o).at p').dsPush v) rs 0#64 (.eval :: F)) :=
        step_eval_push (d := (d.tell ds o).at p) hlex hw hfind hnum hd.mode
      rw [hpush] at hstep
      refine .head (above_conf hF) hstep ?_
      rw [runItems, Phrase.run, Option.bind_some, dsPush_tell, tell_tell]
      exact ih (fun e he => hkind e (List.mem_cons_of_mem _ he)) _ _
  | @word p p' q w e items hlex hw hres _ ih =>
      intro ds o
      cases hres with
      | word hfind he hflag =>
      have hword := hkind e (List.mem_cons_self ..)
      have hmode : (d.tell ds o).forthState ≠ .compile := by
        rw [(hd.tell ds o).mode]
        exact Mode.noConfusion
      have hfound : step img (m.conf ((d.tell ds o).at p) rs 0#64 (.eval :: F)) =
          some (m.conf ((d.tell ds o).at p') rs 0#64 (.execute e :: .eval :: F)) := by
        rw [step_eval_found (d := (d.tell ds o).at p) hlex hw hfind he, if_neg fun h => hmode h.1]
        rfl
      refine .head (above_conf hF) hfound ?_
      have hexecute : ComesTo img K
          (m.conf ((d.tell ds o).at p') rs 0#64 (.execute e :: .eval :: F))
          (fun d' => m.conf d' rs 0#64 (.eval :: F))
          (denoteWord img words depth e ((d.tell ds o).at p')) :=
        execute_word (hF.trans (List.suffix_cons ..)) hword hd.known hroom
      rw [denoteWord_at hword, comesTo_map] at hexecute
      refine hexecute.bind ?_
      intro d' hd'
      obtain ⟨ds', o', rfl⟩ := denoteWord_tells hword hd'
      rw [tell_tell]
      exact ih (fun e' he' => hkind e' (List.mem_cons_of_mem _ he')) _ _
  | enclosed hlex hw hres hf _ huntil _ ih =>
      intro ds o
      cases hres with
      | control hfind he hflag hword =>
      refine .via (eval_enclosed hF hlex hw hfind he (Or.inl hd.mode) (hd.known _ _ hword).code hf
        huntil) ?_
      rw [runItems, Phrase.run, Option.bind_some, tell_puts]
      exact ih (fun e' he' => hkind e' (List.mem_cons_of_mem _ he')) _ _

end Direct

/-! ## Compilation -/

/-- The cells that the items compile to. -/
def bodyOf : List Phrase → Body
  | [] => .nil
  | .number v :: items => .lit v (bodyOf items)
  | .word e :: items => .word e (bodyOf items)
  | .enclosed _ _ :: items => bodyOf items

/-- What is printed while they are compiled. -/
def spoken : List Phrase → Text
  | [] => []
  | .number _ :: items => spoken items
  | .word _ :: items => spoken items
  | .enclosed f t :: items => f.shows t ++ spoken items

/-- The cells `cs`, compiled one after the other. -/
def Data.commas (d : Data) (cs : List Cell) : Data := cs.foldl Data.dictComma d

/-- The dictionary with the new word `name`: its header, the cells of the items
and the sentinel. -/
def Data.withWord (img : Image) (d : Data) (name : Text) (items : List Phrase) : Data :=
  let d₁ := (d.dictCreate name fHidden).dictSetCode (img.addr .doColon)
  (d₁.commas (layout img (bodyOf items) d₁.dictHere)).semicolon

section Compilation

variable {img : Image} {words : Words} {P : Set Nat} {K F : List Frame} {m : Machine}
  {c c' d x : Data} {rs : List Cell} {a ip e : Cell} {p p' q w t u : Text} {items : List Phrase}
  {cs : List Cell}

@[simp] theorem at_mem : (d.at p).mem = d.mem := rfl

theorem Emitted.puts (h : Emitted c c' a cs) (t : Text) : Emitted (c.puts t) (c'.puts t) a cs := by
  obtain ⟨m', here, ds, rfl⟩ := h.same
  exact ⟨⟨m', here, ds, rfl⟩, h.here, h.cells, h.frame⟩

/-- What is printed meanwhile does not change the dictionary. -/
theorem commas_puts (cs : List Cell) (s : Mode) (t : Text) :
    ({ c with forthState := s }.puts t).commas cs =
      { c.commas cs with forthState := s }.puts t := by
  induction cs generalizing c with
  | nil => rfl
  | cons v cs ih => exact @ih (c.dictComma v)

theorem Compiling.puts (h : Compiling d e c) (t : Text) : Compiling d e (c.puts t) :=
  ⟨h.mode, h.base, h.latest, h.link, h.hidden, h.mem⟩

theorem Compiling.at (h : Compiling d e c) (p : Text) : Compiling d e (c.at p) :=
  ⟨h.mode, h.base, h.latest, h.link, h.hidden, h.mem⟩

/-- The flags of a word that is found are those it had at the prompt. -/
theorem Compiling.flags (h : Compiling d e c) (hd : AtPrompt img words P d) {e' : Cell}
    (hfind : dictFind d w = some e') (he' : e' ≠ 0#64) :
    dictGetFlags c.mem e' = dictGetFlags d.mem e' := by
  have hle := hd.found_le hfind he'
  rw [dictGetFlags, dictGetFlags, dictGetFlagsLen, dictGetFlagsLen, h.mem]
  rw [BitVec.toNat_add, BitVec.toNat_ofNat]
  omega

/-- **The items of a text are compiled one after the other**; what they enclose
is printed meanwhile. -/
theorem compile_items (m : Machine) (rs : List Cell) (ip : Cell) (hF : K <:+ F)
    (hd : AtPrompt img words P d) (hcomp : Compiling d e c)
    (hne : e ≠ 0#64) (he : e.toNat + 9 ≤ c.dictHere.toNat)
    (hle : d.dictHere.toNat ≤ c.dictHere.toNat) (ha : Aligned c.dictHere)
    (htop : c.dictHere.toNat + 8 * (bodyOf items).size + 24 < 2 ^ 64)
    (hreads : Reads words d p items q) :
    ∃ x, Via (step img) (Above K) (m.conf (c.at p) rs ip (.eval :: F))
        (m.conf (x.at q) rs ip (.eval :: F)) ∧
      Emitted (c.puts (spoken items)) x c.dictHere (layout img (bodyOf items) c.dictHere) ∧
      x.ds = c.ds ∧ x = (c.puts (spoken items)).commas (layout img (bodyOf items) c.dictHere) := by
  induction hreads generalizing c with
  | nil =>
      rw [spoken, puts_nil]
      exact ⟨c, Via.refl _, .nil (.refl c) rfl rfl, rfl, rfl⟩
  | @number p p' q w v items hlex hw hres _ ih =>
      cases hres with
      | lit hfind hnum =>
      rw [bodyOf, Body.size] at htop
      have hemit := emitted_comma₂ (d := c) ha (by omega) rfl (img.addr .doLiteral) v
      have hnum' : tryParseNumber (c.at p).forthBase w = some v := by
        rw [← hnum, ← hcomp.base]
        rfl
      have hstep : step img (m.conf (c.at p) rs ip (.eval :: F)) =
          some (m.conf (((c.dictComma (img.addr .doLiteral)).dictComma v).at p') rs ip
            (.eval :: F)) :=
        step_eval_number (d := c.at p) hlex hw (((hcomp.at p).find hd hne w).trans hfind) hnum'
          hcomp.mode
      have hhere : ((c.dictComma (img.addr .doLiteral)).dictComma v).dictHere =
          offset c.dictHere 2 := hemit.here
      have hnext : (offset c.dictHere 2).toNat = c.dictHere.toNat + 8 * 2 := offset_toNat (by omega)
      rw [← hhere] at hnext
      obtain ⟨x, hvia, hrest, hds, hx⟩ := ih (hcomp.keep hemit.keptBelow he hle)
        (by omega) (by omega)
        (by rw [hhere]; exact ha.offset (by omega)) (by omega)
      rw [hhere] at hx hrest
      refine ⟨x, .head (above_conf hF) hstep hvia, ?_, hds, hx⟩
      have hroom : c.dictHere.toNat +
          8 * (2 + (layout img (bodyOf items) (offset c.dictHere 2)).length) < 2 ^ 64 := by
        rw [length_layout]
        omega
      exact (hemit.puts _).append hroom hrest
  | @word p p' q w e' items hlex hw hres _ ih =>
      cases hres with
      | word hfind he' hflag =>
      rw [bodyOf, Body.size] at htop
      have hemit := emitted_comma (d := c) ha (by omega) rfl e'
      have hflag' : dictGetFlags (c.at p).mem e' &&& fImmediate = 0#8 := by
        rw [← hflag, ← hcomp.flags hd hfind he']
        rfl
      have hstep : step img (m.conf (c.at p) rs ip (.eval :: F)) =
          some (m.conf ((c.dictComma e').at p') rs ip (.eval :: F)) := by
        rw [step_eval_found (d := c.at p) hlex hw (((hcomp.at p).find hd hne w).trans hfind) he',
          if_pos ⟨hcomp.mode, hflag'⟩]
        rfl
      have hhere : (c.dictComma e').dictHere = offset c.dictHere 1 := hemit.here
      have hnext : (offset c.dictHere 1).toNat = c.dictHere.toNat + 8 * 1 := offset_toNat (by omega)
      rw [← hhere] at hnext
      obtain ⟨x, hvia, hrest, hds, hx⟩ := ih (hcomp.keep hemit.keptBelow he hle)
        (by omega) (by omega)
        (by rw [hhere]; exact ha.offset (by omega)) (by omega)
      rw [hhere] at hx hrest
      refine ⟨x, .head (above_conf hF) hstep hvia, ?_, hds, hx⟩
      have hroom : c.dictHere.toNat +
          8 * (1 + (layout img (bodyOf items) (offset c.dictHere 1)).length) < 2 ^ 64 := by
        rw [length_layout]
        omega
      exact (hemit.puts _).append hroom hrest
  | @enclosed p p' p'' q w t f delim n items hlex hw hres hf _ huntil _ ih =>
      cases hres with
      | control hfind he' hflag hword =>
      have hknown : Known img words P c.mem :=
        hd.known.congr fun y hy => hcomp.mem y (hd.protect y hy)
      obtain ⟨x, hvia, hrest, hds, hx⟩ := ih (hcomp.puts (f.shows t)) he hle ha htop
      have hread : Via (step img) (Above K) (m.conf (c.at p) rs ip (.eval :: F))
          (m.conf ((c.puts (f.shows t)).at p'') rs ip (.eval :: F)) :=
        eval_enclosed hF hlex hw ((hcomp.find hd hne w).trans hfind) he'
          (Or.inr (by rw [hcomp.flags hd hfind he']; exact hflag)) (hknown _ _ hword).code hf huntil
      rw [puts_puts] at hrest hx
      exact ⟨x, hread.trans hvia, hrest, hds, hx⟩

end Compilation

/-! ## The definition as a line of text -/

/-- `: name S ; name` -/
def definition (name S : Text) : Text :=
  text ": " ++ name ++ text " " ++ S ++ text " ; " ++ name

/-- A name that fits the header of an entry. -/
structure IsName (name : Text) : Prop where
  ne_nil : name ≠ []
  visible : ∀ c ∈ name, isspace c = false
  length_le : name.length ≤ 31

/-- `:` and `;` mean what they mean at start-up. -/
structure HasDefiners (words : Words) (d : Data) : Prop where
  colon : ∃ e, dictFind d (text ":") = some e ∧ e ≠ 0#64 ∧ words e = some (.native .wColon)
  semicolon : Resolves words d (text ";") (.control .wSemicolon)

section Definition

variable {img : Image} {words : Words} {P : Set Nat} {K F : List Frame} {m : Machine}
  {c d d₁ D : Data} {rs : List Cell} {ip e : Cell} {p q s w x S name : Text} {items : List Phrase}

/-- A token between blanks. -/
theorem nextWord_spaced (hs : ∀ c ∈ s, isspace c = true) (hw : w ≠ [])
    (hvisible : ∀ c ∈ w, isspace c = false) (hlen : w.length ≤ 63)
    (hx : x = [] ∨ x.head? = some (chr ' ')) : nextWord 64 (s ++ (w ++ x)) = (w, x) := by
  have hdrop : (s ++ (w ++ x)).dropWhile isspace = w ++ x := by
    rw [List.dropWhile_append_of_pos hs]
    cases w with
    | nil => exact absurd rfl hw
    | cons c w =>
        rw [List.cons_append, List.dropWhile_cons_of_neg]
        rw [hvisible c (List.mem_cons_self ..)]
        exact Bool.false_ne_true
  have htake : (w ++ x).takeWhile (fun c => !isspace c) = w := by
    rw [List.takeWhile_append_of_pos fun c hc => by rw [hvisible c hc]; rfl]
    rcases hx with rfl | hx
    · rw [List.takeWhile_nil, List.append_nil]
    · cases x with
      | nil => cases hx
      | cons c x =>
          obtain rfl : c = chr ' ' := Option.some.inj hx
          rw [List.takeWhile_cons_of_neg (by decide), List.append_nil]
  unfold nextWord
  dsimp only
  rw [hdrop, htake, List.take_of_length_le (by omega), List.drop_left]

theorem nextWord_blank (p : Text) : nextWord 64 (chr ' ' :: p) = nextWord 64 p := by
  have hdrop : (chr ' ' :: p).dropWhile isspace = p.dropWhile isspace :=
    List.dropWhile_cons_of_pos (by decide)
  unfold nextWord
  rw [hdrop]

/-- A blank in front is skipped. -/
theorem Reads.blank (h : Reads words d p items q) :
    ∃ q', Reads words d (chr ' ' :: p) items q' ∧ (q' = q ∨ q' = chr ' ' :: q) := by
  cases h with
  | nil => exact ⟨_, .nil, Or.inr rfl⟩
  | number hlex hw hres hrest =>
      exact ⟨q, .number ((nextWord_blank p).trans hlex) hw hres hrest, Or.inl rfl⟩
  | word hlex hw hres hrest =>
      exact ⟨q, .word ((nextWord_blank p).trans hlex) hw hres hrest, Or.inl rfl⟩
  | enclosed hlex hw hres hf hclosed huntil hrest =>
      exact ⟨q, .enclosed ((nextWord_blank p).trans hlex) hw hres hf hclosed huntil hrest,
        Or.inl rfl⟩

/-- The entry is found under its name, and it is not immediate. -/
theorem Finished.found {b : Body} (hfin : Finished img b d₁ D e)
    (hcreated : Created d d₁ e (img.addr .doColon) fHidden) (hne : e ≠ 0#64)
    (hname : dictGetName d₁.mem e = name) :
    dictFind D name = some e ∧ dictGetFlags D.mem e &&& fImmediate = 0#8 := by
  have hhidden : ∀ flags : Byte, flags &&& ~~~fHidden &&& fHidden = 0#8 := by decide
  have himmediate : ∀ flags : Byte, flags &&& flagsMask = fHidden &&& flagsMask →
      flags &&& ~~~fHidden &&& flagsMask &&& fImmediate = 0#8 := by decide
  obtain ⟨hfieldLow, hfieldHigh⟩ := hcreated.field
  have htop := hcreated.top
  have hsame : dictGetName D.mem e = name := by
    rw [← hname, dictGetName, dictGetName, hfin.fields.1]
    apply List.map_congr_left
    intro i hi
    rw [List.mem_range] at hi
    have h8 : (e + 8#64).toNat = e.toNat + 8 := by
      rw [BitVec.toNat_add, BitVec.toNat_ofNat]
      omega
    have h9 : (e + 9#64).toNat = e.toNat + 9 := by
      rw [BitVec.toNat_add, BitVec.toNat_ofNat]
      omega
    exact hfin.keep _ (Or.inl (by omega)) (by omega)
  constructor
  · refine dictFind_new hfin.latest hne ?_ ?_
    · rw [hfin.flags]
      exact hhidden _
    · rw [nameMatches, hsame]
      exact BEq.rfl
  · rw [dictGetFlags, hfin.flags]
    exact himmediate _ hcreated.flags_eq.2

/-- What the definition of `name` leaves in `D`. -/
structure Defined (img : Image) (words : Words) (d : Data) (name : Text) (items : List Phrase)
    (D : Data) : Prop where
  prompt : ∃ P, AtPrompt img (words.extend (alignCell d.dictHere) (.colon (bodyOf items))) P D
  ds : D.ds = d.ds
  base : D.forthBase = d.forthBase
  output : D.output = d.output ++ (spoken items).map .putchar
  mem : D.mem = (d.withWord img name items).mem
  find : dictFind D name = some (alignCell d.dictHere)
  flags : dictGetFlags D.mem (alignCell d.dictHere) &&& fImmediate = 0#8

theorem Created.puts {code : Cell} {flags : Byte} (h : Created d d₁ e code flags) (t : Text) :
    Created (d.puts t) (d₁.puts t) e code flags := by
  obtain ⟨m', here, rfl⟩ := h.same
  exact ⟨⟨m', here, rfl⟩, h.here, h.link, h.flags, h.code, h.field, h.top, h.aligned, h.frame⟩

theorem AtPrompt.puts (h : AtPrompt img words P d) (t : Text) : AtPrompt img words P (d.puts t) :=
  ⟨h.mode, h.known, h.protect, h.chain, h.low, h.high⟩

/-- What is behind `:` in the line, and behind the name. -/
def afterColon (name S : Text) : Text := chr ' ' :: (name ++ chr ' ' :: (S ++ chr ' ' ::
  (text ";" ++ chr ' ' :: name)))

def afterName (name S : Text) : Text := chr ' ' :: (S ++ chr ' ' :: (text ";" ++ chr ' ' :: name))

theorem nextWord_definition (name S : Text) :
    nextWord 64 (definition name S) = (text ":", afterColon name S) := by
  have hcolon : text ": " = text ":" ++ [chr ' '] := rfl
  have hblank : text " " = [chr ' '] := rfl
  have hsemi : text " ; " = chr ' ' :: (text ";" ++ [chr ' ']) := rfl
  have hline : definition name S = [] ++ (text ":" ++ afterColon name S) := by
    simp only [definition, afterColon, hcolon, hblank, hsemi, List.append_assoc, List.cons_append,
      List.nil_append]
  rw [hline]
  exact nextWord_spaced (by simp) (by decide) (by decide) (by decide) (Or.inr rfl)

theorem nextWord_afterColon (hname : IsName name) (S : Text) :
    nextWord 64 (afterColon name S) = (name, afterName name S) :=
  nextWord_spaced (s := [chr ' ']) (by decide) hname.ne_nil hname.visible
    (by have := hname.length_le; omega) (Or.inr rfl)

/-- **The definition is read and compiled.** -/
theorem define_items (m : Machine) (rs : List Cell) (ip : Cell) (hF : K <:+ F)
    (hd : AtPrompt img words P d) (hdef : HasDefiners words d)
    (hname : IsName name) (hreads : Reads words d S items q) (hq : ∀ c ∈ q, isspace c = true)
    (hroom : d.dictHere.toNat + 64 + 8 * ((bodyOf items).size + 1) ≤ dictVirtBase + dictSize) :
    ∃ D, Via (step img) (Above K) (m.conf (d.at (definition name S)) rs ip (.eval :: F))
        (m.conf (D.at (chr ' ' :: name)) rs ip (.eval :: F)) ∧
      Defined img words d name items D := by
  have hdictTop : dictVirtBase + dictSize + 1024 < 2 ^ 64 := by decide
  have halign := alignCell_toNat (a := d.dictHere) (by omega)
  have hlow := hd.low
  have hne := ne_zero_of_base_le (e := alignCell d.dictHere) (by omega)
  have habove : ∀ (y : Data) (e' : Cell), Above K (m.conf y rs ip (.execute e' :: .eval :: F)) :=
    fun y e' => above_conf (hF.trans (List.suffix_cons ..))
  -- `:` makes the header
  obtain ⟨eC, hfind, heC, hword⟩ := hdef.colon
  have hrunColon : (wColon img).run (d.at (afterColon name S)) = some ((), _) :=
    wColon_run (nextWord_afterColon hname S) hname.ne_nil
  obtain ⟨hreadColon, hcallColon⟩ := @step_eval_calls img (d.at (definition name S))
    (afterColon name S) m rs ip eC F (text ":") (nextWord_definition name S) (by decide) hfind heC
    (Or.inl hd.mode) _ _ _ (hd.known _ _ hword).code rfl
    hrunColon
  have hcreated : Created (d.at d.parsePtr) ((d.dictCreate name fHidden).dictSetCode
      (img.addr .doColon)) (alignCell d.dictHere) (img.addr .doColon) fHidden :=
    dictCreate_spec (d := d) (by omega)
  have hstored : dictGetName ((d.dictCreate name fHidden).dictSetCode (img.addr .doColon)).mem
      (alignCell d.dictHere) = name := dictCreate_name (by omega) hname.length_le
  have hcompiling := hcreated.compiling (by omega)
  have hbegin : Via (step img) (Above K) (m.conf (d.at (definition name S)) rs ip (.eval :: F))
      (m.conf ({ (d.dictCreate name fHidden).dictSetCode (img.addr .doColon) with
        forthState := .compile }.at (afterName name S)) rs ip (.eval :: F)) :=
    .head (above_conf hF) hreadColon (Via.single (habove _ _) hcallColon)
  generalize hd₁ : (d.dictCreate name fHidden).dictSetCode (img.addr .doColon) = d₁
    at hcreated hstored hcompiling hbegin
  obtain ⟨hfieldLow, hfieldHigh⟩ := hcreated.field
  have htop₁ := hcreated.top
  -- the body
  obtain ⟨q', hreads', hq'⟩ := (hreads.append (x := text ";" ++ (chr ' ' :: name))).blank
  obtain ⟨x, hbody, hemit, hds, hx⟩ := compile_items m rs ip hF hd hcompiling hne
    (show _ ≤ d₁.dictHere.toNat by omega) (show _ ≤ d₁.dictHere.toNat by omega)
    hcreated.aligned_here (show d₁.dictHere.toNat + _ + 24 < _ by omega) hreads'
  have hcompiling' := (hcompiling.puts (spoken items)).keep hemit.keptBelow
    (show _ ≤ d₁.dictHere.toNat by omega) (show _ ≤ d₁.dictHere.toNat by omega)
  -- `;` ends it
  have hsemi : nextWord 64 q' = (text ";", chr ' ' :: name) := by
    have hspaces : ∀ c ∈ q ++ [chr ' '], isspace c = true := by
      intro c hc
      rcases List.mem_append.mp hc with hc | hc
      · exact hq c hc
      · rw [List.mem_singleton.mp hc]
        rfl
    have hsplit : nextWord 64 (q ++ chr ' ' :: (text ";" ++ chr ' ' :: name)) =
        (text ";", chr ' ' :: name) := by
      rw [List.append_cons]
      exact nextWord_spaced hspaces (by decide) (by decide) (by decide) (Or.inr rfl)
    rcases hq' with rfl | rfl
    · exact hsplit
    · exact (nextWord_blank _).trans hsplit
  obtain ⟨eS, hfindS, heS, hflagS, hwordS⟩ : ∃ eS, dictFind d (text ";") = some eS ∧ eS ≠ 0#64 ∧
      dictGetFlags d.mem eS &&& fImmediate ≠ 0#8 ∧ words eS = some (.native .wSemicolon) := by
    cases hdef.semicolon with
    | control hfind he hflag hword => exact ⟨_, hfind, he, hflag, hword⟩
  have hknown : Known img words P x.mem :=
    hd.known.congr fun y hy => hcompiling'.mem y (hd.protect y hy)
  obtain ⟨hreadSemi, hcallSemi⟩ := @step_eval_calls img (x.at q') (chr ' ' :: name) m rs ip eS F
    (text ";") hsemi (by decide) ((hcompiling'.find hd hne _).trans hfindS) heS
    (Or.inr (by rw [at_mem, hcompiling'.flags hd hfindS heS]; exact hflagS)) _ _ _
    (hknown _ _ hwordS).code rfl (wSemicolon_run (x.at (chr ' ' :: name)))
  have hend : Via (step img) (Above K) (m.conf (x.at q') rs ip (.eval :: F))
      (m.conf (x.semicolon.at (chr ' ' :: name)) rs ip (.eval :: F)) :=
    .head (above_conf hF) hreadSemi (Via.single (habove _ _) hcallSemi)
  -- the dictionary then
  have hcreated' := hcreated.puts (spoken items)
  have hfin : Finished img (bodyOf items) (d₁.puts (spoken items)) x.semicolon
      (alignCell d.dictHere) :=
    hcreated'.finished (show d₁.dictHere.toNat + _ < _ by omega)
      (hemit.sentinel hcreated.aligned_here (show d₁.dictHere.toNat + _ < _ by omega))
      hcompiling'.latest rfl
  obtain ⟨hfound, hflags⟩ := hfin.found hcreated' hne hstored
  have hprompt := finish_spec (d := d.puts (spoken items)) (hd.puts _) halign hcreated'
    (show d₁.dictHere.toNat + _ ≤ _ by omega) hfin
  refine ⟨x.semicolon, hbegin.trans (hbody.trans hend), ⟨_, hprompt⟩, ?_, ?_, ?_, ?_, hfound,
    hflags⟩
  · obtain ⟨m', here, hsame⟩ := hcreated.same
    subst hsame
    exact hds
  · obtain ⟨m', here, hsame⟩ := hcreated.same
    subst hsame
    exact hcompiling'.base
  · obtain ⟨m', here, hsame⟩ := hcreated.same
    obtain ⟨m'', here', ds, hsame'⟩ := hemit.same
    subst hsame hsame'
    rfl
  · rw [hx, commas_puts, Data.withWord, hd₁]
    rfl

end Definition

/-! ## The two ways -/

section Agreement

variable {img : Image} {words words' : Words} {P : Set Nat} {d d' : Data} {e : Cell} {depth : Nat}
  {items : List Phrase} {call call' : Cell → Data → Option Data} {b : Body}

theorem bodyOf_straight (items : List Phrase) : (bodyOf items).straight = true := by
  induction items with
  | nil => rfl
  | cons item items ih =>
      cases item with
      | number | word | enclosed => exact ih

theorem bodyOf_calls (he : e ∈ (bodyOf items).calls) : Phrase.word e ∈ items := by
  induction items with
  | nil => cases he
  | cons item items ih =>
      cases item with
      | number v => exact List.mem_cons_of_mem _ (ih he)
      | enclosed f t => exact List.mem_cons_of_mem _ (ih he)
      | word e' =>
          rcases List.mem_cons.mp he with rfl | he
          · exact List.mem_cons_self ..
          · exact List.mem_cons_of_mem _ (ih he)

theorem denoteBody_congr (h : ∀ e ∈ b.calls, ∀ d, call' e d = call e d) (d : Data) :
    denoteBody call' b d = denoteBody call b d := by
  induction b generalizing d with
  | nil => rfl
  | lit v rest ih => exact ih h _
  | word e rest ih =>
      rw [denoteBody, denoteBody, h e (List.mem_cons_self ..)]
      cases call e d with
      | none => rfl
      | some d₁ => exact ih (fun e' he' => h e' (List.mem_cons_of_mem _ he')) d₁
  | ifThen | ifElse | untilLoop | againLoop | whileLoop | doLoop => rfl

/-- More words do not change what the old ones calculate. -/
theorem OfKind.extend (hmore : ∀ e k, words e = some k → words' e = some k)
    (h : OfKind words depth e) : OfKind words' depth e ∧
      ∀ d, denoteWord img words' depth e d = denoteWord img words depth e d := by
  induction depth generalizing e with
  | zero =>
      obtain ⟨f, he, hf⟩ := h
      have he' := hmore e _ he
      refine ⟨⟨f, he', hf⟩, fun d => ?_⟩
      rw [denoteWord, denoteWord, he, he']
  | succ depth ih =>
      rcases h with ⟨f, he, hf⟩ | ⟨b, he, hb, hcalls⟩
      · have he' := hmore e _ he
        refine ⟨Or.inl ⟨f, he', hf⟩, fun d => ?_⟩
        simp only [denoteWord, he, he']
      · have he' := hmore e _ he
        refine ⟨Or.inr ⟨b, he', hb, fun e' hmem => (ih (hcalls e' hmem)).1⟩, fun d => ?_⟩
        simp only [denoteWord, he, he']
        exact denoteBody_congr (fun e' hmem => (ih (hcalls e' hmem)).2) d

/-- The bytes of memory that the items show. -/
def typedItems (img : Image) (words : Words) (depth : Nat) (items : List Phrase) (d : Data) :
    Set Nat :=
  typedBody (denoteWord img words depth) (typedWord img words depth) (bodyOf items) d

/-- Where no string prints anything, the items act as their body. -/
theorem runItems_silent (h : spoken items = []) (d : Data) :
    runItems call items d = denoteBody call (bodyOf items) d := by
  induction items generalizing d with
  | nil => rfl
  | cons item items ih =>
      cases item with
      | number v => exact ih h _
      | word e =>
          rw [runItems, Phrase.run, bodyOf, denoteBody]
          cases call e d with
          | none => rfl
          | some d₁ => exact ih h d₁
      | enclosed f t =>
          obtain ⟨hshow, hrest⟩ := List.append_eq_nil_iff.mp h
          rw [runItems, Phrase.run, Option.bind_some, hshow, puts_nil]
          exact ih hrest d

/-- `r` leaves the same stack as `r'`, and prints `n` characters more. -/
inductive Exceeds (d d' : Data) (n : Nat) : Option Data → Option Data → Prop
  | traps : Exceeds d d' n none none
  | acts {ds : List Cell} {o o' : List Out} (hlen : o.length = o'.length + n) :
      Exceeds d d' n (some (d.tell ds o)) (some (d'.tell ds o'))

theorem Exceeds.bind {n n' : Nat} {r r' : Option Data} {k k' : Data → Option Data}
    (h : Exceeds d d' n r r')
    (hk : ∀ ds o o', Exceeds (d.tell ds o) (d'.tell ds o') n' (k (d.tell ds o))
      (k' (d'.tell ds o'))) :
    Exceeds d d' (n + n') (r.bind k) (r'.bind k') := by
  cases h with
  | traps => exact .traps
  | @acts ds o o' hlen =>
      have hsecond := hk ds o o'
      rw [Option.bind_some, Option.bind_some]
      generalize k (d.tell ds o) = s at hsecond ⊢
      generalize k' (d'.tell ds o') = s' at hsecond ⊢
      cases hsecond with
      | traps => exact .traps
      | acts hlen₂ =>
          rw [tell_tell, tell_tell]
          refine .acts ?_
          rw [List.length_append, List.length_append, hlen, hlen₂]
          omega

theorem Exceeds.of_some {n : Nat} {r r' : Option Data} {x : Data} (h : Exceeds d d' n r r')
    (hr : r = some x) : ∃ ds o o', x = d.tell ds o ∧ r' = some (d'.tell ds o') ∧
      o.length = o'.length + n := by
  cases h with
  | traps => cases hr
  | acts hlen => exact ⟨_, _, _, (Option.some.inj hr).symm, rfl, hlen⟩

theorem Mirrors.exceeds {X : Set Nat} {r r' : Option Data} (h : Mirrors d d' X r r') :
    Exceeds d d' 0 r r' := by
  cases h with
  | traps => exact .traps
  | acts hlen => exact .acts hlen.symm

/-- The items print more than their body by what is printed while they are compiled. -/
theorem runItems_exceeds (hkind : Calculates words depth items) (hds : d'.ds = d.ds)
    (hbase : d'.forthBase = d.forthBase) :
    Exceeds d d' (spoken items).length (runItems (denoteWord img words depth) items d)
      (denoteBody (denoteWord img words depth) (bodyOf items) d') := by
  induction items generalizing d d' with
  | nil =>
      have h : Exceeds d d' 0 (some (d.tell d.ds [])) (some (d'.tell d.ds [])) := .acts rfl
      rw [← hds, tell_self, hds, tell_self] at h
      exact h
  | cons item items ih =>
      have hrest : ∀ ds o o', Exceeds (d.tell ds o) (d'.tell ds o') (spoken items).length
          (runItems (denoteWord img words depth) items (d.tell ds o))
          (denoteBody (denoteWord img words depth) (bodyOf items) (d'.tell ds o')) :=
        fun ds o o' => ih (fun e he => hkind e (List.mem_cons_of_mem _ he)) rfl hbase
      cases item with
      | number v =>
          have hpush : Exceeds d d' 0 (some (d.dsPush v)) (some (d'.dsPush v)) := by
            rw [dsPush_tell, dsPush_tell, hds]
            exact .acts rfl
          have h := hpush.bind hrest
          rwa [Nat.zero_add] at h
      | word e =>
          have hword : Mirrors d d' (typedWord img words depth e d) (denoteWord img words depth e d)
              (denoteWord img words depth e d') :=
            denoteWord_mirrors (hkind e (List.mem_cons_self ..)) hds hbase
          have h := hword.exceeds.bind hrest
          rwa [Nat.zero_add] at h
      | enclosed f t =>
          have hprint : Exceeds d d' (f.shows t).length (some (d.puts (f.shows t))) (some d') := by
            have h : Exceeds d d' (f.shows t).length
                (some (d.tell d.ds ((f.shows t).map .putchar))) (some (d'.tell d'.ds [])) := by
              rw [hds]
              exact .acts (by simp)
            rwa [tell_self] at h
          have h := hprint.bind hrest
          rwa [← List.length_append] at h

theorem spoken_eq_nil :
    spoken items = [] ↔ ∀ f t, Phrase.enclosed f t ∈ items → f.shows t = [] := by
  induction items with
  | nil => exact ⟨fun _ f t h => absurd h List.not_mem_nil, fun _ => rfl⟩
  | cons item items ih =>
      cases item with
      | number v => simp [spoken, ih]
      | word e => simp [spoken, ih]
      | enclosed f t =>
          rw [spoken, List.append_eq_nil_iff, ih]
          constructor
          · rintro ⟨hshow, hrest⟩ f' t' hmem
            rcases List.mem_cons.mp hmem with h | h
            · cases h
              exact hshow
            · exact hrest f' t' h
          · exact fun h => ⟨h f t (List.mem_cons_self ..),
              fun f' t' hmem => h f' t' (List.mem_cons_of_mem _ hmem)⟩

/-- With the same output before, the items and their body print the same if memory
agrees on what they show. -/
theorem silent_output (hkind : Calculates words depth items) (hds : d'.ds = d.ds)
    (hbase : d'.forthBase = d.forthBase) (hsilent : spoken items = []) {x x' : Data}
    (hx : runItems (denoteWord img words depth) items d = some x)
    (hx' : denoteBody (denoteWord img words depth) (bodyOf items) d' = some x')
    (hsame : d'.output = d.output) :
    x'.output = x.output ↔ Set.EqOn d'.mem d.mem (typedItems img words depth items d) := by
  have hmirrors : Mirrors d d' (typedItems img words depth items d)
      (denoteBody (denoteWord img words depth) (bodyOf items) d)
      (denoteBody (denoteWord img words depth) (bodyOf items) d') :=
    denoteBody_mirrors (bodyOf_straight items)
      (fun e he d d' => denoteWord_mirrors (hkind e (bodyOf_calls he))) hds hbase
  rw [← runItems_silent hsilent, hx, hx'] at hmirrors
  generalize hr : some x = r at hmirrors
  generalize hr' : some x' = r' at hmirrors
  cases hmirrors with
  | traps => cases hr
  | acts _ heq =>
      obtain rfl := Option.some.inj hr
      obtain rfl := Option.some.inj hr'
      rw [tell_output, tell_output, hsame, List.append_cancel_left_eq]
      exact heq

theorem runItems_tells (hkind : Calculates words depth items) {x : Data}
    (hx : runItems (denoteWord img words depth) items d = some x) : ∃ ds o, x = d.tell ds o := by
  have h : Exceeds d d (spoken items).length (runItems (denoteWord img words depth) items d)
      (denoteBody (denoteWord img words depth) (bodyOf items) d) := runItems_exceeds hkind rfl rfl
  obtain ⟨ds, o, -, hx, -, -⟩ := h.of_some hx
  exact ⟨ds, o, hx⟩

end Agreement

/-! ## Evaluating a line -/

/-- The end of a line at the prompt. -/
def Data.ok (d : Data) : Data := (d.at []).puts (text " ok\n")

/-- `forth_eval(line)`, called in `d` from the C stack `K`, returns and leaves `d'`. -/
def Evaluates (img : Image) (m : Machine) (rs : List Cell) (K : List Frame) (line : Text)
    (d d' : Data) : Prop :=
  Returns img K (m.conf (d.at line) rs 0#64 (.eval :: K)) (m.conf d' rs 0#64 K)

section Lines

variable {img : Image} {words words' : Words} {P : Set Nat} {m : Machine} {rs : List Cell}
  {K : List Frame} {d d' d₁ d₂ x D : Data} {e : Cell} {depth : Nat} {p q S name : Text}
  {items : List Phrase}

theorem nextWord_spaces (hq : ∀ c ∈ q, isspace c = true) : nextWord 64 q = ([], []) := by
  unfold nextWord
  rw [List.dropWhile_eq_nil_iff.mpr hq]
  rfl

/-- A whole line. -/
theorem eval_line (hd : AtPrompt img words P d) (hreads : Reads words d p items q)
    (hq : ∀ c ∈ q, isspace c = true) (hkind : Calculates words depth items)
    (hroom : rs.length + depth ≤ returnStackSize) :
    ComesTo img K (m.conf (d.at p) rs 0#64 (.eval :: K)) (fun x => m.conf x.ok rs 0#64 K)
      (runItems (denoteWord img words depth) items d) := by
  refine (eval_items (List.suffix_refl K) hd hreads hkind hroom).last ?_
  intro x hx
  obtain ⟨ds, o, rfl⟩ := runItems_tells hkind hx
  exact ⟨above_conf (List.suffix_refl K),
    step_eval_end (d := (d.tell ds o).at q) (nextWord_spaces hq) hd.mode⟩

/-- A line returns where its items have an effect. -/
theorem evaluates_iff (hd : AtPrompt img words P d) (hreads : Reads words d p items q)
    (hq : ∀ c ∈ q, isspace c = true) (hkind : Calculates words depth items)
    (hroom : rs.length + depth ≤ returnStackSize) :
    Evaluates img m rs K p d d' ↔
      ∃ x, runItems (denoteWord img words depth) items d = some x ∧ d' = x.ok := by
  have hline : ComesTo img K (m.conf (d.at p) rs 0#64 (.eval :: K)) (fun x => m.conf x.ok rs 0#64 K)
      (runItems (denoteWord img words depth) items d) := eval_line hd hreads hq hkind hroom
  constructor
  · intro h
    obtain ⟨x, hx, heq⟩ := hline.of_returns (fun _ => rfl) h
    exact ⟨x, hx, congrArg (fun m : Machine => m.vm.data) heq⟩
  · rintro ⟨x, hx, rfl⟩
    rw [hx] at hline
    exact ⟨hline, rfl⟩

theorem AtPrompt.ok (h : AtPrompt img words P d) (ds : List Cell) (o : List Out) :
    AtPrompt img words P (d.tell ds o).ok :=
  ⟨h.mode, h.known, h.protect, h.chain, h.low, h.high⟩

/-- The text reads as before: nothing has been defined. -/
theorem Reads.ok (h : Reads words d p items q) (ds : List Cell) (o : List Out) :
    Reads words (d.tell ds o).ok p items q := by
  induction h with
  | nil => exact .nil
  | number hlex hw hres _ ih =>
      cases hres with
      | lit hfind hnum => exact .number hlex hw (.lit hfind hnum) ih
  | word hlex hw hres _ ih =>
      cases hres with
      | word hfind he hflag => exact .word hlex hw (.word hfind he hflag) ih
  | enclosed hlex hw hres hf hclosed huntil _ ih =>
      cases hres with
      | control hfind he hflag hword =>
      exact .enclosed hlex hw (.control hfind he hflag hword) hf hclosed huntil ih

/-- A line that always has an effect can be evaluated twice. -/
theorem evaluates_twice (m : Machine) (rs : List Cell) (K : List Frame)
    (hd : AtPrompt img words P d) (hreads : Reads words d p items q)
    (hq : ∀ c ∈ q, isspace c = true) (hkind : Calculates words depth items)
    (hroom : rs.length + depth ≤ returnStackSize)
    (hrun : ∀ d, ∃ x, runItems (denoteWord img words depth) items d = some x) :
    ∃ d₁ d₂, Evaluates img m rs K p d d₁ ∧ Evaluates img m rs K p d₁ d₂ := by
  obtain ⟨x₁, hx₁⟩ := hrun d
  obtain ⟨ds, o, rfl⟩ := runItems_tells hkind hx₁
  obtain ⟨x₂, hx₂⟩ := hrun (d.tell ds o).ok
  exact ⟨_, _, (evaluates_iff hd hreads hq hkind hroom).mpr ⟨_, hx₁, rfl⟩,
    (evaluates_iff (hd.ok ds o) (hreads.ok ds o) hq hkind hroom).mpr ⟨_, hx₂, rfl⟩⟩

/-- The words with the new one are at the prompt, and it is found. -/
theorem Defined.again {ds : List Cell} {o : List Out} (h : Defined img words d name items D)
    (hd : AtPrompt img words P d) (hname : IsName name) (hkind : Calculates words depth items)
    (hp : nextWord 64 p = (name, [])) (hroom : rs.length + (depth + 1) ≤ returnStackSize) :
    ComesTo img K (m.conf (((D.tell ds o).at q).at p) rs 0#64 (.eval :: K))
      (fun x => m.conf x.ok rs 0#64 K)
      (denoteBody (denoteWord img words depth) (bodyOf items) ((D.tell ds o).at q)) := by
  obtain ⟨P', hprompt⟩ := h.prompt
  have hlow := hd.low
  have hhigh := hd.high
  have hend : dictVirtBase + dictSize + 1024 < 2 ^ 64 := by decide
  have halign := alignCell_toNat (a := d.dictHere) (by omega)
  have hmore : ∀ e k, words e = some k →
      words.extend (alignCell d.dictHere) (.colon (bodyOf items)) e = some k := by
    intro e k he
    have hlt := hd.lt_here he
    rw [Words.extend, if_neg]
    · exact he
    · rintro rfl
      omega
  have hnew : words.extend (alignCell d.dictHere) (.colon (bodyOf items)) (alignCell d.dictHere) =
      some (.colon (bodyOf items)) := if_pos rfl
  generalize words.extend (alignCell d.dictHere) (.colon (bodyOf items)) = words'
    at hprompt hmore hnew
  have hcalls : ∀ e ∈ (bodyOf items).calls, OfKind words' depth e ∧
      ∀ y, denoteWord img words' depth e y = denoteWord img words depth e y :=
    fun e he => (hkind e (bodyOf_calls he)).extend hmore
  have hword : Calculates words' (depth + 1) [.word (alignCell d.dictHere)] := by
    intro e he
    obtain rfl : e = alignCell d.dictHere := by simpa using he
    exact Or.inr ⟨_, hnew, bodyOf_straight items, fun e' he' => (hcalls e' he').1⟩
  have hne := ne_zero_of_base_le (e := alignCell d.dictHere) (by omega)
  have hreads : Reads words' ((D.tell ds o).at q) p [.word (alignCell d.dictHere)] [] :=
    .word hp hname.ne_nil (.word h.find hne h.flags) .nil
  have hline : ComesTo img K (m.conf (((D.tell ds o).at q).at p) rs 0#64 (.eval :: K))
      (fun x => m.conf x.ok rs 0#64 K) (runItems (denoteWord img words' (depth + 1))
        [.word (alignCell d.dictHere)] ((D.tell ds o).at q)) :=
    eval_line ((hprompt.tell ds o).at q) hreads (by simp) hword hroom
  have hrun : runItems (denoteWord img words' (depth + 1)) [.word (alignCell d.dictHere)]
      ((D.tell ds o).at q) =
      denoteBody (denoteWord img words depth) (bodyOf items) ((D.tell ds o).at q) := by
    rw [runItems, Phrase.run, ← denoteBody_congr (fun e he => (hcalls e he).2)]
    simp only [denoteWord, hnew]
    cases denoteBody (denoteWord img words' depth) (bodyOf items) ((D.tell ds o).at q) <;> rfl
  rwa [hrun] at hline

theorem tell_ok (d : Data) (ds : List Cell) (o : List Out) :
    (d.tell ds o).ok = (d.tell ds (o ++ (text " ok\n").map .putchar)).at [] := by
  rw [Data.ok, Data.tell, Data.tell, ← List.append_assoc]
  rfl

/-- **The new word runs twice** where its items have an effect twice, and leaves
the same stacks. -/
theorem new_word_runs (m : Machine) (rs : List Cell) (K : List Frame)
    (hd : AtPrompt img words P d) (hdef : HasDefiners words d)
    (hname : IsName name) (hreads : Reads words d S items q) (hq : ∀ c ∈ q, isspace c = true)
    (hkind : Calculates words depth items)
    (hroom : d.dictHere.toNat + 64 + 8 * ((bodyOf items).size + 1) ≤ dictVirtBase + dictSize)
    (hrs : rs.length + (depth + 1) ≤ returnStackSize) {x₁ x₂ : Data}
    (hx₁ : runItems (denoteWord img words depth) items d = some x₁)
    (hx₂ : runItems (denoteWord img words depth) items x₁.ok = some x₂) :
    ∃ D y₁ y₂, Defined img words d name items D ∧
      Evaluates img m rs K (definition name S) d y₁.ok ∧ Evaluates img m rs K name y₁.ok y₂.ok ∧
      denoteBody (denoteWord img words depth) (bodyOf items) D = some y₁ ∧
      denoteBody (denoteWord img words depth) (bodyOf items) y₁.ok = some y₂ := by
  obtain ⟨D, hvia, hD⟩ := define_items m rs 0#64 (List.suffix_refl K) hd hdef
    hname hreads hq hroom
  have hlex : nextWord 64 name = (name, []) := by
    have h := nextWord_spaced (s := []) (w := name) (x := []) (by simp) hname.ne_nil hname.visible
      (by have := hname.length_le; omega) (Or.inl rfl)
    rwa [List.nil_append, List.append_nil] at h
  have hlex' : nextWord 64 (chr ' ' :: name) = (name, []) := (nextWord_blank name).trans hlex
  -- the first run follows the definition on its line
  obtain ⟨s₁, o₁, o₁', rfl, hden₁, -⟩ := (runItems_exceeds hkind hD.ds hD.base).of_some hx₁
  have hfirst : ComesTo img K (m.conf (((D.tell D.ds []).at D.parsePtr).at (chr ' ' :: name)) rs
      0#64 (.eval :: K)) (fun x => m.conf x.ok rs 0#64 K)
      (denoteBody (denoteWord img words depth) (bodyOf items) ((D.tell D.ds []).at D.parsePtr)) :=
    hD.again hd hname hkind hlex' hrs
  rw [tell_self] at hfirst
  change ComesTo img K (m.conf (D.at (chr ' ' :: name)) rs 0#64 (.eval :: K)) _
    (denoteBody (denoteWord img words depth) (bodyOf items) D) at hfirst
  rw [hden₁] at hfirst
  -- the second run has a line of its own
  have hexceeds : Exceeds (d.tell s₁ o₁).ok (D.tell s₁ o₁').ok (spoken items).length
      (runItems (denoteWord img words depth) items (d.tell s₁ o₁).ok)
      (denoteBody (denoteWord img words depth) (bodyOf items) (D.tell s₁ o₁').ok) :=
    runItems_exceeds hkind rfl hD.base
  obtain ⟨s₂, o₂, o₂', rfl, hden₂, -⟩ := hexceeds.of_some hx₂
  have hagain : ComesTo img K (m.conf (((D.tell s₁ (o₁' ++ (text " ok\n").map .putchar)).at []).at
      name) rs 0#64 (.eval :: K)) (fun x => m.conf x.ok rs 0#64 K)
      (denoteBody (denoteWord img words depth) (bodyOf items)
        ((D.tell s₁ (o₁' ++ (text " ok\n").map .putchar)).at [])) :=
    hD.again hd hname hkind hlex hrs
  rw [← tell_ok, hden₂] at hagain
  exact ⟨D, _, _, hD, ⟨hvia.trans hfirst, rfl⟩, ⟨hagain, rfl⟩, hden₁, hden₂⟩

/-- One round of both ways, from the same stack: it ends with the same stack, and with
the same output exactly when nothing was printed by a string, and what is shown
of memory is the same. -/
theorem round_agrees (hkind : Calculates words depth items) (hds : d'.ds = d.ds)
    (hbase : d'.forthBase = d.forthBase) {x y : Data}
    (hx : runItems (denoteWord img words depth) items d = some x)
    (hy : denoteBody (denoteWord img words depth) (bodyOf items) d' = some y) :
    y.ok.ds = x.ok.ds ∧ y.ok.forthBase = x.ok.forthBase ∧ y.ok.mem = d'.mem ∧
      (d'.output = d.output → (y.ok.output = x.ok.output ↔
        spoken items = [] ∧ Set.EqOn d'.mem d.mem (typedItems img words depth items d))) := by
  have hexceeds : Exceeds d d' (spoken items).length
      (runItems (denoteWord img words depth) items d)
      (denoteBody (denoteWord img words depth) (bodyOf items) d') :=
    runItems_exceeds hkind hds hbase
  obtain ⟨ds, o, o', rfl, hden, hlen⟩ := hexceeds.of_some hx
  obtain rfl := Option.some.inj (hy.symm.trans hden)
  refine ⟨rfl, hbase, rfl, fun hsame => ?_⟩
  have hok : (d'.tell ds o').ok.output = (d.tell ds o).ok.output ↔
      (d'.tell ds o').output = (d.tell ds o).output := List.append_left_inj _
  rw [hok]
  constructor
  · intro hout
    have hsilent : spoken items = [] := by
      have hcount := congrArg List.length hout
      rw [tell_output, tell_output, hsame, List.length_append, List.length_append] at hcount
      exact List.eq_nil_of_length_eq_zero (by omega)
    exact ⟨hsilent, (silent_output hkind hds hbase hsilent hx hy hsame).mp hout⟩
  · rintro ⟨hsilent, hbytes⟩
    exact (silent_output hkind hds hbase hsilent hx hy hsame).mpr hbytes

/-- **When compiling agrees with interpreting.** The line `: name S ; name` and
then `name` once more print and leave what `S`, evaluated directly twice, does,
exactly when no string in `S` prints anything and the definition changes none of
the bytes that `S` shows. -/
theorem compiled_agrees_iff (hd : AtPrompt img words P d) (hdef : HasDefiners words d)
    (hname : IsName name) (hreads : Reads words d S items q) (hq : ∀ c ∈ q, isspace c = true)
    (hkind : Calculates words depth items)
    (hroom : d.dictHere.toNat + 64 + 8 * ((bodyOf items).size + 1) ≤ dictVirtBase + dictSize)
    (hrs : rs.length + (depth + 1) ≤ returnStackSize)
    (hfirst : Evaluates img m rs K S d d₁) (hsecond : Evaluates img m rs K S d₁ d₂) :
    ∃ D₁ D₂, Evaluates img m rs K (definition name S) d D₁ ∧ Evaluates img m rs K name D₁ D₂ ∧
      ((D₁.output = d₁.output ∧ D₁.ds = d₁.ds ∧ D₂.output = d₂.output ∧ D₂.ds = d₂.ds) ↔
        (∀ f t, Phrase.enclosed f t ∈ items → f.shows t = []) ∧
          Set.EqOn (d.withWord img name items).mem d.mem (typedItems img words depth items d ∪
            typedItems img words depth items d₁)) := by
  obtain ⟨x₁, hx₁, rfl⟩ := (evaluates_iff hd hreads hq hkind (by omega)).mp hfirst
  obtain ⟨s₁, o₁, rfl⟩ := runItems_tells hkind hx₁
  obtain ⟨x₂, hx₂, rfl⟩ :=
    (evaluates_iff (hd.ok s₁ o₁) (hreads.ok s₁ o₁) hq hkind (by omega)).mp hsecond
  obtain ⟨D, y₁, y₂, hD, heval₁, heval₂, hden₁, hden₂⟩ :=
    new_word_runs m rs K hd hdef hname hreads hq hkind hroom hrs hx₁ hx₂
  refine ⟨y₁.ok, y₂.ok, heval₁, heval₂, ?_⟩
  obtain ⟨hds₁, hbase₁, hmem₁, hround₁⟩ := round_agrees hkind hD.ds hD.base hx₁ hden₁
  obtain ⟨hds₂, -, -, hround₂⟩ := round_agrees hkind hds₁ hbase₁ hx₂ hden₂
  have hsame : spoken items = [] → D.output = d.output := by
    intro hsilent
    rw [hD.output, hsilent, List.map_nil, List.append_nil]
  rw [hmem₁] at hround₂
  rw [← hD.mem, Set.eqOn_union, ← spoken_eq_nil]
  constructor
  · rintro ⟨hout₁, -, hout₂, -⟩
    -- the second round tells whether a string was printed
    obtain ⟨hsilent, hbytes₂⟩ := (hround₂ hout₁).mp hout₂
    exact ⟨hsilent, ((hround₁ (hsame hsilent)).mp hout₁).2, hbytes₂⟩
  · rintro ⟨hsilent, hbytes₁, hbytes₂⟩
    have hout₁ := (hround₁ (hsame hsilent)).mpr ⟨hsilent, hbytes₁⟩
    exact ⟨hout₁, hds₁, (hround₂ hout₁).mpr ⟨hsilent, hbytes₂⟩, hds₂⟩

end Lines

/-! ## At the first prompt -/

section Startup

variable {img : Image} {words : Words} {d : Data} {e : Cell} {name : Text} {f : CFun} {flags : Byte}

/-- What is found is a word of its own. -/
theorem Finds.entryAt (h : Finds img d name f flags e)
    (hhigh : d.dictHere.toNat ≤ dictVirtBase + dictSize) :
    EntryAt img { x | x < d.dictHere.toNat } d.mem e (.native f) := by
  have hheader := h.header
  have hfield := h.field
  have hdictTop := dictTop_lt
  refine ⟨⟨h.low, by omega⟩, ?_, ?_, h.code, fun b hb => by cases hb⟩
  · rw [Set.mem_ofPred_eq, BitVec.toNat_add, BitVec.toNat_ofNat]
    omega
  · intro x _ hx
    rw [Set.mem_ofPred_eq]
    omega

/-- The primitives of the start-up dictionary as words. -/
theorem startup_words (img : Image) : ∃ words,
    AtPrompt img words { x | x < (startup img).dictHere.toNat } (startup img) ∧
      (∀ name p, tableFind primitives name = some p →
        ∃ e, Finds img (startup img) name p.fn p.flags e ∧ words e = some (.native p.fn)) ∧
      (∀ name, tableFind primitives name = none → dictFind (startup img) name = some 0#64) ∧
      (startup img).dictHere.toNat ≤ dictVirtBase + 64 * 128 := by
  obtain ⟨words₀, P₀, hprompt, htop, hfound, hother⟩ := startup_spec img
  have hword : ∀ e, ∃ k : Option Meaning,
      (∀ name f flags, Finds img (startup img) name f flags e → k = some (.native f)) ∧
        ∀ k', k = some k' → ∃ name f flags, Finds img (startup img) name f flags e ∧
          k' = .native f := by
    intro e
    by_cases h : ∃ name f flags, Finds img (startup img) name f flags e
    · obtain ⟨name, f, flags, h⟩ := h
      refine ⟨some (.native f), fun name' f' flags' h' => ?_, fun k' hk' =>
        ⟨name, f, flags, h, (Option.some.inj hk').symm⟩⟩
      rw [img.addr_inj (h.code.symm.trans h'.code)]
    · exact ⟨none, fun name f flags h' => absurd ⟨name, f, flags, h'⟩ h, fun k' hk' => by cases hk'⟩
  choose words hnative hfinds using hword
  refine ⟨words, ⟨hprompt.mode, ?_, fun x hx => hx, hprompt.chain, hprompt.low, hprompt.high⟩, ?_,
    hother, htop⟩
  · intro e k hk
    obtain ⟨name, f, flags, h, rfl⟩ := hfinds e k hk
    exact h.entryAt hprompt.high
  · intro name p hp
    obtain ⟨e, he⟩ := hfound name p hp
    exact ⟨e, he, hnative e _ _ _ he⟩

/-- A primitive in a text. -/
theorem Finds.resolves (h : Finds img d name f flags e) (hword : words e = some (.native f)) :
    (flags = 0#8 → Resolves words d name (.word e)) ∧
      (flags = fImmediate → Resolves words d name (.control f)) := by
  have hne := ne_zero_of_base_le h.low
  constructor
  · rintro rfl
    refine .word h.find hne ?_
    rw [h.flags]
    rfl
  · rintro rfl
    refine .control h.find hne ?_ hword
    rw [h.flags]
    decide

theorem hasDefiners_of (hfound : ∀ name p, tableFind primitives name = some p →
    ∃ e, Finds img d name p.fn p.flags e ∧ words e = some (.native p.fn)) :
    HasDefiners words d := by
  obtain ⟨eC, hC, hwordC⟩ := hfound (text ":") ⟨":", .wColon, 0#8⟩ rfl
  obtain ⟨eS, hS, hwordS⟩ := hfound (text ";") ⟨";", .wSemicolon, fImmediate⟩ rfl
  exact ⟨⟨eC, hC.find, ne_zero_of_base_le hC.low, hwordC⟩, (hS.resolves hwordS).2 rfl⟩

theorem startup_forthBase (img : Image) : (startup img).forthBase = 10 := by
  obtain ⟨m, here, latest, hsame⟩ := startup_same img
  rw [hsame]
  rfl

/-- `7 DUP`, and `: W 7 DUP ; W`. -/
theorem compiled_agrees_dup : ∃ (d₁ d₂ D₁ D₂ : Data) (m : Machine) (K : List Frame),
    Evaluates linearImage m [] K (text "7 DUP") (startup linearImage) d₁ ∧
      Evaluates linearImage m [] K (text "7 DUP") d₁ d₂ ∧
      Evaluates linearImage m [] K (definition (text "W") (text "7 DUP")) (startup linearImage) D₁ ∧
      Evaluates linearImage m [] K (text "W") D₁ D₂ ∧ D₂.output = d₂.output ∧ D₂.ds = d₂.ds := by
  obtain ⟨words, hprompt, hfound, hother, htop⟩ := startup_words linearImage
  obtain ⟨e, he, hword⟩ := hfound (text "DUP") ⟨"DUP", .wDup, 0#8⟩ rfl
  have hseven : nextWord 64 (text "7 DUP") = (text "7", text " DUP") := by decide
  have hdup : nextWord 64 (text " DUP") = (text "DUP", []) := by decide
  have hnum : tryParseNumber (startup linearImage).forthBase (text "7") = some 7#64 := by
    rw [startup_forthBase]
    decide
  have hreads : Reads words (startup linearImage) (text "7 DUP") [.number 7#64, .word e] [] :=
    .number hseven (by decide) (.lit (hother _ rfl) hnum)
      (.word hdup (by decide) ((he.resolves hword).1 rfl) .nil)
  have hkind : Calculates words 0 [.number 7#64, .word e] := by
    intro e' he'
    obtain rfl : e' = e := by simpa using he'
    exact ⟨.wDup, hword, rfl⟩
  have hrun : ∀ d, runItems (denoteWord linearImage words 0) [.number 7#64, .word e] d =
      some ((d.dsPush 7#64).dsPush (d.dsPush 7#64).dsPeek) := by
    intro d
    simp only [runItems, Phrase.run, denoteWord, hword, Option.bind_some]
    rfl
  have hshown : ∀ d, typedItems linearImage words 0 [.number 7#64, .word e] d = ∅ := by
    intro d
    simp [typedItems, bodyOf, typedBody, typedWord, hword, typedLeaf]
  obtain ⟨d₁, d₂, hfirst, hsecond⟩ := evaluates_twice (startupPrompt linearImage []) [] []
    hprompt hreads (by simp) hkind (by decide) fun d => ⟨_, hrun d⟩
  have hroom : (startup linearImage).dictHere.toNat + 64 + 8 * (3 + 1) ≤
      dictVirtBase + dictSize := by
    exact (Nat.add_le_add_right (Nat.add_le_add_right htop 64) _).trans (by decide)
  obtain ⟨D₁, D₂, heval₁, heval₂, hiff⟩ := compiled_agrees_iff hprompt (hasDefiners_of hfound)
    (⟨by decide, by decide, by decide⟩ : IsName (text "W")) hreads (by simp) hkind hroom (by decide)
    hfirst hsecond
  obtain ⟨-, -, hout, hds⟩ := hiff.mpr ⟨by simp, by rw [hshown, hshown]; simp⟩
  exact ⟨_, _, D₁, D₂, _, [], hfirst, hsecond, heval₁, heval₂, hout, hds⟩

theorem Evaluates.unique {m : Machine} {rs : List Cell} {K : List Frame} {line : Text}
    {d₁ d₂ : Data} (h₁ : Evaluates img m rs K line d d₁)
    (h₂ : Evaluates img m rs K line d d₂) : d₁ = d₂ :=
  congrArg (fun m : Machine => m.vm.data) (Returns.unique h₁ h₂)

/-- `." A"` prints each time, `: W ." A" ; W W` prints once. -/
theorem string_compiled_away : ¬ ∀ (words : Words) (P : Set Nat) (d d₁ d₂ : Data) (name S q : Text)
    (items : List Phrase) (depth : Nat) (m : Machine) (rs : List Cell) (K : List Frame),
    AtPrompt linearImage words P d → HasDefiners words d → IsName name →
    Reads words d S items q → (∀ c ∈ q, isspace c = true) → Calculates words depth items →
    d.dictHere.toNat + 64 + 8 * ((bodyOf items).size + 1) ≤ dictVirtBase + dictSize →
    rs.length + (depth + 1) ≤ returnStackSize →
    Evaluates linearImage m rs K S d d₁ → Evaluates linearImage m rs K S d₁ d₂ →
    ∃ D₁ D₂, Evaluates linearImage m rs K (definition name S) d D₁ ∧
      Evaluates linearImage m rs K name D₁ D₂ ∧
      D₁.output = d₁.output ∧ D₁.ds = d₁.ds ∧ D₂.output = d₂.output ∧ D₂.ds = d₂.ds := by
  intro hagree
  obtain ⟨words, hprompt, hfound, -, htop⟩ := startup_words linearImage
  obtain ⟨e, he, hword⟩ := hfound (text ".\"") ⟨".\"", .wDotQuote, fImmediate⟩ rfl
  have hlex : nextWord 64 (text ".\" A\"") = (text ".\"", text " A\"") := by decide
  have huntil : nextUntil (chr '"') 128 (text " A\"") = (text "A", []) := by decide
  have hreads : Reads words (startup linearImage) (text ".\" A\"") [.enclosed .wDotQuote (text "A")]
      [] :=
    .enclosed hlex (by decide) ((he.resolves hword).2 rfl) rfl (by decide) huntil .nil
  have hkind : Calculates words 0 [.enclosed .wDotQuote (text "A")] := by
    intro e' he'
    simp at he'
  have hname : IsName (text "W") := ⟨by decide, by decide, by decide⟩
  have hroom : (startup linearImage).dictHere.toNat + 64 + 8 * (0 + 1) ≤
      dictVirtBase + dictSize := by
    exact (Nat.add_le_add_right (Nat.add_le_add_right htop 64) _).trans (by decide)
  have hdef := hasDefiners_of hfound
  -- directly
  have hrun : ∀ d, runItems (denoteWord linearImage words 0) [.enclosed .wDotQuote (text "A")] d =
      some (d.puts (text "A")) := fun d => rfl
  generalize startup linearImage = d at *
  generalize hm : startupPrompt linearImage [] = m
  have hfirst : Evaluates linearImage m [] [] (text ".\" A\"") d (d.puts (text "A")).ok :=
    (evaluates_iff hprompt hreads (by simp) hkind (by decide)).mpr ⟨_, hrun d, rfl⟩
  have hsecond : Evaluates linearImage m [] [] (text ".\" A\"") (d.puts (text "A")).ok
      ((d.puts (text "A")).ok.puts (text "A")).ok :=
    (evaluates_iff (hprompt.ok d.ds _) (hreads.ok d.ds _) (by simp) hkind (by decide)).mpr
      ⟨_, hrun _, rfl⟩
  -- compiled
  obtain ⟨D, y₁, y₂, hD, heval₁, heval₂, hden₁, hden₂⟩ := new_word_runs m [] [] hprompt
    hdef hname hreads (by simp) hkind hroom (by decide) (hrun d) (hrun _)
  obtain rfl : D = y₁ := Option.some.inj hden₁
  obtain rfl : D.ok = y₂ := Option.some.inj hden₂
  obtain ⟨D₁, D₂, hrun₁, hrun₂, hout₁, -, hout₂, -⟩ := hagree words _ d _ _ (text "W") _ _ _ 0
    m [] [] hprompt hdef hname hreads (by simp) hkind hroom (by decide) hfirst hsecond
  obtain rfl := hrun₁.unique heval₁
  obtain rfl := hrun₂.unique heval₂
  have hok : ∀ d : Data, d.ok.output.length = d.output.length + 4 := fun d => List.length_append
  have hputs : ∀ d : Data, (d.puts (text "A")).output.length = d.output.length + 1 :=
    fun d => List.length_append
  have hlen := congrArg List.length hout₂
  rw [hok D.ok, hout₁, hok ((d.puts (text "A")).ok.puts (text "A")), hputs] at hlen
  omega

end Startup

end VectorForth.Forth
