import VectorForth.Vm.Machine
import VectorForth.Kernel.Vga

/-!
# The line on the screen

`forth_run` keeps the line that is typed in `input_buffer` and echoes each key to
the screen; the two are edited by different code. They agree until a backspace is
typed with the cursor in the first column: the buffer loses a character there and
the screen does not, since `vga_putchar` does not go back to the row above.
-/

namespace VectorForth.Forth

open ByteMemory Terminal Vga

/-! ## The screen -/

/-- The console after what was sent to it. -/
def console (v : Vga.State) (out : List Out) : Vga.State :=
  out.foldl (fun v o =>
    match o with
    | .putchar c => vgaPutchar c v
    | .clear => vgaClear v) v

def play (p : Page Byte) (out : List Out) : Page Byte :=
  out.foldl (fun p o =>
    match o with
    | .putchar c => termAct p (action c)
    | .clear => Page.empty 0x20#8) p

/-- The terminal on which the same is played. -/
def terminal (out : List Out) : Page Byte := play (Page.empty 0x20#8) out

/-- The screen of a machine that was booted with the memory and the variables of `boot`. -/
def screen (boot : Vga.State) (m : Machine) : Vga.State :=
  console (vgaClear boot) m.vm.data.output

/-- The number of the cell of the cursor. -/
def cursorCell (v : Vga.State) : Nat := v.vgaRow * vgaWidth + v.vgaCol

/-- How often the screen has scrolled between two outputs. -/
def scrolled (out out' : List Out) : Nat := (terminal out').top vgaHeight - (terminal out).top vgaHeight

/-- The cells from the end of the prompt of `m` to the cursor, in row-major order. -/
def shownLine (boot : Vga.State) (m m' : Machine) : Text :=
  let start := cursorCell (screen boot m) - vgaWidth * scrolled m.vm.data.output m'.vm.data.output
  (List.range (cursorCell (screen boot m') - start)).map fun i => (screen boot m').char (start + i)

/-- What is promised at every moment: the screen shows the input buffer, and Enter
passes it to `forth_eval`. -/
structure InStep (boot : Vga.State) (rest : List Frame) (m m' : Machine) : Prop where
  shown : shownLine boot m m' = m'.inputBuffer
  enter : shownLine boot m m' ≠ [] →
    (replKey rest (chr '\n') m').vm.data.parsePtr = shownLine boot m m' ∧
      (replKey rest (chr '\n') m').frames = .eval :: .prompt :: .repl :: rest

/-- In step before the first key and after each. -/
def InStepAll (boot : Vga.State) (rest : List Frame) (m : Machine) : Machine → Text → Prop
  | m', [] => InStep boot rest m m'
  | m', c :: cs => InStep boot rest m m' ∧ InStepAll boot rest m (replKey rest c m') cs

/-- No backspace is typed with the cursor in the first column behind a character of
the line. -/
def NoEdge (boot : Vga.State) (rest : List Frame) (m : Machine) : Machine → Text → Prop
  | _, [] => True
  | m', c :: cs =>
      ¬ (c = chr '\x08' ∧ m'.inputBuffer ≠ [] ∧
        ((screen boot m).vgaCol + m'.inputBuffer.length) % vgaWidth = 0) ∧
      NoEdge boot rest m (replKey rest c m') cs

/-! ## The screen and the terminal -/

section Screen

variable {v : Vga.State} {p p₀ : Page Byte} {boot : Vga.State} {m m' : Machine} {out : List Out}

theorem console_mirrors (h : Mirrors v p) (out : List Out) :
    Mirrors (console v out) (play p out) := by
  induction out generalizing v p with
  | nil => exact h
  | cons o out ih =>
      cases o with
      | putchar c => exact ih (h.vgaPutchar c).1
      | clear => exact ih (mirrors_clear v)

theorem screen_mirrors (boot : Vga.State) (m : Machine) :
    Mirrors (screen boot m) (terminal m.vm.data.output) :=
  console_mirrors (mirrors_clear boot) m.vm.data.output

theorem terminal_puts (m : Machine) (t : Text) :
    terminal (m.puts t).vm.data.output = (t.map action).foldl termAct (terminal m.vm.data.output) := by
  show play _ (m.vm.data.output ++ t.map .putchar) = _
  rw [play, List.foldl_append, List.foldl_map, List.foldl_map]
  rfl

theorem cursorCell_add (h : Mirrors v p) :
    cursorCell v + vgaWidth * p.top vgaHeight = p.pos vgaWidth := by
  obtain ⟨-, -, hrow, hcol, -⟩ := h.spec
  rw [cursorCell, Page.pos, ← hrow, hcol, Nat.add_mul, Nat.mul_comm vgaWidth]
  omega

theorem cursorCell_lt (h : Mirrors v p) : cursorCell v < vgaHeight * vgaWidth := by
  obtain ⟨hrow, hcol, -⟩ := h.spec
  unfold cursorCell vgaHeight vgaWidth at *
  omega

/-- Of at most 256 characters the first is still on the screen, and the cells shown
are those of the terminal. -/
theorem shownLine_eq {p₀ p : Page Byte} (hp₀ : terminal m.vm.data.output = p₀)
    (hp : terminal m'.vm.data.output = p) (hle : p₀.pos vgaWidth ≤ p.pos vgaWidth)
    (hlen : p.pos vgaWidth ≤ p₀.pos vgaWidth + 256) :
    shownLine boot m m' = (List.range (p.pos vgaWidth - p₀.pos vgaWidth)).map fun i =>
      p.nth vgaWidth (p₀.pos vgaWidth + i) := by
  have hold := screen_mirrors boot m
  have hnew := screen_mirrors boot m'
  rw [hp₀] at hold
  rw [hp] at hnew
  have hstart := cursorCell_add hold
  have hcursor := cursorCell_add hnew
  have hlt := cursorCell_lt hnew
  have hscrolled : scrolled m.vm.data.output m'.vm.data.output = p.top vgaHeight - p₀.top vgaHeight := by
    rw [scrolled, hp₀, hp]
  have hcol₀ : p₀.col < vgaWidth := by
    obtain ⟨-, hcol, -, hsame, -⟩ := hold.spec
    rwa [← hsame]
  have hcol : p.col < vgaWidth := by
    obtain ⟨-, hcol, -, hsame, -⟩ := hnew.spec
    rwa [← hsame]
  have hfirst : cursorCell (screen boot m) - vgaWidth * (p.top vgaHeight - p₀.top vgaHeight) +
      vgaWidth * p.top vgaHeight = p₀.pos vgaWidth := by
    unfold Page.pos Page.top vgaWidth vgaHeight at *
    omega
  unfold shownLine
  rw [hscrolled]
  generalize cursorCell (screen boot m) - vgaWidth * (p.top vgaHeight - p₀.top vgaHeight) = start
    at hfirst ⊢
  dsimp only
  have hcount : cursorCell (screen boot m') - start = p.pos vgaWidth - p₀.pos vgaWidth := by omega
  rw [hcount]
  apply List.map_congr_left
  intro i hi
  rw [List.mem_range] at hi
  have hcell : p.top vgaHeight * vgaWidth + (start + i) = p₀.pos vgaWidth + i := by
    rw [Nat.mul_comm]
    omega
  rw [hnew.char (by omega), hcell]

end Screen

/-! ## One key -/

/-- The line is what stands on the terminal between the end of the prompt and the cursor. -/
structure Line (p₀ p : Page Byte) (line : Text) : Prop where
  pos : p.pos vgaWidth = p₀.pos vgaWidth + line.length
  text : ∀ i (h : i < line.length), p.nth vgaWidth (p₀.pos vgaWidth + i) = (line)[i]
  length : line.length ≤ 255

section Keys

variable {boot : Vga.State} {rest : List Frame} {m m' : Machine} {c : Byte} {cs : Text}
  {p₀ p : Page Byte} {line : Text}

/-- A printed character, on this screen. -/
theorem termAct_print (hcol : p.col < vgaWidth) (c : Byte) :
    (termAct p (.print c)).pos vgaWidth = p.pos vgaWidth + 1 ∧
      (termAct p (.print c)).col < vgaWidth ∧
      ∀ i, (termAct p (.print c)).nth vgaWidth i =
        if i = p.pos vgaWidth then c else p.nth vgaWidth i :=
  act_print hcol c

theorem termAct_backspace (hcol : p.col < vgaWidth) (hpos : 0 < p.col) :
    (termAct p .backspace).pos vgaWidth + 1 = p.pos vgaWidth ∧
      (termAct p .backspace).col + 1 = p.col ∧
      ∀ i, i + 1 < p.pos vgaWidth → (termAct p .backspace).nth vgaWidth i = p.nth vgaWidth i :=
  act_backspace hcol hpos

theorem termAct_edge (h : p.col = 0) : termAct p .backspace = p := act_backspace_edge h

theorem pos_mod (h : p.col < vgaWidth) : p.pos vgaWidth % vgaWidth = p.col := by
  unfold Page.pos vgaWidth at *
  omega

theorem Line.shown (h : Line (terminal m.vm.data.output) (terminal m'.vm.data.output) line) :
    shownLine boot m m' = line := by
  have hpos := h.pos
  have hlen := h.length
  rw [shownLine_eq rfl rfl (by omega) (by omega), hpos, Nat.add_sub_cancel_left]
  apply List.ext_getElem
  · simp
  · intro i hi hi'
    rw [List.getElem_map, List.getElem_range]
    exact h.text i hi'

/-- A printable character goes to the end of the line. -/
theorem Line.print (h : Line p₀ p line) (hcol : p.col < vgaWidth) (hroom : line.length < 255)
    (c : Byte) : Line p₀ (termAct p (.print c)) (line ++ [c]) := by
  obtain ⟨hpos, -, hnth⟩ := termAct_print hcol c
  constructor
  case pos => rw [hpos, h.pos, List.length_append, List.length_singleton, Nat.add_assoc]
  case text =>
    intro i hi
    rw [List.length_append, List.length_singleton] at hi
    rw [hnth, h.pos]
    by_cases hlast : i = line.length
    · subst hlast
      rw [if_pos rfl, List.getElem_concat_length rfl]
    · rw [if_neg (by omega), h.text i (by omega), List.getElem_append_left (by omega)]
  case length =>
    rw [List.length_append, List.length_singleton]
    omega

/-- The three characters that erase, within a row. -/
theorem Line.erase (h : Line p₀ p line) (hcol : p.col < vgaWidth) (hpos : 0 < p.col)
    (hline : line ≠ []) :
    Line p₀ (termAct (termAct (termAct p .backspace) (.print 0x20#8)) .backspace) line.dropLast := by
  have hlength := List.length_pos_iff.mpr hline
  obtain ⟨hpos₁, hcol₁, hnth₁⟩ := termAct_backspace hcol hpos
  obtain ⟨hpos₂, hcol₂, hnth₂⟩ := termAct_print (Nat.lt_of_le_of_lt (by omega) hcol)
    0x20#8 (p := termAct p .backspace)
  have hin : 0 < (termAct (termAct p .backspace) (.print 0x20#8)).col := by
    have hmod := pos_mod hcol₂
    rw [hpos₂, hpos₁, pos_mod hcol] at hmod
    omega
  obtain ⟨hpos₃, -, hnth₃⟩ := termAct_backspace hcol₂ hin
  have hlinePos := h.pos
  constructor
  case pos =>
    rw [List.length_dropLast]
    omega
  case text =>
    intro i hi
    rw [List.length_dropLast] at hi
    rw [hnth₃ _ (by omega), hnth₂, if_neg (by omega), hnth₁ _ (by omega), h.text i (by omega),
      List.getElem_dropLast]
  case length =>
    rw [List.length_dropLast]
    have := h.length
    omega

/-- In the first column the cursor stays where it is. -/
theorem erase_edge (h : p.col = 0) :
    (termAct (termAct (termAct p .backspace) (.print 0x20#8)) .backspace).pos vgaWidth =
      p.pos vgaWidth := by
  have hcol : p.col < vgaWidth := by
    rw [h]
    decide
  obtain ⟨hpos₂, hcol₂, -⟩ := termAct_print hcol 0x20#8
  have hin : 0 < (termAct p (.print 0x20#8)).col := by
    have hmod := pos_mod hcol₂
    rw [hpos₂, Nat.add_mod, pos_mod hcol, h] at hmod
    rw [← hmod]
    decide
  obtain ⟨hpos₃, -⟩ := termAct_backspace hcol₂ hin
  rw [termAct_edge h]
  omega

/-- What the loop of `forth_run` makes of a key other than Enter. -/
theorem replKey_cases (hc : c ≠ chr '\n') (rest : List Frame) (m' : Machine) :
    replKey rest c m' = m' ∧ (c = chr '\x08' → m'.inputBuffer = []) ∨
    c = chr '\x08' ∧ m'.inputBuffer ≠ [] ∧ replKey rest c m' =
      { m'.puts [chr '\x08', chr ' ', chr '\x08'] with inputBuffer := m'.inputBuffer.dropLast } ∨
    c ≠ chr '\x08' ∧ action c = .print c ∧ m'.inputBuffer.length < 255 ∧
      replKey rest c m' = { m'.puts [c] with inputBuffer := m'.inputBuffer ++ [c] } := by
  unfold replKey
  rw [if_neg hc]
  by_cases hback : c = chr '\x08'
  · rw [if_pos hback]
    by_cases hline : m'.inputBuffer = []
    · rw [if_neg (not_not.mpr hline)]
      exact Or.inl ⟨rfl, fun _ => hline⟩
    · rw [if_pos hline]
      exact Or.inr (Or.inl ⟨hback, hline, rfl⟩)
  · rw [if_neg hback]
    by_cases hprint : 32#8 ≤ c ∧ c < 128#8 ∧ m'.inputBuffer.length < 255
    · rw [if_pos hprint]
      refine Or.inr (Or.inr ⟨hback, ?_, hprint.2.2, rfl⟩)
      have hreturn : c ≠ 0x0D#8 := by
        rintro rfl
        exact absurd hprint.1 (by decide)
      have htab : c ≠ 0x09#8 := by
        rintro rfl
        exact absurd hprint.1 (by decide)
      have hnewline : c ≠ 0x0A#8 := hc
      have herase : c ≠ 0x08#8 := hback
      rw [action, if_neg hnewline, if_neg hreturn, if_neg htab, if_neg herase,
        if_pos ⟨hprint.1, hprint.2.1⟩]
    · rw [if_neg hprint]
      exact Or.inl ⟨rfl, fun h => absurd h hback⟩

theorem terminal_col (boot : Vga.State) (m : Machine) :
    (terminal m.vm.data.output).col < vgaWidth ∧
      (screen boot m).vgaCol = (terminal m.vm.data.output).col := by
  obtain ⟨-, hcol, -, hsame, -⟩ := (screen_mirrors boot m).spec
  exact ⟨hsame ▸ hcol, hsame⟩

theorem Line.inStep (h : Line (terminal m.vm.data.output) (terminal m'.vm.data.output) m'.inputBuffer)
    (boot : Vga.State) (rest : List Frame) : InStep boot rest m m' := by
  have hshown : shownLine boot m m' = m'.inputBuffer := h.shown
  refine ⟨hshown, fun hne => ?_⟩
  rw [hshown] at hne ⊢
  have hline : (m'.puts [chr '\n']).inputBuffer ≠ [] := hne
  rw [replKey, if_pos rfl]
  dsimp only
  rw [if_pos hline]
  exact ⟨rfl, rfl⟩

/-- A key that is not a backspace at the edge leaves the line on the screen. -/
theorem Line.key (h : Line (terminal m.vm.data.output) (terminal m'.vm.data.output) m'.inputBuffer)
    (hc : c ≠ chr '\n') (boot : Vga.State) (rest : List Frame)
    (hedge : ¬ (c = chr '\x08' ∧ m'.inputBuffer ≠ [] ∧
      ((screen boot m).vgaCol + m'.inputBuffer.length) % vgaWidth = 0)) :
    Line (terminal m.vm.data.output) (terminal (replKey rest c m').vm.data.output)
      (replKey rest c m').inputBuffer := by
  have hcol := (terminal_col boot m').1
  rcases replKey_cases hc rest m' with ⟨hkey, -⟩ | ⟨hback, hline, hkey⟩ | ⟨hback, hact, hroom, hkey⟩
  · rw [hkey]
    exact h
  · -- the cursor is not in the first column
    have hpos : 0 < (terminal m'.vm.data.output).col := by
      have hmod := pos_mod hcol
      have hmod₀ := pos_mod (terminal_col boot m).1
      have hne : ((screen boot m).vgaCol + m'.inputBuffer.length) % vgaWidth ≠ 0 :=
        fun hzero => hedge ⟨hback, hline, hzero⟩
      rw [h.pos, Nat.add_mod, hmod₀, ← (terminal_col boot m).2] at hmod
      rw [← Nat.add_mod_mod] at hne
      omega
    have hterminal := terminal_puts m' [chr '\x08', chr ' ', chr '\x08']
    rw [hkey]
    show Line _ (terminal (m'.puts [chr '\x08', chr ' ', chr '\x08']).vm.data.output) _
    rw [hterminal]
    exact h.erase hcol hpos hline
  · have hterminal := terminal_puts m' [c]
    rw [hkey]
    show Line _ (terminal (m'.puts [c]).vm.data.output) _
    rw [hterminal, List.map_singleton, hact]
    exact h.print hcol hroom c

/-- A backspace at the edge: the buffer is one character shorter than what is shown. -/
theorem Line.broken (h : Line (terminal m.vm.data.output) (terminal m'.vm.data.output) m'.inputBuffer)
    (boot : Vga.State) (rest : List Frame) (hline : m'.inputBuffer ≠ [])
    (hedge : ((screen boot m).vgaCol + m'.inputBuffer.length) % vgaWidth = 0) :
    ¬ InStep boot rest m (replKey rest (chr '\x08') m') := by
  intro hstep
  have hlength := List.length_pos_iff.mpr hline
  have hlen := h.length
  have hcol : (terminal m'.vm.data.output).col = 0 := by
    have hmod := pos_mod (terminal_col boot m').1
    rw [h.pos, Nat.add_mod, pos_mod (terminal_col boot m).1, ← (terminal_col boot m).2] at hmod
    rw [← Nat.add_mod_mod] at hedge
    omega
  have hkey : replKey rest (chr '\x08') m' =
      { m'.puts [chr '\x08', chr ' ', chr '\x08'] with inputBuffer := m'.inputBuffer.dropLast } := by
    have hc : chr '\x08' ≠ chr '\n' := by decide
    rcases replKey_cases hc rest m' with ⟨-, hnil⟩ | ⟨-, -, hkey⟩ | ⟨hback, -⟩
    · exact absurd (hnil rfl) hline
    · exact hkey
    · exact absurd rfl hback
  have hpos : (terminal (replKey rest (chr '\x08') m').vm.data.output).pos vgaWidth =
      (terminal m'.vm.data.output).pos vgaWidth := by
    have hterminal := terminal_puts m' [chr '\x08', chr ' ', chr '\x08']
    rw [hkey]
    show (terminal (m'.puts [chr '\x08', chr ' ', chr '\x08']).vm.data.output).pos vgaWidth = _
    rw [hterminal]
    exact erase_edge hcol
  have hshown := congrArg List.length hstep.shown
  rw [shownLine_eq rfl rfl (by rw [hpos, h.pos]; omega) (by rw [hpos, h.pos]; omega), hpos, h.pos,
    List.length_map, List.length_range, hkey] at hshown
  dsimp only at hshown
  rw [List.length_dropLast] at hshown
  omega

theorem InStepAll.now {cs : Text} (h : InStepAll boot rest m m' cs) : InStep boot rest m m' := by
  cases cs with
  | nil => exact h
  | cons c cs => exact h.1

/-- By induction on the keys, from a moment where the line stands on the screen. -/
theorem Line.inStepAll_iff_edge {cs : Text}
    (h : Line (terminal m.vm.data.output) (terminal m'.vm.data.output) m'.inputBuffer)
    (hcs : ∀ c ∈ cs, c ≠ chr '\n') (boot : Vga.State) (rest : List Frame) :
    InStepAll boot rest m m' cs ↔ NoEdge boot rest m m' cs := by
  induction cs generalizing m' with
  | nil => exact iff_of_true (h.inStep boot rest) trivial
  | cons c cs ih =>
      have hc := hcs c (List.mem_cons_self ..)
      have hcs' : ∀ c ∈ cs, c ≠ chr '\n' := fun c hmem => hcs c (List.mem_cons_of_mem _ hmem)
      constructor
      · rintro ⟨-, hrest⟩
        have hedge : ¬ (c = chr '\x08' ∧ m'.inputBuffer ≠ [] ∧
            ((screen boot m).vgaCol + m'.inputBuffer.length) % vgaWidth = 0) := by
          rintro ⟨rfl, hline, hzero⟩
          exact h.broken boot rest hline hzero hrest.now
        exact ⟨hedge, (ih (h.key hc boot rest hedge) hcs').mp hrest⟩
      · rintro ⟨hedge, hrest⟩
        exact ⟨h.inStep boot rest, (ih (h.key hc boot rest hedge) hcs').mpr hrest⟩

/-- **What is seen is what will be evaluated, exactly as long as no backspace is typed
in the first column** behind a character of the line. -/
theorem inStepAll_iff (boot : Vga.State) (rest : List Frame) (m : Machine) (cs : Text)
    (hprompt : m.inputBuffer = []) (hcs : ∀ c ∈ cs, c ≠ chr '\n') :
    InStepAll boot rest m m cs ↔ NoEdge boot rest m m cs := by
  refine Line.inStepAll_iff_edge ⟨?_, ?_, ?_⟩ hcs boot rest
  · rw [hprompt]
    rfl
  · intro i hi
    rw [hprompt] at hi
    cases hi
  · rw [hprompt]
    exact Nat.zero_le _

end Keys

/-- A machine at the first prompt, with nothing but it on the screen. -/
def freshPrompt : Machine where
  vm :=
    { data := { blankData with output := [.putchar (chr '>'), .putchar (chr ' ')] }
      rs := []
      ip := 0#64 }
  frames := [.repl]
  kbd := []
  inputBuffer := []

def darkScreen : Vga.State where
  mem := fun _ => 0#8
  stores := []
  vgaRow := 0
  vgaCol := 0
  vgaAttrib := 0#8

theorem inStepAll_fresh : InStepAll darkScreen [] freshPrompt freshPrompt (text "1 .") ↔
    NoEdge darkScreen [] freshPrompt freshPrompt (text "1 .") :=
  inStepAll_iff darkScreen [] freshPrompt (text "1 .") rfl (by decide)

/-- A line that ends in the last column, and one backspace. -/
def fullLine : Text := List.replicate 78 (chr 'x') ++ [chr '\x08']

/-- Typing `x` makes the line longer. -/
theorem type_x (rest : List Frame) (m' : Machine) (hroom : m'.inputBuffer.length < 255) :
    (replKey rest (chr 'x') m').inputBuffer = m'.inputBuffer ++ [chr 'x'] := by
  have hx : chr 'x' ≠ chr '\n' := by decide
  have hback : chr 'x' ≠ chr '\x08' := by decide
  have hprint : 32#8 ≤ chr 'x' ∧ chr 'x' < 128#8 ∧ m'.inputBuffer.length < 255 :=
    ⟨by decide, by decide, hroom⟩
  rw [replKey, if_neg hx, if_neg hback, if_pos hprint]

/-- The length of the line decides whether the backspace meets the edge. -/
theorem noEdge_xs (boot : Vga.State) (rest : List Frame) (m : Machine) (n : Nat) {m' : Machine}
    (hlen : m'.inputBuffer.length + n < 256) (hpos : 0 < m'.inputBuffer.length + n)
    (h : NoEdge boot rest m m' (List.replicate n (chr 'x') ++ [chr '\x08'])) :
    ((screen boot m).vgaCol + (m'.inputBuffer.length + n)) % vgaWidth ≠ 0 := by
  induction n generalizing m' with
  | zero =>
      intro hzero
      exact h.1 ⟨rfl, List.length_pos_iff.mp hpos, hzero⟩
  | succ n ih =>
      have htyped := type_x rest m' (by omega)
      have hcount : (replKey rest (chr 'x') m').inputBuffer.length = m'.inputBuffer.length + 1 := by
        rw [htyped, List.length_append, List.length_singleton]
      have hrest := @ih (replKey rest (chr 'x') m') (by omega) (by omega) h.2
      rwa [hcount, Nat.add_assoc, Nat.add_comm 1] at hrest

/-- The cursor does not go back to the row above. -/
theorem fullLine_breaks : ¬ InStepAll darkScreen [] freshPrompt freshPrompt fullLine := by
  intro h
  have hline : Line (terminal freshPrompt.vm.data.output) (terminal freshPrompt.vm.data.output)
      freshPrompt.inputBuffer := by
    refine ⟨rfl, ?_, Nat.zero_le _⟩
    rintro i ⟨⟩
  have hkeys : ∀ c ∈ fullLine, c ≠ chr '\n' := by decide
  have hnoEdge := (hline.inStepAll_iff_edge hkeys darkScreen []).mp h
  have hcol : (screen darkScreen freshPrompt).vgaCol = 2 := (terminal_col darkScreen freshPrompt).2
  have hmod := noEdge_xs darkScreen [] freshPrompt 78 (by decide) (by decide) hnoEdge
  rw [hcol] at hmod
  exact hmod rfl

end VectorForth.Forth
