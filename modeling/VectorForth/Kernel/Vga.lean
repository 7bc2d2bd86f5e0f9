import VectorForth.Kernel.Strings
import VectorForth.Lib.Terminal

/-!
# The text console

`vga.c` over the memory of the screen, a `u16` for each cell, with the `memmove` of
`string.c`. The addresses stored to are recorded. Seen as rows and a cursor, one
call of `vga_putchar` is one step of a window of 25 rows, and so the screen shows
the last rows of a terminal that never scrolls.
-/

namespace VectorForth.Vga

open ByteMemory Terminal

def vgaMemory : Nat := 0xFFFF8000000B8000

def vgaWidth : Nat := 80

def vgaHeight : Nat := 25

/-- The static variables, the memory, and the addresses stored to. -/
structure State where
  mem : Mem
  stores : List Nat
  vgaRow : Nat
  vgaCol : Nat
  vgaAttrib : Byte

def State.store8 (s : State) (a : Nat) (b : Byte) : State :=
  { s with mem := write8 s.mem a b, stores := a :: s.stores }

/-- The bytes as `memmove` reads and writes them. -/
def bytes : Strings.Access State := ⟨fun v a => v.mem a, State.store8⟩

/-! ## vga.c -/

def vgaEntry (c color : Byte) : BitVec 16 := c.setWidth 16 ||| color.setWidth 16 <<< 8

/-- `vga_buffer[i] = entry`. -/
def State.setCell (v : State) (i : Nat) (entry : BitVec 16) : State :=
  (v.store8 (vgaMemory + 2 * i) (entry.setWidth 8)).store8 (vgaMemory + 2 * i + 1)
    ((entry >>> 8).setWidth 8)

/-- `n` cells from `i` on. -/
def State.setCells (v : State) (i n : Nat) (entry : BitVec 16) : State :=
  n.fold (fun k _ v => v.setCell (i + k) entry) v

def vgaClear (v : State) : State :=
  let blank := vgaEntry 0x20#8 v.vgaAttrib
  { v.setCells 0 (vgaWidth * vgaHeight) blank with vgaRow := 0, vgaCol := 0 }

def vgaSetColor (attrib : Byte) (v : State) : State := { v with vgaAttrib := attrib }

def vgaScroll (v : State) : State :=
  if v.vgaRow < vgaHeight then v
  else
    let (_, v) := Strings.memmoveOn bytes v vgaMemory (vgaMemory + 2 * vgaWidth)
      (vgaWidth * (vgaHeight - 1) * 2)
    let blank := vgaEntry 0x20#8 v.vgaAttrib
    { v.setCells ((vgaHeight - 1) * vgaWidth) vgaWidth blank with vgaRow := vgaHeight - 1 }

/-- `~7`. -/
def tabMask : Nat := 0xFFFFFFF8

/-- The `switch` of `vga_putchar`. A `char` from 128 on is negative and not printed. -/
def vgaPut (c : Byte) (v : State) : State :=
  if c = 0x0A#8 then { v with vgaCol := 0, vgaRow := v.vgaRow + 1 }
  else if c = 0x0D#8 then { v with vgaCol := 0 }
  else if c = 0x09#8 then
    let v := { v with vgaCol := (v.vgaCol + 8) &&& tabMask }
    if v.vgaCol ≥ vgaWidth then { v with vgaCol := 0, vgaRow := v.vgaRow + 1 } else v
  else if c = 0x08#8 then
    if v.vgaCol > 0 then
      let v := { v with vgaCol := v.vgaCol - 1 }
      v.setCell (v.vgaRow * vgaWidth + v.vgaCol) (vgaEntry 0x20#8 v.vgaAttrib)
    else v
  else if 0x20#8 ≤ c ∧ c < 0x80#8 then
    let v := v.setCell (v.vgaRow * vgaWidth + v.vgaCol) (vgaEntry c v.vgaAttrib)
    let v := { v with vgaCol := v.vgaCol + 1 }
    if v.vgaCol ≥ vgaWidth then { v with vgaCol := 0, vgaRow := v.vgaRow + 1 } else v
  else v

def vgaPutchar (c : Byte) (v : State) : State :=
  let v := vgaPut c v
  if v.vgaRow ≥ vgaHeight then vgaScroll v else v

/-! ## What is stored -/

section Stores

variable {v v' v'' : State} {P Q : Nat → Prop} {d s n i j : Nat} {entry : BitVec 16}

/-- Only addresses in `P` are stored to, and only there the memory changes. -/
structure Stores (v v' : State) (P : Nat → Prop) : Prop where
  stores : ∀ x ∈ v'.stores, x ∈ v.stores ∨ P x
  outside : ∀ x, ¬ P x → v'.mem x = v.mem x

theorem Stores.refl (v : State) (P : Nat → Prop) : Stores v v P :=
  ⟨fun _ hx => Or.inl hx, fun _ _ => rfl⟩

theorem Stores.trans (h : Stores v v' P) (h' : Stores v' v'' P) : Stores v v'' P where
  stores := by
    intro x hx
    rcases h'.stores x hx with hx' | hP
    · exact h.stores x hx'
    · exact Or.inr hP
  outside := fun x hx => (h'.outside x hx).trans (h.outside x hx)

theorem Stores.mono (h : Stores v v' P) (hPQ : ∀ x, P x → Q x) : Stores v v' Q where
  stores := by
    intro x hx
    rcases h.stores x hx with hx' | hP
    · exact Or.inl hx'
    · exact Or.inr (hPQ x hP)
  outside := fun x hx => h.outside x fun hP => hx (hPQ x hP)

/-- Moving the cursor stores nothing. -/
theorem Stores.moved (h : Stores v v' P) (row col : Nat) :
    Stores v { v' with vgaRow := row, vgaCol := col } P := ⟨h.stores, h.outside⟩

theorem store8_stores (v : State) (a : Nat) (b : Byte) : Stores v (v.store8 a b) (· = a) where
  stores := by
    intro x hx
    rcases List.mem_cons.mp hx with rfl | hx'
    · exact Or.inr rfl
    · exact Or.inl hx'
  outside := fun x hx => write8_outside hx

/-- A forward copy to lower addresses delivers the source bytes although the two
runs overlap. -/
theorem moveUp_spec (hle : d ≤ s) (n : Nat) (v : State) :
    Stores v (Strings.moveUp bytes n d s v) (fun x => d ≤ x ∧ x < d + n) ∧
      ∀ i < n, (Strings.moveUp bytes n d s v).mem (d + i) = v.mem (s + i) := by
  induction n generalizing d s v with
  | zero => exact ⟨.refl v _, fun i hi => absurd hi (Nat.not_lt_zero i)⟩
  | succ n ih =>
      obtain ⟨hstores, hmem⟩ := ih (Nat.add_le_add_right hle 1) (v.store8 d (v.mem s))
      constructor
      · refine Stores.trans ((store8_stores v d (v.mem s)).mono ?_) (hstores.mono ?_)
        · rintro x rfl
          exact ⟨Nat.le_refl _, by omega⟩
        · rintro x ⟨hlow, hhigh⟩
          exact ⟨by omega, by omega⟩
      · intro i hi
        cases i with
        | zero =>
            -- the first byte is not stored to again
            have hfirst := hstores.outside d (by omega)
            exact hfirst.trans (write8_same v.mem d (v.mem s))
        | succ i =>
            have hbyte := hmem i (by omega)
            have hsource : (v.store8 d (v.mem s)).mem (s + 1 + i) = v.mem (s + 1 + i) :=
              write8_outside (by omega)
            rw [hsource, Nat.add_right_comm, Nat.add_right_comm s] at hbyte
            exact hbyte

/-- The loops touch none of the static variables. -/
theorem moveUp_statics (n d s : Nat) (v : State) : (Strings.moveUp bytes n d s v).vgaRow = v.vgaRow ∧
    (Strings.moveUp bytes n d s v).vgaCol = v.vgaCol ∧ (Strings.moveUp bytes n d s v).vgaAttrib = v.vgaAttrib := by
  induction n generalizing d s v with
  | zero => exact ⟨rfl, rfl, rfl⟩
  | succ n ih => exact ih (d + 1) (s + 1) (v.store8 d (v.mem s))

/-- The bytes of the cells `i`, …, `i + n - 1`. -/
def CellRange (i n x : Nat) : Prop := vgaMemory + 2 * i ≤ x ∧ x < vgaMemory + 2 * (i + n)

/-- The screen. -/
abbrev OnScreen : Nat → Prop := CellRange 0 (vgaWidth * vgaHeight)

/-- The character in cell `i`. -/
def State.char (v : State) (i : Nat) : Byte := v.mem (vgaMemory + 2 * i)

theorem setCell_stores (v : State) (i : Nat) (entry : BitVec 16) :
    Stores v (v.setCell i entry) (CellRange i 1) := by
  refine Stores.trans ((store8_stores v _ _).mono ?_) ((store8_stores _ _ _).mono ?_)
  · rintro x rfl
    exact ⟨Nat.le_refl _, by omega⟩
  · rintro x rfl
    exact ⟨by omega, by omega⟩

theorem setCell_char (v : State) (i j : Nat) (entry : BitVec 16) :
    (v.setCell i entry).char j = if j = i then entry.setWidth 8 else v.char j := by
  have hhigh : (v.setCell i entry).char j = (v.store8 (vgaMemory + 2 * i) (entry.setWidth 8)).char j :=
    write8_outside (by omega)
  rw [hhigh]
  split
  · rename_i hj
    rw [hj]
    exact write8_same ..
  · exact write8_outside (by omega)

theorem setCells_spec (v : State) (i n : Nat) (entry : BitVec 16) :
    Stores v (v.setCells i n entry) (CellRange i n) ∧
      (∀ j, (v.setCells i n entry).char j =
        if i ≤ j ∧ j < i + n then entry.setWidth 8 else v.char j) ∧
      (v.setCells i n entry).vgaRow = v.vgaRow ∧ (v.setCells i n entry).vgaCol = v.vgaCol ∧
      (v.setCells i n entry).vgaAttrib = v.vgaAttrib := by
  unfold State.setCells
  induction n with
  | zero =>
      refine ⟨.refl v _, fun j => ?_, rfl, rfl, rfl⟩
      rw [if_neg (by omega)]
      rfl
  | succ n ih =>
      rw [Nat.fold_succ]
      generalize n.fold (fun k _ v => v.setCell (i + k) entry) v = v' at ih
      obtain ⟨hstores, hchar, hrow, hcol, hattrib⟩ := ih
      refine ⟨Stores.trans (hstores.mono ?_) ((setCell_stores v' (i + n) entry).mono ?_),
        fun j => ?_, hrow, hcol, hattrib⟩
      · rintro x ⟨hlow, hhigh⟩
        exact ⟨hlow, by omega⟩
      · rintro x ⟨hlow, hhigh⟩
        exact ⟨by omega, by omega⟩
      · rw [setCell_char, hchar]
        by_cases hj : j = i + n
        · rw [if_pos hj, if_pos (by omega)]
        · rw [if_neg hj]
          by_cases hin : i ≤ j ∧ j < i + n
          · rw [if_pos hin, if_pos (by omega)]
          · rw [if_neg hin, if_neg (by omega)]

/-- The low byte of an entry is the character. -/
theorem vgaEntry_char (c color : Byte) : (vgaEntry c color).setWidth 8 = c := by
  ext i hi
  simp [vgaEntry]

end Stores

/-! ## The screen as a window -/

/-- The character of a byte as the terminal reads it. -/
def action (c : Byte) : Action Byte :=
  if c = 0x0A#8 then .newline
  else if c = 0x0D#8 then .carriageReturn
  else if c = 0x09#8 then .tab
  else if c = 0x08#8 then .backspace
  else if 0x20#8 ≤ c ∧ c < 0x80#8 then .print c
  else .ignore

/-- The screen is the page. -/
structure Displays (v : State) (w : Page Byte) : Prop where
  row : v.vgaRow = w.row
  col : v.vgaCol = w.col
  cell : ∀ r c, r < vgaHeight → c < vgaWidth → v.char (r * vgaWidth + c) = w.cell r c

/-- `vga_putchar` on a terminal. -/
abbrev termAct : Page Byte → Action Byte → Page Byte := Page.act 0x20#8 vgaWidth

abbrev termStep : Page Byte → Action Byte → Page Byte := Page.step 0x20#8 vgaWidth vgaHeight

section Refinement

variable {v : State} {w p : Page Byte} {c : Byte}

theorem Displays.put (h : Displays v w) {col : Nat} (hcol : col < vgaWidth) (c : Byte) :
    Displays (v.setCell (v.vgaRow * vgaWidth + col) (vgaEntry c v.vgaAttrib)) (w.put col c) where
  row := h.row
  col := h.col
  cell := by
    intro r k hr hk
    have hsame : r * vgaWidth + k = v.vgaRow * vgaWidth + col ↔ r = w.row ∧ k = col := by
      rw [h.row]
      unfold vgaWidth at *
      omega
    rw [setCell_char, put_cell, vgaEntry_char, h.cell r k hr hk]
    simp only [hsame]

/-- The scroll: the rows move up with the copy, and the last one is cleared. -/
theorem Displays.scroll (h : Displays v w) :
    Displays (vgaScroll v) (w.scroll 0x20#8 vgaHeight) ∧ Stores v (vgaScroll v) OnScreen := by
  by_cases hin : w.row < vgaHeight
  · have hin' : v.vgaRow < vgaHeight := by rw [h.row]; exact hin
    have hsame : vgaScroll v = v := if_pos hin'
    rw [hsame, scroll_inside hin]
    exact ⟨h, .refl v _⟩
  · have hin' : ¬ v.vgaRow < vgaHeight := by rw [h.row]; exact hin
    have hlt : vgaMemory < vgaMemory + 2 * vgaWidth := by decide
    obtain ⟨hstores, hmem⟩ := @moveUp_spec vgaMemory (vgaMemory + 2 * vgaWidth) (by decide)
      (vgaWidth * (vgaHeight - 1) * 2) v
    obtain ⟨hmoveRow, hmoveCol, hmoveAttrib⟩ := moveUp_statics (vgaWidth * (vgaHeight - 1) * 2)
      vgaMemory (vgaMemory + 2 * vgaWidth) v
    rw [vgaScroll, if_neg hin', Strings.memmoveOn, if_pos hlt, Page.scroll, if_neg hin]
    dsimp only
    generalize Strings.moveUp bytes (vgaWidth * (vgaHeight - 1) * 2) vgaMemory
      (vgaMemory + 2 * vgaWidth) v = v₁ at hstores hmem hmoveRow hmoveCol hmoveAttrib
    obtain ⟨hclear, hchar, -, hclearCol, -⟩ := setCells_spec v₁ ((vgaHeight - 1) * vgaWidth)
      vgaWidth (vgaEntry 0x20#8 v₁.vgaAttrib)
    generalize v₁.setCells ((vgaHeight - 1) * vgaWidth) vgaWidth (vgaEntry 0x20#8 v₁.vgaAttrib) = v₂
      at hclear hchar hclearCol
    constructor
    · refine ⟨rfl, hclearCol.trans (hmoveCol.trans h.col), fun r k hr hk => ?_⟩
      show v₂.char (r * vgaWidth + k) = if r + 1 < vgaHeight then w.cell (r + 1) k else 0x20#8
      rw [hchar, vgaEntry_char]
      by_cases hup : r + 1 < vgaHeight
      · have hbelow : ¬ ((vgaHeight - 1) * vgaWidth ≤ r * vgaWidth + k ∧
            r * vgaWidth + k < (vgaHeight - 1) * vgaWidth + vgaWidth) := by
          unfold vgaHeight vgaWidth at *
          omega
        have hcell := h.cell (r + 1) k hup hk
        have hsource := hmem (2 * (r * vgaWidth + k)) (by unfold vgaHeight vgaWidth at *; omega)
        have haddr : vgaMemory + 2 * vgaWidth + 2 * (r * vgaWidth + k) =
            vgaMemory + 2 * ((r + 1) * vgaWidth + k) := by
          unfold vgaWidth
          omega
        rw [haddr] at hsource
        rw [if_neg hbelow, if_pos hup, ← hcell]
        exact hsource
      · have hlast : (vgaHeight - 1) * vgaWidth ≤ r * vgaWidth + k ∧
            r * vgaWidth + k < (vgaHeight - 1) * vgaWidth + vgaWidth := by
          unfold vgaHeight vgaWidth at *
          omega
        rw [if_pos hlast, if_neg hup]
    · refine Stores.moved (Stores.trans (hstores.mono ?_) (hclear.mono ?_)) _ _
      · rintro x ⟨hlow, hhigh⟩
        exact ⟨hlow, Nat.lt_of_lt_of_le hhigh (by decide)⟩
      · rintro x ⟨hlow, hhigh⟩
        exact ⟨Nat.le_trans (by decide) hlow, Nat.lt_of_lt_of_le hhigh (by decide)⟩

/-- The cursor moves; what is shown does not change. -/
theorem Displays.move (h : Displays v w) (row col : Nat) :
    Displays { v with vgaRow := row, vgaCol := col } { w with row := row, col := col } :=
  ⟨rfl, rfl, h.cell⟩

/-- To a column, or to the next row. -/
theorem Displays.goto (h : Displays v w) (col : Nat) :
    Displays (if col ≥ vgaWidth then { v with vgaCol := 0, vgaRow := v.vgaRow + 1 }
      else { v with vgaCol := col }) (w.goto vgaWidth col) := by
  have hrow := h.row
  unfold Page.goto
  split
  · rw [hrow]
    exact h.move (w.row + 1) 0
  · exact ⟨hrow, rfl, h.cell⟩

/-- The tab stop after a column of the screen. -/
theorem tab_stop : ∀ col < vgaWidth, (col + 8) &&& tabMask = (col / 8 + 1) * 8 := by decide

/-- The `switch`, and where it stores. -/
theorem Displays.vgaPut (h : Displays v w) (hrow : w.row < vgaHeight) (hcol : w.col < vgaWidth)
    (c : Byte) : Displays (vgaPut c v) (termAct w (action c)) ∧ Stores v (vgaPut c v) OnScreen := by
  have hvcol := h.col
  have hvrow := h.row
  have honScreen : ∀ col < vgaWidth, ∀ x, CellRange (v.vgaRow * vgaWidth + col) 1 x → OnScreen x := by
    rintro col hc x ⟨hlow, hhigh⟩
    rw [hvrow] at hlow hhigh
    unfold OnScreen CellRange vgaWidth vgaHeight at *
    exact ⟨by omega, by omega⟩
  unfold Vga.vgaPut action
  by_cases hnewline : c = 0x0A#8
  · rw [if_pos hnewline, if_pos hnewline]
    rw [hvrow]
    exact ⟨h.move (w.row + 1) 0, (Stores.refl v _).moved _ _⟩
  by_cases hreturn : c = 0x0D#8
  · rw [if_neg hnewline, if_pos hreturn, if_neg hnewline, if_pos hreturn]
    exact ⟨⟨hvrow, rfl, h.cell⟩, (Stores.refl v _).moved _ _⟩
  by_cases htab : c = 0x09#8
  · rw [if_neg hnewline, if_neg hreturn, if_pos htab, if_neg hnewline, if_neg hreturn, if_pos htab]
    dsimp only
    rw [hvcol, tab_stop _ hcol]
    refine ⟨h.goto _, ?_⟩
    split <;> exact (Stores.refl v _).moved _ _
  by_cases hback : c = 0x08#8
  · rw [if_neg hnewline, if_neg hreturn, if_neg htab, if_pos hback, if_neg hnewline,
      if_neg hreturn, if_neg htab, if_pos hback]
    dsimp only
    rw [hvcol]
    show Displays _ (if 0 < w.col then { w.put (w.col - 1) 0x20#8 with col := w.col - 1 } else w) ∧ _
    split
    · have hcol' : w.col - 1 < vgaWidth := by omega
      have hput := h.put hcol' 0x20#8
      have hstores := (setCell_stores v (v.vgaRow * vgaWidth + (w.col - 1))
        (vgaEntry 0x20#8 v.vgaAttrib)).mono (honScreen (w.col - 1) (by omega))
      exact ⟨⟨hput.row, rfl, hput.cell⟩, hstores.moved v.vgaRow (w.col - 1)⟩
    · exact ⟨h, .refl v _⟩
  by_cases hprint : 0x20#8 ≤ c ∧ c < 0x80#8
  · rw [if_neg hnewline, if_neg hreturn, if_neg htab, if_neg hback, if_pos hprint, if_neg hnewline,
      if_neg hreturn, if_neg htab, if_neg hback, if_pos hprint]
    dsimp only
    have hput := h.put hcol c
    have hstores := (setCell_stores v (v.vgaRow * vgaWidth + w.col)
      (vgaEntry c v.vgaAttrib)).mono (honScreen w.col hcol)
    have hkeep : ∀ i entry, (v.setCell i entry).vgaCol = w.col := fun _ _ => hvcol
    rw [hvcol, hkeep]
    refine ⟨hput.goto (w.col + 1), ?_⟩
    split <;> exact hstores.moved _ _
  · rw [if_neg hnewline, if_neg hreturn, if_neg htab, if_neg hback, if_neg hprint, if_neg hnewline,
      if_neg hreturn, if_neg htab, if_neg hback, if_neg hprint]
    exact ⟨h, .refl v _⟩

/-- **One character on the screen is one step of the window**, and stores only on the
screen. -/
theorem Displays.vgaPutchar (h : Displays v w) (hrow : w.row < vgaHeight) (hcol : w.col < vgaWidth)
    (c : Byte) : Displays (vgaPutchar c v) (termStep w (action c)) ∧
      Stores v (vgaPutchar c v) OnScreen := by
  obtain ⟨hput, hstores⟩ := h.vgaPut hrow hcol c
  have hscroll : Vga.vgaPutchar c v = vgaScroll (Vga.vgaPut c v) := by
    unfold Vga.vgaPutchar
    dsimp only
    split
    · rfl
    · rename_i hin
      exact (if_pos (Nat.lt_of_not_le hin)).symm
  rw [hscroll]
  exact ⟨hput.scroll.1, hstores.trans hput.scroll.2⟩

/-- A screen full of spaces. -/
theorem displays_blank (h : ∀ j < vgaWidth * vgaHeight, v.char j = 0x20#8) :
    Displays { v with vgaRow := 0, vgaCol := 0 } (Page.empty 0x20#8) := by
  refine ⟨rfl, rfl, fun r k hr hk => h _ ?_⟩
  unfold vgaWidth vgaHeight at *
  omega

theorem displays_clear (v : State) :
    Displays (vgaClear v) (Page.empty 0x20#8) ∧ Stores v (vgaClear v) OnScreen := by
  obtain ⟨hstores, hchar, -⟩ := setCells_spec v 0 (vgaWidth * vgaHeight)
    (vgaEntry 0x20#8 v.vgaAttrib)
  constructor
  · apply displays_blank
    intro j hj
    rw [hchar, vgaEntry_char, if_pos ⟨Nat.zero_le j, by rwa [Nat.zero_add]⟩]
  · exact hstores.moved 0 0

/-- The screen shows the last rows of the terminal. -/
def Mirrors (v : State) (p : Page Byte) : Prop :=
  ∃ w, Displays v w ∧ Shows 0x20#8 vgaWidth vgaHeight w p

theorem mirrors_clear (v : State) : Mirrors (vgaClear v) (Page.empty 0x20#8) :=
  ⟨_, (displays_clear v).1, shows_empty (by decide) (by decide)⟩

theorem Mirrors.vgaPutchar (h : Mirrors v p) (c : Byte) :
    Mirrors (vgaPutchar c v) (termAct p (action c)) ∧ Stores v (vgaPutchar c v) OnScreen := by
  obtain ⟨w, hdisplays, hshows⟩ := h
  have hcol : w.col < vgaWidth := by
    rw [hshows.col]
    exact hshows.inRow
  obtain ⟨hstep, hstores⟩ := hdisplays.vgaPutchar hshows.inside hcol c
  exact ⟨⟨_, hstep, hshows.step (by decide) (action c)⟩, hstores⟩

/-- What `Mirrors` says about the variables and the cells. -/
theorem Mirrors.spec (h : Mirrors v p) :
    v.vgaRow < vgaHeight ∧ v.vgaCol < vgaWidth ∧ v.vgaRow + p.top vgaHeight = p.row ∧
      v.vgaCol = p.col ∧ ∀ r k, r < vgaHeight → k < vgaWidth →
        v.char (r * vgaWidth + k) = p.cell (p.top vgaHeight + r) k := by
  obtain ⟨w, hdisplays, hshows⟩ := h
  have hrow := hshows.row
  have hinside := hshows.inside
  have hinRow := hshows.inRow
  rw [← hshows.col, ← hdisplays.col] at hinRow
  rw [← hdisplays.row] at hrow hinside
  exact ⟨hinside, hinRow, hrow, hdisplays.col.trans hshows.col, fun r k hr hk =>
    (hdisplays.cell r k hr hk).trans (hshows.cell r k hr hk)⟩

/-- Cell `i` of the screen is the cell of the terminal below the rows that are gone. -/
theorem Mirrors.char (h : Mirrors v p) {i : Nat} (hi : i < vgaHeight * vgaWidth) :
    v.char i = p.nth vgaWidth (p.top vgaHeight * vgaWidth + i) := by
  obtain ⟨w, hdisplays, hshows⟩ := h
  have hrow : i / vgaWidth < vgaHeight := by
    unfold vgaWidth vgaHeight at *
    omega
  have hcell := hdisplays.cell (i / vgaWidth) (i % vgaWidth) hrow (Nat.mod_lt i (by decide))
  rw [Nat.mul_comm, Nat.div_add_mod] at hcell
  exact hcell.trans (hshows.nth hi)

theorem putchars_mirror (cs : List Byte) (h : Mirrors v p) :
    Mirrors (cs.foldl (fun v c => vgaPutchar c v) v) ((cs.map action).foldl termAct p) ∧
      Stores v (cs.foldl (fun v c => vgaPutchar c v) v) OnScreen := by
  induction cs generalizing v p with
  | nil => exact ⟨h, .refl v _⟩
  | cons c cs ih =>
      obtain ⟨hstep, hstores⟩ := h.vgaPutchar c
      obtain ⟨hrest, hrestStores⟩ := ih hstep
      exact ⟨hrest, hstores.trans hrestStores⟩

end Refinement

/-- **The console refines an unbounded terminal**: after `vga_clear` and any characters,
the cursor is on the screen, only the 2000 cells were stored to, and they show the
last 25 rows of the terminal on which the same characters were played. -/
theorem console_refines (v : State) (cs : List Byte) :
    let shown := cs.foldl (fun v c => vgaPutchar c v) (vgaClear { v with stores := [] })
    let terminal := (cs.map action).foldl termAct (Page.empty 0x20#8)
    shown.vgaRow < 25 ∧ shown.vgaCol < 80 ∧
      (∀ x ∈ shown.stores, vgaMemory ≤ x ∧ x < vgaMemory + 2 * 2000) ∧
      shown.vgaRow + (terminal.row - 24) = terminal.row ∧ shown.vgaCol = terminal.col ∧
      ∀ r c, r < 25 → c < 80 → shown.char (r * 80 + c) = terminal.cell (terminal.row - 24 + r) c := by
  intro shown terminal
  obtain ⟨hclear, hclearStores⟩ := displays_clear { v with stores := [] }
  obtain ⟨hmirrors, hstores⟩ := putchars_mirror cs (mirrors_clear { v with stores := [] })
  obtain ⟨hrow, hcol, hsame, hsameCol, hcell⟩ := hmirrors.spec
  refine ⟨hrow, hcol, fun x hx => ?_, hsame, hsameCol, hcell⟩
  rcases (hclearStores.trans hstores).stores x hx with hold | hscreen
  · cases hold
  · exact hscreen

end VectorForth.Vga
