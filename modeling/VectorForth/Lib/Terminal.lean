import Mathlib.Logic.Function.Basic
import Mathlib.Order.Basic

/-!
# Terminals and windows

A terminal with infinitely many rows of `width` cells, and a window of `height`
rows that scrolls up by one row when the cursor leaves it. Played with the same
characters, the window shows the last `height` rows of the terminal.
-/

namespace Terminal

variable {α : Type*}

/-- What a character asks for. -/
inductive Action (α : Type*)
  | newline
  | carriageReturn
  | tab
  | backspace
  | print (a : α)
  | ignore

/-- Rows of cells and a cursor. -/
structure Page (α : Type*) where
  cell : Nat → Nat → α
  row : Nat
  col : Nat

/-- Nothing printed yet. -/
def Page.empty (blank : α) : Page α where
  cell := fun _ _ => blank
  row := 0
  col := 0

def Page.put (p : Page α) (col : Nat) (a : α) : Page α :=
  { p with cell := Function.update p.cell p.row (Function.update (p.cell p.row) col a) }

/-- Go to column `col`, or to the next row if there is no such column. -/
def Page.goto (width : Nat) (p : Page α) (col : Nat) : Page α :=
  if width ≤ col then { p with row := p.row + 1, col := 0 } else { p with col := col }

/-- The terminal: lines wrap after the last column, a tab goes to the next multiple
of 8, and backspace erases within its row. -/
def Page.act (blank : α) (width : Nat) (p : Page α) : Action α → Page α
  | .newline => { p with row := p.row + 1, col := 0 }
  | .carriageReturn => { p with col := 0 }
  | .tab => p.goto width ((p.col / 8 + 1) * 8)
  | .backspace => if 0 < p.col then { p.put (p.col - 1) blank with col := p.col - 1 } else p
  | .print a => (p.put p.col a).goto width (p.col + 1)
  | .ignore => p

/-- Past the last row everything moves up by one row. -/
def Page.scroll (blank : α) (height : Nat) (p : Page α) : Page α :=
  if p.row < height then p
  else
    { cell := fun r c => if r + 1 < height then p.cell (r + 1) c else blank
      row := height - 1
      col := p.col }

/-- The window on a character. -/
def Page.step (blank : α) (width height : Nat) (p : Page α) (a : Action α) : Page α :=
  (p.act blank width a).scroll blank height

/-- How many rows of the terminal are above the window. -/
def Page.top (height : Nat) (p : Page α) : Nat := p.row + 1 - height

/-- The window shows the last rows of the terminal. -/
structure Shows (blank : α) (width height : Nat) (w p : Page α) : Prop where
  row : w.row + p.top height = p.row
  inside : w.row < height
  col : w.col = p.col
  inRow : p.col < width
  cell : ∀ r c, r < height → c < width → w.cell r c = p.cell (p.top height + r) c
  /-- Nothing stands below the cursor yet. -/
  below : ∀ r c, p.row < r → p.cell r c = blank

section Window

variable {blank : α} {width height : Nat} {w p : Page α} {a : Action α}

theorem shows_empty (hwidth : 0 < width) (hheight : 0 < height) :
    Shows blank width height (Page.empty blank) (Page.empty blank) where
  row := by
    simp only [Page.top, Page.empty]
    omega
  inside := hheight
  col := rfl
  inRow := hwidth
  cell := fun _ _ _ _ => rfl
  below := fun _ _ _ => rfl

theorem put_cell (p : Page α) (col : Nat) (a : α) (r c : Nat) :
    (p.put col a).cell r c = if r = p.row ∧ c = col then a else p.cell r c := by
  simp only [Page.put, Function.update_apply]
  by_cases hr : r = p.row
  · subst hr
    simp [Function.update_apply]
  · simp [hr]

/-- A change in the row of the cursor is seen there. -/
theorem Shows.put (h : Shows blank width height w p) (col : Nat) (a : α) :
    Shows blank width height (w.put col a) (p.put col a) where
  row := h.row
  inside := h.inside
  col := h.col
  inRow := h.inRow
  cell := by
    intro r c hr hc
    have hrow := h.row
    have htop : (p.put col a).top height = p.top height := rfl
    rw [htop, put_cell, put_cell]
    by_cases hcur : r = w.row
    · have hsame : p.top height + r = p.row := by omega
      have hcell := h.cell r c hr hc
      rw [hsame] at hcell
      rw [hsame, hcell, hcur]
      simp only [true_and]
    · have hother : ¬ p.top height + r = p.row := by omega
      simp only [hcur, hother, false_and, if_false]
      exact h.cell r c hr hc
  below := by
    intro r c hr
    have hne : r ≠ p.row := Nat.ne_of_gt hr
    rw [put_cell, if_neg (fun hboth => hne hboth.1)]
    exact h.below r c hr

/-- The cursor moves within its row. -/
theorem Shows.moveCol (h : Shows blank width height w p) {col : Nat} (hcol : col < width) :
    Shows blank width height { w with col := col } { p with col := col } :=
  ⟨h.row, h.inside, rfl, hcol, h.cell, h.below⟩

theorem scroll_inside (h : w.row < height) : w.scroll blank height = w := if_pos h

/-- A window that shows the terminal need not scroll. -/
theorem Shows.scroll (h : Shows blank width height w p) :
    Shows blank width height (w.scroll blank height) p := by
  rw [scroll_inside h.inside]
  exact h

/-- The cursor goes to the next row, where the window may have to scroll. -/
theorem Shows.nextRow (h : Shows blank width height w p) {col : Nat} (hcol : col < width) :
    Shows blank width height (Page.scroll blank height { w with row := w.row + 1, col := col })
      { p with row := p.row + 1, col := col } := by
  have hrow := h.row
  have hin := h.inside
  have htop : p.top height = p.row + 1 - height := rfl
  have hnext : Page.top height { p with row := p.row + 1, col := col } = p.row + 2 - height := rfl
  have hbelow : ∀ r c, p.row + 1 < r → p.cell r c = blank := fun r c hr => h.below r c (by omega)
  by_cases hlast : w.row + 1 < height
  · rw [scroll_inside hlast]
    refine ⟨?_, hlast, rfl, hcol, fun r c hr hc => ?_, hbelow⟩
    · rw [hnext]
      show w.row + 1 + (p.row + 2 - height) = p.row + 1
      omega
    · have hsame : p.row + 2 - height + r = p.top height + r := by omega
      rw [hnext, hsame]
      exact h.cell r c hr hc
  · -- the last row: the rows move up and a blank one comes in
    rw [Page.scroll, if_neg hlast]
    refine ⟨?_, by show height - 1 < height; omega, rfl, hcol, fun r c hr hc => ?_, hbelow⟩
    · rw [hnext]
      show height - 1 + (p.row + 2 - height) = p.row + 1
      omega
    · rw [hnext]
      dsimp only
      split
      · rename_i hup
        have hsame : p.row + 2 - height + r = p.top height + (r + 1) := by omega
        rw [hsame]
        exact h.cell (r + 1) c hup hc
      · exact (h.below _ c (by omega)).symm

theorem Shows.goto (h : Shows blank width height w p) (hwidth : 0 < width) (col : Nat) :
    Shows blank width height ((w.goto width col).scroll blank height) (p.goto width col) := by
  unfold Page.goto
  split
  · exact h.nextRow hwidth
  · exact (h.moveCol (by omega)).scroll

/-- **One character**: the window shows the terminal again. -/
theorem Shows.step (h : Shows blank width height w p) (hwidth : 0 < width) (a : Action α) :
    Shows blank width height (w.step blank width height a) (p.act blank width a) := by
  have hcol := h.col
  cases a with
  | newline => exact h.nextRow hwidth
  | carriageReturn => exact (h.moveCol hwidth).scroll
  | tab =>
      rw [Page.step, Page.act, hcol]
      exact h.goto hwidth _
  | backspace =>
      have hin := h.inRow
      rw [Page.step, Page.act, Page.act, hcol]
      split
      · exact ((h.put (p.col - 1) blank).moveCol (by omega)).scroll
      · exact h.scroll
  | print a =>
      rw [Page.step, Page.act, Page.act, hcol]
      exact (h.put p.col a).goto hwidth _
  | ignore => exact h.scroll

/-- **The window shows the last rows of the terminal**, whatever is played. -/
theorem Shows.run (h : Shows blank width height w p) (hwidth : 0 < width) (as : List (Action α)) :
    Shows blank width height (as.foldl (Page.step blank width height) w)
      (as.foldl (Page.act blank width) p) := by
  induction as generalizing w p with
  | nil => exact h
  | cons a as ih => exact ih (h.step hwidth a)

end Window

/-! ## Cells in row-major order -/

section Linear

variable {blank : α} {width height : Nat} {w p : Page α} {a : α} {i : Nat}

/-- The number of the cell under the cursor. -/
def Page.pos (width : Nat) (p : Page α) : Nat := p.row * width + p.col

/-- Cell `i` of the terminal. -/
def Page.nth (width : Nat) (p : Page α) (i : Nat) : α := p.cell (i / width) (i % width)

theorem div_mod_iff (hwidth : 0 < width) {row col : Nat} (hcol : col < width) :
    i / width = row ∧ i % width = col ↔ i = row * width + col := by
  constructor
  · rintro ⟨rfl, rfl⟩
    rw [Nat.mul_comm, Nat.div_add_mod]
  · rintro rfl
    rw [Nat.mul_comm, Nat.mul_add_div hwidth, Nat.div_eq_of_lt hcol, Nat.mul_add_mod,
      Nat.mod_eq_of_lt hcol]
    exact ⟨rfl, rfl⟩

theorem nth_put (hwidth : 0 < width) {col : Nat} (hcol : col < width) :
    (p.put col a).nth width i = if i = p.row * width + col then a else p.nth width i := by
  simp only [Page.nth, put_cell, div_mod_iff hwidth hcol]

/-- A character is printed and the cursor goes on, from one row to the next too. -/
theorem act_print (hcol : p.col < width) (a : α) :
    (p.act blank width (.print a)).pos width = p.pos width + 1 ∧
      (p.act blank width (.print a)).col < width ∧
      ∀ i, (p.act blank width (.print a)).nth width i =
        if i = p.pos width then a else p.nth width i := by
  have hwidth : 0 < width := by omega
  have hput : ∀ i, (p.put p.col a).nth width i = if i = p.pos width then a else p.nth width i :=
    fun i => nth_put hwidth hcol
  rw [Page.act, Page.goto]
  split
  · have hlast : p.col + 1 = width := by omega
    refine ⟨?_, hwidth, hput⟩
    show (p.row + 1) * width + 0 = p.row * width + p.col + 1
    rw [Nat.succ_mul]
    omega
  · exact ⟨rfl, by show p.col + 1 < width; omega, hput⟩

/-- Backspace erases the cell before the cursor, if it is in the same row. -/
theorem act_backspace (hcol : p.col < width) (hpos : 0 < p.col) :
    (p.act blank width .backspace).pos width + 1 = p.pos width ∧
      (p.act blank width .backspace).col + 1 = p.col ∧
      ∀ i, i + 1 < p.pos width → (p.act blank width .backspace).nth width i = p.nth width i := by
  rw [Page.act, if_pos hpos]
  refine ⟨?_, ?_, fun i hi => ?_⟩
  · show p.row * width + (p.col - 1) + 1 = p.row * width + p.col
    omega
  · show p.col - 1 + 1 = p.col
    omega
  · have hput : (p.put (p.col - 1) blank).nth width i = p.nth width i := by
      rw [nth_put (by omega) (by omega), if_neg]
      unfold Page.pos at hi
      omega
    exact hput

/-- At the start of a row it does nothing. -/
theorem act_backspace_edge (h : p.col = 0) : p.act blank width .backspace = p := by
  rw [Page.act, if_neg (by omega)]

/-- A cell of the window is the cell of the terminal below the rows that are gone. -/
theorem Shows.nth (h : Shows blank width height w p) (hi : i < height * width) :
    w.nth width i = p.nth width (p.top height * width + i) := by
  have hwidth : 0 < width := by
    have := h.inRow
    omega
  have hrow : i / width < height := Nat.div_lt_of_lt_mul (by rwa [Nat.mul_comm])
  rw [Page.nth, Page.nth, h.cell _ _ hrow (Nat.mod_lt i hwidth), Nat.mul_comm (p.top height),
    Nat.mul_add_div hwidth, Nat.mul_add_mod]

end Linear

end Terminal
