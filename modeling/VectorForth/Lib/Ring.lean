import Mathlib.Data.List.Basic
import Mathlib.Logic.Function.Basic

/-!
# Ring buffers with one slot left empty

A queue in `size` slots between two indices: `tail` is where the next value is
taken and `head` where the next one is put. The queue is full when one more put
would make them equal. Every index is kept below `size`; the number of values
held is read off the two indices.
-/

namespace Ring

variable {α : Type*} {size head tail n : Nat} {slot : Nat → α} {x : α}

/-- The index after `i`. -/
def next (size i : Nat) : Nat := (i + 1) % size

/-- How many slots are taken. -/
def count (size head tail : Nat) : Nat := if tail ≤ head then head - tail else head + size - tail

/-- The `n` values from `tail` on. -/
def contents (slot : Nat → α) (size tail n : Nat) : List α :=
  (List.range n).map fun k => slot ((tail + k) % size)

@[simp] theorem length_contents : (contents slot size tail n).length = n := by simp [contents]

theorem next_lt (hsize : 0 < size) (i : Nat) : next size i < size := Nat.mod_lt _ hsize

theorem next_eq (h : head < size) : next size head = if head + 1 = size then 0 else head + 1 := by
  unfold next
  split
  · rename_i hlast
    rw [hlast, Nat.mod_self]
  · exact Nat.mod_eq_of_lt (by omega)

theorem count_lt (hhead : head < size) (htail : tail < size) : count size head tail < size := by
  unfold count
  split <;> omega

theorem count_eq_zero (htail : tail < size) :
    count size head tail = 0 ↔ head = tail := by
  unfold count
  split <;> omega

/-- `head` is where the values end. -/
theorem tail_add_count (hhead : head < size) (htail : tail < size) :
    (tail + count size head tail) % size = head := by
  unfold count
  split
  · rw [Nat.add_sub_cancel' ‹_›, Nat.mod_eq_of_lt hhead]
  · have hsum : tail + (head + size - tail) = head + size := by omega
    rw [hsum, Nat.add_mod_right, Nat.mod_eq_of_lt hhead]

/-- The queue is full exactly when one slot is left. -/
theorem next_eq_tail (hhead : head < size) (htail : tail < size) :
    next size head = tail ↔ count size head tail + 1 = size := by
  rw [next_eq hhead]
  unfold count
  split <;> split <;> omega

theorem count_put (hhead : head < size) (htail : tail < size) (h : next size head ≠ tail) :
    count size (next size head) tail = count size head tail + 1 := by
  rw [next_eq hhead] at h ⊢
  unfold count
  split at h <;> rename_i hlast <;> simp only [hlast, if_true, if_false] <;> split <;> split <;> omega

theorem count_take (hhead : head < size) (htail : tail < size) (h : head ≠ tail) :
    count size head tail = count size head (next size tail) + 1 := by
  rw [next_eq htail]
  unfold count
  split <;> split <;> split <;> omega

/-- Different values stand in different slots. -/
theorem slot_ne {i j : Nat} (hi : i < j) (hj : j < size) :
    (tail + i) % size ≠ (tail + j) % size := by
  intro h
  have hdvd : size ∣ tail + j - (tail + i) :=
    Nat.dvd_of_mod_eq_zero (Nat.sub_mod_eq_zero_of_mod_eq h.symm)
  have hle := Nat.le_of_dvd (by omega) hdvd
  omega

/-- A value that is put goes to the end. -/
theorem contents_put (h : n < size) :
    contents (Function.update slot ((tail + n) % size) x) size tail (n + 1) =
      contents slot size tail n ++ [x] := by
  rw [contents, List.range_succ, List.map_append, List.map_singleton, Function.update_self]
  congr 1
  apply List.map_congr_left
  intro k hk
  rw [List.mem_range] at hk
  exact Function.update_of_ne (slot_ne hk h) ..

/-- The first value is taken. -/
theorem contents_take (htail : tail < size) :
    contents slot size tail (n + 1) = slot tail :: contents slot size (next size tail) n := by
  rw [contents, List.range_succ_eq_map, List.map_cons, List.map_map, Nat.add_zero,
    Nat.mod_eq_of_lt htail]
  congr 1
  apply List.map_congr_left
  intro k _
  have hnext : (next size tail + k) % size = (tail + (k + 1)) % size := by
    rw [next, Nat.mod_add_mod, Nat.add_assoc, Nat.add_comm 1 k]
  rw [Function.comp_apply, hnext]

end Ring
