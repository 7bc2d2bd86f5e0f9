import VectorForth.Lib.Bitmap
import VectorForth.Memory.Pmm
import Mathlib.Data.Finset.Card
import Mathlib.Data.Finset.Range
import Mathlib.Order.Interval.Finset.Nat

/-!
# The page counter is exact

`usedSet` is the abstract view of the bitmap: the set of used pages below
`pmm_total_pages`. Every operation is described by what it does to this set,
and `Accounted` says that the incrementally maintained counter is its size.
-/

namespace VectorForth.Pmm

open Bitmap LabelledRun

/-! ## One bit of the bitmap -/

theorem bitmapTest_eq (s : State) (page : Nat) : bitmapTest s page = bitAt s.bitmap page :=
  and_mask_ne_zero (Nat.mod_lt _ (by decide))

@[simp] theorem bitmapTest_bitmapSet (s : State) (q p : Nat) :
    bitmapTest (bitmapSet s q) p = (decide (p = q) || bitmapTest s p) := by
  rw [bitmapTest_eq, bitmapTest_eq]
  exact bitAt_set s.bitmap q p

@[simp] theorem bitmapTest_bitmapClear (s : State) (q p : Nat) :
    bitmapTest (bitmapClear s q) p = (!decide (p = q) && bitmapTest s p) := by
  rw [bitmapTest_eq, bitmapTest_eq]
  exact bitAt_clear s.bitmap q p

@[simp] theorem totalPages_bitmapSet (s : State) (q : Nat) :
    (bitmapSet s q).totalPages = s.totalPages := rfl

@[simp] theorem totalPages_bitmapClear (s : State) (q : Nat) :
    (bitmapClear s q).totalPages = s.totalPages := rfl

@[simp] theorem totalPages_takePage (s : State) (q : Nat) :
    (takePage s q).totalPages = s.totalPages := rfl

@[simp] theorem bitmapTest_takePage (s : State) (q p : Nat) :
    bitmapTest (takePage s q) p = (decide (p = q) || bitmapTest s p) :=
  bitmapTest_bitmapSet s q p

@[simp] theorem totalPages_releasePage (s : State) (q : Nat) :
    (releasePage s q).totalPages = s.totalPages := by
  unfold releasePage
  split <;> rfl

@[simp] theorem bitmapTest_releasePage (s : State) (q p : Nat) :
    bitmapTest (releasePage s q) p = (!decide (p = q) && bitmapTest s p) := by
  unfold releasePage
  split
  · exact bitmapTest_bitmapClear s q p
  · rename_i hq
    by_cases hpq : p = q
    · simp [hpq, hq]
    · simp [hpq]

/-! ## The set of used pages -/

def usedSet (s : State) : Finset Nat :=
  (Finset.range s.totalPages).filter fun p => bitmapTest s p = true

theorem mem_usedSet {s : State} {p : Nat} :
    p ∈ usedSet s ↔ p < s.totalPages ∧ bitmapTest s p = true := by
  simp [usedSet]

theorem usedSet_takePage {s : State} {q : Nat} (hq : q < s.totalPages) :
    usedSet (takePage s q) = insert q (usedSet s) := by
  ext p
  simp only [mem_usedSet, Finset.mem_insert, totalPages_takePage, bitmapTest_takePage,
    Bool.or_eq_true, decide_eq_true_eq]
  constructor
  · rintro ⟨hp, rfl | hbit⟩
    · exact Or.inl rfl
    · exact Or.inr ⟨hp, hbit⟩
  · rintro (rfl | ⟨hp, hbit⟩)
    · exact ⟨hq, Or.inl rfl⟩
    · exact ⟨hp, Or.inr hbit⟩

theorem usedSet_releasePage (s : State) (q : Nat) :
    usedSet (releasePage s q) = (usedSet s).erase q := by
  ext p
  simp only [mem_usedSet, Finset.mem_erase, totalPages_releasePage, bitmapTest_releasePage,
    Bool.and_eq_true, Bool.not_eq_true', decide_eq_false_iff_not]
  tauto

theorem card_usedSet_le (s : State) : (usedSet s).card ≤ s.totalPages := by
  simpa [usedSet] using Finset.card_filter_le (Finset.range s.totalPages) fun p => bitmapTest s p = true

/-- The bitmap covers at most 4 GB, so no page count comes near `2 ^ 64`. -/
def maxPages : Nat := pmmMaxMemory / pageSize

/-- The counter invariant. -/
structure Accounted (s : State) : Prop where
  bounded : s.totalPages ≤ maxPages
  exact_count : s.usedPages.toNat = (usedSet s).card

theorem Accounted.takePage {s : State} (h : Accounted s) {q : Nat} (hq : q < s.totalPages)
    (hfree : bitmapTest s q = false) : Accounted (takePage s q) := by
  have hnot : q ∉ usedSet s := by simp [mem_usedSet, hfree]
  have hcard : (insert q (usedSet s)).card = (usedSet s).card + 1 :=
    Finset.card_insert_of_notMem hnot
  have hle := card_usedSet_le (Pmm.takePage s q)
  refine ⟨h.bounded, ?_⟩
  rw [usedSet_takePage hq, hcard] at hle ⊢
  have hb := h.bounded
  have hmax : maxPages = 1048576 := by decide
  change (s.usedPages + 1).toNat = _
  rw [BitVec.toNat_add, h.exact_count]
  simp only [totalPages_takePage] at hle
  exact Nat.mod_eq_of_lt (by simp; omega)

theorem Accounted.releasePage {s : State} (h : Accounted s) {q : Nat} (hq : q < s.totalPages) :
    Accounted (releasePage s q) := by
  refine ⟨by simpa using h.bounded, ?_⟩
  rw [usedSet_releasePage]
  by_cases hbit : bitmapTest s q = true
  · have hmem : q ∈ usedSet s := mem_usedSet.mpr ⟨hq, hbit⟩
    have hpos : 0 < (usedSet s).card := Finset.card_pos.mpr ⟨q, hmem⟩
    have hcount := h.exact_count
    have hlt : s.usedPages.toNat < 2 ^ 64 := s.usedPages.isLt
    rw [Finset.card_erase_of_mem hmem]
    simp only [Pmm.releasePage, hbit, if_true]
    have hone : (1 : Word).toNat = 1 := rfl
    rw [BitVec.toNat_sub, ← hcount, hone]
    omega
  · have hnot : q ∉ usedSet s := fun hm => hbit (mem_usedSet.mp hm).2
    rw [Finset.erase_eq_of_notMem hnot]
    simpa [Pmm.releasePage, hbit] using h.exact_count

@[simp] theorem totalPages_reservePage (s : State) (q : Nat) :
    (reservePage s q).totalPages = s.totalPages := by
  unfold reservePage
  split <;> rfl

theorem bitmapTest_reservePage (s : State) (q p : Nat) :
    bitmapTest (reservePage s q) p = true ↔
      bitmapTest s p = true ∨ (p = q ∧ q < s.totalPages) := by
  unfold reservePage
  split
  · rename_i h
    simp only [Bool.and_eq_true, decide_eq_true_eq] at h
    rw [bitmapTest_takePage, Bool.or_eq_true, decide_eq_true_eq]
    tauto
  · rename_i h
    constructor
    · exact Or.inl
    · rintro (hbit | ⟨rfl, hq⟩)
      · exact hbit
      · simpa [hq] using h

theorem Accounted.reservePage {s : State} (h : Accounted s) (q : Nat) :
    Accounted (reservePage s q) := by
  unfold Pmm.reservePage
  split
  · rename_i hq
    simp only [Bool.and_eq_true, decide_eq_true_eq, Bool.not_eq_true'] at hq
    exact h.takePage hq.1 hq.2
  · exact h

/-! ## What an operation does to the bitmap

`Marks s t A`: from `s` to `t` exactly the pages of `A` became used.
`Frees s t A`: exactly the pages of `A` became free. -/

structure Marks (s t : State) (A : Nat → Prop) : Prop where
  total : t.totalPages = s.totalPages
  bits : ∀ p, bitmapTest t p = true ↔ bitmapTest s p = true ∨ A p
  accounted : Accounted s → Accounted t

structure Frees (s t : State) (A : Nat → Prop) : Prop where
  total : t.totalPages = s.totalPages
  bits : ∀ p, bitmapTest t p = true ↔ bitmapTest s p = true ∧ ¬ A p
  accounted : Accounted s → Accounted t

theorem Marks.congr {s t : State} {A B : Nat → Prop} (h : Marks s t A) (hAB : ∀ p, A p ↔ B p) :
    Marks s t B :=
  ⟨h.total, fun p => by rw [h.bits, hAB], h.accounted⟩

theorem Marks.trans {s t u : State} {A B : Nat → Prop} (h : Marks s t A) (h' : Marks t u B) :
    Marks s u (fun p => A p ∨ B p) :=
  ⟨h'.total.trans h.total, fun p => by rw [h'.bits, h.bits, or_assoc],
    fun hs => h'.accounted (h.accounted hs)⟩

theorem Frees.trans {s t u : State} {A B : Nat → Prop} (h : Frees s t A) (h' : Frees t u B) :
    Frees s u (fun p => A p ∨ B p) :=
  ⟨h'.total.trans h.total, fun p => by rw [h'.bits, h.bits, not_or, and_assoc],
    fun hs => h'.accounted (h.accounted hs)⟩

theorem Frees.congr {s t : State} {A B : Nat → Prop} (h : Frees s t A) (hAB : ∀ p, A p ↔ B p) :
    Frees s t B :=
  ⟨h.total, fun p => by rw [h.bits, hAB], h.accounted⟩

theorem frees_releasePage {s : State} {q : Nat} (hq : q < s.totalPages) :
    Frees s (releasePage s q) (· = q) where
  total := totalPages_releasePage s q
  bits p := by
    rw [bitmapTest_releasePage, Bool.and_eq_true, Bool.not_eq_true', decide_eq_false_iff_not,
      and_comm]
  accounted h := h.releasePage hq

theorem marks_reservePage (s : State) (q : Nat) :
    Marks s (reservePage s q) (fun p => p = q ∧ q < s.totalPages) where
  total := totalPages_reservePage s q
  bits p := bitmapTest_reservePage s q p
  accounted h := h.reservePage q

/-- `pmm_mark_region_used` marks every existing page from the one that holds
`base` on, as many as `length` rounds up to. -/
theorem marks_pmmMarkRegionUsed (s : State) (base length : Word) :
    Marks s (pmmMarkRegionUsed s base length) (fun p =>
      base.toNat / pageSize ≤ p ∧ p < base.toNat / pageSize + (length + 4095#64).toNat / pageSize ∧
        p < s.totalPages) := by
  unfold pmmMarkRegionUsed
  refine fold_induction
    (fun i t => Marks s t fun p => base.toNat / pageSize ≤ p ∧
      p < base.toNat / pageSize + i ∧ p < s.totalPages) ?_ ?_
  · exact ⟨rfl, fun p => ⟨Or.inl, fun h => h.elim id (by omega)⟩, id⟩
  · intro i _ t ht
    refine (ht.trans (marks_reservePage t _)).congr fun p => ?_
    rw [ht.total]
    omega

/-- `pmm_mark_region_free` frees the pages from `base` rounded up to
`base + length` rounded down. -/
theorem frees_pmmMarkRegionFree (s : State) (base length : Word) :
    Frees s (pmmMarkRegionFree s base length) (fun p =>
      (base + 4095#64).toNat / pageSize ≤ p ∧ p < (base + length).toNat / pageSize ∧
        p < s.totalPages) := by
  unfold pmmMarkRegionFree
  simp only
  set startPage := (base + 4095#64).toNat / pageSize with hstart
  set endPage := (base + length).toNat / pageSize with hend
  suffices hloop : Frees s
      ((min endPage s.totalPages - startPage).fold
        (fun i _ t => releasePage t (startPage + i)) s)
      (fun p => startPage ≤ p ∧ p < startPage + (min endPage s.totalPages - startPage)) from
    hloop.congr fun p => by omega
  refine fold_induction
    (fun i t => Frees s t fun p => startPage ≤ p ∧ p < startPage + i)
    ⟨rfl, fun p => ⟨fun h => ⟨h, by omega⟩, fun h => h.1⟩, id⟩ ?_
  intro i hi t ht
  have hlt : startPage + i < t.totalPages := by
    rw [ht.total]
    omega
  exact (ht.trans (frees_releasePage hlt)).congr fun p => by omega

theorem frees_pmmFreePage (s : State) (physAddr : Word) :
    Frees s (pmmFreePage s physAddr)
      (fun p => p = physAddr.toNat / pageSize ∧ p < s.totalPages) := by
  unfold pmmFreePage
  simp only
  split
  · exact ⟨rfl, fun p => ⟨fun h => ⟨h, by omega⟩, fun h => h.1⟩, id⟩
  · exact (frees_releasePage (by omega)).congr fun p => by omega

theorem frees_pmmFreePages (s : State) (physAddr count : Word) :
    Frees s (pmmFreePages s physAddr count) (fun p =>
      (∃ i < count.toNat, p = (physAddr.toNat / pageSize + i) % 2 ^ 64) ∧ p < s.totalPages) := by
  unfold pmmFreePages
  refine fold_induction
    (fun n t => Frees s t fun p =>
      (∃ i < n, p = (physAddr.toNat / pageSize + i) % 2 ^ 64) ∧ p < s.totalPages) ?_ ?_
  · exact ⟨rfl, fun p => ⟨fun h => ⟨h, by simp⟩, fun h => h.1⟩, id⟩
  · intro n _ t ht
    simp only
    set page := (physAddr.toNat / pageSize + n) % 2 ^ 64 with hpage
    have hsplit : ∀ p, (∃ i < n + 1, p = (physAddr.toNat / pageSize + i) % 2 ^ 64) ↔
        (∃ i < n, p = (physAddr.toNat / pageSize + i) % 2 ^ 64) ∨ p = page := by
      intro p
      simp only [Nat.lt_succ_iff_lt_or_eq, or_and_right, exists_or, exists_eq_left, hpage]
    split
    · rename_i hlt
      refine (ht.trans (frees_releasePage hlt)).congr fun p => ?_
      rw [hsplit, ht.total] at *
      constructor
      · rintro (⟨h, hp⟩ | rfl)
        · exact ⟨Or.inl h, hp⟩
        · exact ⟨Or.inr rfl, hlt⟩
      · rintro ⟨h | rfl, hp⟩
        · exact Or.inl ⟨h, hp⟩
        · exact Or.inr rfl
    · rename_i hge
      refine ht.congr fun p => ?_
      rw [hsplit]
      rw [ht.total] at hge
      constructor
      · rintro ⟨h, hp⟩
        exact ⟨Or.inl h, hp⟩
      · rintro ⟨h | rfl, hp⟩
        · exact ⟨h, hp⟩
        · exact absurd hp hge

end VectorForth.Pmm
