import VectorForth.Memory.PmmAccounting

/-!
# The two bitmap searches

`bitmap_find_free` returns the lowest free page of the whole 32-bit words;
`bitmap_find_free_region` returns the lowest run of free pages that is long
enough. Both are characterised in terms of single bits.
-/

namespace VectorForth.Pmm

open Bitmap LabelledRun

/-! ## Searching single pages -/

/-- Bit `bit` of word `i` is the bit of page `32 i + bit`. -/
theorem getLsbD_bitmap32 (s : State) (i : Nat) {bit : Nat} (hbit : bit < 32) :
    (bitmap32 s i).getLsbD bit = bitmapTest s (i * 32 + bit) := by
  have hdiv : (i * 32 + bit) / 8 = 4 * i + bit / 8 := by omega
  have hmod : (i * 32 + bit) % 8 = bit % 8 := by omega
  rw [bitmapTest_eq, bitAt, hdiv, hmod]
  unfold bitmap32
  rw [BitVec.getLsbD_append, BitVec.getLsbD_append, BitVec.getLsbD_append]
  have hcases : bit / 8 = 0 ∨ bit / 8 = 1 ∨ bit / 8 = 2 ∨ bit / 8 = 3 := by omega
  rcases hcases with h | h | h | h
  · rw [if_pos (by omega), h, show bit % 8 = bit by omega, Nat.add_zero]
  · rw [if_neg (by omega), if_pos (by omega), h, show bit % 8 = bit - 8 by omega]
  · rw [if_neg (by omega), if_neg (by omega), if_pos (by omega), h,
      show bit % 8 = bit - 8 - 8 by omega]
  · rw [if_neg (by omega), if_neg (by omega), if_neg (by omega), h,
      show bit % 8 = bit - 8 - 8 - 8 by omega]

/-- A word of ones hides no free page. -/
theorem bitmapTest_of_bitmap32 {s : State} {i bit : Nat} (hbit : bit < 32)
    (hfull : bitmap32 s i = 0xFFFFFFFF#32) : bitmapTest s (i * 32 + bit) = true := by
  have hones : (0xFFFFFFFF#32).getLsbD bit = true := by
    have : (0xFFFFFFFF#32) = BitVec.allOnes 32 := by decide
    rw [this, BitVec.getLsbD_allOnes]
    simpa using hbit
  rw [← getLsbD_bitmap32 s i hbit, hfull, hones]

theorem findFreeInWord_some {s : State} {i p : Nat} (h : findFreeInWord s i = some p) :
    p / 32 = i ∧ p < s.totalPages ∧ bitmapTest s p = false ∧
      ∀ q, q / 32 = i → q < p → q < s.totalPages → bitmapTest s q = true := by
  unfold findFreeInWord at h
  rw [List.find?_map, Option.map_eq_some_iff] at h
  obtain ⟨bit, hbit, rfl⟩ := h
  rw [List.find?_range_eq_some] at hbit
  obtain ⟨hp, hmem, hfirst⟩ := hbit
  have hlt : bit < 32 := List.mem_range.mp hmem
  simp only [Function.comp, Bool.and_eq_true, decide_eq_true_eq, Bool.not_eq_true'] at hp
  refine ⟨by omega, hp.1, hp.2, ?_⟩
  intro q hq hqp hqt
  have hj := hfirst (q % 32) (by omega)
  have hdecomp : i * 32 + q % 32 = q := by omega
  simpa [Function.comp, hdecomp, hqt] using hj

theorem findFreeInWord_none {s : State} {i : Nat} (h : findFreeInWord s i = none) {q : Nat}
    (hq : q / 32 = i) (hqt : q < s.totalPages) : bitmapTest s q = true := by
  unfold findFreeInWord at h
  rw [List.find?_eq_none] at h
  have hmem : q ∈ (List.range 32).map fun bit => i * 32 + bit :=
    List.mem_map.mpr ⟨q % 32, List.mem_range.mpr (by omega), by omega⟩
  simpa [hqt] using h q hmem

theorem scanWord_none {s : State} {i : Nat}
    (h : (if bitmap32 s i != 0xFFFFFFFF#32 then findFreeInWord s i else none) = none) {q : Nat}
    (hq : q / 32 = i) (hqt : q < s.totalPages) : bitmapTest s q = true := by
  split at h
  · exact findFreeInWord_none h hq hqt
  · rename_i hfull
    have hword : bitmap32 s i = 0xFFFFFFFF#32 := by simpa using hfull
    have := @bitmapTest_of_bitmap32 s i (q % 32) (by omega) hword
    rwa [show i * 32 + q % 32 = q by omega] at this

/-- The page found is free, and every lower page is used. -/
theorem bitmapFindFree_some {s : State} {p : Nat} (h : bitmapFindFree s = some p) :
    p < s.totalPages ∧ bitmapTest s p = false ∧ ∀ q < p, bitmapTest s q = true := by
  obtain ⟨i, _, hfi, hlow⟩ := findSome?_range h
  have hword : findFreeInWord s i = some p := by
    split at hfi
    · exact hfi
    · simp at hfi
  obtain ⟨hpi, hpt, hfree, hfirst⟩ := findFreeInWord_some hword
  refine ⟨hpt, hfree, ?_⟩
  intro q hqp
  rcases Nat.lt_or_ge (q / 32) i with hlt | hge
  · exact scanWord_none (hlow (q / 32) hlt) rfl (by omega)
  · exact hfirst q (by omega) hqp (by omega)

/-! ## Searching runs -/

/-- The `c` pages from `p` on exist and are free. -/
def FreeRun (s : State) (p c : Nat) : Prop :=
  ∀ x, p ≤ x → x < p + c → x < s.totalPages ∧ bitmapTest s x = false

/-- A request for zero pages is answered like a request for one. -/
def runLength (count : Word) : Nat := max 1 count.toNat

/-- The loop invariant of `bitmap_find_free_region`: the last `consecutive`
pages are free, they are too few, and no earlier start works. -/
structure Scanning (s : State) (count : Word) (i consecutive start : Nat) : Prop where
  within : consecutive ≤ i
  short : consecutive < runLength count
  started : 0 < consecutive → start = i - consecutive
  free : ∀ x, i - consecutive ≤ x → x < i → bitmapTest s x = false
  none_before : ∀ r < i - consecutive, ¬ FreeRun s r (runLength count)

theorem Scanning.used {s : State} {count : Word} {i c start : Nat}
    (h : Scanning s count i c start) (hbit : bitmapTest s i = true) :
    Scanning s count (i + 1) 0 start := by
  refine ⟨Nat.zero_le _, by unfold runLength; omega, by simp, by intros; omega, ?_⟩
  intro r hr hrun
  rcases Nat.lt_or_ge r (i - c) with hlt | hge
  · exact h.none_before r hlt hrun
  · have hshort := h.short
    have hwithin := h.within
    have := (hrun i (by omega) (by omega)).2
    simp [hbit] at this

theorem Scanning.more {s : State} {count : Word} {i c start : Nat}
    (h : Scanning s count i c start) (hbit : bitmapTest s i = false)
    (hshort : c + 1 < runLength count) :
    Scanning s count (i + 1) (c + 1) (if c = 0 then i else start) := by
  have hwithin := h.within
  refine ⟨by omega, hshort, ?_, ?_, ?_⟩
  · intro _
    split
    · omega
    · rw [h.started (by omega)]
      omega
  · intro x hx₁ hx₂
    rcases Nat.lt_or_ge x i with hlt | hge
    · exact h.free x (by omega) hlt
    · rw [show x = i by omega]
      exact hbit
  · intro r hr
    exact h.none_before r (by omega)

theorem findRegionFrom_spec {s : State} {count : Word} :
    ∀ {n i c start : Nat}, i + n = s.totalPages → Scanning s count i c start →
      match findRegionFrom s count n i c start with
      | some r => FreeRun s r (runLength count) ∧ ∀ r' < r, ¬ FreeRun s r' (runLength count)
      | none => ∀ r, ¬ FreeRun s r (runLength count)
  | 0, i, c, start, hend, hinv => by
      intro r hrun
      have hshort := hinv.short
      have hwithin := hinv.within
      rcases Nat.lt_or_ge r (i - c) with hlt | hge
      · exact hinv.none_before r hlt hrun
      · have := (hrun (r + runLength count - 1) (by omega) (by omega)).1
        omega
  | n + 1, i, c, start, hend, hinv => by
      rw [findRegionFrom]
      cases hbit : bitmapTest s i with
      | true =>
          simp only [if_true]
          exact findRegionFrom_spec (by omega) (hinv.used hbit)
      | false =>
          simp only [Bool.false_eq_true, if_false]
          have hshort := hinv.short
          by_cases hfound : count.toNat ≤ c + 1
          · simp only [if_pos hfound]
            have hlen : runLength count = c + 1 := by
              unfold runLength at hshort ⊢
              omega
            have hwithin := hinv.within
            have hstart : (if c = 0 then i else start) = i - c := by
              split
              · omega
              · exact hinv.started (by omega)
            rw [hstart, hlen]
            refine ⟨?_, fun r hr => hlen ▸ hinv.none_before r hr⟩
            intro x hx₁ hx₂
            refine ⟨by omega, ?_⟩
            rcases Nat.lt_or_ge x i with hlt | hge
            · exact hinv.free x hx₁ hlt
            · rw [show x = i by omega]
              exact hbit
          · simp only [if_neg hfound]
            exact findRegionFrom_spec (by omega)
              (hinv.more hbit (by unfold runLength; omega))

theorem scanning_initial (s : State) (count : Word) : Scanning s count 0 0 0 :=
  ⟨Nat.le_refl _, by unfold runLength; omega, by simp, by intros; omega, by intros; omega⟩

/-- First fit: the run found is free, and no run starts lower. -/
theorem bitmapFindFreeRegion_some {s : State} {count : Word} {r : Nat}
    (h : bitmapFindFreeRegion s count = some r) :
    FreeRun s r (runLength count) ∧ ∀ r' < r, ¬ FreeRun s r' (runLength count) := by
  have hspec := findRegionFrom_spec (n := s.totalPages) (i := 0) (by omega)
    (scanning_initial s count)
  rw [show findRegionFrom s count s.totalPages 0 0 0 = some r from h] at hspec
  exact hspec

theorem FreeRun.mono {s : State} {p c q k : Nat} (h : FreeRun s p c) (hpq : p ≤ q)
    (hqk : q + k ≤ p + c) : FreeRun s q k :=
  fun x hx₁ hx₂ => h x (by omega) (by omega)

theorem le_runLength (count : Word) : count.toNat ≤ runLength count :=
  Nat.le_max_right ..

/-! ## What the allocators do -/

theorem marks_takePage {s : State} {q : Nat} (hq : q < s.totalPages)
    (hfree : bitmapTest s q = false) : Marks s (takePage s q) (· = q) where
  total := rfl
  bits p := by rw [bitmapTest_takePage, Bool.or_eq_true, decide_eq_true_eq, or_comm]
  accounted h := h.takePage hq hfree

theorem marks_takePages {s : State} {start n : Nat} (hrun : FreeRun s start n) :
    Marks s (n.fold (fun i _ t => takePage t (start + i)) s)
      (fun p => start ≤ p ∧ p < start + n) := by
  refine fold_induction (fun i t => Marks s t fun p => start ≤ p ∧ p < start + i)
    ⟨rfl, fun p => ⟨Or.inl, fun h => h.elim id (by omega)⟩, id⟩ ?_
  intro i hi t ht
  obtain ⟨hlt, hfree⟩ := hrun (start + i) (by omega) (by omega)
  have hfree' : bitmapTest t (start + i) = false := by
    rw [← Bool.not_eq_true, ht.bits]
    simp [hfree]
  rw [← ht.total] at hlt
  exact (ht.trans (marks_takePage hlt hfree')).congr fun p => by omega

/-- A page handed out singly is the lowest free one, and it becomes used. -/
theorem pmmAllocPage_spec {s t : State} {addr : Nat} (h : pmmAllocPage s = some (addr, t)) :
    ∃ page, addr = page * pageSize ∧ page < s.totalPages ∧ bitmapTest s page = false ∧
      (∀ q < page, bitmapTest s q = true) ∧ Marks s t (· = page) := by
  unfold pmmAllocPage at h
  cases hfind : bitmapFindFree s with
  | none => simp [hfind] at h
  | some page =>
      simp only [hfind, Option.some.injEq, Prod.mk.injEq] at h
      obtain ⟨rfl, rfl⟩ := h
      obtain ⟨hlt, hfree, hlow⟩ := bitmapFindFree_some hfind
      exact ⟨page, rfl, hlt, hfree, hlow, marks_takePage hlt hfree⟩

/-- A block handed out is the lowest run of free pages, and it becomes used. -/
theorem pmmAllocPages_spec {s t : State} {count : Word} {addr : Nat}
    (h : pmmAllocPages s count = some (addr, t)) :
    ∃ start, addr = start * pageSize ∧ FreeRun s start (runLength count) ∧
      (∀ r < start, ¬ FreeRun s r (runLength count)) ∧
      Marks s t (fun p => start ≤ p ∧ p < start + count.toNat) := by
  unfold pmmAllocPages at h
  cases hfind : bitmapFindFreeRegion s count with
  | none => simp [hfind] at h
  | some start =>
      simp only [hfind, Option.some.injEq, Prod.mk.injEq] at h
      obtain ⟨rfl, rfl⟩ := h
      obtain ⟨hrun, hlow⟩ := bitmapFindFreeRegion_some hfind
      have hshort : FreeRun s start count.toNat :=
        hrun.mono (Nat.le_refl _) (Nat.add_le_add_left (le_runLength count) _)
      exact ⟨start, rfl, hrun, hlow, marks_takePages hshort⟩

/-- The search for one page fails only when every page of a whole word is used. -/
theorem bitmapFindFree_isSome {s : State} {q : Nat} (hq : q / 32 < s.totalPages / 32)
    (hfree : bitmapTest s q = false) : (bitmapFindFree s).isSome = true := by
  cases hfind : bitmapFindFree s with
  | some p => rfl
  | none =>
      have hused := scanWord_none (findSome?_range_none hfind (q / 32) hq) rfl (by omega)
      simp [hfree] at hused

end VectorForth.Pmm
