import VectorForth.Memory.PmmOwnership

/-!
# Which page an allocation finds

`pmm_alloc_pages` takes the lowest run that is long enough, and fails only when
there is none. `pmm_alloc_page` takes the lowest free page too, but only looks at
whole 32-bit words: the last `pmm_total_pages % 32` pages are never found.
-/

namespace VectorForth.Pmm

/-! ## Runs of pages -/

section Runs

variable {s : State} {count : Word} {r : Nat}

theorem bitmapFindFreeRegion_none (h : bitmapFindFreeRegion s count = none) (r : Nat) :
    ¬ FreeRun s r (runLength count) := by
  have hspec := findRegionFrom_spec (n := s.totalPages) (i := 0) (by omega)
    (scanning_initial s count)
  rw [show findRegionFrom s count s.totalPages 0 0 0 = none from h] at hspec
  exact hspec r

theorem runLength_pos (h : 1 ≤ count.toNat) : runLength count = count.toNat :=
  Nat.max_eq_right h

theorem pmmAllocPages_isSome (count : Word) :
    (pmmAllocPages s count).isSome = (bitmapFindFreeRegion s count).isSome := by
  unfold pmmAllocPages
  cases bitmapFindFreeRegion s count <;> rfl

/-- `r` is the lowest start of `count` free pages. -/
def FirstRun (s : State) (count r : Nat) : Prop :=
  FreeRun s r count ∧ ∀ q < r, ¬ FreeRun s q count

theorem bitmapFindFreeRegion_first (h : 1 ≤ count.toNat) (hr : bitmapFindFreeRegion s count = some r) :
    FirstRun s count.toNat r := by
  have hspec := bitmapFindFreeRegion_some hr
  rw [runLength_pos h] at hspec
  exact hspec

theorem bitmapFindFreeRegion_none_iff (h : 1 ≤ count.toNat) :
    bitmapFindFreeRegion s count = none ↔ ∀ r, ¬ FreeRun s r count.toNat := by
  constructor
  · intro hnone r
    rw [← runLength_pos h]
    exact bitmapFindFreeRegion_none hnone r
  · intro hno
    cases hfind : bitmapFindFreeRegion s count with
    | none => rfl
    | some q => exact absurd (bitmapFindFreeRegion_first h hfind).1 (hno q)

theorem bitmapFindFreeRegion_iff (h : 1 ≤ count.toNat) :
    bitmapFindFreeRegion s count = some r ↔ FirstRun s count.toNat r := by
  constructor
  · exact bitmapFindFreeRegion_first h
  · rintro ⟨hrun, hlow⟩
    cases hfind : bitmapFindFreeRegion s count with
    | none => exact absurd hrun ((bitmapFindFreeRegion_none_iff h).mp hfind r)
    | some q =>
        obtain ⟨hrun', hlow'⟩ := bitmapFindFreeRegion_first h hfind
        rcases Nat.lt_trichotomy q r with hlt | rfl | hgt
        · exact absurd hrun' (hlow q hlt)
        · rfl
        · exact absurd hrun (hlow' r hgt)

/-- **Contiguous search is first fit and complete**, and what is found is marked. -/
theorem first_fit_complete (s : State) (h : 1 ≤ count.toNat) :
    (∀ r, bitmapFindFreeRegion s count = some r ↔ FirstRun s count.toNat r) ∧
      (bitmapFindFreeRegion s count = none ↔ ∀ r, ¬ FreeRun s r count.toNat) ∧
      (pmmAllocPages s count = none ↔ bitmapFindFreeRegion s count = none) ∧
      ∀ addr t, pmmAllocPages s count = some (addr, t) →
        ∃ r, FirstRun s count.toNat r ∧ addr = r * pageSize ∧ t.totalPages = s.totalPages ∧
          ∀ p, bitmapTest t p = true ↔ bitmapTest s p = true ∨ (r ≤ p ∧ p < r + count.toNat) := by
  refine ⟨fun r => bitmapFindFreeRegion_iff h, bitmapFindFreeRegion_none_iff h, ?_, ?_⟩
  · rw [← Option.not_isSome_iff_eq_none, ← Option.not_isSome_iff_eq_none, pmmAllocPages_isSome]
  · intro addr t halloc
    obtain ⟨r, rfl, hrun, hlow, hmarks⟩ := pmmAllocPages_spec halloc
    rw [runLength_pos h] at hrun hlow
    exact ⟨r, ⟨hrun, hlow⟩, rfl, hmarks.total, hmarks.bits⟩

end Runs

/-- Three pages are found above the first 512 KB. -/
theorem first_fit_complete_three :
    bitmapFindFreeRegion (pmmInit (fun _ => 0#8) sampleMap) 3#64 = some 0x80 := by
  have htotal : (pmmInit (fun _ => 0#8) sampleMap).totalPages = 0x8000 := by
    rw [totalPages_pmmInit, pmmTotalMemory_sampleMap, pageSize]
  have hthree : (3#64).toNat = 3 := rfl
  refine ((first_fit_complete _ (by decide : 1 ≤ (3#64).toNat)).1 0x80).mpr ⟨?_, ?_⟩
  · intro p hlow hhigh
    have hfrees : ∃ e ∈ sampleMap, e.Frees p := by
      have hfirst : (0x0#64 + 4095#64).toNat / pageSize = 0 ∧
          (0x0#64 + 0x9F000#64).toNat / pageSize = 0x9F := by decide
      refine ⟨_, List.mem_cons_self, rfl, ?_, ?_⟩
      · rw [hfirst.1]
        omega
      · rw [hfirst.2]
        omega
    have hres : ¬ Reserved 0x8000 p := by
      unfold Reserved
      omega
    refine ⟨by omega, ?_⟩
    rw [← Bool.not_eq_true, bitmapTest_pmmInit (by omega), htotal]
    simp [hfrees, hres]
  · intro q hq hrun
    obtain ⟨hlt, hfree⟩ := hrun q (Nat.le_refl _) (by omega)
    have hused := (bitmapTest_pmmInit hlt).mpr (Or.inr (Or.inl hq))
    rw [hused] at hfree
    cases hfree

/-! ## Single pages -/

/-- `p` is the lowest free page. -/
def LowestFree (s : State) (p : Nat) : Prop :=
  p < s.totalPages ∧ bitmapTest s p = false ∧ ∀ q < p, bitmapTest s q = true

/-- The two allocators find a page together, the lowest free one, and the single-page
allocator panics only when none is free. -/
structure SinglePageAgrees (s : State) : Prop where
  both : (pmmAllocPage s).isSome = (pmmAllocPages s 1#64).isSome
  page : ∀ addr t, pmmAllocPage s = some (addr, t) → ∃ p, addr = p * pageSize ∧ LowestFree s p
  pages : ∀ addr t, pmmAllocPages s 1#64 = some (addr, t) → ∃ p, addr = p * pageSize ∧ LowestFree s p
  panics : pmmAllocPage s = none → ∀ p < s.totalPages, bitmapTest s p = true

section Single

variable {s : State} {p : Nat}

theorem pmmAllocPage_isSome : (pmmAllocPage s).isSome = (bitmapFindFree s).isSome := by
  unfold pmmAllocPage
  cases bitmapFindFree s <;> rfl

/-- The page found lies in a whole word. -/
theorem bitmapFindFree_word (h : bitmapFindFree s = some p) : p < s.totalPages / 32 * 32 := by
  obtain ⟨i, hi, hfi, -⟩ := LabelledRun.findSome?_range h
  have hword : findFreeInWord s i = some p := by
    split at hfi
    · exact hfi
    · cases hfi
  have hdiv := (findFreeInWord_some hword).1
  omega

/-- The single-page search succeeds exactly when a whole word has a free page. -/
theorem bitmapFindFree_isSome_iff :
    (bitmapFindFree s).isSome = true ↔ ∃ p < s.totalPages / 32 * 32, bitmapTest s p = false := by
  constructor
  · intro h
    obtain ⟨p, hp⟩ := Option.isSome_iff_exists.mp h
    exact ⟨p, bitmapFindFree_word hp, (bitmapFindFree_some hp).2.1⟩
  · rintro ⟨p, hp, hfree⟩
    exact bitmapFindFree_isSome (by omega) hfree

theorem freeRun_one : FreeRun s p 1 ↔ p < s.totalPages ∧ bitmapTest s p = false := by
  constructor
  · exact fun h => h p (Nat.le_refl p) (Nat.lt_succ_self p)
  · intro h x hx hx'
    obtain rfl : x = p := by omega
    exact h

/-- A run of one page is found whenever a page is free. -/
theorem bitmapFindFreeRegion_one :
    (bitmapFindFreeRegion s 1#64).isSome = true ↔ ∃ p < s.totalPages, bitmapTest s p = false := by
  constructor
  · intro h
    obtain ⟨p, hp⟩ := Option.isSome_iff_exists.mp h
    exact ⟨p, freeRun_one.mp (bitmapFindFreeRegion_first (by decide) hp).1⟩
  · rintro ⟨p, hp, hfree⟩
    by_contra hfail
    rw [Option.not_isSome_iff_eq_none, bitmapFindFreeRegion_none_iff (by decide)] at hfail
    exact hfail p (freeRun_one.mpr ⟨hp, hfree⟩)

theorem FirstRun.lowestFree (h : FirstRun s 1 p) : LowestFree s p := by
  obtain ⟨hrun, hlow⟩ := h
  obtain ⟨hp, hfree⟩ := freeRun_one.mp hrun
  refine ⟨hp, hfree, ?_⟩
  intro q hq
  by_contra hused
  exact hlow q hq (freeRun_one.mpr ⟨by omega, Bool.eq_false_iff.mpr hused⟩)

/-- **The two searches agree** exactly when a whole word has a free page, or no page is
free at all. -/
theorem single_page_agrees_iff (s : State) :
    SinglePageAgrees s ↔
      (∃ p < s.totalPages / 32 * 32, bitmapTest s p = false) ∨
        ∀ p < s.totalPages, bitmapTest s p = true := by
  constructor
  · intro h
    by_cases hfound : (pmmAllocPage s).isSome = true
    · rw [pmmAllocPage_isSome, bitmapFindFree_isSome_iff] at hfound
      exact Or.inl hfound
    · rw [Option.not_isSome_iff_eq_none] at hfound
      exact Or.inr (h.panics hfound)
  · intro h
    have hwhole : s.totalPages / 32 * 32 ≤ s.totalPages := Nat.div_mul_le_self _ _
    have hsome : (∃ p < s.totalPages / 32 * 32, bitmapTest s p = false) ↔
        ∃ p < s.totalPages, bitmapTest s p = false := by
      constructor
      · rintro ⟨p, hp, hfree⟩
        exact ⟨p, by omega, hfree⟩
      · rintro ⟨p, hp, hfree⟩
        rcases h with hword | hnone
        · exact hword
        · rw [hnone p hp] at hfree
          cases hfree
    constructor
    case both =>
      rw [pmmAllocPage_isSome, pmmAllocPages_isSome, Bool.eq_iff_iff, bitmapFindFree_isSome_iff,
        bitmapFindFreeRegion_one]
      exact hsome
    case page =>
      intro addr t halloc
      obtain ⟨p, rfl, hp, hfree, hlow, -⟩ := pmmAllocPage_spec halloc
      exact ⟨p, rfl, hp, hfree, hlow⟩
    case pages =>
      intro addr t halloc
      obtain ⟨r, rfl, hrun, hlow, -⟩ := pmmAllocPages_spec halloc
      rw [runLength_pos (by decide)] at hrun hlow
      exact ⟨r, rfl, FirstRun.lowestFree ⟨hrun, hlow⟩⟩
    case panics =>
      intro hnone p hp
      by_contra hused
      have hfound := hsome.mpr ⟨p, hp, Bool.eq_false_iff.mpr hused⟩
      rw [← bitmapFindFree_isSome_iff, ← pmmAllocPage_isSome, hnone] at hfound
      cases hfound

end Single

/-- A machine with a little over 2 MB: after `pmm_init` only its last page is free. -/
def tailMap : List E820Entry :=
  [⟨0x0#64, 0x80000#64, e820Usable⟩, ⟨0x100000#64, 0x102000#64, e820Usable⟩]

theorem totalPages_tailMap (old : Nat → BitVec 8) : (pmmInit old tailMap).totalPages = 0x202 := by
  have htotal : pmmTotalMemory tailMap = 0x202000 := by decide
  rw [totalPages_pmmInit, htotal, pageSize]

theorem bitmapTest_tailMap {old : Nat → BitVec 8} {p : Nat} (hp : p < 0x202) :
    bitmapTest (pmmInit old tailMap) p = true ↔ p ≠ 0x201 := by
  have hbytes : bitmapBytes 0x202 = 65 := by decide
  have hfrees : (∃ e ∈ tailMap, e.Frees p) ↔ p < 0x80 ∨ (0x100 ≤ p ∧ p < 0x202) := by
    have hfirst : (⟨0x0#64, 0x80000#64, e820Usable⟩ : E820Entry).Frees p ↔ 0 ≤ p ∧ p < 0x80 :=
      and_iff_right rfl
    have hsecond : (⟨0x100000#64, 0x102000#64, e820Usable⟩ : E820Entry).Frees p ↔
        0x100 ≤ p ∧ p < 0x202 := and_iff_right rfl
    simp only [tailMap, List.mem_cons, List.not_mem_nil, or_false, exists_eq_or_imp, exists_eq_left,
      hfirst, hsecond]
    omega
  rw [bitmapTest_pmmInit (by rw [totalPages_tailMap]; exact hp), hfrees, totalPages_tailMap,
    Reserved, hbytes, pageSize]
  omega

/-- That page is not found by `pmm_alloc_page`. -/
theorem tail_page_lost : ¬ SinglePageAgrees (pmmInit (fun _ => 0#8) tailMap) := by
  intro h
  have hnone : pmmAllocPage (pmmInit (fun _ => 0#8) tailMap) = none := by
    rw [← Option.not_isSome_iff_eq_none, pmmAllocPage_isSome, bitmapFindFree_isSome_iff,
      totalPages_tailMap]
    rintro ⟨p, hp, hfree⟩
    have hused : bitmapTest (pmmInit (fun _ => 0#8) tailMap) p = true :=
      (bitmapTest_tailMap (by omega)).mpr (by omega)
    rw [hused] at hfree
    cases hfree
  have hused := h.panics hnone 0x201 (by rw [totalPages_tailMap]; decide)
  exact (bitmapTest_tailMap (by decide)).mp hused rfl

end VectorForth.Pmm
