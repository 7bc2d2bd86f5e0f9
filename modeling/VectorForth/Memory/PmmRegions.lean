import VectorForth.Memory.PmmAccounting

/-!
# Which pages a region marks

`pmm_mark_region_free` rounds both ends of a region inwards. `pmm_mark_region_used`
rounds the start down and the length up, which is not the same as rounding the end
up: when the region does not start on a page, its last page may be missed. Both add
4095 to a 64-bit value first, and at the top of the address space that sum wraps.
-/

namespace VectorForth.Pmm

/-- Some byte of the region lies in page `p`. -/
def Touches (base length : Word) (p : Nat) : Prop :=
  ∃ a, base.toNat ≤ a ∧ a < base.toNat + length.toNat ∧ a / pageSize = p

/-- Every byte of page `p` lies in the region. -/
def Within (base length : Word) (p : Nat) : Prop :=
  ∀ a, a / pageSize = p → base.toNat ≤ a ∧ a < base.toNat + length.toNat

/-- Reserving a region takes every page it touches, releasing it only pages that lie
within, and neither changes another page. -/
structure RoundsSafely (s : State) (base length : Word) : Prop where
  used : ∀ p < s.totalPages, Touches base length p →
    bitmapTest (pmmMarkRegionUsed s base length) p = true
  usedOnly : ∀ p, ¬ (p < s.totalPages ∧ Touches base length p) →
    bitmapTest (pmmMarkRegionUsed s base length) p = bitmapTest s p
  freeOnly : ∀ p, ¬ Within base length p →
    bitmapTest (pmmMarkRegionFree s base length) p = bitmapTest s p

/-- The page of the last byte. -/
def lastPage (base length : Word) : Nat := (base.toNat + length.toNat - 1) / pageSize

/-- The length rounds up to fewer pages than the region touches. -/
def RoundsShort (base length : Word) : Prop :=
  0 < length.toNat ∧
    (length.toNat + 4095) / pageSize * pageSize < base.toNat % pageSize + length.toNat

/-- Where the length rounds up to too few pages, the last one is none to be marked, or is
used already. Where `length + 4095` wraps, that must be so for every page. -/
def TailMarked (s : State) (base length : Word) : Prop :=
  if length.toNat + 4095 < 2 ^ 64 then
    RoundsShort base length → lastPage base length < s.totalPages →
      bitmapTest s (lastPage base length) = true
  else ∀ p < s.totalPages, p < 2 ^ 52 → bitmapTest s p = true

/-- `base + 4095` does not wrap, or nothing is used that could be released. -/
def StartRounded (s : State) (base : Word) : Prop :=
  base.toNat + 4095 < 2 ^ 64 ∨ ∀ p < s.totalPages, p < 2 ^ 52 - 1 → bitmapTest s p = false

section Regions

variable {s : State} {base length : Word} {p : Nat}

theorem touches_iff : Touches base length p ↔
    p * pageSize < base.toNat + length.toNat ∧ base.toNat < (p + 1) * pageSize ∧
      0 < length.toNat := by
  unfold Touches pageSize
  constructor
  · rintro ⟨a, hlow, hhigh, rfl⟩
    refine ⟨?_, ?_, ?_⟩ <;> omega
  · rintro ⟨hstart, hend, hpos⟩
    by_cases hbase : p * 4096 ≤ base.toNat
    · exact ⟨base.toNat, Nat.le_refl _, by omega, by omega⟩
    · exact ⟨p * 4096, by omega, hstart, by omega⟩

theorem within_iff : Within base length p ↔
    base.toNat ≤ p * pageSize ∧ (p + 1) * pageSize ≤ base.toNat + length.toNat := by
  unfold Within pageSize
  constructor
  · intro h
    have hfirst := h (p * 4096) (by omega)
    have hlast := h (p * 4096 + 4095) (by omega)
    constructor <;> omega
  · rintro ⟨hlow, hhigh⟩ a rfl
    constructor <;> omega

/-! ## Reserving -/

theorem lengthUp_toNat (length : Word) : (length + 4095#64).toNat =
    if length.toNat + 4095 < 2 ^ 64 then length.toNat + 4095 else length.toNat + 4095 - 2 ^ 64 := by
  have hlt := length.isLt
  rw [BitVec.toNat_add, BitVec.toNat_ofNat]
  split <;> omega

/-- What is marked is touched. -/
theorem touches_of_marked (hlow : base.toNat / pageSize ≤ p)
    (hhigh : p < base.toNat / pageSize + (length + 4095#64).toNat / pageSize) :
    Touches base length p := by
  rw [touches_iff]
  rw [lengthUp_toNat] at hhigh
  unfold pageSize at *
  split at hhigh
  · refine ⟨?_, ?_, ?_⟩ <;> omega
  · omega

theorem touches_lastPage (hpos : 0 < length.toNat) :
    Touches base length (lastPage base length) :=
  ⟨base.toNat + length.toNat - 1, by omega, by omega, rfl⟩

/-- A region that goes on beyond the pages that its length rounds up to. -/
theorem roundsShort_of_beyond (hpos : 0 < length.toNat)
    (hstart : p * pageSize < base.toNat + length.toNat)
    (hbeyond : base.toNat / pageSize + (length.toNat + 4095) / pageSize ≤ p) :
    RoundsShort base length := by
  have hdiv := Nat.div_add_mod base.toNat pageSize
  have hpages := Nat.mul_le_mul_right pageSize hbeyond
  rw [Nat.add_mul, Nat.mul_comm (base.toNat / pageSize)] at hpages
  exact ⟨hpos, by omega⟩

/-- The pages that are touched and not marked: the last one, if the length rounds up to
fewer pages than the region touches, or all of them. -/
theorem touches_not_marked (hsum : base.toNat + length.toNat < 2 ^ 64) :
    (Touches base length p ∧ ¬ (base.toNat / pageSize ≤ p ∧
      p < base.toNat / pageSize + (length + 4095#64).toNat / pageSize)) ↔
    if length.toNat + 4095 < 2 ^ 64 then
      RoundsShort base length ∧ p = lastPage base length
    else p < 2 ^ 52 := by
  rw [lengthUp_toNat]
  split
  · constructor
    · rintro ⟨htouch, hnot⟩
      obtain ⟨hstart, hend, hpos⟩ := touches_iff.mp htouch
      have hbeyond : base.toNat / pageSize + (length.toNat + 4095) / pageSize ≤ p := by
        by_contra hlt
        refine hnot ⟨?_, Nat.lt_of_not_le hlt⟩
        exact Nat.lt_succ_iff.mp (Nat.div_lt_of_lt_mul (by rwa [Nat.mul_comm]))
      refine ⟨roundsShort_of_beyond hpos hstart hbeyond, ?_⟩
      unfold lastPage pageSize at *
      omega
    · rintro ⟨⟨hpos, htail⟩, rfl⟩
      refine ⟨touches_lastPage hpos, ?_⟩
      rintro ⟨-, hhigh⟩
      unfold lastPage pageSize at *
      omega
  · rw [touches_iff]
    unfold pageSize
    constructor
    · rintro ⟨⟨hstart, -, -⟩, -⟩
      omega
    · intro hp
      refine ⟨⟨?_, ?_, ?_⟩, ?_⟩
      · omega
      · omega
      · omega
      · rintro ⟨-, hhigh⟩
        omega

/-- The pages that the region touches are used afterwards. -/
theorem used_iff (hsum : base.toNat + length.toNat < 2 ^ 64) :
    (∀ p < s.totalPages, Touches base length p →
      bitmapTest (pmmMarkRegionUsed s base length) p = true) ↔ TailMarked s base length := by
  have hmarks := marks_pmmMarkRegionUsed s base length
  have hmissed : (∀ p < s.totalPages, Touches base length p →
      bitmapTest (pmmMarkRegionUsed s base length) p = true) ↔
      ∀ p < s.totalPages, (Touches base length p ∧ ¬ (base.toNat / pageSize ≤ p ∧
        p < base.toNat / pageSize + (length + 4095#64).toNat / pageSize)) →
        bitmapTest s p = true := by
    constructor
    · rintro h p hp ⟨htouch, hnot⟩
      rcases (hmarks.bits p).mp (h p hp htouch) with hold | ⟨hlow, hhigh, -⟩
      · exact hold
      · exact absurd ⟨hlow, hhigh⟩ hnot
    · intro h p hp htouch
      by_cases hin : base.toNat / pageSize ≤ p ∧
          p < base.toNat / pageSize + (length + 4095#64).toNat / pageSize
      · exact (hmarks.bits p).mpr (Or.inr ⟨hin.1, hin.2, hp⟩)
      · exact (hmarks.bits p).mpr (Or.inl (h p hp ⟨htouch, hin⟩))
  rw [hmissed, TailMarked]
  simp only [touches_not_marked hsum]
  split
  · constructor
    · intro h hshort hlast
      exact h _ hlast ⟨hshort, rfl⟩
    · rintro h p hp ⟨hshort, rfl⟩
      exact h hshort hp
  · exact Iff.rfl

/-- No other page is marked. -/
theorem usedOnly (hp : ¬ (p < s.totalPages ∧ Touches base length p)) :
    bitmapTest (pmmMarkRegionUsed s base length) p = bitmapTest s p := by
  rw [Bool.eq_iff_iff, (marks_pmmMarkRegionUsed s base length).bits]
  constructor
  · rintro (hold | ⟨hlow, hhigh, htotal⟩)
    · exact hold
    · exact absurd ⟨htotal, touches_of_marked hlow hhigh⟩ hp
  · exact Or.inl

/-! ## Releasing -/

/-- The pages that are cleared and do not lie within the region: none, unless rounding the
start up wraps. -/
theorem cleared_not_within (hsum : base.toNat + length.toNat < 2 ^ 64) :
    (((base + 4095#64).toNat / pageSize ≤ p ∧ p < (base.toNat + length.toNat) / pageSize) ∧
      ¬ Within base length p) ↔ 2 ^ 64 ≤ base.toNat + 4095 ∧ p < 2 ^ 52 - 1 := by
  rw [lengthUp_toNat, within_iff]
  unfold pageSize
  split
  · constructor
    · rintro ⟨⟨hlow, hhigh⟩, hnot⟩
      exact absurd ⟨by omega, by omega⟩ hnot
    · rintro ⟨hwrap, -⟩
      omega
  · constructor
    · rintro ⟨⟨-, hhigh⟩, -⟩
      constructor <;> omega
    · rintro ⟨hwrap, hp⟩
      refine ⟨⟨by omega, by omega⟩, ?_⟩
      rintro ⟨hlow, -⟩
      omega

theorem freeOnly_iff (hsum : base.toNat + length.toNat < 2 ^ 64) :
    (∀ p, ¬ Within base length p →
      bitmapTest (pmmMarkRegionFree s base length) p = bitmapTest s p) ↔ StartRounded s base := by
  have hend : (base + length).toNat = base.toNat + length.toNat := by
    rw [BitVec.toNat_add, Nat.mod_eq_of_lt hsum]
  have hcleared := (frees_pmmMarkRegionFree s base length).bits
  simp only [hend] at hcleared
  rw [StartRounded, or_iff_not_imp_left]
  constructor
  · rintro h hwrap p hp hlow
    obtain ⟨⟨hstart, hhigh⟩, hout⟩ := (cleared_not_within hsum).mpr ⟨Nat.le_of_not_lt hwrap, hlow⟩
    rw [← Bool.not_eq_true, ← h p hout, hcleared]
    rintro ⟨-, hnot⟩
    exact hnot ⟨hstart, hhigh, hp⟩
  · rintro hfree p hout
    rw [Bool.eq_iff_iff, hcleared]
    constructor
    · exact And.left
    · intro hold
      refine ⟨hold, ?_⟩
      rintro ⟨hlow, hhigh, hp⟩
      obtain ⟨hwrap, hp'⟩ := (cleared_not_within hsum).mp ⟨⟨hlow, hhigh⟩, hout⟩
      have hclear := hfree (Nat.not_lt_of_le hwrap) p hp hp'
      rw [hold] at hclear
      cases hclear

/-- **When region marking rounds the safe way.** -/
theorem rounds_safely_iff (s : State) (hsum : base.toNat + length.toNat < 2 ^ 64) :
    RoundsSafely s base length ↔ TailMarked s base length ∧ StartRounded s base := by
  rw [← used_iff hsum, ← freeOnly_iff hsum]
  constructor
  · intro h
    exact ⟨h.used, h.freeOnly⟩
  · rintro ⟨hused, hfree⟩
    exact ⟨hused, fun p => usedOnly, hfree⟩

end Regions

/-! ## Two pages -/

/-- Two free pages. -/
def freePair : State :=
  { bitmap := fun _ => 0#8, totalPages := 2, usedPages := 0, totalMemory := 0 }

/-- One page, from a page boundary on. -/
theorem rounds_safely_aligned : RoundsSafely freePair 0x1000#64 0x1000#64 :=
  (rounds_safely_iff freePair (by decide)).mpr
    ⟨by
      rw [TailMarked, if_pos (by decide)]
      rintro ⟨-, hshort⟩
      exact absurd hshort (by decide), Or.inl (by decide)⟩

/-- 4096 bytes from the middle of page 0 on: page 1 stays free. -/
theorem tail_page_missed : ¬ ∀ (s : State) (base length : Word),
    base.toNat + length.toNat < 2 ^ 64 → RoundsSafely s base length := by
  intro h
  have hused := (h freePair 0x800#64 0x1000#64 (by decide)).used 1 (by decide)
    ⟨0x1000, by decide, by decide, by decide⟩
  exact absurd hused (by decide)

end VectorForth.Pmm
