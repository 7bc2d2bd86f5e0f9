import VectorForth.Memory.PmmOwnership

/-!
# The firmware's memory map

`pmm_init` frees the pages inside usable entries. Entries of other types are not
looked at, so a page that one of them shares with a usable entry is freed as well;
and the 64-bit sums of an entry at the end of the address space wrap round to the
first pages.
-/

namespace VectorForth.Pmm

/-- The bytes of an entry. -/
def E820Entry.Covers (e : E820Entry) (x : Nat) : Prop :=
  e.base.toNat ≤ x ∧ x < e.base.toNat + e.length.toNat

def InPage (p x : Nat) : Prop := p * pageSize ≤ x ∧ x < (p + 1) * pageSize

/-- All bytes of the page are in usable entries and none is in another. -/
def UsablePage (mmap : List E820Entry) (p : Nat) : Prop :=
  ∀ x, InPage p x → (∃ e ∈ mmap, e.type = e820Usable ∧ e.Covers x) ∧
    ∀ e ∈ mmap, e.type ≠ e820Usable → ¬ e.Covers x

/-- The page is inside the entry, which ends in the address space. -/
def E820Entry.Inside (e : E820Entry) (p : Nat) : Prop :=
  e.base.toNat ≤ p * pageSize ∧ (p + 1) * pageSize ≤ e.base.toNat + e.length.toNat ∧
    e.base.toNat + e.length.toNat < 2 ^ 64

/-- The entry is based in the last bytes of the address space, and its end wraps beyond
the page. -/
def E820Entry.WrapsTo (e : E820Entry) (p : Nat) : Prop :=
  2 ^ 64 ≤ e.base.toNat + 4095 ∧
    p < (e.base.toNat + e.length.toNat) % 2 ^ 64 / pageSize

/-- `pmm_init` leaves only usable pages free. -/
def FreesUsable (old : Nat → BitVec 8) (mmap : List E820Entry) : Prop :=
  ∀ p < (pmmInit old mmap).totalPages, bitmapTest (pmmInit old mmap) p = false → UsablePage mmap p

/-- No entry of another type shares an unreserved page with a usable entry, and none wraps
to a page that is not usable. -/
structure Sane (mmap : List E820Entry) : Prop where
  disjoint : ∀ e ∈ mmap, e.type = e820Usable → ∀ p < pmmTotalMemory mmap / pageSize,
    ¬ Reserved (pmmTotalMemory mmap / pageSize) p → e.Inside p →
      ∀ f ∈ mmap, f.type ≠ e820Usable → ∀ x, InPage p x → ¬ f.Covers x
  wraps : ∀ e ∈ mmap, e.type = e820Usable → ∀ p < pmmTotalMemory mmap / pageSize,
    ¬ Reserved (pmmTotalMemory mmap / pageSize) p → e.WrapsTo p → UsablePage mmap p

section Firmware

variable {old : Nat → BitVec 8} {mmap : List E820Entry} {e : E820Entry} {p : Nat}

/-- The pages that an entry frees are those inside it, but for the wrap. -/
theorem frees_iff : e.Frees p ↔ e.type = e820Usable ∧ (e.Inside p ∨ e.WrapsTo p) := by
  unfold E820Entry.Frees E820Entry.Inside E820Entry.WrapsTo
  have hbase := e.base.isLt
  have hlength := e.length.isLt
  rw [BitVec.toNat_add, BitVec.toNat_add, BitVec.toNat_ofNat, pageSize]
  refine and_congr_right fun _ => ?_
  rcases Nat.lt_or_ge (e.base.toNat + 4095) (2 ^ 64) with hlow | hhigh
  · rcases Nat.lt_or_ge (e.base.toNat + e.length.toNat) (2 ^ 64) with hend | hwrap
    · omega
    · -- the end wraps below the base, so the loop does not run
      omega
  · omega

theorem E820Entry.Inside.covers (h : e.Inside p) {x : Nat} (hx : InPage p x) : e.Covers x := by
  obtain ⟨hlow, hhigh, -⟩ := h
  obtain ⟨hx₁, hx₂⟩ := hx
  exact ⟨by omega, by omega⟩

theorem free_iff (hp : p < (pmmInit old mmap).totalPages) :
    bitmapTest (pmmInit old mmap) p = false ↔
      ¬ Reserved (pmmInit old mmap).totalPages p ∧ ∃ e ∈ mmap, e.Frees p := by
  rw [← Bool.not_eq_true, bitmapTest_pmmInit hp, not_or, not_not, and_comm]

/-- **`pmm_init` frees usable memory only, exactly for sane maps.** -/
theorem freesUsable_iff (old : Nat → BitVec 8) (mmap : List E820Entry) :
    FreesUsable old mmap ↔ Sane mmap := by
  have htotal := totalPages_pmmInit old mmap
  constructor
  · intro h
    have hfreed : ∀ e ∈ mmap, ∀ p < pmmTotalMemory mmap / pageSize,
        ¬ Reserved (pmmTotalMemory mmap / pageSize) p → e.Frees p → UsablePage mmap p := by
      intro e he p hp hres hfrees
      rw [← htotal] at hp hres
      exact h p hp ((free_iff hp).mpr ⟨hres, e, he, hfrees⟩)
    constructor
    case disjoint =>
      intro e he htype p hp hres hin f hf hother x hx
      exact (hfreed e he p hp hres (frees_iff.mpr ⟨htype, Or.inl hin⟩) x hx).2 f hf hother
    case wraps =>
      intro e he htype p hp hres hwrap
      exact hfreed e he p hp hres (frees_iff.mpr ⟨htype, Or.inr hwrap⟩)
  · intro h p hp hfree
    obtain ⟨hres, e, he, hfrees⟩ := (free_iff hp).mp hfree
    rw [htotal] at hp hres
    obtain ⟨htype, hin | hwrap⟩ := frees_iff.mp hfrees
    · intro x hx
      exact ⟨⟨e, he, htype, hin.covers hx⟩, fun f hf hother =>
        h.disjoint e he htype p hp hres hin f hf hother x hx⟩
    · exact h.wraps e he htype p hp hres hwrap

end Firmware

/-- 128 MB with a reserved megabyte inside the second usable entry. -/
def overlapMap : List E820Entry :=
  [⟨0x0#64, 0x9F000#64, e820Usable⟩, ⟨0x100000#64, 0x7F00000#64, e820Usable⟩,
    ⟨0x4000000#64, 0x100000#64, 2#32⟩]

/-- Its first page is free after `pmm_init`. -/
theorem reserved_page_freed : ¬ FreesUsable (fun _ => 0#8) overlapMap := by
  intro h
  have hmemory : pmmTotalMemory overlapMap = 0x8000000 := by decide
  have htotal : (pmmInit (fun _ => 0#8) overlapMap).totalPages = 0x8000 := by
    rw [totalPages_pmmInit, hmemory, pageSize]
  have hres : ¬ Reserved 0x8000 0x4000 := by
    have hbytes : bitmapBytes 0x8000 = 0x1000 := by decide
    rw [Reserved, hbytes, pageSize]
    omega
  have hfrees : ∃ e ∈ overlapMap, e.Frees 0x4000 :=
    ⟨_, List.mem_cons_of_mem _ (List.mem_cons_self ..), rfl, by decide, by decide⟩
  have hp : 0x4000 < (pmmInit (fun _ => 0#8) overlapMap).totalPages := by
    rw [htotal]
    decide
  have hfree : bitmapTest (pmmInit (fun _ => 0#8) overlapMap) 0x4000 = false := by
    rw [free_iff hp, htotal]
    exact ⟨hres, hfrees⟩
  have husable := (h 0x4000 hp hfree 0x4000000 ⟨by decide, by decide⟩).2
  exact husable ⟨0x4000000#64, 0x100000#64, 2#32⟩ (by decide) (by decide) ⟨by decide, by decide⟩

end VectorForth.Pmm
