import VectorForth.Lib.LowestFirst
import VectorForth.Memory.PmmFirstFit
import VectorForth.Memory.PmmReserved
import VectorForth.Memory.BootTables

/-!
# The physical memory manager as the supplier of page tables

`pmm_alloc_page` takes the least of the free pages that its search looks at. Once
the pages below 512 KB are reserved it can supply page tables: it never returns
page 0, which `vmm_get_or_create_table` would take for a failure.
-/

namespace VectorForth.Pmm

open LowestFirst

/-- The free pages that `bitmap_find_free` looks at. -/
def freePages (s : State) : Finset ℕ :=
  (Finset.range (s.totalPages / 32 * 32)).filter fun p => bitmapTest s p = false

section Free

variable {s t : State} {addr p : Nat}

theorem mem_freePages : p ∈ freePages s ↔ p < s.totalPages / 32 * 32 ∧ bitmapTest s p = false := by
  rw [freePages, Finset.mem_filter, Finset.mem_range]

/-- **`pmm_alloc_page` takes the least free page.** -/
theorem pmmAllocPage_takes (h : pmmAllocPage s = some (addr, t)) :
    t.totalPages = s.totalPages ∧ (∀ p, bitmapTest s p = true → bitmapTest t p = true) ∧
      ∃ page, addr = page * pageSize ∧ page ∈ freePages s ∧ (∀ q ∈ freePages s, page ≤ q) ∧
        freePages t = (freePages s).erase page := by
  have hword : ∃ page, bitmapFindFree s = some page ∧ addr = page * pageSize := by
    unfold pmmAllocPage at h
    cases hfind : bitmapFindFree s with
    | none => simp [hfind] at h
    | some page =>
        simp only [hfind, Option.some.injEq, Prod.mk.injEq] at h
        exact ⟨page, rfl, h.1.symm⟩
  obtain ⟨page, haddr, hlt, hfree, hlow, hmarks⟩ := pmmAllocPage_spec h
  obtain ⟨page', hfind, haddr'⟩ := hword
  obtain rfl : page = page' := by
    rw [haddr] at haddr'
    exact Nat.eq_of_mul_eq_mul_right (by decide) haddr'
  refine ⟨hmarks.total, fun p hp => (hmarks.bits p).mpr (Or.inl hp), page, haddr, ?_, ?_, ?_⟩
  · exact mem_freePages.mpr ⟨bitmapFindFree_word hfind, hfree⟩
  · intro q hq
    by_contra hless
    have hused := hlow q (by omega)
    rw [(mem_freePages.mp hq).2] at hused
    cases hused
  · ext q
    rw [Finset.mem_erase, mem_freePages, mem_freePages, hmarks.total, ← Bool.not_eq_true,
      ← Bool.not_eq_true, hmarks.bits]
    tauto

theorem pmmAllocPage_some (h : (freePages s).Nonempty) : ∃ addr t, pmmAllocPage s = some (addr, t) := by
  obtain ⟨p, hp⟩ := h
  obtain ⟨hlt, hfree⟩ := mem_freePages.mp hp
  have hsome := bitmapFindFree_isSome (s := s) (q := p) (by omega) hfree
  rw [← pmmAllocPage_isSome] at hsome
  obtain ⟨r, hr⟩ := Option.isSome_iff_exists.mp hsome
  exact ⟨r.1, r.2, hr⟩

end Free

/-! ## The pool -/

/-- The allocator once `pmm_init` is done: at most 4 GB, and the first 512 KB are
reserved. -/
structure Pool where
  pmm : State
  small : pmm.totalPages ≤ 2 ^ 20
  reserved : ∀ p < 0x80, p < pmm.totalPages → bitmapTest pmm p = true

/-- The free pages of the pool. -/
def Pool.free (a : Pool) : Finset ℕ := freePages a.pmm

/-- `pmm_alloc_page`. -/
def Pool.allocPage (a : Pool) : Option (Word × Pool) :=
  match h : pmmAllocPage a.pmm with
  | none => none
  | some (addr, pmm) =>
      have htakes := pmmAllocPage_takes h
      some (BitVec.ofNat 64 addr,
        { pmm := pmm
          small := htakes.1 ▸ a.small
          reserved := fun p hp hlt => htakes.2.1 p (a.reserved p hp (htakes.1 ▸ hlt)) })

theorem booted_small (old : Nat → BitVec 8) (mmap : List E820Entry) :
    (Pmm.booted old mmap).totalPages ≤ 2 ^ 20 := by
  rw [totalPages_booted]
  have hmax : pmmTotalMemory mmap ≤ pmmMaxMemory := by
    unfold pmmTotalMemory
    dsimp only
    split <;> omega
  rw [pmmMaxMemory] at hmax
  rw [pageSize]
  omega

theorem booted_reserved (old : Nat → BitVec 8) (mmap : List E820Entry) :
    ∀ p < 0x80, p < (Pmm.booted old mmap).totalPages →
      bitmapTest (Pmm.booted old mmap) p = true := by
  intro p hp hlt
  rw [bitmapTest_booted hlt]
  refine Or.inr (Or.inl ?_)
  unfold Reserved
  omega

/-- The pool that `pmm_init` and `heap_init` leave, for any memory map. -/
def Pool.booted (old : Nat → BitVec 8) (mmap : List E820Entry) : Pool where
  pmm := Pmm.booted old mmap
  small := booted_small old mmap
  reserved := booted_reserved old mmap

theorem Pool.booted_pmm (old : Nat → BitVec 8) (mmap : List E820Entry) :
    (Pool.booted old mmap).pmm = Pmm.booted old mmap := by
  dsimp only [Pool.booted]

/-- The low pages that are free at first on the sample machine, and the high ones. -/
theorem Pool.booted_free (old : Nat → BitVec 8) {p : Nat}
    (hp : (0x201 ≤ p ∧ p < 0x300) ∨ (0x400 ≤ p ∧ p < 0x8000)) :
    p ∈ (Pool.booted old sampleMap).free := by
  have htotal := totalPages_sampleMap old
  have hbytes : bitmapBytes 0x8000 = 4096 := by decide
  have hcovers : ∃ e ∈ sampleMap, e.Frees p := by
    have hlow : (0x100000#64 + 4095#64).toNat / pageSize = 0x100 := by decide
    have hhigh : (0x100000#64 + 0x7F00000#64).toNat / pageSize = 0x8000 := by decide
    refine ⟨⟨0x100000#64, 0x7F00000#64, e820Usable⟩, by simp [sampleMap], rfl, ?_, ?_⟩
    · rw [hlow]
      omega
    · rw [hhigh]
      omega
  have hreserved : ¬ Reserved 0x8000 p := by
    rw [Reserved, hbytes, pageSize]
    omega
  rw [Pool.free, Pool.booted_pmm, mem_freePages, htotal]
  refine ⟨by omega, ?_⟩
  rw [← Bool.not_eq_true, bitmapTest_booted (by omega), htotal]
  rintro (hnone | hres | hheap)
  · exact hnone hcovers
  · exact hreserved hres
  · omega

section Pool

variable {a a' : Pool} {t : Word} {p : Nat}

theorem Pool.free_range (hp : p ∈ a.free) : 0x80 ≤ p ∧ p < 2 ^ 20 := by
  obtain ⟨hlt, hfree⟩ := mem_freePages.mp hp
  have hsmall := a.small
  refine ⟨?_, by omega⟩
  by_contra hlow
  rw [a.reserved p (by omega) (by omega)] at hfree
  cases hfree

theorem Pool.allocPage_takes (h : a.allocPage = some (t, a')) :
    ∃ page, t.toNat = page * 4096 ∧ Takes a.free [page] a'.free := by
  unfold Pool.allocPage at h
  split at h
  · cases h
  · rename_i addr pmm halloc
    obtain ⟨rfl, rfl⟩ := Prod.mk.inj (Option.some.inj h)
    obtain ⟨-, -, page, rfl, hpage, hleast, hrest⟩ := pmmAllocPage_takes halloc
    obtain ⟨-, hlt⟩ := Pool.free_range (a := a) hpage
    refine ⟨page, ?_, ?_⟩
    · rw [pageSize, BitVec.toNat_ofNat]
      omega
    · rw [show Pool.free ⟨pmm, _, _⟩ = freePages pmm from rfl, hrest]
      exact Takes.single hpage hleast

theorem Pool.allocPage_some (h : a.free.Nonempty) : ∃ t a', a.allocPage = some (t, a') := by
  obtain ⟨addr, pmm, halloc⟩ := pmmAllocPage_some h
  unfold Pool.allocPage
  split
  · rename_i hnone
    rw [hnone] at halloc
    cases halloc
  · exact ⟨_, _, rfl⟩

/-- A page that is not free for the search. -/
def Pool.used (a : Pool) (t : Word) : Prop := t.toNat / 4096 ∉ a.free

/-- The pool supplies page tables. -/
theorem Pool.supplies : Vmm.Supplies Pool.allocPage Pool.used := by
  constructor
  case page =>
    intro a t a' h
    obtain ⟨page, ht, htakes⟩ := Pool.allocPage_takes h
    obtain ⟨hlow, hhigh⟩ := Pool.free_range htakes.one.1
    refine ⟨by omega, by omega, ?_⟩
    rintro rfl
    rw [BitVec.toNat_ofNat] at ht
    omega
  case fresh =>
    intro a t a' h hused
    obtain ⟨page, ht, htakes⟩ := Pool.allocPage_takes h
    refine hused ?_
    rw [ht, Nat.mul_div_cancel _ (by decide)]
    exact htakes.one.1
  case taken =>
    intro a t a' h
    obtain ⟨page, ht, htakes⟩ := Pool.allocPage_takes h
    unfold Pool.used
    rw [htakes.one.2, ht, Nat.mul_div_cancel _ (by decide)]
    exact Finset.notMem_erase _ _
  case mono =>
    intro a t a' u h hused hfree
    obtain ⟨page, ht, htakes⟩ := Pool.allocPage_takes h
    rw [htakes.one.2] at hfree
    exact hused (Finset.mem_of_mem_erase hfree)

/-- The boot tables are in reserved pages. -/
theorem Pool.bootTables_used (a : Pool) : ∀ e ∈ Vmm.bootTables, a.used e.2 := by
  have hlow : ∀ e ∈ Vmm.bootTables, e.2.toNat / 4096 < 0x80 := by decide +kernel
  intro e he hfree
  have hpage := hlow e he
  have hrange := (Pool.free_range hfree).1
  omega

end Pool

end VectorForth.Pmm
