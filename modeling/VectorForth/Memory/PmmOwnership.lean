import VectorForth.Memory.PmmSearch

/-!
# Runs of the physical allocator

Two kinds of run. An unrestricted run takes the six public operations in any
order with any arguments, and the counter stays exact. A client run carries the
ghost list of live allocations: clients release only pages they hold and never
call `pmm_mark_region_free`. In a client run no page is held twice and no page
reserved by `pmm_init` is ever handed out.
-/

namespace VectorForth.Pmm

open LabelledRun

/-! ## The state after `pmm_init` -/

theorem totalPages_pmmAllUsed_le (old : Nat → BitVec 8) (mmap : List E820Entry) :
    (pmmAllUsed old mmap).totalPages ≤ maxPages := by
  have htotal : pmmTotalMemory mmap ≤ pmmMaxMemory := by
    unfold pmmTotalMemory
    simp only
    split <;> omega
  exact Nat.div_le_div_right htotal

/-- The `memset` covers the byte of every existing page. -/
theorem bitmapTest_pmmAllUsed {old : Nat → BitVec 8} {mmap : List E820Entry} {p : Nat}
    (hp : p < (pmmAllUsed old mmap).totalPages) : bitmapTest (pmmAllUsed old mmap) p = true := by
  rw [bitmapTest_eq]
  have hbyte : p / 8 < bitmapBytes (pmmAllUsed old mmap).totalPages := by
    unfold bitmapBytes
    split <;> omega
  have hbits : (pmmAllUsed old mmap).bitmap (p / 8) = 0xFF#8 := if_pos hbyte
  rw [Bitmap.bitAt, hbits]
  exact Bitmap.getLsbD_full (Nat.mod_lt p (by decide))

theorem accounted_pmmAllUsed (old : Nat → BitVec 8) (mmap : List E820Entry) :
    Accounted (pmmAllUsed old mmap) := by
  have hbound := totalPages_pmmAllUsed_le old mmap
  have hall : usedSet (pmmAllUsed old mmap) = Finset.range (pmmAllUsed old mmap).totalPages := by
    ext p
    rw [mem_usedSet, Finset.mem_range]
    exact ⟨fun h => h.1, fun h => ⟨h, bitmapTest_pmmAllUsed h⟩⟩
  refine ⟨hbound, ?_⟩
  rw [hall, Finset.card_range]
  exact Nat.mod_eq_of_lt (Nat.lt_of_le_of_lt hbound (by decide))

/-- The pages a usable entry lets `pmm_init` free. -/
def E820Entry.Frees (e : E820Entry) (p : Nat) : Prop :=
  e.type = e820Usable ∧ (e.base + 4095#64).toNat / pageSize ≤ p ∧
    p < (e.base + e.length).toNat / pageSize

theorem frees_markUsable (s : State) (mmap : List E820Entry) :
    Frees s (markUsable s mmap) (fun p => (∃ e ∈ mmap, e.Frees p) ∧ p < s.totalPages) := by
  induction mmap generalizing s with
  | nil => exact ⟨rfl, fun p => ⟨fun h => ⟨h, by simp⟩, fun h => h.1⟩, id⟩
  | cons e mmap ih =>
      have hhead : Frees s
          (if e.type = e820Usable then pmmMarkRegionFree s e.base e.length else s)
          (fun p => e.Frees p ∧ p < s.totalPages) := by
        unfold E820Entry.Frees
        split
        · rename_i husable
          exact (frees_pmmMarkRegionFree s e.base e.length).congr fun p => by tauto
        · rename_i hnot
          exact ⟨rfl, fun p => ⟨fun h => ⟨h, by tauto⟩, fun h => h.1⟩, id⟩
      refine (hhead.trans (ih _)).congr fun p => ?_
      rw [hhead.total]
      simp only [List.mem_cons, or_and_right, exists_or, exists_eq_left]

/-- The pages `pmm_init` reserves last, whatever the memory map says. -/
def Reserved (totalPages p : Nat) : Prop :=
  p < 0x80 ∨ (0x100 ≤ p ∧ p < 0x200) ∨
    (0x200 ≤ p ∧ p < 0x200 + (bitmapBytes totalPages + pageSize - 1) / pageSize)

theorem marks_reserveCritical {s : State} (hs : s.totalPages ≤ maxPages) :
    Marks s (reserveCritical s) (fun p => Reserved s.totalPages p ∧ p < s.totalPages) := by
  have hmax : maxPages = 1048576 := by decide
  have h₁ := marks_pmmMarkRegionUsed s 0x0#64 0x80000#64
  have h₂ := marks_pmmMarkRegionUsed (pmmMarkRegionUsed s 0x0#64 0x80000#64)
    0x100000#64 0x100000#64
  set pages := (bitmapBytes s.totalPages + pageSize - 1) / pageSize with hpages
  have h₃ := marks_pmmMarkRegionUsed
    (pmmMarkRegionUsed (pmmMarkRegionUsed s 0x0#64 0x80000#64) 0x100000#64 0x100000#64)
    (BitVec.ofNat 64 pmmBitmapPhys) (BitVec.ofNat 64 (pages * pageSize))
  have hsmall : pages ≤ 64 := by
    have hbytes : bitmapBytes s.totalPages ≤ 131073 := by
      unfold bitmapBytes
      split <;> omega
    rw [hpages, pageSize]
    omega
  have hround : (BitVec.ofNat 64 (pages * pageSize) + 4095#64).toNat / pageSize = pages := by
    rw [BitVec.toNat_add, BitVec.toNat_ofNat, BitVec.toNat_ofNat, pageSize]
    omega
  have hbase₁ : (0x0#64).toNat / pageSize = 0 := by decide
  have hlen₁ : (0x80000#64 + 4095#64).toNat / pageSize = 0x80 := by decide
  have hbase₂ : (0x100000#64).toNat / pageSize = 0x100 := by decide
  have hlen₂ : (0x100000#64 + 4095#64).toNat / pageSize = 0x100 := by decide
  have hbase₃ : (BitVec.ofNat 64 pmmBitmapPhys).toNat / pageSize = 0x200 := by decide
  refine ((h₁.trans h₂).trans h₃).congr fun p => ?_
  rw [hbase₁, hlen₁, hbase₂, hlen₂, hbase₃, hround, h₂.total, h₁.total]
  unfold Reserved
  omega

theorem totalPages_pmmInit (old : Nat → BitVec 8) (mmap : List E820Entry) :
    (pmmInit old mmap).totalPages = pmmTotalMemory mmap / pageSize := by
  have hfree := frees_markUsable (pmmAllUsed old mmap) mmap
  have hbound := (hfree.accounted (accounted_pmmAllUsed old mmap)).bounded
  exact (marks_reserveCritical hbound).total.trans hfree.total

/-- A page is free after `pmm_init` exactly when some usable entry covers it
and it is not reserved. -/
theorem bitmapTest_pmmInit {old : Nat → BitVec 8} {mmap : List E820Entry} {p : Nat}
    (hp : p < (pmmInit old mmap).totalPages) :
    bitmapTest (pmmInit old mmap) p = true ↔
      ¬ (∃ e ∈ mmap, e.Frees p) ∨ Reserved (pmmInit old mmap).totalPages p := by
  have hfree := frees_markUsable (pmmAllUsed old mmap) mmap
  have hmark := marks_reserveCritical (hfree.accounted (accounted_pmmAllUsed old mmap)).bounded
  have htotal : (pmmInit old mmap).totalPages = (pmmAllUsed old mmap).totalPages :=
    hmark.total.trans hfree.total
  rw [htotal] at hp ⊢
  unfold pmmInit
  rw [hmark.bits, hfree.bits, hfree.total]
  simp only [bitmapTest_pmmAllUsed hp, hp, true_and, and_true]

theorem accounted_pmmInit (old : Nat → BitVec 8) (mmap : List E820Entry) :
    Accounted (pmmInit old mmap) := by
  have hfree := frees_markUsable (pmmAllUsed old mmap) mmap
  have hs := hfree.accounted (accounted_pmmAllUsed old mmap)
  exact (marks_reserveCritical hs.bounded).accounted hs

/-! ## A sample machine -/

/-- A 128 MB machine: conventional memory up to `0x9F000`, the rest from 1 MB. -/
def sampleMap : List E820Entry :=
  [⟨0x0#64, 0x9F000#64, e820Usable⟩, ⟨0x100000#64, 0x7F00000#64, e820Usable⟩]

theorem pmmTotalMemory_sampleMap : pmmTotalMemory sampleMap = 0x8000000 := by decide

theorem sampleMap_frees : ∃ e ∈ sampleMap, e.Frees 0x80 :=
  ⟨_, List.mem_cons_self, rfl, by decide, by decide⟩

theorem pmmAllocPage_sampleMap (old : Nat → BitVec 8) :
    ∃ addr t, pmmAllocPage (pmmInit old sampleMap) = some (addr, t) := by
  have htotal : (pmmInit old sampleMap).totalPages = 0x8000 := by
    rw [totalPages_pmmInit, pmmTotalMemory_sampleMap, pageSize]
  have hres : ¬ Reserved (pmmInit old sampleMap).totalPages 0x80 := by
    unfold Reserved
    omega
  have hfree : bitmapTest (pmmInit old sampleMap) 0x80 = false := by
    rw [← Bool.not_eq_true, bitmapTest_pmmInit (by omega)]
    simp [sampleMap_frees, hres]
  obtain ⟨page, hpage⟩ := Option.isSome_iff_exists.mp
    (bitmapFindFree_isSome (q := 0x80) (by omega) hfree)
  refine ⟨page * pageSize, takePage (pmmInit old sampleMap) page, ?_⟩
  rw [pmmAllocPage, hpage]

/-! ## Unrestricted runs -/

inductive Op
  | allocPage
  | allocPages (count : Word)
  | freePage (physAddr : Word)
  | freePages (physAddr count : Word)
  | markRegionUsed (base length : Word)
  | markRegionFree (base length : Word)

/-- The state an operation leaves; `none` when it panics. -/
def Op.exec (s : State) : Op → Option State
  | .allocPage => (pmmAllocPage s).map Prod.snd
  | .allocPages count => (pmmAllocPages s count).map Prod.snd
  | .freePage physAddr => some (pmmFreePage s physAddr)
  | .freePages physAddr count => some (pmmFreePages s physAddr count)
  | .markRegionUsed base length => some (pmmMarkRegionUsed s base length)
  | .markRegionFree base length => some (pmmMarkRegionFree s base length)

def Step (s : State) (op : Op) (t : State) : Prop := op.exec s = some t

theorem Accounted.step {s t : State} {op : Op} (hs : Accounted s) (h : Step s op t) :
    Accounted t := by
  unfold Step Op.exec at h
  cases op with
  | allocPage =>
      obtain ⟨⟨addr, u⟩, halloc, rfl⟩ := Option.map_eq_some_iff.mp h
      obtain ⟨_, _, _, _, _, hmark⟩ := pmmAllocPage_spec halloc
      exact hmark.accounted hs
  | allocPages count =>
      obtain ⟨⟨addr, u⟩, halloc, rfl⟩ := Option.map_eq_some_iff.mp h
      obtain ⟨_, _, _, _, hmark⟩ := pmmAllocPages_spec halloc
      exact hmark.accounted hs
  | freePage physAddr =>
      cases h
      exact (frees_pmmFreePage s physAddr).accounted hs
  | freePages physAddr count =>
      cases h
      exact (frees_pmmFreePages s physAddr count).accounted hs
  | markRegionUsed base length =>
      cases h
      exact (marks_pmmMarkRegionUsed s base length).accounted hs
  | markRegionFree base length =>
      cases h
      exact (frees_pmmMarkRegionFree s base length).accounted hs

theorem accounted_run {old : Nat → BitVec 8} {mmap : List E820Entry} {ops : List Op} {t : State}
    (hrun : Run Step (pmmInit old mmap) ops t) : Accounted t :=
  hrun.invariant (fun _ _ _ hs h => Accounted.step hs h) (accounted_pmmInit old mmap)

/-- The pages below `pmm_total_pages` whose bit is clear. -/
def freeSet (s : State) : Finset Nat :=
  (Finset.range s.totalPages).filter fun p => bitmapTest s p = false

theorem card_freeSet_add (s : State) : (freeSet s).card + (usedSet s).card = s.totalPages := by
  have hsplit := Finset.card_filter_add_card_filter_not (s := Finset.range s.totalPages)
    (fun p => bitmapTest s p = true)
  simp only [Bool.not_eq_true, Finset.card_range] at hsplit
  unfold freeSet usedSet
  omega

theorem Accounted.toNat_pmmGetFreeMemory {s : State} (h : Accounted s) :
    (pmmGetFreeMemory s).toNat = (freeSet s).card * pageSize := by
  have hsum := card_freeSet_add s
  have hb := h.bounded
  have hmax : maxPages = 1048576 := by decide
  have hsize : pageSize = 4096 := rfl
  have hcount := h.exact_count
  unfold pmmGetFreeMemory
  have hdiff : (BitVec.ofNat 64 s.totalPages - s.usedPages).toNat = (freeSet s).card := by
    rw [BitVec.toNat_sub, BitVec.toNat_ofNat, hcount]
    omega
  rw [BitVec.toNat_mul, hdiff, BitVec.toNat_ofNat, hsize]
  exact Nat.mod_eq_of_lt (by omega)

/-! ## Client runs -/

/-- The allocator with the ghost list of live allocations: for each, the pages
its client has not yet released. -/
structure Client where
  pmm : State
  live : List (Finset Nat)

def Client.Holds (c : Client) (p : Nat) : Prop := ∃ A ∈ c.live, p ∈ A

/-- The pages named by `pmm_free_pages(physAddr, count)`. -/
def freedPages (physAddr count : Word) : Finset Nat :=
  (Finset.range count.toNat).image fun i => (physAddr.toNat / pageSize + i) % 2 ^ 64

inductive ClientStep : Client → Op → Client → Prop
  | allocPage {c : Client} {addr : Nat} {t : State} :
      pmmAllocPage c.pmm = some (addr, t) →
        ClientStep c .allocPage ⟨t, {addr / pageSize} :: c.live⟩
  | allocPages {c : Client} {count : Word} {addr : Nat} {t : State} :
      pmmAllocPages c.pmm count = some (addr, t) →
        ClientStep c (.allocPages count)
          ⟨t, Finset.Ico (addr / pageSize) (addr / pageSize + count.toNat) :: c.live⟩
  | freePage {c : Client} {physAddr : Word} :
      c.Holds (physAddr.toNat / pageSize) →
        ClientStep c (.freePage physAddr)
          ⟨pmmFreePage c.pmm physAddr,
            c.live.map fun A => A.erase (physAddr.toNat / pageSize)⟩
  | freePages {c : Client} {physAddr count : Word} :
      (∀ p ∈ freedPages physAddr count, c.Holds p) →
        ClientStep c (.freePages physAddr count)
          ⟨pmmFreePages c.pmm physAddr count, c.live.map fun A => A \ freedPages physAddr count⟩
  | markRegionUsed {c : Client} {base length : Word} :
      ClientStep c (.markRegionUsed base length)
        ⟨pmmMarkRegionUsed c.pmm base length, c.live⟩

/-- The ownership invariant, relative to the state `init` that `pmm_init` left. -/
structure Owned (init : State) (c : Client) : Prop where
  total : c.pmm.totalPages = init.totalPages
  disjoint : c.live.Pairwise Disjoint
  used : ∀ A ∈ c.live, ∀ p ∈ A, p < init.totalPages ∧ bitmapTest c.pmm p = true
  fresh : ∀ A ∈ c.live, ∀ p ∈ A, bitmapTest init p = false
  reserved : ∀ p < init.totalPages, bitmapTest init p = true → bitmapTest c.pmm p = true

section ClientSteps

variable {init : State} {c : Client}

/-- Handing out pages that were free keeps ownership disjoint. -/
theorem Owned.alloc (h : Owned init c) {t : State} {B : Finset Nat}
    (hmark : Marks c.pmm t (· ∈ B))
    (hfree : ∀ p ∈ B, p < c.pmm.totalPages ∧ bitmapTest c.pmm p = false) :
    Owned init ⟨t, B :: c.live⟩ := by
  have hnew : ∀ p ∈ B, p < init.totalPages ∧ bitmapTest init p = false := by
    intro p hp
    obtain ⟨hlt, hbit⟩ := hfree p hp
    rw [h.total] at hlt
    refine ⟨hlt, ?_⟩
    by_contra hres
    have := h.reserved p hlt (by simpa using hres)
    simp [hbit] at this
  refine ⟨hmark.total.trans h.total, ?_, ?_, ?_, ?_⟩
  · refine List.pairwise_cons.mpr ⟨?_, h.disjoint⟩
    intro A hA
    rw [Finset.disjoint_left]
    intro p hpB hpA
    have hused := (h.used A hA p hpA).2
    simp [(hfree p hpB).2] at hused
  · intro A hA p hp
    rcases List.mem_cons.mp hA with rfl | hA
    · exact ⟨(hnew p hp).1, (hmark.bits p).mpr (Or.inr hp)⟩
    · obtain ⟨hlt, hbit⟩ := h.used A hA p hp
      exact ⟨hlt, (hmark.bits p).mpr (Or.inl hbit)⟩
  · intro A hA p hp
    rcases List.mem_cons.mp hA with rfl | hA
    · exact (hnew p hp).2
    · exact h.fresh A hA p hp
  · intro p hp hbit
    exact (hmark.bits p).mpr (Or.inl (h.reserved p hp hbit))

/-- Releasing held pages keeps ownership disjoint. -/
theorem Owned.release (h : Owned init c) {t : State} {B : Finset Nat}
    (hfrees : Frees c.pmm t (fun p => p ∈ B ∧ p < c.pmm.totalPages))
    (hheld : ∀ p ∈ B, c.Holds p) :
    Owned init ⟨t, c.live.map fun A => A \ B⟩ := by
  refine ⟨hfrees.total.trans h.total, ?_, ?_, ?_, ?_⟩
  · rw [List.pairwise_map]
    exact h.disjoint.imp fun hAB => Finset.disjoint_of_subset_left Finset.sdiff_subset
      (Finset.disjoint_of_subset_right Finset.sdiff_subset hAB)
  · intro A' hA' p hp
    obtain ⟨A, hA, rfl⟩ := List.mem_map.mp hA'
    obtain ⟨hpA, hpB⟩ := Finset.mem_sdiff.mp hp
    obtain ⟨hlt, hbit⟩ := h.used A hA p hpA
    exact ⟨hlt, (hfrees.bits p).mpr ⟨hbit, fun hB => hpB hB.1⟩⟩
  · intro A' hA' p hp
    obtain ⟨A, hA, rfl⟩ := List.mem_map.mp hA'
    exact h.fresh A hA p (Finset.mem_sdiff.mp hp).1
  · intro p hp hbit
    refine (hfrees.bits p).mpr ⟨h.reserved p hp hbit, ?_⟩
    rintro ⟨hpB, _⟩
    obtain ⟨A, hA, hpA⟩ := hheld p hpB
    have := h.fresh A hA p hpA
    simp [hbit] at this

theorem Owned.step (h : Owned init c) {op : Op} {c' : Client} (hstep : ClientStep c op c') :
    Owned init c' := by
  have hpos : 0 < pageSize := by decide
  cases hstep with
  | allocPage halloc =>
      obtain ⟨page, rfl, hlt, hfree, _, hmark⟩ := pmmAllocPage_spec halloc
      rw [Nat.mul_div_cancel _ hpos]
      refine h.alloc (hmark.congr fun p => by simp) ?_
      simp only [Finset.mem_singleton, forall_eq]
      exact ⟨hlt, hfree⟩
  | @allocPages count _ _ halloc =>
      obtain ⟨start, rfl, hrun, _, hmark⟩ := pmmAllocPages_spec halloc
      rw [Nat.mul_div_cancel _ hpos]
      refine h.alloc (hmark.congr fun p => by simp) ?_
      intro p hp
      obtain ⟨h₁, h₂⟩ := Finset.mem_Ico.mp hp
      have := le_runLength count
      exact hrun p h₁ (by omega)
  | @freePage physAddr hheld =>
      have hrel := h.release (B := {physAddr.toNat / pageSize})
        ((frees_pmmFreePage c.pmm physAddr).congr fun p => by simp) (by simpa using hheld)
      simpa only [Finset.sdiff_singleton_eq_erase] using hrel
  | @freePages physAddr count hheld =>
      refine h.release ((frees_pmmFreePages c.pmm physAddr count).congr fun p => ?_) hheld
      simp only [freedPages, Finset.mem_image, Finset.mem_range, eq_comm (a := p)]
  | @markRegionUsed base length =>
      have hmark := marks_pmmMarkRegionUsed c.pmm base length
      exact ⟨hmark.total.trans h.total, h.disjoint,
        fun A hA p hp => ⟨(h.used A hA p hp).1, (hmark.bits p).mpr (Or.inl (h.used A hA p hp).2)⟩,
        h.fresh, fun p hp hbit => (hmark.bits p).mpr (Or.inl (h.reserved p hp hbit))⟩

end ClientSteps

theorem owned_run {s : State} {ops : List Op} {c : Client}
    (hrun : Run ClientStep ⟨s, []⟩ ops c) : Owned s c :=
  hrun.invariant (fun _ _ _ hc h => Owned.step hc h)
    ⟨rfl, List.Pairwise.nil, by simp, by simp, fun _ _ h => h⟩

theorem run_allocPage {s t : State} {addr : Nat} (h : pmmAllocPage s = some (addr, t)) :
    Run Step s [.allocPage] t ∧ Run ClientStep ⟨s, []⟩ [.allocPage] ⟨t, [{addr / pageSize}]⟩ := by
  refine ⟨.cons ?_ (.nil t), .cons (.allocPage h) (.nil _)⟩
  rw [Step, Op.exec, h]
  rfl

/-- **The physical allocator is safe and its counter exact.** After any
operations the counter is the number of set bits and the reported free memory
is the free pages' size. In a client run no page belongs to two live
allocations, and none that `pmm_init` left used is ever handed out. -/
theorem pmm_safe_and_accounted (old : Nat → BitVec 8) (mmap : List E820Entry) :
    (∀ ops t, Run Step (pmmInit old mmap) ops t →
      t.usedPages.toNat = (usedSet t).card ∧ t.usedPages.toNat ≤ t.totalPages ∧
        (pmmGetFreeMemory t).toNat = (freeSet t).card * pageSize) ∧
    (∀ ops c, Run ClientStep ⟨pmmInit old mmap, []⟩ ops c →
      c.live.Pairwise Disjoint ∧
        ∀ A ∈ c.live, ∀ p ∈ A,
          p < (pmmInit old mmap).totalPages ∧ bitmapTest (pmmInit old mmap) p = false) := by
  constructor
  · intro ops t hrun
    have hacc := accounted_run hrun
    refine ⟨hacc.exact_count, ?_, hacc.toNat_pmmGetFreeMemory⟩
    rw [hacc.exact_count]
    exact card_usedSet_le t
  · intro ops c hrun
    have howned := owned_run hrun
    exact ⟨howned.disjoint, fun A hA p hp =>
      ⟨(howned.used A hA p hp).1, howned.fresh A hA p hp⟩⟩

/-- One allocation on the sample machine, as an unrestricted and as a client run. -/
theorem pmm_safe_and_accounted_sampleMap :
    ∃ addr t, pmmAllocPage (pmmInit (fun _ => 0) sampleMap) = some (addr, t) ∧
      t.usedPages.toNat = (usedSet t).card ∧
      bitmapTest (pmmInit (fun _ => 0) sampleMap) (addr / pageSize) = false := by
  obtain ⟨addr, t, halloc⟩ := pmmAllocPage_sampleMap (fun _ => 0)
  obtain ⟨hrun, hclient⟩ := run_allocPage halloc
  have hsafe := pmm_safe_and_accounted (fun _ => 0) sampleMap
  have hcount := hsafe.1 _ _ hrun
  have howned := (hsafe.2 _ _ hclient).2 {addr / pageSize} (List.mem_singleton_self _)
  exact ⟨addr, t, halloc, hcount.1, (howned (addr / pageSize) (Finset.mem_singleton_self _)).2⟩

end VectorForth.Pmm
