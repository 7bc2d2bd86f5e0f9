import VectorForth.Memory.PmmOwnership

/-!
# Which live regions the allocator respects

The boot code and the kernel keep using memory that no client allocated: the
page tables, the E820 buffer, the boot stack, the kernel image, the bitmap and
the heap. `pmm_init` and `heap_init` reserve all of them but one. The boot
stack grows down from `0x90000`, and the reservation of the first 512 KB ends
at `0x80000`. Requests reach the stack exactly when they fit into free pages
that start below it.
-/

namespace VectorForth.Pmm

/-! ## The boot sequence and the live regions -/

/-- `HEAP_PHYS_START`. -/
def heapPhysStart : Word := 0x300000#64

/-- `HEAP_INITIAL_SIZE`. -/
def heapInitialSize : Word := 0x100000#64

/-- The allocator as `kernel_main` leaves it: `pmm_init`, then the reservation
that `heap_init` makes. -/
def booted (old : Nat → BitVec 8) (mmap : List E820Entry) : State :=
  pmmMarkRegionUsed (pmmInit old mmap) heapPhysStart heapInitialSize

/-- A range of physical bytes `[lo, hi)`. -/
structure Region where
  lo : Nat
  hi : Nat
deriving DecidableEq

/-- `PML4_ADDR` to the end of `PD_HIGHER_ADDR`. -/
def pageTables : Region := ⟨0x70000, 0x75000⟩

/-- The buffer `detect_memory` fills upwards from `0x6000` through the 16-bit `di`. -/
def e820Buffer : Region := ⟨0x6000, 0x10000⟩

/-- The 64 KB below the stack pointer `0x90000` that the trampoline loads. -/
def bootStack : Region := ⟨0x80000, 0x90000⟩

def kernelImage : Region := ⟨0x100000, 0x200000⟩

def bitmapRegion (totalPages : Nat) : Region :=
  ⟨pmmBitmapPhys, pmmBitmapPhys + bitmapBytes totalPages⟩

def heapRegion : Region := ⟨0x300000, 0x400000⟩

def liveRegions (totalPages : Nat) : List Region :=
  [pageTables, e820Buffer, bootStack, kernelImage, bitmapRegion totalPages, heapRegion]

/-- A block of whole pages, as an allocation call returns it. -/
structure Block where
  addr : Nat
  pages : Nat

def Block.Overlaps (b : Block) (r : Region) : Prop :=
  ∃ x, b.addr ≤ x ∧ x < b.addr + b.pages * pageSize ∧ r.lo ≤ x ∧ x < r.hi

/-- No block of the list touches memory in live use. -/
def Clear (totalPages : Nat) (blocks : List Block) : Prop :=
  ∀ b ∈ blocks, ∀ r ∈ liveRegions totalPages, ¬ b.Overlaps r

/-! ## Requests -/

inductive Request
  | page
  | pages (count : Word)

def Request.length : Request → Nat
  | .page => 1
  | .pages count => count.toNat

def Request.serve (s : State) : Request → Option (Nat × State)
  | .page => pmmAllocPage s
  | .pages count => pmmAllocPages s count

/-- Serve the requests in order; `none` as soon as one panics. -/
def serveAll (s : State) : List Request → Option (List Block × State)
  | [] => some ([], s)
  | r :: rs =>
      match r.serve s with
      | none => none
      | some (addr, t) =>
          match serveAll t rs with
          | none => none
          | some (blocks, u) => some (⟨addr, r.length⟩ :: blocks, u)

/-- The request takes no page, or no run of free pages that is long enough
for it starts below `0x90000`. -/
def Request.Misses (s : State) (r : Request) : Prop :=
  r.length = 0 ∨ ∀ p < 0x90, ¬ FreeRun s p r.length

theorem serveAll_singleton {s t : State} {r : Request} {addr : Nat}
    (h : r.serve s = some (addr, t)) : serveAll s [r] = some ([⟨addr, r.length⟩], t) := by
  rw [serveAll, h]
  rfl

/-- Both allocation calls in one statement: the block is free, it becomes
used, and no lower run would have served a nonempty request. -/
theorem Request.serve_spec {s t : State} {r : Request} {addr : Nat}
    (h : r.serve s = some (addr, t)) :
    ∃ start, addr = start * pageSize ∧ FreeRun s start r.length ∧
      (r.length ≠ 0 → ∀ q < start, ¬ FreeRun s q r.length) ∧
      Marks s t (fun p => start ≤ p ∧ p < start + r.length) := by
  cases r with
  | page =>
      obtain ⟨page, rfl, hlt, hfree, hlow, hmark⟩ := pmmAllocPage_spec h
      refine ⟨page, rfl, ?_, ?_, hmark.congr fun p => ?_⟩
      · intro x hx₁ hx₂
        rw [show x = page by simp only [Request.length] at hx₂; omega]
        exact ⟨hlt, hfree⟩
      · intro _ q hq hrun
        have hused := hlow q hq
        have hbit := (hrun q (Nat.le_refl _) (by simp [Request.length])).2
        simp [hused] at hbit
      · simp only [Request.length]
        omega
  | pages count =>
      obtain ⟨start, rfl, hrun, hlow, hmark⟩ := pmmAllocPages_spec h
      refine ⟨start, rfl, hrun.mono (Nat.le_refl _) ?_, ?_, hmark⟩
      · exact Nat.add_le_add_left (le_runLength count) _
      · intro hne q hq
        have hlen : runLength count = count.toNat := by
          simp only [Request.length] at hne
          unfold runLength
          omega
        have hq' := hlow q hq
        rw [hlen] at hq'
        exact hq'

/-! ## Free pages after boot -/

theorem totalPages_booted (old : Nat → BitVec 8) (mmap : List E820Entry) :
    (booted old mmap).totalPages = pmmTotalMemory mmap / pageSize := by
  have hheap := marks_pmmMarkRegionUsed (pmmInit old mmap) heapPhysStart heapInitialSize
  exact hheap.total.trans (totalPages_pmmInit old mmap)

theorem bitmapTest_booted {old : Nat → BitVec 8} {mmap : List E820Entry} {p : Nat}
    (hp : p < (booted old mmap).totalPages) :
    bitmapTest (booted old mmap) p = true ↔
      ¬ (∃ e ∈ mmap, e.Frees p) ∨ Reserved (booted old mmap).totalPages p ∨
        (0x300 ≤ p ∧ p < 0x400) := by
  have hmark := marks_pmmMarkRegionUsed (pmmInit old mmap) heapPhysStart heapInitialSize
  have htotal : (booted old mmap).totalPages = (pmmInit old mmap).totalPages := hmark.total
  have hbase : heapPhysStart.toNat / pageSize = 0x300 := by decide
  have hlen : (heapInitialSize + 4095#64).toNat / pageSize = 0x100 := by decide
  rw [htotal] at hp ⊢
  unfold booted
  rw [hmark.bits, bitmapTest_pmmInit hp, hbase, hlen, or_assoc]
  simp only [hp, and_true]

/-- A free page lies outside every live region but the boot stack. -/
theorem outside_of_free {old : Nat → BitVec 8} {mmap : List E820Entry} {p : Nat}
    (hp : p < (booted old mmap).totalPages) (hfree : bitmapTest (booted old mmap) p = false) :
    ¬ Reserved (booted old mmap).totalPages p ∧ ¬ (0x300 ≤ p ∧ p < 0x400) := by
  have hused := (bitmapTest_booted hp).not.mp (by simp [hfree])
  exact ⟨fun h => hused (Or.inr (Or.inl h)), fun h => hused (Or.inr (Or.inr h))⟩

section Serving

variable {old : Nat → BitVec 8} {mmap : List E820Entry}

/-- What a list of requests that miss the stack keeps: used pages stay used, and
the free runs that start below `0x90000` are still free. -/
structure Kept (b s : State) : Prop where
  total : s.totalPages = b.totalPages
  used : ∀ p, bitmapTest b p = true → bitmapTest s p = true
  runs : ∀ p k, p < 0x90 → FreeRun b p k → FreeRun s p k

theorem Kept.freeRun {b s : State} (h : Kept b s) {p k : Nat} (hrun : FreeRun s p k) :
    FreeRun b p k := by
  intro x hx₁ hx₂
  obtain ⟨hlt, hfree⟩ := hrun x hx₁ hx₂
  refine ⟨h.total ▸ hlt, ?_⟩
  by_contra hbit
  have := h.used x (by simpa using hbit)
  simp [hfree] at this

/-- A request that misses the stack is served at or above `0x90000`. -/
theorem Kept.start_ge {b s : State} (h : Kept b s) {r : Request} (hmiss : r.Misses b)
    {start : Nat} (hrun : FreeRun s start r.length) (hne : r.length ≠ 0) : 0x90 ≤ start := by
  by_contra hlt
  rcases hmiss with h0 | hmiss
  · exact hne h0
  · exact hmiss start (by omega) (h.freeRun hrun)

/-- Serving a request that misses the stack keeps the low free runs: a run that
met the block would extend to one long enough for the request. -/
theorem Kept.serve {b s t : State} (h : Kept b s) {r : Request} (hmiss : r.Misses b)
    {start : Nat} (hrun : FreeRun s start r.length)
    (hmark : Marks s t (fun p => start ≤ p ∧ p < start + r.length)) : Kept b t := by
  refine ⟨hmark.total.trans h.total, fun p hp => (hmark.bits p).mpr (Or.inl (h.used p hp)), ?_⟩
  intro p k hp hk x hx₁ hx₂
  obtain ⟨hlt, hfree⟩ := h.runs p k hp hk x hx₁ hx₂
  refine ⟨hmark.total.symm ▸ hlt, ?_⟩
  rw [← Bool.not_eq_true, hmark.bits]
  rintro (hused | ⟨hs₁, hs₂⟩)
  · simp [hfree] at hused
  · have hne : r.length ≠ 0 := by omega
    have hstart := h.start_ge hmiss hrun hne
    rcases hmiss with h0 | hmiss
    · exact hne h0
    · refine hmiss p hp ?_
      intro y hy₁ hy₂
      rcases Nat.lt_or_ge y (p + k) with hlow | hhigh
      · exact hk y hy₁ hlow
      · exact h.freeRun hrun y (by omega) (by omega)

/-- Blocks of free pages at or above `0x90000` touch no live region. -/
theorem clear_of_freeRun {start n : Nat} (hrun : FreeRun (booted old mmap) start n)
    (hstart : n ≠ 0 → 0x90 ≤ start) :
    Clear (booted old mmap).totalPages [⟨start * pageSize, n⟩] := by
  intro b hb r hr
  obtain rfl := List.mem_singleton.mp hb
  rintro ⟨x, hx₁, hx₂, hx₃, hx₄⟩
  simp only [pageSize] at hx₁ hx₂
  have hn : n ≠ 0 := by rintro rfl; omega
  have hge := hstart hn
  obtain ⟨hlt, hfree⟩ := hrun (x / 4096) (by omega) (by omega)
  obtain ⟨hres, hheap⟩ := outside_of_free hlt hfree
  have hb₁ : ¬ (0x200 ≤ x / 4096 ∧
      x / 4096 < 0x200 + (bitmapBytes (booted old mmap).totalPages + pageSize - 1) / pageSize) :=
    fun h => hres (Or.inr (Or.inr h))
  have hb₂ : ¬ (0x100 ≤ x / 4096 ∧ x / 4096 < 0x200) := fun h => hres (Or.inr (Or.inl h))
  simp only [liveRegions, List.mem_cons, List.not_mem_nil, or_false] at hr
  rcases hr with rfl | rfl | rfl | rfl | rfl | rfl
  · simp only [pageTables] at hx₃ hx₄
    omega
  · simp only [e820Buffer] at hx₃ hx₄
    omega
  · simp only [bootStack] at hx₃ hx₄
    omega
  · simp only [kernelImage] at hx₃ hx₄
    omega
  · simp only [bitmapRegion, pmmBitmapPhys, pageSize] at hx₃ hx₄ hb₁
    omega
  · simp only [heapRegion] at hx₃ hx₄
    omega

/-- A nonempty block that starts on a free page below `0x90000` is on the stack. -/
theorem overlaps_bootStack {start n : Nat} (hrun : FreeRun (booted old mmap) start n)
    (hn : n ≠ 0) (hlow : start < 0x90) : Block.Overlaps ⟨start * pageSize, n⟩ bootStack := by
  obtain ⟨hlt, hfree⟩ := hrun start (Nat.le_refl _) (by omega)
  have hres := (outside_of_free hlt hfree).1
  have hge : ¬ start < 0x80 := fun h => hres (Or.inl h)
  refine ⟨start * pageSize, Nat.le_refl _, ?_, ?_, ?_⟩
  all_goals simp only [bootStack, pageSize]; omega

theorem clear_cons {total : Nat} {b : Block} {blocks : List Block} :
    Clear total (b :: blocks) ↔ Clear total [b] ∧ Clear total blocks := by
  simp [Clear]

theorem clear_serveAll_iff {reqs : List Request} :
    ∀ {s t : State} {blocks : List Block}, Kept (booted old mmap) s →
      serveAll s reqs = some (blocks, t) →
      (Clear (booted old mmap).totalPages blocks ↔
        ∀ r ∈ reqs, r.Misses (booted old mmap)) := by
  induction reqs with
  | nil =>
      intro s t blocks _ hserve
      simp only [serveAll, Option.some.injEq, Prod.mk.injEq] at hserve
      rw [← hserve.1]
      simp [Clear]
  | cons r rs ih =>
      intro s t blocks hkept hserve
      simp only [serveAll] at hserve
      split at hserve
      · simp at hserve
      · rename_i addr u hr
        split at hserve
        · simp at hserve
        · rename_i blocks' v hrest
          simp only [Option.some.injEq, Prod.mk.injEq] at hserve
          obtain ⟨rfl, rfl⟩ := hserve
          obtain ⟨start, rfl, hrun, hlow, hmark⟩ := Request.serve_spec hr
          have hrun' := hkept.freeRun hrun
          rw [clear_cons, List.forall_mem_cons]
          by_cases hmiss : r.Misses (booted old mmap)
          · have hhead := clear_of_freeRun hrun' (hkept.start_ge hmiss hrun)
            have htail := ih (hkept.serve hmiss hrun hmark) hrest
            simp only [hhead, hmiss, true_and, htail]
          · simp only [hmiss, false_and, iff_false, not_and]
            intro hhead
            simp only [Request.Misses, not_or, not_forall, not_not] at hmiss
            obtain ⟨hne, p, hp, hpr⟩ := hmiss
            have hstart : start ≤ p := by
              by_contra hlt
              exact hlow hne p (by omega) (hkept.runs p _ hp hpr)
            exact absurd (overlaps_bootStack hrun' hne (by omega))
              (hhead _ List.mem_cons_self bootStack (by simp [liveRegions]))

end Serving

/-- **Exactly when allocation respects live memory.** After boot, the blocks
returned by a list of requests avoid every live region if and only if no
nonempty request fits into free pages that start below `0x90000`. -/
theorem allocations_clear_iff {old : Nat → BitVec 8} {mmap : List E820Entry}
    {reqs : List Request} {blocks : List Block} {t : State}
    (hserve : serveAll (booted old mmap) reqs = some (blocks, t)) :
    Clear (booted old mmap).totalPages blocks ↔ ∀ r ∈ reqs, r.Misses (booted old mmap) :=
  clear_serveAll_iff ⟨rfl, fun _ h => h, fun _ _ _ h => h⟩ hserve

/-! ## The boot stack is handed out -/

/-- Every byte of `[lo, hi)` lies in some usable entry. -/
def Covers (mmap : List E820Entry) (lo hi : Nat) : Prop :=
  ∀ x, lo ≤ x → x < hi →
    ∃ e ∈ mmap, e.type = e820Usable ∧ e.base.toNat ≤ x ∧ x < e.base.toNat + e.length.toNat

theorem totalPages_sampleMap (old : Nat → BitVec 8) :
    (booted old sampleMap).totalPages = 0x8000 := by
  rw [totalPages_booted, pmmTotalMemory_sampleMap, pageSize]

/-- Page `0x80`, the lowest of the stack, is free on this machine. -/
theorem stackPage_free (old : Nat → BitVec 8) :
    bitmapTest (booted old sampleMap) 0x80 = false := by
  have hp : 0x80 < (booted old sampleMap).totalPages := by
    rw [totalPages_sampleMap]
    decide
  have hres : ¬ Reserved (booted old sampleMap).totalPages 0x80 := by
    unfold Reserved
    omega
  rw [← Bool.not_eq_true, bitmapTest_booted hp]
  simp [sampleMap_frees, hres]

theorem serve_page_sampleMap (old : Nat → BitVec 8) :
    ∃ addr t, Request.page.serve (booted old sampleMap) = some (addr, t) := by
  have hsome := bitmapFindFree_isSome (s := booted old sampleMap) (q := 0x80)
    (by rw [totalPages_sampleMap]; decide) (stackPage_free old)
  obtain ⟨page, hpage⟩ := Option.isSome_iff_exists.mp hsome
  refine ⟨page * pageSize, takePage (booted old sampleMap) page, ?_⟩
  rw [Request.serve, pmmAllocPage, hpage]

/-- One page request on this machine returns a page of the boot stack. -/
theorem stack_handed_out :
    Covers sampleMap 0 0x9F000 ∧ Covers sampleMap 0x100000 0x500000 ∧
      ∃ blocks t, serveAll (booted (fun _ => 0) sampleMap) [.page] = some (blocks, t) ∧
        ∃ b ∈ blocks, b.Overlaps bootStack := by
  refine ⟨?_, ?_, ?_⟩
  · intro x _ hx
    exact ⟨_, List.mem_cons_self, rfl, Nat.zero_le _, by simpa using hx⟩
  · intro x hx₁ hx₂
    refine ⟨_, List.mem_cons_of_mem _ List.mem_cons_self, rfl, by simpa using hx₁, ?_⟩
    simp only [BitVec.toNat_ofNat]
    omega
  · obtain ⟨addr, t, hserve⟩ := serve_page_sampleMap (fun _ => 0)
    refine ⟨_, t, serveAll_singleton hserve, ⟨addr, 1⟩, List.mem_cons_self, ?_⟩
    obtain ⟨start, rfl, hrun, hlow, _⟩ := Request.serve_spec hserve
    refine overlaps_bootStack (n := 1) hrun Nat.one_ne_zero ?_
    by_contra hge
    refine hlow Nat.one_ne_zero 0x80 (by omega) ?_
    intro x hx₁ hx₂
    rw [show x = 0x80 by simp only [Request.length] at hx₂; omega]
    exact ⟨by rw [totalPages_sampleMap]; decide, stackPage_free _⟩

/-- On the sample machine a single page request is a run the criterion speaks about. -/
theorem allocations_clear_iff_sampleMap :
    ∃ blocks t, serveAll (booted (fun _ => 0) sampleMap) [.page] = some (blocks, t) ∧
      (Clear (booted (fun _ => 0) sampleMap).totalPages blocks ↔
        ∀ r ∈ [Request.page], r.Misses (booted (fun _ => 0) sampleMap)) := by
  obtain ⟨addr, t, hserve⟩ := serve_page_sampleMap (fun _ => 0)
  exact ⟨_, t, serveAll_singleton hserve, allocations_clear_iff (serveAll_singleton hserve)⟩

end VectorForth.Pmm
