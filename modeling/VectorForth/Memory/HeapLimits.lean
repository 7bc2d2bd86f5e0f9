import VectorForth.Memory.HeapRelease

/-!
# Requests at the end of the word

Rounding up to 16 and the product of `kcalloc` wrap. A request that wraps is small,
passes first fit wherever a free block has room for what is left of it, and gets a
block smaller than was asked for.
-/

namespace VectorForth.Heap

open ByteMemory BlockList LabelledRun

/-- Some free block passes the test of `kmalloc`. -/
def HasRoom (s : State) (n : Word) : Prop := ∃ x ∈ blockList s, x.free = true ∧ roundUp n ≤ x.size

/-- A pointer that `kmalloc` returns has a block of `n` bytes. -/
def KmallocLarge (s : State) (n : Word) : Prop :=
  ∀ s' p, kmalloc s n = .ok (s', p) → p ≠ 0#64 → n.toNat ≤ payloadSize s' p

/-- A pointer that `kcalloc` returns has a block for all elements, cleared. -/
def KcallocLarge (s : State) (count n : Word) : Prop :=
  ∀ s' p, kcalloc s count n = .ok (s', p) → p ≠ 0#64 →
    count.toNat * n.toNat ≤ payloadSize s' p ∧
      ∀ i < count.toNat * n.toNat, s'.mem (p.toNat + i) = 0#8

/-- A pointer that `krealloc` returns has a block of `n` bytes, and what is copied has room
in the new block. -/
def KreallocLarge (s : State) (p n : Word) : Prop :=
  (∀ s' q, krealloc s p n = .ok (s', q) → q ≠ 0#64 → n.toNat ≤ payloadSize s' q) ∧
    (p ≠ 0#64 → n ≠ 0#64 → payloadSize s p < n.toNat → ∀ s₁ q, kmalloc s n = .ok (s₁, q) →
      payloadSize s p ≤ payloadSize s₁ q)

section Limits

variable {s s' : State} {a : Nat} {bs : List Block} {live : List Word} {count n p q : Word}
  {c c₀ : Client} {ops : List HeapOp}

theorem mem_layout_fits (hend : span headerSize bs < 2 ^ 64) :
    (∃ x ∈ layout a bs, x.free = true ∧ n ≤ x.size) ↔ ∃ b ∈ bs, fits n.toNat b = true := by
  induction bs generalizing a with
  | nil => simp [layout]
  | cons b bs ih =>
      have hspan : span headerSize (b :: bs) = headerSize + b.size + span headerSize bs := rfl
      have hhead : (b.free = true ∧ n ≤ BitVec.ofNat 64 b.size) ↔ fits n.toNat b = true := by
        rw [fits, Bool.and_eq_true, decide_eq_true_eq, BitVec.le_def, ofNat_toNat (by omega)]
      rw [layout]
      simp only [List.mem_cons, exists_eq_or_imp, hhead]
      rw [ih (by omega)]

theorem Blocks.hasRoom_iff (h : Blocks s bs) (n : Word) :
    HasRoom s n ↔ ∃ b ∈ bs, fits (roundUp n).toNat b = true := by
  rw [HasRoom, h.blockList]
  exact mem_layout_fits (by rw [h.span_eq]; decide)

/-- `kmalloc` returns a pointer exactly when a free block has room. -/
theorem kmalloc_returns (h : Sound s live) (hn : n ≠ 0#64) :
    (∃ s' p, kmalloc s n = .ok (s', p)) ↔ HasRoom s n := by
  obtain ⟨bs, hblocks, -⟩ := h
  rw [hblocks.hasRoom_iff, kmalloc_eq hblocks hn]
  cases hfit : firstFit (roundUp n).toNat bs with
  | none =>
      constructor
      · rintro ⟨s', p, hk⟩
        cases hk
      · rintro ⟨b, hb, hfits⟩
        rw [firstFit_none hfit b hb] at hfits
        cases hfits
  | some r =>
      obtain ⟨pre, b, post⟩ := r
      obtain ⟨rfl, hfits, -⟩ := firstFit_some hfit
      constructor
      · exact fun _ => ⟨b, List.mem_append_right _ (List.mem_cons_self ..), hfits⟩
      · exact fun _ => ⟨_, _, rfl⟩

/-- No payload is larger than the heap. -/
theorem payload_le (h : Sound s live) (hp : p ∈ live) : payloadSize s p ≤ 0x100000 := by
  obtain ⟨bs, hblocks, hlive⟩ := h
  obtain ⟨sz, hin⟩ := hlive.mem hp
  have hbound := payload_bounds hin
  rw [hblocks.span_eq] at hbound
  rw [hblocks.payloadSize hin]
  dsimp only at hbound
  omega

/-- A request that wraps is larger than any block. -/
theorem payload_lt_of_wraps (h : Sound s live) (hp : p ∈ live) (hwrap : ¬ Rounds n) :
    payloadSize s p < n.toNat := by
  have hle := payload_le h hp
  unfold Rounds at hwrap
  omega

theorem rounds_zero : Rounds 0#64 := by decide

/-! ## `kmalloc` -/

theorem kmallocLarge_iff (h : Sound s live) (n : Word) :
    KmallocLarge s n ↔ Rounds n ∨ ¬ HasRoom s n := by
  constructor
  · intro hlarge
    by_contra hno
    obtain ⟨hwrap, hroom⟩ := not_or.mp hno
    have hn : n ≠ 0#64 := by
      rintro rfl
      exact hwrap rounds_zero
    obtain ⟨s', p, hk⟩ := (kmalloc_returns h hn).mpr (not_not.mp hroom)
    obtain ⟨hsound, hne, -, -⟩ := h.place hn hk
    have hsmall := payload_lt_of_wraps hsound (List.mem_cons_self ..) hwrap
    have hle := hlarge s' p hk hne
    omega
  · intro hcond s' p hk hne
    by_cases hn : n = 0#64
    · rw [hn]
      exact Nat.zero_le _
    · rcases hcond with hround | hroom
      · exact (h.malloc hn hround hk).large
      · exact absurd ((kmalloc_returns h hn).mp ⟨s', p, hk⟩) hroom

/-! ## `kcalloc` -/

/-- The calls of `kcalloc` that return a pointer. -/
theorem kcalloc_ok (hk : kcalloc s count n = .ok (s', p)) (hne : p ≠ 0#64) :
    ∃ s₁, kmalloc s (count * n) = .ok (s₁, p) ∧
      s' = { s₁ with mem := fill s₁.mem p.toNat 0#8 (count * n).toNat } := by
  rw [kcalloc] at hk
  cases hm : kmalloc s (count * n) with
  | error e =>
      rw [hm] at hk
      cases hk
  | ok r =>
      obtain ⟨s₁, q⟩ := r
      rw [hm] at hk
      change (if q ≠ 0#64 then _ else _) = _ at hk
      split at hk
      · obtain ⟨rfl, rfl⟩ := Prod.mk.inj (Except.ok.inj hk)
        exact ⟨s₁, rfl, rfl⟩
      · obtain ⟨rfl, rfl⟩ := Prod.mk.inj (Except.ok.inj hk)
        rename_i hnull
        exact absurd (not_not.mp hnull) hne

theorem kcalloc_of_kmalloc {s₁ : State} (hk : kmalloc s (count * n) = .ok (s₁, p)) (hne : p ≠ 0#64) :
    kcalloc s count n =
      .ok ({ s₁ with mem := fill s₁.mem p.toNat 0#8 (count * n).toNat }, p) := by
  rw [kcalloc, hk]
  exact if_pos hne

/-- The header before a pointer is not cleared. -/
theorem payloadSize_fill (h : Sound s live) (hp : p ∈ live) (k : Nat) :
    payloadSize { s with mem := fill s.mem p.toNat 0#8 k } p = payloadSize s p := by
  obtain ⟨bs, -, hlive⟩ := h
  obtain ⟨sz, hin⟩ := hlive.mem hp
  have hlow := (payload_bounds hin).1
  have hstart := heapVirtStart_toNat
  have hsize : headerSize = 32 := rfl
  have hlt := p.isLt
  dsimp only at hlow
  have hblock : (p - heapHeaderSize).toNat = p.toNat - 32 := by
    rw [heapHeaderSize, BitVec.toNat_sub, BitVec.toNat_ofNat]
    omega
  have hread : read64 (fill s.mem p.toNat 0#8 k) (p.toNat - 32) = read64 s.mem (p.toNat - 32) :=
    read64_congr fun x h₁ h₂ => fill_outside (by omega)
  rw [payloadSize, payloadSize, size, size, word, word, hblock, hread]

theorem kcallocLarge_iff (h : Sound s live) (count n : Word) :
    KcallocLarge s count n ↔ count.toNat * n.toNat + 15 < 2 ^ 64 ∨ count * n = 0#64 ∨
      ¬ HasRoom s (count * n) := by
  have hproduct : (count * n).toNat = count.toNat * n.toNat % 2 ^ 64 := BitVec.toNat_mul ..
  constructor
  · intro hlarge
    by_contra hno
    simp only [not_or, not_not] at hno
    obtain ⟨hwrap, hn, hroom⟩ := hno
    obtain ⟨s₁, p, hk⟩ := (kmalloc_returns h hn).mpr hroom
    obtain ⟨hsound, hne, -, -⟩ := h.place hn hk
    have hle := (hlarge _ p (kcalloc_of_kmalloc hk hne) hne).1
    rw [payloadSize_fill hsound (List.mem_cons_self ..)] at hle
    have hbound := payload_le hsound (List.mem_cons_self ..)
    omega
  · intro hcond s' p hk hne
    obtain ⟨s₁, hm, rfl⟩ := kcalloc_ok hk hne
    by_cases hn : count * n = 0#64
    · rw [hn, kmalloc, if_pos rfl] at hm
      exact absurd (Prod.mk.inj (Except.ok.inj hm)).2.symm hne
    · rcases hcond with hfits | hzero | hroom
      · have hexact : (count * n).toNat = count.toNat * n.toNat := by
          rw [hproduct, Nat.mod_eq_of_lt (by omega)]
        have hround : Rounds (count * n) := by
          unfold Rounds
          omega
        have hm := h.malloc hn hround hm
        have hlarge := hm.large
        rw [payloadSize_fill hm.sound (List.mem_cons_self ..)]
        refine ⟨by omega, ?_⟩
        intro i hi
        show fill s₁.mem p.toNat 0#8 (count * n).toNat (p.toNat + i) = 0#8
        rw [fill_apply, if_pos (by omega)]
      · exact absurd hzero hn
      · exact absurd ((kmalloc_returns h hn).mp ⟨s₁, p, hm⟩) hroom

/-! ## `krealloc` -/

theorem kreallocLarge_iff (h : Sound s live) (hp : p = 0#64 ∨ p ∈ live) (n : Word) :
    KreallocLarge s p n ↔ Rounds n ∨ ¬ HasRoom s n := by
  rcases hp with rfl | hp
  · -- the NULL pointer: `kmalloc`
    have hsame : ∀ s' q, krealloc s 0#64 n = .ok (s', q) ↔ kmalloc s n = .ok (s', q) := by
      intro s' q
      rw [krealloc, if_pos rfl]
    rw [← kmallocLarge_iff h n]
    constructor
    · exact fun hlarge s' q hk => hlarge.1 s' q ((hsame s' q).mpr hk)
    · exact fun hlarge => ⟨fun s' q hk => hlarge s' q ((hsame s' q).mp hk), fun hne => absurd rfl hne⟩
  · constructor
    · rintro ⟨hlarge, hcopied⟩
      by_contra hno
      obtain ⟨hwrap, hroom⟩ := not_or.mp hno
      have hn : n ≠ 0#64 := by
        rintro rfl
        exact hwrap rounds_zero
      have hsmall := payload_lt_of_wraps h hp hwrap
      obtain ⟨s₁, q, hk⟩ := (kmalloc_returns h hn).mpr (not_not.mp hroom)
      obtain ⟨hsound, hne, -, hkept⟩ := h.place hn hk
      have hfits := hcopied (gives_ne_zero h hp) hn hsmall s₁ q hk
      obtain ⟨t, hfree, hsound', -, -⟩ := hsound.move hkept hp hfits
      have hrun : krealloc s p n = .ok (t, q) := by
        rw [krealloc_live h hp, if_neg hn, if_neg (by omega), hk]
        dsimp only
        rw [if_pos hne, hfree]
        rfl
      have hle := hlarge t q hrun hne
      have hlt := payload_lt_of_wraps hsound' (List.mem_cons_self ..) hwrap
      omega
    · intro hcond
      constructor
      · intro s' q hrun hne
        rw [krealloc_live h hp] at hrun
        split at hrun
        · rename_i hn
          rw [hn]
          exact Nat.zero_le _
        · rename_i hn
          split at hrun
          · obtain ⟨rfl, rfl⟩ := Prod.mk.inj (Except.ok.inj hrun)
            assumption
          · rename_i hsmall
            cases hk : kmalloc s n with
            | error e =>
                rw [hk] at hrun
                cases hrun
            | ok r =>
                obtain ⟨s₁, r⟩ := r
                have hround : Rounds n := by
                  rcases hcond with hround | hroom
                  · exact hround
                  · exact absurd ((kmalloc_returns h hn).mp ⟨s₁, r, hk⟩) hroom
                have hm := h.malloc hn hround hk
                have hlarge := hm.large
                obtain ⟨t, hfree, -, hsize, -⟩ := hm.sound.move hm.undisturbed hp (by omega)
                rw [hk] at hrun
                dsimp only at hrun
                rw [if_pos hm.ne_zero, hfree] at hrun
                obtain ⟨rfl, rfl⟩ := Prod.mk.inj (Except.ok.inj hrun)
                rw [hsize]
                exact hlarge
      · intro _ hn hsmall s₁ q hk
        rcases hcond with hround | hroom
        · have hlarge := (h.malloc hn hround hk).large
          omega
        · exact absurd ((kmalloc_returns h hn).mp ⟨s₁, q, hk⟩) hroom

/-! ## Every run -/

/-- **An allocation is never too small exactly where no size wraps**, or no free block has
room for what the wrap leaves. -/
theorem allocations_large_iff (h₀ : Started c₀) (hrun : Run HeapStep c₀ ops c) :
    (∀ n, KmallocLarge c.heap n ↔ n.toNat + 15 < 2 ^ 64 ∨ ¬ HasRoom c.heap n) ∧
      (∀ count n, KcallocLarge c.heap count n ↔ count.toNat * n.toNat + 15 < 2 ^ 64 ∨
        count * n = 0#64 ∨ ¬ HasRoom c.heap (count * n)) ∧
      ∀ p n, p = 0#64 ∨ p ∈ c.live →
        (KreallocLarge c.heap p n ↔ n.toNat + 15 < 2 ^ 64 ∨ ¬ HasRoom c.heap n) := by
  have h := run_sound h₀ hrun
  exact ⟨fun n => kmallocLarge_iff h n, fun count n => kcallocLarge_iff h count n,
    fun p n hp => kreallocLarge_iff h hp n⟩

end Limits

theorem allocations_large_iff_fresh : KmallocLarge (heapInit blankHeap) 100#64 ↔
    (100#64).toNat + 15 < 2 ^ 64 ∨ ¬ HasRoom (heapInit blankHeap) 100#64 := by
  have hstart : Started { heap := heapInit blankHeap, live := [] } := ⟨⟨blankHeap, rfl⟩, rfl⟩
  exact (allocations_large_iff hstart (.nil _)).1 100#64

/-- A fresh heap hands out a block of no bytes for the largest size there is. -/
theorem largest_request : ¬ KmallocLarge (heapInit blankHeap) 0xFFFFFFFFFFFFFFFF#64 := by
  have hstart : Started { heap := heapInit blankHeap, live := [] } := ⟨⟨blankHeap, rfl⟩, rfl⟩
  rw [kmallocLarge_iff hstart.sound]
  rintro (hround | hroom)
  · exact absurd hround (by decide)
  · refine hroom (((heapInit_blocks blankHeap).hasRoom_iff _).mpr ⟨_, List.mem_cons_self .., ?_⟩)
    decide

end VectorForth.Heap
