import VectorForth.Memory.HeapRelease

/-!
# Aligned allocations

`kmalloc_aligned` returns an aligned pointer inside the payload that it got, and keeps
the raw pointer in the word before it. `kfree` does not look there: it takes the 32
bytes before its argument for a header, which they never are.
-/

namespace VectorForth.Heap

open ByteMemory BlockList LabelledRun

section Aligned

variable {s s' : State} {bs : List Block} {live : List Word} {n raw q : Word} {k m : Nat}
  {c c₀ : Client} {ops : List HeapOp}

/-- `(addr + alignment - 1) & ~(alignment - 1)`. -/
theorem align_toNat (hk : k < 64) (addr : Word) (h : addr.toNat + (2 ^ k - 1) < 2 ^ 64) :
    ((addr + BitVec.ofNat 64 (2 ^ k) - 1#64) &&& ~~~(BitVec.ofNat 64 (2 ^ k) - 1#64)).toNat =
      (addr.toNat + (2 ^ k - 1)) / 2 ^ k * 2 ^ k := by
  have hpow : 2 ^ k < 2 ^ 64 := Nat.pow_lt_pow_right (by decide) hk
  have hpos : 0 < 2 ^ k := Nat.two_pow_pos k
  have hmask : BitVec.ofNat 64 (2 ^ k) - 1#64 = BitVec.ofNat 64 (2 ^ k - 1) := by
    apply BitVec.eq_of_toNat_eq
    rw [BitVec.toNat_sub, BitVec.toNat_ofNat, BitVec.toNat_ofNat, BitVec.toNat_ofNat]
    omega
  rw [add_sub_assoc, hmask]
  exact Masks.toNat_round_up addr (by omega) h

/-- What an aligned allocation has done: the block after `pre` was carved, its payload of
`m` bytes holds the word before `q` and `n` bytes from there. -/
structure AlignedAt (pre : List Block) (m : Nat) (rest : List Block) (n : Word) (k : Nat)
    (s' : State) (raw q : Word) : Prop where
  blocks : Blocks s' (pre ++ ⟨m, false⟩ :: rest)
  ptr : raw.toNat = heapVirtStart.toNat + span headerSize pre + headerSize
  aligned : 2 ^ k ∣ q.toNat
  low : raw.toNat + 8 ≤ q.toNat
  high : q.toNat + n.toNat ≤ raw.toNat + m

theorem inUse_mid (pre rest : List Block) :
    (heapVirtStart.toNat + span headerSize pre + headerSize, m) ∈ inUse (pre ++ ⟨m, false⟩ :: rest) :=
  payload_mem rfl rfl

theorem kmallocAligned_ok (h : Blocks s bs) (hk : k < 64) (hn : n.toNat + 2 ^ k + 8 + 15 < 2 ^ 64)
    (halloc : kmallocAligned s n (BitVec.ofNat 64 (2 ^ k)) = .ok (s', q)) :
    ∃ pre b post m rest s₁ raw, bs = pre ++ b :: post ∧ b.free = true ∧
      kmalloc s (n + BitVec.ofNat 64 (2 ^ k) + 8#64) = .ok (s₁, raw) ∧
      AlignedAt pre m rest n k s' raw q := by
  have hpow : 2 ^ k < 2 ^ 64 := Nat.pow_lt_pow_right (by decide) hk
  have hpos : 0 < 2 ^ k := Nat.two_pow_pos k
  have hpowNat : (BitVec.ofNat 64 (2 ^ k)).toNat = 2 ^ k := ofNat_toNat hpow
  have htotal : (n + BitVec.ofNat 64 (2 ^ k) + 8#64).toNat = n.toNat + 2 ^ k + 8 := by
    rw [BitVec.toNat_add, BitVec.toNat_add, hpowNat, BitVec.toNat_ofNat]
    omega
  have hround : Rounds (n + BitVec.ofNat 64 (2 ^ k) + 8#64) := by
    unfold Rounds
    omega
  have hne : n + BitVec.ofNat 64 (2 ^ k) + 8#64 ≠ 0#64 := by
    intro hzero
    rw [hzero, BitVec.toNat_ofNat] at htotal
    omega
  rw [kmallocAligned] at halloc
  cases hm : kmalloc s (n + BitVec.ofNat 64 (2 ^ k) + 8#64) with
  | error e =>
      rw [hm] at halloc
      cases halloc
  | ok r =>
      obtain ⟨s₁, raw⟩ := r
      rw [hm] at halloc
      change (if raw = 0#64 then _ else _) = _ at halloc
      obtain ⟨pre, b, post, rfl, hplaced⟩ := kmalloc_ok h hne hm
      obtain ⟨hfree, hle⟩ := Bool.and_eq_true_iff.mp hplaced.fits
      rw [decide_eq_true_eq] at hle
      obtain ⟨m, rest, hcarve, hlarge, -, -, -⟩ := @carve_head headerSize minBlock _ 0 _ hle
      have hblocks := hplaced.blocks
      rw [hcarve, List.append_assoc, List.cons_append] at hblocks
      have hraw := hplaced.ptr
      have hin := inUse_mid (m := m) pre (rest ++ post)
      have hend := (payload_bounds hin).2
      rw [hblocks.span_eq] at hend
      have hstart := heapVirtStart_toNat
      rw [roundUp_toNat hround, htotal] at hlarge
      dsimp only at hend
      rw [← hraw] at hin hend
      have hnull : raw ≠ 0#64 := by
        rintro rfl
        rw [BitVec.toNat_ofNat, Nat.zero_mod, headerSize] at hraw
        omega
      rw [if_neg hnull] at halloc
      obtain ⟨hstate, hq⟩ := Prod.mk.inj (Except.ok.inj halloc)
      have haddr : (raw + 8#64).toNat = raw.toNat + 8 := by
        rw [BitVec.toNat_add, BitVec.toNat_ofNat]
        omega
      have halign := align_toNat hk (raw + 8#64) (by rw [haddr]; omega)
      rw [hq, haddr] at halign
      have hlow : raw.toNat + 8 ≤ q.toNat := by
        have hdiv := Nat.div_add_mod' (raw.toNat + 8 + (2 ^ k - 1)) (2 ^ k)
        have hmod := Nat.mod_lt (raw.toNat + 8 + (2 ^ k - 1)) hpos
        omega
      have hhigh : q.toNat + n.toNat ≤ raw.toNat + m := by
        have hdiv := Nat.div_mul_le_self (raw.toNat + 8 + (2 ^ k - 1)) (2 ^ k)
        omega
      refine ⟨pre, b, post, m, rest ++ post, s₁, raw, rfl, hfree, rfl, ?_⟩
      constructor
      case ptr => exact hraw
      case aligned => exact ⟨_, halign.trans (Nat.mul_comm _ _)⟩
      case low => exact hlow
      case high => exact hhigh
      case blocks =>
        -- the raw pointer is stored inside the payload
        rw [← hstate, hq]
        refine hblocks.congr ?_
        intro x hx
        have hout := hx _ hin
        have hback : (q - 8#64).toNat = q.toNat - 8 := by
          rw [BitVec.toNat_sub, BitVec.toNat_ofNat]
          have hlt := q.isLt
          omega
        dsimp only at hout
        rw [setWord, hback, write64_outside (by omega)]

theorem kmallocAligned_returns {s₁ : State} {alignment : Word}
    (hk : kmalloc s (n + alignment + 8#64) = .ok (s₁, raw)) :
    ∃ s' q, kmallocAligned s n alignment = .ok (s', q) := by
  rw [kmallocAligned, hk]
  show ∃ s' q, (if raw = 0#64 then _ else _) = Except.ok (s', q)
  split
  · exact ⟨_, _, rfl⟩
  · exact ⟨_, _, rfl⟩

/-- `kfree` of an aligned pointer does not give the block back. -/
theorem kfree_aligned {pre rest : List Block} {t : State} (h : AlignedAt pre m rest n k s' raw q)
    (hfree : kfree s' q = .ok t) :
    blockList t = layout heapVirtStart.toNat (pre ++ ⟨m, false⟩ :: rest) := by
  have hlow := h.low
  have hhigh := h.high
  have hraw := h.ptr
  have hlt := q.isLt
  have hsize : headerSize = 32 := rfl
  have hne : q ≠ 0#64 := by
    rintro rfl
    rw [BitVec.toNat_ofNat] at hlow
    omega
  rw [kfree, if_neg hne] at hfree
  dsimp only at hfree
  split at hfree
  · cases hfree
  · split at hfree
    · -- reported as freed twice
      obtain rfl := Except.ok.inj hfree
      exact h.blocks.blockList
    · -- the byte taken for the free flag is in the payload
      have hflag : (q - heapHeaderSize + 24#64).toNat = q.toNat - 8 := by
        rw [heapHeaderSize, BitVec.toNat_add, BitVec.toNat_sub, BitVec.toNat_ofNat,
          BitVec.toNat_ofNat]
        omega
      have hin := inUse_mid (m := m) pre rest
      rw [← hraw] at hin
      have hchain : Chained (setFree s'.mem (q - heapHeaderSize) 1#8) 0 heapVirtStart.toNat
          (pre ++ ⟨m, false⟩ :: rest) := by
        refine h.blocks.chained.congr ?_
        intro x _ _ hx
        have hout := hx _ hin
        dsimp only at hout
        rw [setFree, hflag, write8_outside (by omega)]
      obtain ⟨m', hrun, hchain', -⟩ := heapCoalesce_eq (s := { s' with
        mem := setFree s'.mem (q - heapHeaderSize) 1#8
        heapUsed := s'.heapUsed - size s'.mem (q - heapHeaderSize) }) hchain h.blocks.head
        h.blocks.span_eq
      obtain rfl := Except.ok.inj (hrun.symm.trans hfree)
      rw [coalesce_of_separate h.blocks.separate] at hchain'
      exact blockList_eq h.blocks.head hchain' h.blocks.span_eq

/-- **Aligned pointers are sound, and `kfree` never releases one.** -/
theorem aligned_never_released (h₀ : Started c₀) (hrun : Run HeapStep c₀ ops c) (hk : k < 64)
    (hn : n.toNat + 2 ^ k + 8 + 15 < 2 ^ 64)
    (halloc : kmallocAligned c.heap n (BitVec.ofNat 64 (2 ^ k)) = .ok (s', q)) :
    2 ^ k ∣ q.toNat ∧
      (∃ s₁ raw, kmalloc c.heap (n + BitVec.ofNat 64 (2 ^ k) + 8#64) = .ok (s₁, raw) ∧
        raw.toNat ≤ q.toNat - 8 ∧ q.toNat + n.toNat ≤ raw.toNat + payloadSize s' raw) ∧
      ¬ ∃ t, kfree s' q = .ok t ∧ blockList t = blockList c.heap ∧ t.heapUsed = c.heap.heapUsed := by
  obtain ⟨bs, hblocks, -⟩ := run_sound h₀ hrun
  obtain ⟨pre, b, post, m, rest, s₁, raw, rfl, hfree, hm, hat⟩ :=
    kmallocAligned_ok hblocks hk hn halloc
  have hin := inUse_mid (m := m) pre rest
  rw [← hat.ptr] at hin
  have hlow := hat.low
  refine ⟨hat.aligned, ⟨s₁, raw, hm, by omega, ?_⟩, ?_⟩
  · rw [hat.blocks.payloadSize hin]
    exact hat.high
  · rintro ⟨t, hrelease, hlist, -⟩
    rw [kfree_aligned hat hrelease, hblocks.blockList] at hlist
    exact layout_ne rest hfree m hlist

end Aligned

theorem aligned_never_released_fresh :
    ∃ s' q, kmallocAligned (heapInit blankHeap) 100#64 32#64 = .ok (s', q) ∧ 32 ∣ q.toNat ∧
      ¬ ∃ t, kfree s' q = .ok t ∧ blockList t = blockList (heapInit blankHeap) ∧
        t.heapUsed = (heapInit blankHeap).heapUsed := by
  have hstart : Started { heap := heapInit blankHeap, live := [] } := ⟨⟨blankHeap, rfl⟩, rfl⟩
  have hk : kmalloc (heapInit blankHeap) (100#64 + 32#64 + 8#64) =
      .ok (takeBlock (heapInit blankHeap) (roundUp 140#64)
        (BitVec.ofNat 64 (heapVirtStart.toNat + span headerSize []))) :=
    kmalloc_eq (heapInit_blocks blankHeap) (by decide)
  obtain ⟨s', q, halloc⟩ := kmallocAligned_returns hk
  obtain ⟨haligned, -, hkept⟩ :=
    aligned_never_released (k := 5) hstart (.nil _) (by decide) (by decide) halloc
  exact ⟨s', q, halloc, haligned, hkept⟩

/-- The call of `kfree` that is meant to release an aligned allocation. -/
def releaseAligned (s : State) (n alignment : Word) : Option Stop :=
  match kmallocAligned s n alignment with
  | .error _ => none
  | .ok (s', q) =>
      match kfree s' q with
      | .error e => some e
      | .ok _ => none

/-- On a fresh heap it panics. -/
theorem aligned_release_panics : releaseAligned (heapInit blankHeap) 100#64 32#64 =
    some (.panic "Heap: Invalid free pointer!") := by
  decide +kernel

end VectorForth.Heap
