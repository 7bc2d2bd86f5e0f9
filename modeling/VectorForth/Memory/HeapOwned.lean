import VectorForth.Memory.HeapRelease

/-!
# The bytes the heap keeps for itself

Headers and free blocks: every byte of the heap that is in no live payload.
Whoever leaves them alone keeps the heap, and `kmalloc` writes nowhere else.
-/

namespace VectorForth.Heap

open ByteMemory BlockList

/-- A byte of the heap that belongs to no live pointer. -/
def Managed (s : State) (live : List Word) (x : Nat) : Prop :=
  heapVirtStart.toNat ≤ x ∧ x < heapVirtStart.toNat + 0x100000 ∧
    ∀ p ∈ live, x < p.toNat ∨ p.toNat + payloadSize s p ≤ x

section Managed

variable {s s' : State} {bs : List Block} {live : List Word} {n p : Word} {m : Mem} {x : Nat}

/-- A live payload is inside the heap, behind the first header. -/
theorem Sound.bounds (h : Sound s live) (hp : p ∈ live) :
    heapVirtStart.toNat + 32 ≤ p.toNat ∧
      p.toNat + payloadSize s p ≤ heapVirtStart.toNat + 0x100000 := by
  obtain ⟨bs, hblocks, hlive⟩ := h
  obtain ⟨sz, hin⟩ := hlive.mem hp
  have hbound := payload_bounds hin
  rw [hblocks.span_eq] at hbound
  rw [hblocks.payloadSize hin]
  exact hbound

theorem not_managed_of_mem (hp : p ∈ live) (hlow : p.toNat ≤ x)
    (hhigh : x < p.toNat + payloadSize s p) : ¬ Managed s live x := by
  rintro ⟨-, -, hout⟩
  have := hout p hp
  omega

theorem not_managed_of_outside
    (hx : x < heapVirtStart.toNat ∨ heapVirtStart.toNat + 0x100000 ≤ x) :
    ¬ Managed s live x := by
  rintro ⟨hlow, hhigh, -⟩
  omega

/-- The headers in memory describe one list of blocks only. -/
theorem chained_unique {a : Nat} {bs bs' : List Block} (ha : 0 < a) (h : Chained m 0 a bs)
    (h' : Chained m 0 a bs') (hnil : bs = [] ↔ bs' = []) : bs = bs' := by
  induction bs generalizing a bs' with
  | nil => exact (hnil.mp rfl).symm
  | cons b bs ih =>
      cases bs' with
      | nil => exact hnil.mpr rfl
      | cons b' bs' =>
          obtain ⟨hhead, hrest⟩ := h
          obtain ⟨hhead', hrest'⟩ := h'
          have hsize : b.size = b'.size := hhead.size.symm.trans hhead'.size
          have hfree : b.free = b'.free := by
            have heq := hhead.free.symm.trans hhead'.free
            cases hb : b.free <;> cases hb' : b'.free <;> simp [hb, hb'] at heq ⊢
          have hblock : b = b' := by
            obtain ⟨size, free⟩ := b
            obtain ⟨size', free'⟩ := b'
            exact congrArg₂ Block.mk hsize hfree
          subst hblock
          have hlink := hhead.next.symm.trans hhead'.next
          congr 1
          refine ih (by omega) hrest hrest' ?_
          cases bs with
          | nil =>
              cases bs' with
              | nil => exact Iff.rfl
              | cons c' bs' =>
                  rw [linkTo, linkTo] at hlink
                  omega
          | cons c bs =>
              cases bs' with
              | nil =>
                  rw [linkTo, linkTo] at hlink
                  omega
              | cons c' bs' => simp

theorem Blocks.unique {bs' : List Block} (h : Blocks s bs) (h' : Blocks s bs') : bs = bs' := by
  have hstart := heapVirtStart_toNat
  exact chained_unique (by omega) h.chained h'.chained
    ⟨fun hnil => absurd hnil h.ne_nil, fun hnil => absurd hnil h'.ne_nil⟩

theorem Managed.of_inUse (h : Blocks s bs) (hlive : Live bs live) (hlow : heapVirtStart.toNat ≤ x)
    (hhigh : x < heapVirtStart.toNat + 0x100000)
    (hx : ∀ q ∈ inUse bs, ¬ (q.1 ≤ x ∧ x < q.1 + q.2)) : Managed s live x := by
  refine ⟨hlow, hhigh, fun p hp => ?_⟩
  obtain ⟨sz, hin⟩ := hlive.mem hp
  have hout := hx _ hin
  rw [h.payloadSize hin]
  dsimp only at hout
  omega

/-- A heap whose own bytes are kept is the same list of blocks. -/
theorem Blocks.keep (h : Blocks s bs) (hs : Sound s live)
    (hm : ∀ x, Managed s live x → m x = s.mem x) : Blocks { s with mem := m } bs := by
  obtain ⟨bs', hblocks, hlive⟩ := hs
  obtain rfl := h.unique hblocks
  have hspan := h.span_eq
  refine { h with chained := h.chained.congr fun x hlow hhigh hx => hm x ?_ }
  exact Managed.of_inUse h hlive hlow (by omega) hx

theorem Sound.keep (h : Sound s live) (hm : ∀ x, Managed s live x → m x = s.mem x) :
    Sound { s with mem := m } live ∧
      ∀ p ∈ live, payloadSize { s with mem := m } p = payloadSize s p := by
  obtain ⟨bs, hblocks, hlive⟩ := h
  have hkept := hblocks.keep ⟨bs, hblocks, hlive⟩ hm
  refine ⟨⟨bs, hkept, hlive⟩, fun p hp => ?_⟩
  obtain ⟨sz, hin⟩ := hlive.mem hp
  rw [hblocks.payloadSize hin, hkept.payloadSize hin]

/-- `kmalloc` writes into the heap's own bytes, and gives some of them away. -/
theorem Sound.malloc_managed (h : Sound s live) (hn : n ≠ 0#64)
    (hk : Heap.kmalloc s n = .ok (s', p)) :
    (∀ x, ¬ Managed s live x → s'.mem x = s.mem x) ∧
      ∀ x, p.toNat ≤ x → x < p.toNat + payloadSize s' p → Managed s live x := by
  obtain ⟨bs, hblocks, hlive⟩ := h
  obtain ⟨pre, b, post, rfl, hplaced⟩ := kmalloc_ok hblocks hn hk
  obtain ⟨hfree, hle⟩ := Bool.and_eq_true_iff.mp hplaced.fits
  rw [decide_eq_true_eq] at hle
  have hspan := hblocks.span_eq
  rw [span_append, span] at hspan
  -- the block that is taken is the heap's own
  have hblock : ∀ x, heapVirtStart.toNat + span headerSize pre ≤ x →
      x < heapVirtStart.toNat + span headerSize pre + (headerSize + b.size) →
      Managed s live x := by
    intro x hlow hhigh
    refine Managed.of_inUse hblocks hlive (by omega) (by omega) fun q hq => ?_
    rw [inUse_free pre post hfree] at hq
    have hout := around_outside hq
    omega
  refine ⟨fun x hx => hplaced.outside x ?_, fun x hlow hhigh => hblock x ?_ ?_⟩
  · by_contra hin
    exact hx (hblock x (by omega) (by omega))
  · have hptr := hplaced.ptr
    omega
  · obtain ⟨size, rest, -, -, hsize, -, hpayload⟩ :=
      @carve_head headerSize minBlock _ (heapVirtStart.toNat + span headerSize pre) _ hle
    have hin : (p.toNat, size) ∈
        inUse (pre ++ carve headerSize minBlock (roundUp n).toNat b ++ post) := by
      rw [hplaced.ptr]
      exact (inUse_busy pre _ post (span_carve b) hpayload).mem_iff.mpr (List.mem_cons_self ..)
    rw [hplaced.blocks.payloadSize hin] at hhigh
    have hptr := hplaced.ptr
    omega

/-- A heap that is free at its end only. -/
theorem kmalloc_last {pre : List Block} {r k : Nat} (h : Blocks s (pre ++ [⟨r, true⟩]))
    (hpre : ∀ x ∈ pre, x.free = false) (hn : n ≠ 0#64) (hk : (roundUp n).toNat = k) :
    (r < k → Heap.kmalloc s n = .error (.panic "Heap: Out of memory!")) ∧
    (k + headerSize + minBlock < r → ∃ s' p, Heap.kmalloc s n = .ok (s', p) ∧
      Blocks s' (pre ++ [⟨k, false⟩, ⟨r - k - headerSize, true⟩])) := by
  have hbusy : ∀ x ∈ pre, fits k x = false := by
    intro x hx
    rw [fits, hpre x hx, Bool.false_and]
  have heq := kmalloc_eq h hn
  rw [hk] at heq
  constructor
  · intro hsmall
    have hnone : firstFit k (pre ++ [⟨r, true⟩]) = none := by
      refine firstFit_eq_none fun x hx => ?_
      rcases List.mem_append.mp hx with hx | hx
      · exact hbusy x hx
      · rw [List.mem_singleton.mp hx]
        exact decide_eq_false (Nat.not_le.mpr hsmall)
    rw [hnone] at heq
    exact heq
  · intro hlarge
    have hfits : fits k ⟨r, true⟩ = true := decide_eq_true (show k ≤ r by omega)
    have hsome := firstFit_append [] hbusy hfits
    rw [hsome] at heq
    obtain ⟨s', p, heq⟩ : ∃ s' p, Heap.kmalloc s n = .ok (s', p) := ⟨_, _, heq⟩
    obtain ⟨pre', b, post, hsplit, hplaced⟩ := kmalloc_ok h hn heq
    have hfound := firstFit_append post (hk ▸ hplaced.first) (hk ▸ hplaced.fits)
    rw [← hsplit, hsome] at hfound
    obtain ⟨rfl, hrest⟩ := Prod.mk.inj (Option.some.inj hfound)
    obtain ⟨rfl, rfl⟩ := Prod.mk.inj hrest
    have hblocks := hplaced.blocks
    rw [hk, List.append_nil, carve, if_neg (Nat.not_le.mpr hlarge)] at hblocks
    exact ⟨s', p, heq, hblocks⟩

end Managed

end VectorForth.Heap
