import VectorForth.Memory.HeapRuns

/-!
# Freeing undoes allocating

The list of blocks is read from memory along the links, as a debugger would. A block
that is freed right after its allocation leaves the list as it was, and a heap
without live pointers is the single block of `heap_init`.
-/

namespace VectorForth.Heap

open ByteMemory BlockList LabelledRun

/-- A block as its header describes it. -/
structure Listed where
  block : Word
  size : Word
  free : Bool
  deriving DecidableEq

def blockListFrom : Nat → Mem → Word → List Listed
  | 0, _, _ => []
  | fuel + 1, m, block =>
      if block = 0#64 then []
      else ⟨block, size m block, free m block != 0#8⟩ :: blockListFrom fuel m (next m block)

/-- The blocks from `heap_head` along the links. -/
def blockList (s : State) : List Listed := blockListFrom walkFuel s.mem s.heapHead

/-- The list that the blocks make from `a` on. -/
def layout : Nat → List Block → List Listed
  | _, [] => []
  | a, b :: bs =>
      ⟨BitVec.ofNat 64 a, BitVec.ofNat 64 b.size, b.free⟩ :: layout (a + (headerSize + b.size)) bs

section Listing

variable {s s' : State} {m : Mem} {a fuel : Nat} {bs bs' pre post : List Block} {b : Block}

theorem blockListFrom_eq (h : Chained m 0 a bs) (ha : 0 < a) (hend : a + span headerSize bs < 2 ^ 64)
    (hfuel : bs.length < fuel) :
    blockListFrom fuel m (BitVec.ofNat 64 (linkTo bs a 0)) = layout a bs := by
  induction bs generalizing a fuel with
  | nil =>
      cases fuel with
      | zero => cases hfuel
      | succ fuel => rw [linkTo, blockListFrom, if_pos rfl, layout]
  | cons b bs ih =>
      obtain ⟨hhead, hrest⟩ := h
      have hspan : span headerSize (b :: bs) = headerSize + b.size + span headerSize bs := rfl
      have hsize : headerSize = 32 := rfl
      have hfields := hhead.fields (by omega)
      have hne : BitVec.ofNat 64 a ≠ 0#64 := by
        intro h0
        have h0 := congrArg BitVec.toNat h0
        rw [ofNat_toNat (by omega)] at h0
        exact absurd h0 (by simp; omega)
      have hfree : (free m (BitVec.ofNat 64 a) != 0#8) = b.free := by
        rw [Bool.eq_iff_iff, bne_iff_ne, hfields.free]
      cases fuel with
      | zero => cases hfuel
      | succ fuel =>
          rw [linkTo, blockListFrom, if_neg hne, hfields.size, hfree, hfields.next, layout,
            ih hrest (by omega) (by omega) (Nat.lt_of_succ_lt_succ hfuel)]

theorem blockList_eq (hhead : s.heapHead = heapVirtStart)
    (h : Chained s.mem 0 heapVirtStart.toNat bs) (hspan : span headerSize bs = 0x100000) :
    blockList s = layout heapVirtStart.toNat bs := by
  have hstart := heapVirtStart_toNat
  have hlen := length_le_span bs
  have hfuel : walkFuel = 0x8001 := rfl
  rw [hspan, headerSize] at hlen
  have hlink : BitVec.ofNat 64 (linkTo bs heapVirtStart.toNat 0) = s.heapHead := by
    rw [hhead]
    cases bs with
    | nil => exact absurd hspan (by decide)
    | cons b bs => rfl
  rw [Heap.blockList, ← hlink]
  exact blockListFrom_eq h (by omega) (by omega) (by omega)

/-- The listing of a sound heap. -/
theorem Blocks.blockList (h : Blocks s bs) : blockList s = layout heapVirtStart.toNat bs :=
  blockList_eq h.head h.chained h.span_eq

theorem Blocks.heapUsed_eq (h : Blocks s bs) (h' : Blocks s' bs) : s'.heapUsed = s.heapUsed :=
  BitVec.eq_of_toNat_eq (h'.used.trans h.used.symm)

/-- A block in use is not a free one. -/
theorem layout_ne (bs' : List Block) (hb : b.free = true) (n : Nat) :
    layout a (pre ++ ⟨n, false⟩ :: bs') ≠ layout a (pre ++ b :: post) := by
  induction pre generalizing a with
  | nil =>
      intro heq
      have hfree := congrArg Listed.free (List.cons.inj heq).1
      rw [hb] at hfree
      cases hfree
  | cons x pre ih =>
      intro heq
      exact ih (List.cons.inj heq).2

end Listing

section Release

variable {s s' : State} {bs : List Block} {live : List Word} {n p : Word}
  {c c₀ : Client} {ops : List HeapOp}

/-- A block that is freed right after it was allocated. -/
theorem kfree_kmalloc (h : Blocks s bs) (hk : kmalloc s n = .ok (s', p)) :
    ∃ t, kfree s' p = .ok t ∧ Blocks t bs := by
  by_cases hn : n = 0#64
  · rw [kmalloc, if_pos hn] at hk
    obtain ⟨rfl, rfl⟩ := Prod.mk.inj (Except.ok.inj hk)
    exact ⟨s, by rw [kfree, if_pos rfl], h⟩
  · obtain ⟨pre, b, post, rfl, hplaced⟩ := kmalloc_ok h hn hk
    obtain ⟨hfree, hle⟩ := Bool.and_eq_true_iff.mp hplaced.fits
    rw [decide_eq_true_eq] at hle
    obtain ⟨m, rest, hcarve, -, hm, -, -⟩ := @carve_head headerSize minBlock _ 0 _ hle
    have hblocks := hplaced.blocks
    rw [hcarve, List.append_assoc] at hblocks
    obtain ⟨t, hrun, hblocks', -⟩ := kfree_ok hblocks rfl hplaced.ptr
    have hback := coalesce_carve h.separate hfree hm hcarve
    rw [List.append_assoc] at hback
    refine ⟨t, hrun, ?_⟩
    rw [← hback]
    exact hblocks'

/-- Without live pointers there is one block. -/
theorem Sound.single (h : Sound s []) : Blocks s [⟨0x100000 - headerSize, true⟩] := by
  obtain ⟨bs, hblocks, hlive⟩ := h
  have hnone : inUse bs = [] := List.map_eq_nil_iff.mp (List.nil_perm.mp hlive)
  have hsingle : bs = [⟨span headerSize bs - headerSize, true⟩] :=
    single_of_free hblocks.separate (free_of_payloads hnone) hblocks.ne_nil
  rw [hblocks.span_eq] at hsingle
  rw [← hsingle]
  exact hblocks

/-- **Freeing undoes allocating**, and when all is freed the heap is as `heap_init` left
it. -/
theorem free_undoes_alloc (h₀ : Started c₀) (hrun : Run HeapStep c₀ ops c) :
    (∀ n s₁ p, kmalloc c.heap n = .ok (s₁, p) →
      ∃ s₂, kfree s₁ p = .ok s₂ ∧ blockList s₂ = blockList c.heap ∧
        s₂.heapUsed = c.heap.heapUsed) ∧
      (c.live = [] → blockList c.heap = [⟨heapVirtStart, heapInitialSize - heapHeaderSize, true⟩] ∧
        blockList c.heap = blockList c₀.heap ∧ c.heap.heapUsed = 0#64) := by
  have hsound := run_sound h₀ hrun
  constructor
  · intro n s₁ p hk
    obtain ⟨bs, hblocks, -⟩ := hsound
    obtain ⟨s₂, hfree, hblocks'⟩ := kfree_kmalloc hblocks hk
    refine ⟨s₂, hfree, ?_, hblocks.heapUsed_eq hblocks'⟩
    rw [hblocks.blockList, hblocks'.blockList]
  · intro hlive
    rw [hlive] at hsound
    have hblocks := hsound.single
    obtain ⟨⟨s, hheap⟩, -⟩ := h₀
    have hinit := heapInit_blocks s
    refine ⟨?_, ?_, ?_⟩
    · rw [hblocks.blockList]
      decide
    · rw [hheap, hblocks.blockList, hinit.blockList]
    · rw [hinit.heapUsed_eq hblocks]
      rfl

theorem HeapStep.taken (h : Sound s live) (hn : n ≠ 0#64) (hround : Rounds n)
    (hk : kmalloc s n = .ok (s', p)) :
    HeapStep { heap := s, live := live } (.call (.kmalloc n) p)
      { heap := s', live := p :: live } := by
  have herase : live.erase (HeapCall.kmalloc n).gives = live :=
    List.erase_of_not_mem h.zero_not_mem
  have hafter : (HeapCall.kmalloc n).after p live = p :: live := by
    rw [HeapCall.after, if_neg (h.malloc hn hround hk).ne_zero, herase]
  rw [← hafter]
  exact .call ⟨Or.inl rfl, hround⟩ hk

theorem HeapStep.released (hp : p ∈ live) (hfree : kfree s p = .ok s') :
    HeapStep { heap := s, live := live } (.call (.kfree p) 0#64)
      { heap := s', live := live.erase p } := by
  have hround : Rounds (HeapCall.kfree p).request := by
    rw [HeapCall.request]
    decide
  refine .call ⟨Or.inr hp, hround⟩ ?_
  rw [HeapCall.run, hfree]
  rfl

/-- The two pointers in use are given back. -/
theorem release_two {q : Word} (h : Sound s live) (hp : p ∈ live) (hq : live.erase p = [q]) :
    ∃ t u, kfree s p = .ok t ∧ kfree t q = .ok u ∧
      Run HeapStep { heap := s, live := live } [.call (.kfree p) 0#64, .call (.kfree q) 0#64]
        { heap := u, live := [] } := by
  obtain ⟨t, hfree, hsound, -⟩ := h.free hp
  have hstep := HeapStep.released hp hfree
  rw [hq] at hsound hstep
  obtain ⟨u, hfree', -⟩ := hsound.free (List.mem_singleton_self q)
  have hstep' := HeapStep.released (List.mem_singleton_self q) hfree'
  rw [List.erase_cons_head] at hstep'
  exact ⟨t, u, hfree, hfree', .cons hstep (.cons hstep' (.nil _))⟩

/-- Two allocations, freed in either order. -/
theorem free_undoes_alloc_two : ∃ s₁ p s₂ q,
    kmalloc (heapInit blankHeap) 100#64 = .ok (s₁, p) ∧ kmalloc s₁ 200#64 = .ok (s₂, q) ∧
      ∀ r ∈ [(p, q), (q, p)], ∃ t u, kfree s₂ r.1 = .ok t ∧ kfree t r.2 = .ok u ∧
        blockList u = blockList (heapInit blankHeap) ∧ u.heapUsed = 0#64 := by
  have hstart : Started { heap := heapInit blankHeap, live := [] } := ⟨⟨blankHeap, rfl⟩, rfl⟩
  obtain ⟨s₁, p, hk⟩ : ∃ s₁ p, kmalloc (heapInit blankHeap) 100#64 = .ok (s₁, p) :=
    ⟨_, _, kmalloc_eq (heapInit_blocks blankHeap) (by decide)⟩
  have hp := hstart.sound.malloc (by decide) (by decide) hk
  -- the rest of the one block has room for the second
  obtain ⟨s₂, q, hk'⟩ : ∃ s₂ q, kmalloc s₁ 200#64 = .ok (s₂, q) := by
    obtain ⟨pre, b, post, hsplit, hplaced⟩ :=
      kmalloc_ok (heapInit_blocks blankHeap) (by decide) hk
    obtain ⟨rfl, rfl, rfl⟩ : pre = [] ∧ b = ⟨0x100000 - headerSize, true⟩ ∧ post = [] := by
      cases pre with
      | nil => exact ⟨rfl, (List.cons.inj hsplit).1.symm, (List.cons.inj hsplit).2.symm⟩
      | cons x pre => exact absurd (List.cons.inj hsplit).2 (by simp)
    exact ⟨_, _, kmalloc_eq hplaced.blocks (by decide)⟩
  have hq := hp.sound.malloc (by decide) (by decide) hk'
  have hne : q ≠ p := fun h => (List.nodup_cons.mp hq.sound.nodup).1 (h ▸ List.mem_cons_self ..)
  refine ⟨s₁, p, s₂, q, hk, hk', fun r hr => ?_⟩
  obtain ⟨hmem, hlast⟩ : r.1 ∈ [q, p] ∧ [q, p].erase r.1 = [r.2] := by
    simp only [List.mem_cons, List.not_mem_nil, or_false] at hr
    rcases hr with rfl | rfl
    · refine ⟨List.mem_cons_of_mem _ (List.mem_cons_self ..), ?_⟩
      rw [List.erase_cons_tail (by simpa using hne), List.erase_cons_head]
    · exact ⟨List.mem_cons_self .., List.erase_cons_head ..⟩
  obtain ⟨t, u, hfree, hfree', hrelease⟩ := release_two hq.sound hmem hlast
  have hrun : Run HeapStep { heap := heapInit blankHeap, live := [] }
      (.call (.kmalloc 100#64) p :: .call (.kmalloc 200#64) q ::
        [.call (.kfree r.1) 0#64, .call (.kfree r.2) 0#64]) { heap := u, live := [] } :=
    .cons (.taken hstart.sound (by decide) (by decide) hk)
      (.cons (.taken hp.sound (by decide) (by decide) hk') hrelease)
  obtain ⟨-, hlist, hused⟩ := (free_undoes_alloc hstart hrun).2 rfl
  exact ⟨t, u, hfree, hfree', hlist, hused⟩

end Release

end VectorForth.Heap
