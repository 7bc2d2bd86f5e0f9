import VectorForth.Lib.Masks
import VectorForth.Memory.HeapBlocks

/-!
# One heap call

What `heap_init`, `kmalloc` and `kfree` do to a heap whose list of blocks is
known. `Blocks` is the integrity of the heap; the payloads in use are the live
allocations.
-/

namespace VectorForth.Heap

open ByteMemory BlockList

/-- The payloads in use, as address and size. -/
def inUse (bs : List Block) : List (Nat × Nat) :=
  payloads headerSize heapVirtStart.toNat bs

/-- The heap is the list of blocks `bs`: it tiles the region, its sizes are
multiples of 16, no two neighbours are free, and `heap_used` is what it uses. -/
structure Blocks (s : State) (bs : List Block) : Prop where
  head : s.heapHead = heapVirtStart
  stop : s.heapEnd = heapVirtStart + heapInitialSize
  chained : Chained s.mem 0 heapVirtStart.toNat bs
  tiles : heapVirtStart.toNat + span headerSize bs = s.heapEnd.toNat
  aligned : ∀ b ∈ bs, 16 ∣ b.size
  separate : Separate bs
  used : s.heapUsed.toNat = BlockList.used bs

section Blocks

variable {s s' : State} {bs pre post : List Block} {b : Block} {n ptr : Word} {p sz : Nat}

theorem Blocks.span_eq (h : Blocks s bs) : span headerSize bs = 0x100000 := by
  have htiles := h.tiles
  rw [h.stop] at htiles
  have hstop : (heapVirtStart + heapInitialSize).toNat = heapVirtStart.toNat + 0x100000 := by decide
  omega

theorem heapVirtStart_toNat : heapVirtStart.toNat = 0xFFFF800000300000 := by decide

theorem length_le_span (bs : List Block) : headerSize * bs.length ≤ span headerSize bs := by
  induction bs with
  | nil => exact Nat.le_refl _
  | cons b bs ih =>
      rw [List.length_cons, span, Nat.mul_succ]
      omega

theorem Blocks.length_lt (h : Blocks s bs) : bs.length < walkFuel := by
  have hlen := length_le_span bs
  have hspan := h.span_eq
  have hfuel : walkFuel = 0x8001 := rfl
  rw [hspan, headerSize] at hlen
  omega

theorem Blocks.ne_nil (h : Blocks s bs) : bs ≠ [] := by
  rintro rfl
  exact absurd h.span_eq (by decide)

/-- A heap whose headers are kept is the same list of blocks. -/
theorem Blocks.congr (h : Blocks s bs) {m : Mem}
    (hm : ∀ x, (∀ p ∈ inUse bs, ¬ (p.1 ≤ x ∧ x < p.1 + p.2)) → m x = s.mem x) :
    Blocks { s with mem := m } bs :=
  { h with chained := h.chained.congr fun x _ _ hx => hm x hx }

/-! ## `heap_init` -/

theorem heapInit_blocks (s : State) : Blocks (heapInit s) [⟨0x100000 - headerSize, true⟩] := by
  have hstart := heapVirtStart_toNat
  have hbase : heapVirtStart = BitVec.ofNat 64 heapVirtStart.toNat := by decide
  have hmem : (heapInit s).mem = write8 (write64 (write64 (write64 s.mem heapVirtStart.toNat
      (0x100000 - headerSize)) (heapVirtStart.toNat + 8) 0) (heapVirtStart.toNat + 16)
      heapMagic.toNat) (heapVirtStart.toNat + 24) 1#8 := by
    rw [heapInit]
    dsimp only
    rw [hbase, setFree_at (by omega), setMagic_at (by omega), setNext_at (by omega),
      setSize_at (by omega)]
    rfl
  constructor
  case head => rfl
  case stop => rfl
  case tiles =>
    show _ = (heapVirtStart + heapInitialSize).toNat
    decide
  case aligned => decide
  case separate => exact List.isChain_singleton _
  case used => rfl
  case chained =>
    rw [hmem]
    exact ⟨headerAt_new s.mem _ (by decide) (by decide), trivial⟩

/-! ## `kmalloc` -/

/-- The requests that are not wrapped by the rounding. -/
def Rounds (n : Word) : Prop := n.toNat + 15 < 2 ^ 64

instance : DecidablePred Rounds := fun n => inferInstanceAs (Decidable (n.toNat + 15 < 2 ^ 64))

theorem roundUp_toNat (h : Rounds n) : (roundUp n).toNat = (n.toNat + 15) / 16 * 16 :=
  Masks.toNat_round_up (k := 4) n (by decide) h

theorem roundUp_dvd (n : Word) : 16 ∣ (roundUp n).toNat := by
  have hround : (roundUp n).toNat = (n + 15#64).toNat / 2 ^ 4 * 2 ^ 4 :=
    Masks.toNat_and_not_mask (k := 4) _ (by decide)
  rw [hround]
  exact Nat.dvd_mul_left _ _

theorem kmalloc_eq (h : Blocks s bs) (hn : n ≠ 0#64) :
    kmalloc s n = match firstFit (roundUp n).toNat bs with
      | none => .error (.panic "Heap: Out of memory!")
      | some (pre, _, _) => .ok (takeBlock s (roundUp n)
          (BitVec.ofNat 64 (heapVirtStart.toNat + span headerSize pre))) := by
  have hspan := h.span_eq
  have hstart := heapVirtStart_toNat
  have hlink : BitVec.ofNat 64 (linkTo bs heapVirtStart.toNat 0) = s.heapHead := by
    rw [h.head]
    cases hbs : bs with
    | nil => exact absurd hbs h.ne_nil
    | cons b bs => rfl
  rw [kmalloc, if_neg hn, ← hlink]
  exact kmallocFrom_eq h.chained (by omega) (by omega) h.length_lt _

/-- Memory is the only thing that can run out. -/
theorem kmalloc_error {e : Stop} (h : Blocks s bs) (he : kmalloc s n = .error e) :
    e = .panic "Heap: Out of memory!" := by
  by_cases hn : n = 0#64
  · rw [kmalloc, if_pos hn] at he
    cases he
  · rw [kmalloc_eq h hn] at he
    split at he
    · exact (Except.error.inj he).symm
    · cases he

/-- What a call that found a block has done. -/
structure Placed (s : State) (pre : List Block) (b : Block) (post : List Block) (n : Word)
    (s' : State) (ptr : Word) : Prop where
  fits : fits n.toNat b = true
  first : ∀ x ∈ pre, BlockList.fits n.toNat x = false
  blocks : Blocks s' (pre ++ carve headerSize minBlock n.toNat b ++ post)
  ptr : ptr.toNat = heapVirtStart.toNat + span headerSize pre + headerSize
  outside : ∀ x, x < heapVirtStart.toNat + span headerSize pre ∨
    heapVirtStart.toNat + span headerSize pre + (headerSize + b.size) ≤ x → s'.mem x = s.mem x

theorem kmalloc_ok (h : Blocks s bs) (hn : n ≠ 0#64)
    (hk : kmalloc s n = .ok (s', ptr)) :
    ∃ pre b post, bs = pre ++ b :: post ∧ Placed s pre b post (roundUp n) s' ptr := by
  have hspan := h.span_eq
  have hstart := heapVirtStart_toNat
  have hsize : headerSize = 32 := rfl
  have hmin : minBlock = 64 := rfl
  rw [kmalloc_eq h hn] at hk
  split at hk
  · cases hk
  · rename_i pre b post hfit
    obtain ⟨rfl, hb, hpre⟩ := firstFit_some hfit
    refine ⟨pre, b, post, rfl, ?_⟩
    have hk16 := roundUp_dvd n
    generalize roundUp n = k at *
    obtain ⟨hfree, hle⟩ := Bool.and_eq_true_iff.mp hb
    rw [decide_eq_true_eq] at hle
    have hused : BlockList.used (pre ++ b :: post) ≤ 0x100000 := by
      rw [← hspan]
      exact used_le_span _ _
    rw [span_append, span] at hspan
    obtain ⟨hchpre, hchpost⟩ := (chained_append pre (b :: post) _).mp h.chained
    obtain ⟨hchain, houtside⟩ := takeBlock_chained (n := k) hchpost hle (by omega) (by decide) (by omega)
    obtain ⟨hstate, rfl⟩ := Prod.mk.inj (Except.ok.inj hk)
    obtain ⟨size, rest, hcarve, -, hle', hcarved, -⟩ := @carve_head headerSize minBlock _ 0 _ hle
    have hheader := hchain
    rw [hcarve] at hheader
    have hread := (hheader.1.fields (by omega)).size
    rw [hread] at hstate
    generalize setFree (heapSplit s.mem (BitVec.ofNat 64 (heapVirtStart.toNat +
      span headerSize pre)) k) (BitVec.ofNat 64 (heapVirtStart.toNat + span headerSize pre)) 0#8 =
        m at hchain houtside hstate
    subst hstate
    constructor
    case fits => exact hb
    case first => exact hpre
    case outside => exact houtside
    case ptr =>
      show (BitVec.ofNat 64 _ + BitVec.ofNat 64 32).toNat = _
      rw [ofNat_add_toNat (by omega)]
      rfl
    case blocks =>
      constructor
      case head => exact h.head
      case stop => exact h.stop
      case chained =>
        rw [List.append_assoc]
        refine (chained_append pre _ _).mpr ⟨?_, hchain⟩
        rw [hcarve]
        exact hchpre.congr fun x _ hx _ => houtside x (Or.inl hx)
      case tiles =>
        rw [← h.tiles]
        simp only [span_append, span_carve, span]
        omega
      case aligned =>
        intro x hx
        rcases List.mem_append.mp hx with hx | hx
        · rcases List.mem_append.mp hx with hx | hx
          · exact h.aligned x (List.mem_append_left _ hx)
          · exact dvd_carve (by decide) hk16
              (h.aligned b (List.mem_append_right _ (List.mem_cons_self ..))) x hx
        · exact h.aligned x (List.mem_append_right _ (List.mem_cons_of_mem _ hx))
      case separate => exact separate_carve h.separate hfree
      case used =>
        have hold := h.used
        rw [used_append, BlockList.used, if_pos hfree] at hold hused
        show (s.heapUsed + BitVec.ofNat 64 size).toNat = _
        rw [BitVec.toNat_add, BitVec.toNat_ofNat, used_append, used_append, hcarved, hold]
        omega

/-! ## `kfree` -/

theorem heapCoalesce_eq (h : Chained s.mem 0 heapVirtStart.toNat bs) (hhead : s.heapHead = heapVirtStart)
    (hspan : span headerSize bs = 0x100000) :
    ∃ m, heapCoalesce s = .ok { s with mem := m } ∧
      Chained m 0 heapVirtStart.toNat (coalesce headerSize bs) ∧
        ∀ x, Untouched heapVirtStart.toNat bs x → m x = s.mem x := by
  have hstart := heapVirtStart_toNat
  have hlen := length_le_span bs
  have hfuel : walkFuel = 0x8001 := rfl
  rw [hspan, headerSize] at hlen
  cases bs with
  | nil => exact absurd hspan (by decide)
  | cons b bs =>
      rw [List.length_cons] at hlen
      have hbase : s.heapHead = BitVec.ofNat 64 heapVirtStart.toNat := by
        rw [hhead]
        decide
      obtain ⟨m, hrun, hchain, hframe⟩ :=
        heapCoalesceFrom_eq h (by omega) (by omega) (show bs.length < walkFuel by omega)
      refine ⟨m, ?_, hchain, hframe⟩
      rw [heapCoalesce, hbase, hrun]

/-- A block in use is freed and joined with its free neighbours. -/
theorem kfree_ok (h : Blocks s (pre ++ b :: post)) (hb : b.free = false)
    (hptr : ptr.toNat = heapVirtStart.toNat + span headerSize pre + headerSize) :
    ∃ s', kfree s ptr = .ok s' ∧
      Blocks s' (coalesce headerSize (pre ++ { b with free := true } :: post)) ∧
        ∀ x, Untouched heapVirtStart.toNat (pre ++ { b with free := true } :: post) x →
          s'.mem x = s.mem x := by
  have hspan := h.span_eq
  have hstart := heapVirtStart_toNat
  have hsize : headerSize = 32 := rfl
  have hbound : BlockList.used (pre ++ b :: post) ≤ 0x100000 := by
    rw [← hspan]
    exact used_le_span _ _
  have hspan' : span headerSize (pre ++ { b with free := true } :: post) = 0x100000 := by
    rw [← hspan, span_append, span_append, span, span]
  rw [span_append, span] at hspan
  obtain ⟨hchpre, hchb, hchpost⟩ := (chained_append pre (b :: post) _).mp h.chained
  have hblock : ptr - heapHeaderSize =
      BitVec.ofNat 64 (heapVirtStart.toNat + span headerSize pre) := by
    apply BitVec.eq_of_toNat_eq
    rw [ofNat_toNat (by omega), heapHeaderSize, BitVec.toNat_sub, BitVec.toNat_ofNat, hptr]
    omega
  have hne : ptr ≠ 0#64 := by
    rintro rfl
    rw [BitVec.toNat_ofNat, Nat.zero_mod] at hptr
    omega
  have hfields := hchb.fields (by omega)
  have hused : ¬ free s.mem (BitVec.ofNat 64 (heapVirtStart.toNat + span headerSize pre)) ≠ 0#8 := by
    rw [hfields.free, hb]
    exact Bool.false_ne_true
  rw [kfree, if_neg hne, hblock]
  dsimp only
  rw [if_neg (not_not_intro hfields.magic), if_neg hused, hfields.size, setFree_at (by omega)]
  generalize hp : heapVirtStart.toNat + span headerSize pre = p at *
  have hwrite : ∀ x, x < p ∨ p + headerSize ≤ x → write8 s.mem (p + 24) 1#8 x = s.mem x :=
    fun x hx => write8_outside (by omega)
  have hchain : Chained (write8 s.mem (p + 24) 1#8) 0 heapVirtStart.toNat
      (pre ++ { b with free := true } :: post) := by
    rw [chained_append, hp]
    refine ⟨hchpre.congr fun x _ hx _ => hwrite x (Or.inl (by omega)), ?_⟩
    exact ⟨hchb.setFree (f := true), hchpost.congr fun x hx _ _ => hwrite x (Or.inr (by omega))⟩
  obtain ⟨m, hrun, hchain', hframe⟩ := heapCoalesce_eq (s := { s with
    mem := write8 s.mem (p + 24) 1#8
    heapUsed := s.heapUsed - BitVec.ofNat 64 b.size }) hchain h.head hspan'
  refine ⟨_, hrun, ?_, ?_⟩
  · constructor
    case head => exact h.head
    case stop => exact h.stop
    case chained => exact hchain'
    case tiles =>
      show heapVirtStart.toNat + _ = s.heapEnd.toNat
      rw [← h.tiles, span_coalesce, span_append, span_append, span, span]
    case aligned =>
      refine dvd_coalesce (by decide) ?_
      intro x hx
      rcases List.mem_append.mp hx with hx | hx
      · exact h.aligned x (List.mem_append_left _ hx)
      · rcases List.mem_cons.mp hx with rfl | hx
        · exact h.aligned b (List.mem_append_right _ (List.mem_cons_self ..))
        · exact h.aligned x (List.mem_append_right _ (List.mem_cons_of_mem _ hx))
    case separate => exact separate_coalesce _
    case used =>
      have hold := h.used
      rw [used_append, BlockList.used, if_neg (by rw [hb]; exact Bool.false_ne_true)] at hold hbound
      show (s.heapUsed - BitVec.ofNat 64 b.size).toNat = _
      rw [BitVec.toNat_sub, ofNat_toNat (by omega), hold, used_coalesce, used_append, BlockList.used,
        if_pos rfl]
      omega
  · intro x hx
    refine (hframe x hx).trans (hwrite x ?_)
    -- the byte that is written is in the header of the block itself
    rcases hx with (hx | hx) | ⟨q, hq, hx⟩
    · exact Or.inl (by omega)
    · exact Or.inr (by omega)
    · rw [payloads_append, payloads, if_pos rfl] at hq
      rcases List.mem_append.mp hq with hq | hq
      · have hbound := (payload_bounds hq).2
        exact Or.inl (by omega)
      · have hbound := (payload_bounds hq).1
        exact Or.inr (by omega)

end Blocks

end VectorForth.Heap
