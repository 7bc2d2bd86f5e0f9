import VectorForth.Lib.Recency
import VectorForth.Fs.BlockCache

/-!
# Which buffer is replaced

A miss replaces the first buffer with the smallest `last_used`. The stamps are
timer ticks, and many calls fall into one tick, so the smallest stamp need not
belong to the least recently used buffer alone. A trace records the buffers that
`block_get` returned; `evicts_oldest_iff` says when the victim is the oldest.
-/

namespace VectorForth.BlockDevice

open ByteMemory LabelledRun Recency

/-! ## The replacement loop -/

section Oldest

variable {s : State}

/-- `last_used` as a number. -/
def stampOf (s : State) (i : Fin numBuffers) : Nat := (s.buffers i).lastUsed.toNat

/-- The rest of the loop, over buffers that are all valid, keeps the candidate or
ends at the first buffer with the smallest stamp below that of the candidate. -/
theorem oldestFrom_spec {l : List (Fin numBuffers)} (hsorted : l.Pairwise (· < ·))
    (hvalid : ∀ i ∈ l, (s.buffers i).valid = true) (idx : Fin numBuffers) (t : BitVec 64) :
    (oldestFrom s l idx t = idx ∧ ∀ i ∈ l, t.toNat ≤ stampOf s i) ∨
      (oldestFrom s l idx t ∈ l ∧ stampOf s (oldestFrom s l idx t) < t.toNat ∧
        (∀ i ∈ l, stampOf s (oldestFrom s l idx t) ≤ stampOf s i) ∧
        ∀ i ∈ l, i < oldestFrom s l idx t → stampOf s (oldestFrom s l idx t) < stampOf s i) := by
  induction l generalizing idx t with
  | nil => exact Or.inl ⟨rfl, fun i hi => absurd hi List.not_mem_nil⟩
  | cons x l ih =>
      obtain ⟨hbefore, hsorted'⟩ := List.pairwise_cons.mp hsorted
      have hvalid' : ∀ i ∈ l, (s.buffers i).valid = true :=
        fun i hi => hvalid i (List.mem_cons_of_mem _ hi)
      have hx : (!(s.buffers x).valid) ≠ true := by
        rw [hvalid x (List.mem_cons_self ..)]
        exact Bool.false_ne_true
      have hstamp : (s.buffers x).lastUsed < t ↔ stampOf s x < t.toNat := Iff.rfl
      rw [oldestFrom, if_neg hx]
      split <;> rename_i hlt
      · -- `x` is the candidate from here on
        rw [hstamp] at hlt
        rcases ih hsorted' hvalid' x (s.buffers x).lastUsed with
          ⟨hres, hall⟩ | ⟨hmem, hless, hall, hfirst⟩
        · rw [hres]
          refine Or.inr ⟨List.mem_cons_self .., hlt, ?_, ?_⟩
          · intro i hi
            rcases List.mem_cons.mp hi with rfl | hi
            · exact le_refl _
            · exact hall i hi
          · intro i hi hix
            rcases List.mem_cons.mp hi with rfl | hi
            · exact absurd hix (lt_irrefl _)
            · exact absurd hix (lt_asymm (hbefore i hi))
        · generalize oldestFrom s l x (s.buffers x).lastUsed = r at hmem hless hall hfirst ⊢
          refine Or.inr ⟨List.mem_cons_of_mem _ hmem, hless.trans hlt, ?_, ?_⟩
          · intro i hi
            rcases List.mem_cons.mp hi with rfl | hi
            · exact hless.le
            · exact hall i hi
          · intro i hi hir
            rcases List.mem_cons.mp hi with rfl | hi
            · exact hless
            · exact hfirst i hi hir
      · rw [hstamp, not_lt] at hlt
        rcases ih hsorted' hvalid' idx t with ⟨hres, hall⟩ | ⟨hmem, hless, hall, hfirst⟩
        · refine Or.inl ⟨hres, ?_⟩
          intro i hi
          rcases List.mem_cons.mp hi with rfl | hi
          · exact hlt
          · exact hall i hi
        · generalize oldestFrom s l idx t = r at hmem hless hall hfirst ⊢
          refine Or.inr ⟨List.mem_cons_of_mem _ hmem, hless, ?_, ?_⟩
          · intro i hi
            rcases List.mem_cons.mp hi with rfl | hi
            · exact (hless.trans_le hlt).le
            · exact hall i hi
          · intro i hi hir
            rcases List.mem_cons.mp hi with rfl | hi
            · exact hless.trans_le hlt
            · exact hfirst i hi hir

/-- With all buffers valid, the victim is the first of the smallest stamps. -/
theorem oldestBuffer_first (hvalid : ∀ i, (s.buffers i).valid = true) :
    FirstSmallest (stampOf s) (oldestBuffer s) := by
  have hsorted : (List.finRange numBuffers).Pairwise (· < ·) := List.pairwise_lt_finRange _
  rcases oldestFrom_spec (s := s) hsorted (fun i _ => hvalid i) 0 0xFFFFFFFFFFFFFFFF#64 with
    ⟨hres, hall⟩ | ⟨-, -, hall, hfirst⟩
  · -- every stamp is the largest there is, and buffer 0 comes first
    rw [← oldestBuffer] at hres
    have hmax : ∀ i, stampOf s i = 0xFFFFFFFFFFFFFFFF := by
      intro i
      have hle := hall i (List.mem_finRange i)
      have hlt : stampOf s i < 2 ^ 64 := (s.buffers i).lastUsed.isLt
      change 0xFFFFFFFFFFFFFFFF ≤ _ at hle
      omega
    rw [hres]
    refine ⟨fun b => by rw [hmax, hmax], ?_⟩
    intro b hb
    exact absurd hb (Fin.not_lt_zero b)
  · rw [← oldestBuffer] at hall hfirst
    exact ⟨fun b => hall b (List.mem_finRange b), fun b hb => hfirst b (List.mem_finRange b) hb⟩

/-- An invalid buffer ends the loop. -/
theorem oldestFrom_invalid {l : List (Fin numBuffers)}
    (h : ∃ i ∈ l, (s.buffers i).valid = false) (idx : Fin numBuffers) (t : BitVec 64) :
    (s.buffers (oldestFrom s l idx t)).valid = false := by
  induction l generalizing idx t with
  | nil =>
      obtain ⟨i, hi, -⟩ := h
      exact absurd hi List.not_mem_nil
  | cons x l ih =>
      rw [oldestFrom]
      split <;> rename_i hx
      · simpa using hx
      · have hrest : ∃ i ∈ l, (s.buffers i).valid = false := by
          obtain ⟨i, hi, hinvalid⟩ := h
          rcases List.mem_cons.mp hi with rfl | hi
          · rw [hinvalid] at hx
            exact absurd rfl hx
          · exact ⟨i, hi, hinvalid⟩
        split
        · exact ih hrest _ _
        · exact ih hrest _ _

theorem oldestBuffer_invalid {i : Fin numBuffers} (h : (s.buffers i).valid = false) :
    (s.buffers (oldestBuffer s)).valid = false :=
  oldestFrom_invalid ⟨i, List.mem_finRange i, h⟩ 0 _

end Oldest

/-! ## Traces -/

/-- A cache with the buffers that `block_get` has returned, newest first, and its
last request with the pointer returned for it. -/
structure Trace where
  cache : State
  gets : List (Fin numBuffers)
  last : Option (BitVec 32 × Nat)

inductive GetOp
  | get (n : BitVec 32)
  | tick (t : BitVec 64)

/-- `block_get` calls under a `kernel_ticks` that never goes back. -/
inductive GetStep (base : Nat) : Trace → GetOp → Trace → Prop
  | get {c : Trace} {n : BitVec 32} :
      GetStep base c (.get n)
        { cache := (blockGet base c.cache n).1
          gets := (blockGet base c.cache n).1.mostRecentBuffer :: c.gets
          last := some (n, (blockGet base c.cache n).2) }
  | tick {c : Trace} {t : BitVec 64} (ht : c.cache.kernelTicks.toNat ≤ t.toNat) :
      GetStep base c (.tick t) { c with cache := { c.cache with kernelTicks := t } }

/-- Right after `block_init`. -/
def Trace.Start (c : Trace) : Prop :=
  (∀ i, (c.cache.buffers i).valid = false) ∧ c.gets = [] ∧ c.last = none

/-- What the stamps say about the trace. -/
structure Trace.Inv (base : Nat) (c : Trace) : Prop where
  used : ∀ i, (c.cache.buffers i).valid = true ↔ i ∈ c.gets
  stamped : Stamped c.gets (stampOf c.cache) c.cache.kernelTicks.toNat
  recent : ∀ n ptr, c.last = some (n, ptr) →
    (∃ gets, c.gets = c.cache.mostRecentBuffer :: gets) ∧
    (c.cache.buffers c.cache.mostRecentBuffer).valid = true ∧
    (c.cache.buffers c.cache.mostRecentBuffer).blockNum = n ∧
    ptr = blockAddr base c.cache.mostRecentBuffer

section Trace

variable {base : Nat} {c c' : Trace} {op : GetOp}

theorem Trace.Start.inv (h : c.Start) : c.Inv base := by
  obtain ⟨hinvalid, hgets, hlast⟩ := h
  refine ⟨?_, ?_, ?_⟩
  · intro i
    rw [hinvalid, hgets]
    simp
  · rw [hgets]
    exact .nil
  · intro n ptr hsome
    rw [hlast] at hsome
    cases hsome

/-- The buffer that `block_get` returns: valid, stamped now, with the block asked
for. The other buffers keep their stamps. -/
structure Returns (base : Nat) (s : State) (n : BitVec 32) (i : Fin numBuffers) (s' : State) :
    Prop where
  recent : s'.mostRecentBuffer = i
  valid : (s'.buffers i).valid = true
  blockNum : (s'.buffers i).blockNum = n
  stamp : (s'.buffers i).lastUsed = s.kernelTicks
  others : ∀ j, j ≠ i → s'.buffers j = s.buffers j
  ticks : s'.kernelTicks = s.kernelTicks
  ptr : (blockGet base s n).2 = blockAddr base i

theorem writeBufferToDisk_ticks (s : State) (idx : Fin numBuffers) :
    (writeBufferToDisk base s idx).kernelTicks = s.kernelTicks := by
  unfold writeBufferToDisk
  split <;> rfl

theorem loadBlock_ticks (s : State) (idx : Fin numBuffers) (n : BitVec 32) :
    (loadBlock base s idx n).kernelTicks = s.kernelTicks :=
  writeBufferToDisk_ticks s idx

theorem blockGet_hit {s : State} {n : BitVec 32} {i : Fin numBuffers}
    (hfind : findBuffer s n = some i) : Returns base s n i (blockGet base s n).1 := by
  obtain ⟨hvalid, hnum⟩ := findBuffer_some hfind
  have hget : blockGet base s n =
      ({ s.setBuffer i { s.buffers i with lastUsed := s.kernelTicks } with mostRecentBuffer := i },
        blockAddr base i) := by
    rw [blockGet, hfind]
  rw [hget]
  constructor
  case recent => rfl
  case valid => exact (congrArg Buffer.valid (State.setBuffer_same ..)).trans hvalid
  case blockNum => exact (congrArg Buffer.blockNum (State.setBuffer_same ..)).trans hnum
  case stamp => exact congrArg Buffer.lastUsed (State.setBuffer_same ..)
  case others => exact fun j hj => State.setBuffer_other hj
  case ticks => rfl
  case ptr => rw [hget]

theorem blockGet_miss {s : State} {n : BitVec 32} (hfind : findBuffer s n = none) :
    Returns base s n (oldestBuffer s) (blockGet base s n).1 := by
  have hget : blockGet base s n =
      (loadBlock base s (oldestBuffer s) n, blockAddr base (oldestBuffer s)) := by
    rw [blockGet, hfind]
  rw [hget]
  generalize oldestBuffer s = i at hget ⊢
  constructor
  case recent => exact loadBlock_mostRecent i n
  case valid => rw [loadBlock_buffers_self]
  case blockNum => rw [loadBlock_buffers_self]
  case stamp => rw [loadBlock_buffers_self, writeBufferToDisk_ticks]
  case others => exact fun j hj => loadBlock_buffers_other hj
  case ticks => exact loadBlock_ticks s i n
  case ptr => rw [hget]

theorem blockGet_returns (base : Nat) (s : State) (n : BitVec 32) :
    ∃ i, Returns base s n i (blockGet base s n).1 := by
  cases hfind : findBuffer s n with
  | some i => exact ⟨i, blockGet_hit hfind⟩
  | none => exact ⟨_, blockGet_miss hfind⟩

theorem Returns.stampOf {s s' : State} {n : BitVec 32} {i : Fin numBuffers}
    (h : Returns base s n i s') :
    stampOf s' = Function.update (stampOf s) i s.kernelTicks.toNat := by
  funext j
  rcases eq_or_ne j i with rfl | hj
  · rw [Function.update_self, BlockDevice.stampOf, h.stamp]
  · rw [Function.update_of_ne hj, BlockDevice.stampOf, h.others j hj, BlockDevice.stampOf]

theorem GetStep.inv (hstep : GetStep base c op c') (h : c.Inv base) : c'.Inv base := by
  cases hstep with
  | @get n =>
      obtain ⟨i, hret⟩ := blockGet_returns base c.cache n
      have hptr := hret.ptr
      generalize blockGet base c.cache n = r at hret hptr
      obtain ⟨s', ptr⟩ := r
      dsimp only at hret hptr ⊢
      have hrecent := hret.recent
      constructor
      case used =>
        intro j
        dsimp only
        rw [hrecent]
        rcases eq_or_ne j i with rfl | hj
        · simp [hret.valid]
        · rw [hret.others j hj, h.used, List.mem_cons]
          exact ⟨Or.inr, fun hmem => hmem.resolve_left hj⟩
      case stamped =>
        dsimp only
        rw [hret.stampOf, hret.ticks, hrecent]
        exact h.stamped.use i
      case recent =>
        rintro m p heq
        obtain ⟨rfl, rfl⟩ := Prod.mk.inj (Option.some.inj heq)
        dsimp only
        rw [hrecent]
        exact ⟨⟨_, rfl⟩, hret.valid, hret.blockNum, hptr⟩
  | tick ht => exact ⟨h.used, h.stamped.tick ht, h.recent⟩

end Trace

/-! ## Least recently used -/

/-- A miss that needs a buffer although all are valid. -/
def Replaces (s : State) (n : BitVec 32) : Prop :=
  findBuffer s n = none ∧ ∀ i, (s.buffers i).valid = true

/-- `block_get` of `n` replaces the least recently used buffer, if any, and does
not return the buffer just obtained for another block. -/
structure EvictsOldest (base : Nat) (c : Trace) (n : BitVec 32) : Prop where
  victim : Replaces c.cache n → Oldest c.gets (blockGet base c.cache n).1.mostRecentBuffer
  distinct : ∀ m ptr, c.last = some (m, ptr) → m ≠ n → (blockGet base c.cache n).2 ≠ ptr

/-- No buffer before the least recently used one carries the same stamp, if
`block_get` of `n` replaces a buffer. -/
def Untied (c : Trace) (n : BitVec 32) : Prop :=
  Replaces c.cache n → ∀ i, Oldest c.gets i → ∀ j, j < i →
    (c.cache.buffers j).lastUsed ≠ (c.cache.buffers i).lastUsed

section Lru

variable {base : Nat} {c : Trace} {n : BitVec 32}

theorem blockAddr_ne (base : Nat) {i j : Fin numBuffers} (h : i ≠ j) :
    blockAddr base i ≠ blockAddr base j := by
  have hdisj := blockAddr_disjoint base h
  have hsize : blockSize = 1024 := rfl
  omega

theorem victim_oldest_iff (h : c.Inv base) (hrep : Replaces c.cache n) :
    Oldest c.gets (blockGet base c.cache n).1.mostRecentBuffer ↔
      ∀ i, Oldest c.gets i → ∀ j, j < i →
        (c.cache.buffers j).lastUsed ≠ (c.cache.buffers i).lastUsed := by
  obtain ⟨hmiss, hvalid⟩ := hrep
  have hused : ∀ i, i ∈ c.gets := fun i => (h.used i).mp (hvalid i)
  rw [(blockGet_miss hmiss).recent, h.stamped.oldest_iff hused (oldestBuffer_first hvalid)]
  have hstamp : ∀ i j, stampOf c.cache j ≠ stampOf c.cache i ↔
      (c.cache.buffers j).lastUsed ≠ (c.cache.buffers i).lastUsed := by
    intro i j
    exact not_congr (BitVec.toNat_inj)
  simp only [hstamp]

/-- A buffer that was just obtained is not returned for another block, unless it
is replaced as the victim of a full cache. -/
theorem distinct_of_not_victim (h : c.Inv base)
    (hvictim : Replaces c.cache n → oldestBuffer c.cache ≠ c.cache.mostRecentBuffer)
    {m : BitVec 32} {ptr : Nat} (hlast : c.last = some (m, ptr)) (hne : m ≠ n) :
    (blockGet base c.cache n).2 ≠ ptr := by
  obtain ⟨-, hvalid, hnum, rfl⟩ := h.recent m ptr hlast
  cases hfind : findBuffer c.cache n with
  | some i =>
      obtain ⟨-, hnum'⟩ := findBuffer_some hfind
      rw [(blockGet_hit hfind).ptr]
      refine blockAddr_ne base ?_
      rintro rfl
      exact hne (hnum.symm.trans hnum')
  | none =>
      rw [(blockGet_miss hfind).ptr]
      refine blockAddr_ne base ?_
      by_cases hall : ∀ i, (c.cache.buffers i).valid = true
      · exact hvictim ⟨hfind, hall⟩
      · obtain ⟨i, hi⟩ := not_forall.mp hall
        have hinvalid := oldestBuffer_invalid (s := c.cache) (by simpa using hi)
        intro heq
        rw [heq, hvalid] at hinvalid
        cases hinvalid

theorem evictsOldest_iff (h : c.Inv base) (n : BitVec 32) :
    EvictsOldest base c n ↔ Untied c n := by
  constructor
  · intro hevicts hrep
    exact (victim_oldest_iff h hrep).mp (hevicts.victim hrep)
  · intro huntied
    refine ⟨fun hrep => (victim_oldest_iff h hrep).mpr (huntied hrep), ?_⟩
    intro m ptr hlast hne
    refine distinct_of_not_victim h ?_ hlast hne
    intro hrep heq
    -- the oldest of eight buffers is not the one used last
    obtain ⟨⟨gets, hgets⟩, -⟩ := h.recent m ptr hlast
    have hold := (victim_oldest_iff h hrep).mpr (huntied hrep)
    rw [(blockGet_miss hrep.1).recent, heq, hgets] at hold
    obtain ⟨j, hj⟩ := exists_ne c.cache.mostRecentBuffer
    exact not_oldest_of_used hj hold

/-- **Eviction is least-recently-used exactly when no tie decides it**, in every
state that `block_get` calls reach under a clock that never goes back. -/
theorem evicts_lru_iff {c₀ : Trace} {ops : List GetOp} (h₀ : c₀.Start)
    (hrun : Run (GetStep base) c₀ ops c) (n : BitVec 32) :
    EvictsOldest base c n ↔ Untied c n := by
  have h : c.Inv base := hrun.invariant (I := Trace.Inv base)
    (fun _ _ _ hinv hstep => hstep.inv hinv) h₀.inv
  exact evictsOldest_iff h n

end Lru

/-! ## One tick -/

def blankTrace : Trace where
  cache := blankSession.cache
  gets := []
  last := none

/-- The trace after requests for `ns` within one tick. -/
def requests (base : Nat) (ns : List (BitVec 32)) (c : Trace) : Trace :=
  ns.foldl (fun c n =>
    { cache := (blockGet base c.cache n).1
      gets := (blockGet base c.cache n).1.mostRecentBuffer :: c.gets
      last := some (n, (blockGet base c.cache n).2) }) c

theorem requests_run (base : Nat) (ns : List (BitVec 32)) (c : Trace) :
    Run (GetStep base) c (ns.map .get) (requests base ns c) := by
  induction ns generalizing c with
  | nil => exact .nil c
  | cons n ns ih => exact .cons .get (ih _)

/-- The requests 0 to 8 within one tick. -/
def nineRequests : List (BitVec 32) := [0, 1, 2, 3, 4, 5, 6, 7, 8]

/-- After nine requests in one tick, the tenth replaces the buffer that the ninth
has just obtained. -/
theorem same_tick_replaces_newest :
    Run (GetStep 0x1000) blankTrace (nineRequests.map .get)
        (requests 0x1000 nineRequests blankTrace) ∧
      (requests 0x1000 nineRequests blankTrace).last =
        some (8#32, blockAddr 0x1000 0) ∧
      (blockGet 0x1000 (requests 0x1000 nineRequests blankTrace).cache 9#32).2 =
        blockAddr 0x1000 0 ∧
      ¬ EvictsOldest 0x1000 (requests 0x1000 nineRequests blankTrace) 9#32 := by
  have hlast : (requests 0x1000 nineRequests blankTrace).last =
      some (8#32, blockAddr 0x1000 0) := by decide +kernel
  have hnext : (blockGet 0x1000 (requests 0x1000 nineRequests blankTrace).cache 9#32).2 =
      blockAddr 0x1000 0 := by decide +kernel
  refine ⟨requests_run _ _ _, hlast, hnext, ?_⟩
  intro h
  exact h.distinct _ _ hlast (by decide) hnext

/-! ## A tick for each request -/

/-- The next tick. -/
def Trace.tick (c : Trace) : Trace :=
  { c with cache := { c.cache with kernelTicks := c.cache.kernelTicks + 1#64 } }

/-- The trace after requests for `ns`, each in a tick of its own. -/
def spacedRequests (base : Nat) : List (BitVec 32) → Trace → Trace
  | [], c => c
  | n :: ns, c => spacedRequests base ns (requests base [n] c.tick)

/-- The ticks and the requests, from tick `t` on. -/
def spacedOps : BitVec 64 → List (BitVec 32) → List GetOp
  | _, [] => []
  | t, n :: ns => .tick (t + 1#64) :: .get n :: spacedOps (t + 1#64) ns

theorem spacedRequests_run (base : Nat) (ns : List (BitVec 32)) (c : Trace)
    (h : c.cache.kernelTicks.toNat + ns.length < 2 ^ 64) :
    Run (GetStep base) c (spacedOps c.cache.kernelTicks ns) (spacedRequests base ns c) := by
  induction ns generalizing c with
  | nil => exact .nil c
  | cons n ns ih =>
      rw [List.length_cons] at h
      have hnext : (c.cache.kernelTicks + 1#64).toNat = c.cache.kernelTicks.toNat + 1 := by
        rw [BitVec.toNat_add, BitVec.toNat_ofNat]
        omega
      obtain ⟨i, hret⟩ := blockGet_returns base c.tick.cache n
      have hticks : (requests base [n] c.tick).cache.kernelTicks = c.cache.kernelTicks + 1#64 :=
        hret.ticks
      have hrest := ih (requests base [n] c.tick) (by rw [hticks, hnext]; omega)
      rw [hticks] at hrest
      exact .cons (.tick (by omega)) (.cons .get hrest)

/-- Eight blocks fill the cache, then the first of them is asked for again. -/
def fillAndTouch : List (BitVec 32) := [0, 1, 2, 3, 4, 5, 6, 7, 0]

/-- The next block takes the buffer of block 1, the oldest now. -/
theorem evicts_lru_second :
    Replaces (spacedRequests 0x1000 fillAndTouch blankTrace).cache 8#32 ∧
      EvictsOldest 0x1000 (spacedRequests 0x1000 fillAndTouch blankTrace) 8#32 ∧
      (blockGet 0x1000 (spacedRequests 0x1000 fillAndTouch blankTrace).cache 8#32).2 =
        blockAddr 0x1000 1 := by
  have hrun := spacedRequests_run 0x1000 fillAndTouch blankTrace (by decide)
  have hapart : ∀ i j, j < i →
      ((spacedRequests 0x1000 fillAndTouch blankTrace).cache.buffers j).lastUsed ≠
        ((spacedRequests 0x1000 fillAndTouch blankTrace).cache.buffers i).lastUsed := by
    decide +kernel
  refine ⟨⟨by decide +kernel, by decide +kernel⟩, ?_, by decide +kernel⟩
  refine (evicts_lru_iff ⟨fun _ => rfl, rfl, rfl⟩ hrun 8#32).mpr ?_
  exact fun _ i _ j hji => hapart i j hji


end VectorForth.BlockDevice
