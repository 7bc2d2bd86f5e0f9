import VectorForth.Memory.TablePages

/-!
# What a mapping call leaves alone

Blocks of pages from the pool, and the frame of the calls of the virtual memory
interface: which tables are new, which memory is written, which pages stay taken.
-/

namespace VectorForth.Pmm

/-- `pmm_alloc_pages`. -/
def Pool.allocPages (a : Pool) (count : Word) : Option (Word × Pool) :=
  match h : pmmAllocPages a.pmm count with
  | none => none
  | some (addr, pmm) =>
      have hmarks : ∃ A, Marks a.pmm pmm A := by
        obtain ⟨start, -, -, -, hmark⟩ := pmmAllocPages_spec h
        exact ⟨_, hmark⟩
      have htotal : pmm.totalPages = a.pmm.totalPages := by
        obtain ⟨A, hmark⟩ := hmarks
        exact hmark.total
      some (BitVec.ofNat 64 addr,
        { pmm := pmm
          small := htotal ▸ a.small
          reserved := by
            obtain ⟨A, hmark⟩ := hmarks
            intro p hp hlt
            exact (hmark.bits p).mpr (Or.inl (a.reserved p hp (htotal ▸ hlt))) })

/-- Pages that are used stay used. -/
structure Pool.Keeps (a a' : Pool) : Prop where
  total : a'.pmm.totalPages = a.pmm.totalPages
  bits : ∀ p, bitmapTest a.pmm p = true → bitmapTest a'.pmm p = true

section Pool

variable {a a' a'' : Pool} {t count : Word}

theorem Pool.Keeps.refl (a : Pool) : a.Keeps a := ⟨rfl, fun _ h => h⟩

theorem Pool.Keeps.trans (h : a.Keeps a') (h' : a'.Keeps a'') : a.Keeps a'' :=
  ⟨h'.total.trans h.total, fun p hp => h'.bits p (h.bits p hp)⟩

theorem Pool.Keeps.used (h : a.Keeps a') (ht : a.used t) : a'.used t := by
  intro hfree
  obtain ⟨hlt, hbit⟩ := mem_freePages.mp hfree
  rw [h.total] at hlt
  refine ht (mem_freePages.mpr ⟨hlt, ?_⟩)
  by_contra hset
  rw [h.bits _ (by simpa using hset)] at hbit
  cases hbit

theorem Pool.allocPage_keeps (h : a.allocPage = some (t, a')) : a.Keeps a' := by
  unfold Pool.allocPage at h
  split at h
  · cases h
  · rename_i addr pmm halloc
    obtain ⟨rfl, rfl⟩ := Prod.mk.inj (Option.some.inj h)
    obtain ⟨htotal, hbits, -⟩ := pmmAllocPage_takes halloc
    exact ⟨htotal, hbits⟩

/-- What the two kinds of allocation return: pages that were free. -/
structure Pool.Hands (a a' : Pool) (t : Word) (n : Nat) : Prop where
  aligned : t.toNat % 4096 = 0
  free : FreeRun a.pmm (t.toNat / 4096) n
  taken : ∀ p, t.toNat / 4096 ≤ p → p < t.toNat / 4096 + n → bitmapTest a'.pmm p = true
  keeps : a.Keeps a'

theorem Pool.allocPage_hands (h : a.allocPage = some (t, a')) : a.Hands a' t 1 := by
  have hkeeps := Pool.allocPage_keeps h
  obtain ⟨page, ht, htakes⟩ := Pool.allocPage_takes h
  obtain ⟨hpage, hrest⟩ := htakes.one
  obtain ⟨hlt, hbit⟩ := mem_freePages.mp hpage
  have hdiv : t.toNat / 4096 = page := by omega
  constructor
  case aligned => omega
  case free =>
    intro p h₁ h₂
    obtain rfl : p = page := by omega
    exact ⟨by omega, hbit⟩
  case taken =>
    intro p h₁ h₂
    obtain rfl : p = page := by omega
    have hgone : p ∉ a'.free := by
      rw [hrest]
      exact Finset.notMem_erase _ _
    rw [Pool.free, mem_freePages, hkeeps.total] at hgone
    simpa [hlt] using hgone
  case keeps => exact hkeeps

theorem Pool.allocPages_hands (h : a.allocPages count = some (t, a')) :
    a.Hands a' t count.toNat := by
  unfold Pool.allocPages at h
  split at h
  · cases h
  · rename_i addr pmm halloc
    obtain ⟨rfl, rfl⟩ := Prod.mk.inj (Option.some.inj h)
    obtain ⟨start, rfl, hrun, -, hmark⟩ := pmmAllocPages_spec halloc
    have hsmall := a.small
    have hlen := le_runLength count
    have hone : 1 ≤ runLength count := Nat.le_max_left _ _
    have hfirst := (hrun start (le_refl _) (by omega)).1
    have hnat : (BitVec.ofNat 64 (start * pageSize)).toNat = start * 4096 := by
      rw [BitVec.toNat_ofNat, pageSize]
      omega
    constructor
    case aligned => omega
    case free =>
      rw [hnat, Nat.mul_div_cancel _ (by decide)]
      exact hrun.mono (le_refl _) (by omega)
    case taken =>
      rw [hnat, Nat.mul_div_cancel _ (by decide)]
      intro p h₁ h₂
      exact (hmark.bits p).mpr (Or.inr ⟨h₁, h₂⟩)
    case keeps => exact ⟨hmark.total, fun p hp => (hmark.bits p).mpr (Or.inl hp)⟩

theorem Pool.allocPages_only (h : a.allocPages count = some (t, a')) {p : Nat}
    (hp : bitmapTest a'.pmm p = true) : bitmapTest a.pmm p = true ∨
      (t.toNat / 4096 ≤ p ∧ p < t.toNat / 4096 + count.toNat) := by
  unfold Pool.allocPages at h
  split at h
  · cases h
  · rename_i addr pmm halloc
    obtain ⟨rfl, rfl⟩ := Prod.mk.inj (Option.some.inj h)
    obtain ⟨start, rfl, hrun, -, hmark⟩ := pmmAllocPages_spec halloc
    have hsmall := a.small
    have hone : 1 ≤ runLength count := Nat.le_max_left _ _
    have hfirst := (hrun start (le_refl _) (by omega)).1
    have hnat : (BitVec.ofNat 64 (start * pageSize)).toNat = start * 4096 := by
      rw [BitVec.toNat_ofNat, pageSize]
      omega
    rw [hnat, Nat.mul_div_cancel _ (by decide)]
    exact (hmark.bits p).mp hp

theorem Pool.allocPages_some {start : Nat} (hcount : 1 ≤ count.toNat)
    (hrun : FreeRun a.pmm start count.toNat) : ∃ t a', a.allocPages count = some (t, a') := by
  have hfound : bitmapFindFreeRegion a.pmm count ≠ none := by
    intro hnone
    exact (bitmapFindFreeRegion_none_iff hcount).mp hnone start hrun
  have hsome : (pmmAllocPages a.pmm count).isSome = true := by
    rw [pmmAllocPages_isSome]
    exact Option.isSome_iff_ne_none.mpr hfound
  obtain ⟨r, hr⟩ := Option.isSome_iff_exists.mp hsome
  unfold Pool.allocPages
  split
  · rename_i hnone
    rw [hnone] at hr
    cases hr
  · exact ⟨_, _, rfl⟩

end Pool

end VectorForth.Pmm

namespace VectorForth.Vmm

open ByteMemory RadixTree LabelledRun LowestFirst
open Pmm (Pool bitmapTest)

/-! ## Memory outside the tables -/

section Outside

variable {m m' : Mem} {root t v : Word} {used : Word → Prop} {p : List Index}

theorem same_of_tables (h : Tables m root used) (hm : ∀ x, InTables m root x → m' x = m x) :
    Same (pageSlot m) (pageSlot m') 4 root := by
  intro q u j hq
  have hpage := h.page q u hq
  have hj := j.isLt
  apply pageSlot_congr
  rw [entry_eq hpage, entry_eq hpage, read64_congr]
  intro x h₁ h₂
  exact hm x ⟨q, u, hq, by omega, by rw [pageSize]; omega⟩

/-- A change outside the pages of the tables leaves the tables alone. -/
theorem Tables.congr (h : Tables m root used) (hm : ∀ x, InTables m root x → m' x = m x) :
    Tables m' root used := by
  have hsame := same_of_tables h hm
  constructor
  case tree =>
    intro q q' u hq hq'
    exact h.tree q q' u (hsame.reach_iff.mp hq) (hsame.reach_iff.mp hq')
  case page => exact fun q u hq => h.page q u (hsame.reach_iff.mp hq)
  case taken => exact fun q u hq => h.taken q u (hsame.reach_iff.mp hq)
  case noGiant =>
    intro i u j l hu
    have hold := hsame.reach_iff.mp hu
    have hslot := hsame [i] u j hold
    rw [show 4 - ([i].length + 1) = 2 from rfl] at hslot
    rw [hslot]
    exact h.noGiant i u j l hold

theorem Tables.leafOf_congr (h : Tables m root used) (hm : ∀ x, InTables m root x → m' x = m x)
    (v : Word) : leafOf m' root v = leafOf m root v :=
  (same_of_tables h hm).lookup .root rfl

end Outside

/-! ## What a call does to the rest -/

/-- A call that names `names`: the tables are old or in pages that were free, and only
tables are written. -/
structure Served (names : Word → Prop) (s s' : State Pool) : Prop where
  root : getPml4 s' = getPml4 s
  retranslated : Retranslated s.mem s'.mem (getPml4 s) names
  fresh : ∀ p t, Table s'.mem (getPml4 s) p t →
    Table s.mem (getPml4 s) p t ∨ t.toNat / 4096 ∈ s.pmm.free
  keeps : s.pmm.Keeps s'.pmm

section Served

variable {P : Type} {pmmAllocPage : P → Option (Word × P)} {b s s' : State Pool} {c : Call}
  {v phys flags : Word} {ret : Int}

/-- What every allocation keeps is kept by a call. -/
theorem getOrCreate_pool {R : P → P → Prop} (hrefl : ∀ a, R a a)
    (halloc : ∀ a t a', pmmAllocPage a = some (t, a') → R a a') {s s' : State P} {t i u : Word}
    (h : vmmGetOrCreateTable pmmAllocPage s t i flags = some (s', u)) : R s.pmm s'.pmm := by
  unfold vmmGetOrCreateTable at h
  split at h
  · obtain ⟨⟨phys, pmm⟩, hpage, h⟩ := Option.bind_eq_some_iff.mp h
    dsimp only at h
    split at h
    · obtain ⟨rfl, -⟩ := Prod.mk.inj (Option.some.inj h)
      exact halloc _ _ _ hpage
    · obtain ⟨rfl, -⟩ := Prod.mk.inj (Option.some.inj h)
      exact halloc _ _ _ hpage
  · obtain ⟨rfl, -⟩ := Prod.mk.inj (Option.some.inj h)
    exact hrefl _

theorem mapPage_pool {R : P → P → Prop} (hrefl : ∀ a, R a a)
    (htrans : ∀ a a' a'', R a a' → R a' a'' → R a a'')
    (halloc : ∀ a t a', pmmAllocPage a = some (t, a') → R a a') {s s' : State P}
    (h : vmmMapPage pmmAllocPage s v phys flags = some (s', ret)) : R s.pmm s'.pmm := by
  unfold vmmMapPage at h
  obtain ⟨⟨s₁, pdpt⟩, h₁, h⟩ := Option.bind_eq_some_iff.mp h
  have hr₁ := getOrCreate_pool hrefl halloc h₁
  dsimp only at h
  split at h
  · obtain ⟨rfl, -⟩ := Prod.mk.inj (Option.some.inj h)
    exact hr₁
  obtain ⟨⟨s₂, pd⟩, h₂, h⟩ := Option.bind_eq_some_iff.mp h
  have hr₂ := htrans _ _ _ hr₁ (getOrCreate_pool hrefl halloc h₂)
  dsimp only at h
  split at h
  · obtain ⟨rfl, -⟩ := Prod.mk.inj (Option.some.inj h)
    exact hr₂
  obtain ⟨⟨s₃, pt⟩, h₃, h⟩ := Option.bind_eq_some_iff.mp h
  have hr₃ := htrans _ _ _ hr₂ (getOrCreate_pool hrefl halloc h₃)
  dsimp only at h
  split at h
  · obtain ⟨rfl, -⟩ := Prod.mk.inj (Option.some.inj h)
    exact hr₃
  · obtain ⟨rfl, -⟩ := Prod.mk.inj (Option.some.inj h)
    exact hr₃

theorem mapRangeFrom_pool {R : P → P → Prop} (hrefl : ∀ a, R a a)
    (htrans : ∀ a a' a'', R a a' → R a' a'' → R a a'')
    (halloc : ∀ a t a', pmmAllocPage a = some (t, a') → R a a') {s s' : State P} {vs ps i : Word}
    {k : Nat} (h : vmmMapRangeFrom pmmAllocPage vs ps flags k i s = some (s', ret)) :
    R s.pmm s'.pmm := by
  induction k generalizing i s with
  | zero =>
      obtain ⟨rfl, -⟩ := Prod.mk.inj (Option.some.inj h)
      exact hrefl _
  | succ k ih =>
      obtain ⟨⟨s₁, ret₁⟩, hpage, h⟩ := Option.bind_eq_some_iff.mp h
      have hr₁ := mapPage_pool hrefl htrans halloc hpage
      dsimp only at h
      split at h
      · obtain ⟨rfl, -⟩ := Prod.mk.inj (Option.some.inj h)
        exact hr₁
      · exact htrans _ _ _ hr₁ (ih h)

theorem keeps_of_alloc (a : Pool) (t : Word) (a' : Pool) (h : a.allocPage = some (t, a')) :
    a.Keeps a' := Pool.allocPage_keeps h

theorem Spends.fresh {xs : List ℕ} {N : Set (List Index)} (h : Spends s s' xs N) {p : List Index}
    {t : Word} (ht : Table s'.mem (getPml4 s) p t) :
    Table s.mem (getPml4 s) p t ∨ t.toNat / 4096 ∈ s.pmm.free := by
  rcases h.taken p t ht with hold | hnew
  · exact Or.inl hold
  · exact Or.inr (h.spent.mem hnew)

/-- **A call about canonical addresses that were not mapped at boot.** -/
theorem Serves.served (hstep : Serves b s c s') (h : Unspoiled b s)
    (hcanon : ∀ v, c.names v → Canonical v) : Unspoiled b s' ∧ Served c.names s s' := by
  refine ⟨(hstep.step h).1, ?_⟩
  obtain ⟨hnames, ret, hrun⟩ := hstep
  cases c with
  | allocPage =>
      obtain ⟨⟨t, a⟩, halloc, heq⟩ := Option.map_eq_some_iff.mp hrun
      obtain ⟨rfl, -⟩ := Prod.mk.inj heq
      exact ⟨rfl, Retranslated.refl _ _ _, fun p t ht => Or.inl ht, Pool.allocPage_keeps halloc⟩
  | mapPage virt phys flags =>
      have hclear : (Op.mapPage virt phys flags).Clear s := by
        rintro v rfl
        exact ⟨hcanon _ rfl, h.noHuge _ (hnames _ rfl)⟩
      obtain ⟨-, hcr, -, hretr⟩ := run_ok Pool.supplies h.sound hclear hrun
      obtain ⟨-, -, xs, hspends⟩ := mapPage_serves h (hnames virt rfl) hrun
      exact ⟨by rw [getPml4, getPml4, hcr], hretr, fun p t ht => hspends.fresh ht,
        mapPage_pool Pool.Keeps.refl (fun _ _ _ => Pool.Keeps.trans) keeps_of_alloc hrun⟩
  | mapRange vs ps size flags =>
      have hclear : (Op.mapRange vs ps size flags).Clear s :=
        fun v hv => ⟨hcanon v hv, h.noHuge v (hnames v hv)⟩
      obtain ⟨-, hcr, -, hretr⟩ := run_ok Pool.supplies h.sound hclear hrun
      obtain ⟨-, xs, hspends⟩ := mapRange_serves (j := 0) h hnames hrun
      exact ⟨by rw [getPml4, getPml4, hcr], hretr, fun p t ht => hspends.fresh ht,
        mapRangeFrom_pool Pool.Keeps.refl (fun _ _ _ => Pool.Keeps.trans) keeps_of_alloc hrun⟩

end Served

end VectorForth.Vmm
