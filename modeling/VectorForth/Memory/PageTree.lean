import VectorForth.Lib.Masks
import VectorForth.Lib.RadixTree
import VectorForth.Memory.Vmm

/-!
# Page tables as a radix tree

Four levels of 512 slots. `vmm_get_phys` is a lookup in this tree; the invariant is
that every table is reached by one path only and lies in a page that the allocator
has handed out, so that a write to an entry concerns one virtual page.
-/

namespace VectorForth.Vmm

open ByteMemory RadixTree

abbrev Index : Type := Fin 512

/-- What the kernel takes an entry for, with `k` levels below it. -/
def pageSlot (m : Mem) (k : Nat) (t : Word) (i : Index) : Slot Word Word :=
  if entry m t (BitVec.ofNat 64 i) &&& ptePresent = 0#64 then .empty
  else if k = 0 ∨ (k ≤ 2 ∧ entry m t (BitVec.ofNat 64 i) &&& pteHuge ≠ 0#64) then
    .leaf (entry m t (BitVec.ofNat 64 i))
  else .child (entry m t (BitVec.ofNat 64 i) &&& pteAddrMask)

/-- Bits `shift` to `shift + 8` of an address. -/
def indexAt (shift : Nat) (virt : Word) : Index :=
  ⟨virt.toNat / 2 ^ shift % 512, Nat.mod_lt _ (by decide)⟩

/-- The indices that the walk for an address uses. -/
def indices (virt : Word) : List Index :=
  [indexAt 39 virt, indexAt 30 virt, indexAt 21 virt, indexAt 12 virt]

/-- The bits of an address that a leaf with `k` levels below it leaves alone. -/
def offsetMask : Nat → Word
  | 0 => 0xFFF#64
  | 1 => 0x1FFFFF#64
  | _ => 0x3FFFFFFF#64

/-- The leaf that the walk for an address meets, and the levels below it. -/
def leafOf (m : Mem) (root virt : Word) : Option (Word × List Index) :=
  lookup (pageSlot m) root (indices virt)

section Walk

variable {P : Type} {s : State P} {m : Mem} {t u root v : Word} {i : Index} {k : Nat}

theorem index_eq (shift : Nat) (v : Word) :
    (v >>> shift) &&& 0x1FF#64 = BitVec.ofNat 64 (indexAt shift v) := by
  apply BitVec.eq_of_toNat_eq
  have hmask : ((v >>> shift) &&& 0x1FF#64).toNat = (v >>> shift).toNat % 2 ^ 9 :=
    Masks.toNat_and_mask (k := 9) _ (by decide)
  have hlt : v.toNat / 2 ^ shift % 512 < 512 := Nat.mod_lt _ (by decide)
  rw [hmask, BitVec.toNat_ushiftRight, Nat.shiftRight_eq_div_pow, BitVec.toNat_ofNat]
  exact (Nat.mod_eq_of_lt (by omega)).symm

theorem pageSlot_empty (h : entry m t (BitVec.ofNat 64 i) &&& ptePresent = 0#64) :
    pageSlot m k t i = .empty := if_pos h

theorem pageSlot_leaf (h : ¬ entry m t (BitVec.ofNat 64 i) &&& ptePresent = 0#64)
    (hk : k = 0 ∨ (k ≤ 2 ∧ entry m t (BitVec.ofNat 64 i) &&& pteHuge ≠ 0#64)) :
    pageSlot m k t i = .leaf (entry m t (BitVec.ofNat 64 i)) := by
  rw [pageSlot, if_neg h, if_pos hk]

theorem pageSlot_child (h : ¬ entry m t (BitVec.ofNat 64 i) &&& ptePresent = 0#64)
    (hk : ¬ (k = 0 ∨ (k ≤ 2 ∧ entry m t (BitVec.ofNat 64 i) &&& pteHuge ≠ 0#64))) :
    pageSlot m k t i = .child (entry m t (BitVec.ofNat 64 i) &&& pteAddrMask) := by
  rw [pageSlot, if_neg h, if_neg hk]

theorem pageSlot_bottom (m : Mem) : Bottom (pageSlot m) := by
  intro t i u h
  unfold pageSlot at h
  split at h
  · cases h
  · rw [if_pos (Or.inl rfl)] at h
    cases h

/-- `vmm_get_phys` is the lookup. -/
theorem vmmGetPhys_eq (s : State P) (v : Word) :
    vmmGetPhys s v = match leafOf s.mem (getPml4 s) v with
      | none => -1#64
      | some (e, rest) => (e &&& pteAddrMask) ||| (v &&& offsetMask rest.length) := by
  unfold vmmGetPhys leafOf indices
  simp only [pml4Index, pdptIndex, pdIndex, ptIndex, index_eq]
  generalize getPml4 s = root
  by_cases h4 : entry s.mem root (BitVec.ofNat 64 (indexAt 39 v)) &&& ptePresent = 0#64
  · rw [if_pos h4, lookup, pageSlot_empty h4]
  rw [if_neg h4, lookup, pageSlot_child h4 (by simp)]
  generalize entry s.mem root (BitVec.ofNat 64 (indexAt 39 v)) &&& pteAddrMask = pdpt
  dsimp only
  by_cases h3 : entry s.mem pdpt (BitVec.ofNat 64 (indexAt 30 v)) &&& ptePresent = 0#64
  · rw [if_pos h3, lookup, pageSlot_empty h3]
  by_cases huge3 : entry s.mem pdpt (BitVec.ofNat 64 (indexAt 30 v)) &&& pteHuge ≠ 0#64
  · rw [if_neg h3, if_pos huge3, lookup, pageSlot_leaf h3 (Or.inr ⟨by simp, huge3⟩)]
    rfl
  rw [if_neg h3, if_neg huge3, lookup, pageSlot_child h3 (by simp [huge3])]
  generalize entry s.mem pdpt (BitVec.ofNat 64 (indexAt 30 v)) &&& pteAddrMask = pd
  dsimp only
  by_cases h2 : entry s.mem pd (BitVec.ofNat 64 (indexAt 21 v)) &&& ptePresent = 0#64
  · rw [if_pos h2, lookup, pageSlot_empty h2]
  by_cases huge2 : entry s.mem pd (BitVec.ofNat 64 (indexAt 21 v)) &&& pteHuge ≠ 0#64
  · rw [if_neg h2, if_pos huge2, lookup, pageSlot_leaf h2 (Or.inr ⟨by simp, huge2⟩)]
    rfl
  rw [if_neg h2, if_neg huge2, lookup, pageSlot_child h2 (by simp [huge2])]
  generalize entry s.mem pd (BitVec.ofNat 64 (indexAt 21 v)) &&& pteAddrMask = pt
  dsimp only
  by_cases h1 : entry s.mem pt (BitVec.ofNat 64 (indexAt 12 v)) &&& ptePresent = 0#64
  · rw [if_pos h1, lookup, pageSlot_empty h1]
  · rw [if_neg h1, lookup, List.length_nil, pageSlot_leaf h1 (Or.inl rfl)]
    rfl

end Walk

/-! ## Entries -/

/-- A page that can hold a table: aligned, and where an entry can name it. -/
structure PageAddr (t : Word) : Prop where
  aligned : t.toNat % 4096 = 0
  lt : t.toNat < 2 ^ 52
  ne_zero : t ≠ 0#64

section Entries

variable {m : Mem} {t u v phys : Word} {i j : Index}

theorem slot_toNat (ht : PageAddr t) (i : Index) :
    (t + 8#64 * BitVec.ofNat 64 i).toNat = t.toNat + 8 * i := by
  have hlt := ht.lt
  have hi := i.isLt
  rw [BitVec.toNat_add, BitVec.toNat_mul, BitVec.toNat_ofNat, BitVec.toNat_ofNat]
  omega

theorem entry_eq (ht : PageAddr t) (i : Index) :
    entry m t (BitVec.ofNat 64 i) = BitVec.ofNat 64 (read64 m (t.toNat + 8 * i)) := by
  rw [entry, slot_toNat ht]

/-- An entry that is written. -/
theorem entry_setEntry (ht : PageAddr t) (hu : PageAddr u) (i j : Index) (v : Word) :
    entry (setEntry m t (BitVec.ofNat 64 i) v) u (BitVec.ofNat 64 j) =
      if u = t ∧ j = i then v else entry m u (BitVec.ofNat 64 j) := by
  have hta := ht.aligned
  have hua := hu.aligned
  have hi := i.isLt
  have hj := j.isLt
  rw [entry_eq hu, setEntry, slot_toNat ht]
  split
  · rename_i h
    obtain ⟨rfl, rfl⟩ := h
    rw [read64_write64_of_lt v.isLt, BitVec.ofNat_toNat, BitVec.setWidth_eq]
  · rename_i h
    have hne : u.toNat + 8 * j ≠ t.toNat + 8 * i := by
      intro heq
      have hpage : u.toNat = t.toNat := by omega
      exact h ⟨BitVec.eq_of_toNat_eq hpage, Fin.ext (by omega)⟩
    rw [read64_write64_of_disjoint (by omega), entry_eq hu]

/-- A page that is cleared. -/
theorem entry_fill (hp : PageAddr phys) (hu : PageAddr u) (j : Index) :
    entry (fill m phys.toNat 0#8 pageSize) u (BitVec.ofNat 64 j) =
      if u = phys then 0#64 else entry m u (BitVec.ofNat 64 j) := by
  have hpa := hp.aligned
  have hua := hu.aligned
  have hj := j.isLt
  have hsize : pageSize = 4096 := rfl
  rw [entry_eq hu]
  split
  · rename_i h
    subst h
    have hzero : read64 (fill m u.toNat 0#8 pageSize) (u.toNat + 8 * j) =
        read64 (fun _ => 0#8) (u.toNat + 8 * j) := by
      refine read64_congr ?_
      intro x h₁ h₂
      rw [fill_apply, if_pos (by omega)]
    rw [hzero, read64_zero]
  · rename_i h
    have hne : u.toNat ≠ phys.toNat := fun heq => h (BitVec.eq_of_toNat_eq heq)
    have hsame : read64 (fill m phys.toNat 0#8 pageSize) (u.toNat + 8 * j) =
        read64 m (u.toNat + 8 * j) := by
      refine read64_congr ?_
      intro x h₁ h₂
      exact fill_outside (by omega)
    rw [hsame, entry_eq hu]

/-- The address field of an entry. -/
theorem pteAddrMask_getLsbD : ∀ k < 64, pteAddrMask.getLsbD k = decide (12 ≤ k ∧ k < 52) := by
  decide

theorem PageAddr.getLsbD (ht : PageAddr t) {k : Nat} (hk : ¬ (12 ≤ k ∧ k < 52)) :
    t.getLsbD k = false := by
  rw [BitVec.getLsbD]
  rcases Nat.lt_or_ge k 12 with hlow | hhigh
  · have hmul : t.toNat = 2 ^ 12 * (t.toNat / 4096) := by
      have haligned := ht.aligned
      omega
    rw [hmul, Nat.testBit_two_pow_mul, decide_eq_false (by omega), Bool.false_and]
  · exact Nat.testBit_lt_two_pow (ht.lt.trans_le (Nat.pow_le_pow_right (by decide) (by omega)))

theorem PageAddr.and_mask (ht : PageAddr t) : t &&& pteAddrMask = t := by
  apply BitVec.eq_of_getLsbD_eq
  intro k hk
  rw [BitVec.getLsbD_and, pteAddrMask_getLsbD k hk]
  by_cases hfield : 12 ≤ k ∧ k < 52
  · rw [decide_eq_true hfield, Bool.and_true]
  · rw [ht.getLsbD hfield, Bool.false_and]

theorem PageAddr.and_low (ht : PageAddr t) {c : Word} (hc : c &&& pteAddrMask = 0#64) :
    t &&& c = 0#64 := by
  rw [← ht.and_mask, BitVec.and_assoc, BitVec.and_comm pteAddrMask, hc, BitVec.and_zero]

/-- A slot is what its entry says. -/
theorem pageSlot_congr {m' : Mem} {k : Nat}
    (h : entry m' u (BitVec.ofNat 64 j) = entry m u (BitVec.ofNat 64 j)) :
    pageSlot m' k u j = pageSlot m k u j := by
  rw [pageSlot, pageSlot, h]

end Entries

/-! ## The invariant -/

/-- The table at the end of a path, the last index first. -/
abbrev Table (m : Mem) (root : Word) (p : List Index) (t : Word) : Prop :=
  Reach (pageSlot m) 4 root p t

/-- Every table has one path and a page of its own, and no 1 GB page is mapped. -/
structure Tables (m : Mem) (root : Word) (used : Word → Prop) : Prop where
  tree : IsTree (pageSlot m) 4 root
  page : ∀ p t, Table m root p t → PageAddr t
  taken : ∀ p t, Table m root p t → used t
  noGiant : ∀ i t j l, Table m root [i] t → pageSlot m 2 t j ≠ .leaf l

/-- `pmm_alloc_page` returns fresh pages: `used` are those it has handed out or never
will. -/
structure Supplies {P : Type} (pmmAllocPage : P → Option (Word × P)) (used : P → Word → Prop) :
    Prop where
  page : ∀ a t a', pmmAllocPage a = some (t, a') → PageAddr t
  fresh : ∀ a t a', pmmAllocPage a = some (t, a') → ¬ used a t
  taken : ∀ a t a', pmmAllocPage a = some (t, a') → used a' t
  mono : ∀ a t a' u, pmmAllocPage a = some (t, a') → used a u → used a' u

/-- The address is in the page of a table. -/
def InTables (m : Mem) (root : Word) (x : Nat) : Prop :=
  ∃ p t, Table m root p t ∧ t.toNat ≤ x ∧ x < t.toNat + pageSize

/-- The tables have grown: those there were are there, no lookup has changed, and
only table pages were written. -/
structure Extends (m m' : Mem) (root : Word) : Prop where
  keeps : ∀ p t, Table m root p t → Table m' root p t
  lookup : ∀ is : List Index, is.length = 4 →
    lookup (pageSlot m') root is = lookup (pageSlot m) root is
  within : ∀ x, m' x ≠ m x → InTables m' root x

section Create

variable {P : Type} {pmmAllocPage : P → Option (Word × P)} {used : P → Word → Prop} {s s' : State P}
  {m m' m'' : Mem} {root t u phys : Word} {p : List Index} {i : Index} {free : Word → Prop}

theorem Extends.refl (m : Mem) (root : Word) : Extends m m root :=
  ⟨fun _ _ h => h, fun _ _ => rfl, fun _ h => absurd rfl h⟩

theorem Extends.inTables (h : Extends m m' root) {x : Nat} (hx : InTables m root x) :
    InTables m' root x := by
  obtain ⟨p, t, ht, hx⟩ := hx
  exact ⟨p, t, h.keeps p t ht, hx⟩

theorem Extends.trans (h : Extends m m' root) (h' : Extends m' m'' root) : Extends m m'' root := by
  constructor
  case keeps => exact fun p t ht => h'.keeps p t (h.keeps p t ht)
  case lookup => exact fun is his => (h'.lookup is his).trans (h.lookup is his)
  case within =>
    intro x hx
    by_cases hne : m'' x = m' x
    · rw [hne] at hx
      exact h'.inTables (h.within x hx)
    · exact h'.within x hne

/-- The entry that names a new table. -/
def tableEntry (phys : Word) : Word :=
  phys ||| (ptePresent ||| pteWritable) ||| ptePresent ||| pteWritable

theorem tableEntry_eq (phys : Word) : tableEntry phys = phys ||| 3#64 := by
  rw [tableEntry, BitVec.or_assoc, BitVec.or_assoc]
  rfl

theorem tableEntry_addr (hp : PageAddr phys) : tableEntry phys &&& pteAddrMask = phys := by
  have hflags : 3#64 &&& pteAddrMask = 0#64 := by decide
  rw [tableEntry_eq, BitVec.and_or_distrib_right, hp.and_mask, hflags, BitVec.or_zero]

theorem tableEntry_present (hp : PageAddr phys) : ¬ tableEntry phys &&& ptePresent = 0#64 := by
  have hlow : phys &&& ptePresent = 0#64 := hp.and_low (by decide)
  rw [tableEntry_eq, BitVec.and_or_distrib_right, hlow]
  decide

theorem tableEntry_small (hp : PageAddr phys) : tableEntry phys &&& pteHuge = 0#64 := by
  have hlow : phys &&& pteHuge = 0#64 := hp.and_low (by decide)
  rw [tableEntry_eq, BitVec.and_or_distrib_right, hlow]
  decide

/-- What `vmm_get_or_create_table` does to an empty slot. -/
def newTable (m : Mem) (t phys : Word) (i : Index) : Mem :=
  setEntry (fill m phys.toNat 0#8 pageSize) t (BitVec.ofNat 64 i) (tableEntry phys)

theorem newTable_entry (ht : PageAddr t) (hp : PageAddr phys) (hu : PageAddr u) (j : Index) :
    entry (newTable m t phys i) u (BitVec.ofNat 64 j) =
      if u = t ∧ j = i then tableEntry phys
      else if u = phys then 0#64 else entry m u (BitVec.ofNat 64 j) := by
  rw [newTable, entry_setEntry ht hu, entry_fill hp hu]

theorem newTable_outside (ht : PageAddr t) {x : Nat}
    (hx : x < t.toNat ∨ t.toNat + pageSize ≤ x) (hx' : x < phys.toNat ∨ phys.toNat + pageSize ≤ x) :
    newTable m t phys i x = m x := by
  have hi := i.isLt
  have hsize : pageSize = 4096 := rfl
  rw [newTable, setEntry, slot_toNat ht, write64_outside (by omega), fill_outside hx']

/-- A fresh page in an empty slot grows the tree. -/
theorem newTable_grown (h : Tables m root free) (ht : Table m root p t) (hp : p.length < 3)
    (hpage : PageAddr phys) (hfresh : ¬ free phys)
    (hempty : entry m t (BitVec.ofNat 64 i) &&& ptePresent = 0#64) :
    Grown (pageSlot m) (pageSlot (newTable m t phys i)) 4 root p t i phys := by
  have hta := h.page p t ht
  have hne : phys ≠ t := by
    rintro rfl
    exact hfresh (h.taken p _ ht)
  constructor
  case reach => exact ht
  case same =>
    intro q u j hq hslot
    have hua := h.page q u hq
    refine pageSlot_congr ?_
    rw [newTable_entry hta hpage hua, if_neg, if_neg]
    · rintro rfl
      exact hfresh (h.taken q _ hq)
    · rintro ⟨rfl, rfl⟩
      exact hslot ⟨h.tree q p u hq ht, rfl⟩
  case empty => exact pageSlot_empty hempty
  case child =>
    have hentry : entry (newTable m t phys i) t (BitVec.ofNat 64 i) = tableEntry phys := by
      rw [newTable_entry hta hpage hta, if_pos ⟨rfl, rfl⟩]
    rw [pageSlot_child, hentry, tableEntry_addr hpage]
    · rw [hentry]
      exact tableEntry_present hpage
    · rw [hentry]
      rintro (hzero | ⟨-, hhuge⟩)
      · omega
      · exact hhuge (tableEntry_small hpage)
  case fresh => exact fun q hq => hfresh (h.taken q _ hq)
  case blank =>
    intro k j
    refine pageSlot_empty ?_
    rw [newTable_entry hta hpage hpage, if_neg (fun hc => hne hc.1), if_pos rfl]
    rfl

/-- The slot names a table, or a fresh page becomes one. -/
theorem getOrCreate_cases (ha : Supplies pmmAllocPage used) (h : Tables s.mem root (used s.pmm))
    (ht : Table s.mem root p t) (hp : p.length < 3)
    (hleaf : ∀ l, pageSlot s.mem (4 - (p.length + 1)) t i ≠ .leaf l)
    (hrun : vmmGetOrCreateTable pmmAllocPage s t (BitVec.ofNat 64 i) (ptePresent ||| pteWritable) =
      some (s', u)) :
    (s' = s ∧ Table s.mem root (i :: p) u) ∨
      ∃ pmm, pmmAllocPage s.pmm = some (u, pmm) ∧
        s' = { s with mem := newTable s.mem t u i, pmm := pmm } ∧
        Grown (pageSlot s.mem) (pageSlot (newTable s.mem t u i)) 4 root p t i u := by
  unfold vmmGetOrCreateTable at hrun
  by_cases hpresent : entry s.mem t (BitVec.ofNat 64 i) &&& ptePresent = 0#64
  · rw [if_pos hpresent] at hrun
    obtain ⟨⟨phys, pmm⟩, halloc, hrun⟩ := Option.bind_eq_some_iff.mp hrun
    have hpage := ha.page _ _ _ halloc
    have hfresh := ha.fresh _ _ _ halloc
    dsimp only at hrun
    rw [if_neg hpage.ne_zero] at hrun
    obtain ⟨rfl, hu⟩ := Prod.mk.inj (Option.some.inj hrun)
    have hta := h.page p t ht
    have hentry : entry (newTable s.mem t phys i) t (BitVec.ofNat 64 i) &&& pteAddrMask = phys := by
      rw [newTable_entry hta hpage hta, if_pos ⟨rfl, rfl⟩, tableEntry_addr hpage]
    obtain rfl : phys = u := hentry.symm.trans hu
    exact Or.inr ⟨pmm, halloc, rfl, newTable_grown h ht hp hpage hfresh hpresent⟩
  · rw [if_neg hpresent] at hrun
    obtain ⟨rfl, rfl⟩ := Prod.mk.inj (Option.some.inj hrun)
    refine Or.inl ⟨rfl, .child ht ?_⟩
    refine pageSlot_child hpresent ?_
    intro hk
    exact hleaf _ (pageSlot_leaf hpresent hk)

/-- **`vmm_get_or_create_table` keeps the tables and every translation**, and returns
the table that the slot then names. -/
theorem getOrCreate_ok (ha : Supplies pmmAllocPage used) (h : Tables s.mem root (used s.pmm))
    (ht : Table s.mem root p t) (hp : p.length < 3)
    (hleaf : ∀ l, pageSlot s.mem (4 - (p.length + 1)) t i ≠ .leaf l)
    (hrun : vmmGetOrCreateTable pmmAllocPage s t (BitVec.ofNat 64 i) (ptePresent ||| pteWritable) =
      some (s', u)) :
    s'.cr3 = s.cr3 ∧ Tables s'.mem root (used s'.pmm) ∧ Extends s.mem s'.mem root ∧
      Table s'.mem root (i :: p) u := by
  rcases getOrCreate_cases ha h ht hp hleaf hrun with ⟨rfl, hu⟩ | ⟨pmm, halloc, rfl, hgrown⟩
  · exact ⟨rfl, h, Extends.refl _ _, hu⟩
  · have hpage := ha.page _ _ _ halloc
    have hta := h.page p t ht
    refine ⟨rfl, ⟨?_, ?_, ?_, ?_⟩, ⟨?_, ?_, ?_⟩, hgrown.new⟩
    · exact hgrown.isTree h.tree
    · intro q v hq
      rcases hgrown.reach_iff.mp hq with hold | ⟨-, rfl⟩
      · exact h.page q v hold
      · exact hpage
    · intro q v hq
      rcases hgrown.reach_iff.mp hq with hold | ⟨-, rfl⟩
      · exact ha.mono _ _ _ _ halloc (h.taken q v hold)
      · exact ha.taken _ _ _ halloc
    · intro j v k l hq
      rcases hgrown.reach_iff.mp hq with hold | ⟨-, rfl⟩
      · by_cases hslot : [j] = p ∧ k = i
        · obtain ⟨rfl, rfl⟩ := hslot
          have hchild : pageSlot (newTable s.mem t u k) 2 t k = .child u := hgrown.child
          rw [hold.unique ht]
          intro hcon
          rw [hcon] at hchild
          cases hchild
        · have hsame : pageSlot (newTable s.mem t u i) 2 v k = pageSlot s.mem 2 v k :=
            hgrown.same [j] v k hold hslot
          intro hcon
          exact h.noGiant j v k l hold (hsame.symm.trans hcon)
      · rw [hgrown.blank]
        exact fun hcon => by cases hcon
    · exact fun q v hq => hgrown.keeps hq
    · exact fun is his => hgrown.lookup his
    · intro x hx
      by_contra hout
      refine hx (newTable_outside hta ?_ ?_)
      · by_contra hin
        exact hout ⟨p, t, hgrown.keeps ht, by omega, by omega⟩
      · by_contra hin
        exact hout ⟨i :: p, u, hgrown.new, by omega, by omega⟩

end Create

end VectorForth.Vmm
