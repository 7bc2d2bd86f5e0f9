import VectorForth.Memory.PageMap

/-!
# The boot page tables

What `setup_paging` leaves in its five pages: 22 entries and zeros. The tables are
found by a finite check over these entries.
-/

namespace VectorForth.Vmm

open ByteMemory RadixTree

/-- The entries that `setup_paging` writes. -/
def bootEntries : List (Nat × Nat) :=
  [(pml4Addr + 0 * 8, pdptIdentAddr ||| pageRw), (pml4Addr + 256 * 8, pdptHigherAddr ||| pageRw),
    (pdptIdentAddr + 0 * 8, pdIdentAddr ||| pageRw), (pdIdentAddr + 0 * 8, 0x000000 ||| pageRwHuge),
    (pdIdentAddr + 1 * 8, 0x200000 ||| pageRwHuge), (pdptHigherAddr + 0 * 8, pdHigherAddr ||| pageRw)] ++
  (List.range 16).map fun i => (pdHigherAddr + i * 8, pageRwHuge + i * 0x200000)

/-- The tables among them, with their paths. -/
def bootTables : List (List Index × Word) :=
  [([], 0x70000#64), ([0], 0x71000#64), ([256], 0x73000#64), ([0, 0], 0x72000#64),
    ([0, 256], 0x74000#64)]

section Entries

variable {m : Mem} {a b v : Nat} {l : List (Nat × Nat)}

theorem setupPaging_eq (m : Mem) : setupPaging m =
    bootEntries.foldl (fun m e => movEntry m e.1 e.2) (fill m pml4Addr 0#8 (5 * 4096)) := rfl

theorem movEntry_same (m : Mem) (a : Nat) (hv : v < 2 ^ 32) : read64 (movEntry m a v) a = v := by
  have hlow : readLE (movEntry m a v) a 4 = readLE (write32 m a v) a 4 :=
    readLE_congr fun x h₁ h₂ => write32_outside (by omega)
  have hhigh : readLE (movEntry m a v) (a + 4) 4 = 0 := readLE_writeLE _ _ _ _
  have hval : readLE (write32 m a v) a 4 = v % 256 ^ 4 := readLE_writeLE _ _ _ _
  have hsplit : read64 (movEntry m a v) a = readLE (movEntry m a v) a 4 +
      256 ^ 4 * readLE (movEntry m a v) (a + 4) 4 := readLE_add _ a 4 4
  rw [hsplit, hlow, hhigh, hval]
  omega

theorem movEntry_other (h : b + 8 ≤ a ∨ a + 8 ≤ b) :
    read64 (movEntry m a v) b = read64 m b := by
  refine read64_congr fun x h₁ h₂ => ?_
  rw [movEntry, write32_outside (by omega), write32_outside (by omega)]

/-- Slots that are written hold what was written, if no two are one. -/
theorem foldl_movEntry (hmod : ∀ e ∈ l, e.1 % 8 = 0 ∧ e.2 < 2 ^ 32) (hnodup : (l.map Prod.fst).Nodup)
    (ha : a % 8 = 0) :
    (∀ v, (a, v) ∈ l → read64 (l.foldl (fun m e => movEntry m e.1 e.2) m) a = v) ∧
      ((∀ v, (a, v) ∉ l) → read64 (l.foldl (fun m e => movEntry m e.1 e.2) m) a = read64 m a) := by
  induction l generalizing m with
  | nil => exact ⟨fun v hv => (List.not_mem_nil hv).elim, fun _ => rfl⟩
  | cons e l ih =>
      obtain ⟨b, w⟩ := e
      rw [List.map_cons, List.nodup_cons] at hnodup
      have hhead := hmod (b, w) List.mem_cons_self
      have ihl := @ih (movEntry m b w) (fun e he => hmod e (List.mem_cons_of_mem _ he)) hnodup.2
      rw [List.foldl_cons]
      by_cases hab : a = b
      · subst hab
        have hnot : ∀ v, (a, v) ∉ l := by
          intro v hv
          have hmem : a ∈ l.map Prod.fst := List.mem_map_of_mem hv
          exact hnodup.1 hmem
        have hread := (ihl.2 hnot).trans (movEntry_same m a hhead.2)
        constructor
        · intro v hv
          rcases List.mem_cons.mp hv with heq | hv
          · rw [hread, (Prod.mk.inj heq).2]
          · exact absurd hv (hnot v)
        · exact fun hno => absurd List.mem_cons_self (hno w)
      · have hother : read64 (movEntry m b w) a = read64 m a := movEntry_other (by omega)
        constructor
        · intro v hv
          rcases List.mem_cons.mp hv with heq | hv
          · exact absurd (Prod.mk.inj heq).1 hab
          · exact ihl.1 v hv
        · intro hno
          rw [ihl.2 fun v hv => hno v (List.mem_cons_of_mem _ hv), hother]

theorem bootEntries_ok : (∀ e ∈ bootEntries, e.1 % 8 = 0 ∧ e.2 < 2 ^ 32) ∧
    (bootEntries.map Prod.fst).Nodup := by
  decide +kernel

/-- An entry that was written. -/
theorem setupPaging_entry (h : (a, v) ∈ bootEntries) : read64 (setupPaging m) a = v := by
  rw [setupPaging_eq]
  exact (foldl_movEntry bootEntries_ok.1 bootEntries_ok.2 (bootEntries_ok.1 _ h).1).1 v h

/-- The other entries of the five pages are zero. -/
theorem setupPaging_zero (h : ∀ v, (a, v) ∉ bootEntries) (ha : a % 8 = 0)
    (hlo : pml4Addr ≤ a) (hhi : a + 8 ≤ pml4Addr + 5 * 4096) : read64 (setupPaging m) a = 0 := by
  rw [setupPaging_eq, (foldl_movEntry bootEntries_ok.1 bootEntries_ok.2 ha).2 h]
  have hfill : read64 (fill m pml4Addr 0#8 (5 * 4096)) a = read64 (fun _ => 0#8) a :=
    read64_congr fun x h₁ h₂ => by rw [fill_apply, if_pos (by omega)]
  rw [hfill, read64_zero]

end Entries

/-! ## The tree -/

section Tree

variable {m : Mem} {t u l : Word} {p : List Index} {i : Index} {k v : Nat}

theorem bootTables_range (h : (p, t) ∈ bootTables) :
    pml4Addr ≤ t.toNat ∧ t.toNat + 4096 ≤ pml4Addr + 5 * 4096 ∧ t.toNat % 4096 = 0 := by
  have hall : ∀ e ∈ bootTables, pml4Addr ≤ e.2.toNat ∧
      e.2.toNat + 4096 ≤ pml4Addr + 5 * 4096 ∧ e.2.toNat % 4096 = 0 := by decide +kernel
  exact hall _ h

theorem bootTables_pageAddr (h : (p, t) ∈ bootTables) : PageAddr t := by
  obtain ⟨hlo, hhi, haligned⟩ := bootTables_range h
  have hbase : pml4Addr = 0x70000 := rfl
  refine ⟨haligned, by omega, ?_⟩
  rintro rfl
  exact absurd hlo (by decide)

theorem bootTables_written (h : (p, t) ∈ bootTables) (hv : (t.toNat + 8 * i, v) ∈ bootEntries) :
    entry (setupPaging m) t (BitVec.ofNat 64 i) = BitVec.ofNat 64 v := by
  rw [entry_eq (bootTables_pageAddr h), setupPaging_entry hv]

/-- An entry of a boot table that is not zero is one of those written. -/
theorem bootTables_entry (h : (p, t) ∈ bootTables)
    (hne : ¬ entry (setupPaging m) t (BitVec.ofNat 64 i) &&& ptePresent = 0#64) :
    ∃ v, (t.toNat + 8 * i, v) ∈ bootEntries ∧
      entry (setupPaging m) t (BitVec.ofNat 64 i) = BitVec.ofNat 64 v := by
  obtain ⟨hlo, hhi, haligned⟩ := bootTables_range h
  have hi := i.isLt
  rw [entry_eq (bootTables_pageAddr h)] at hne ⊢
  by_contra hno
  refine hne ?_
  have hzero : read64 (setupPaging m) (t.toNat + 8 * i) = 0 := by
    refine setupPaging_zero (fun v hv => hno ⟨v, hv, ?_⟩) (by omega) (by omega) (by omega)
    rw [setupPaging_entry hv]
  rw [hzero]
  rfl

/-- The entries of the boot tables name boot tables or are huge pages in a directory. -/
theorem bootEntries_slots : ∀ e ∈ bootTables, ∀ f ∈ bootEntries,
    e.2.toNat ≤ f.1 → f.1 < e.2.toNat + 4096 →
      (e.1.length = 2 ∧ BitVec.ofNat 64 f.2 &&& pteHuge ≠ 0#64) ∨
      (e.1.length < 2 ∧ BitVec.ofNat 64 f.2 &&& pteHuge = 0#64 ∧
        (Fin.ofNat 512 ((f.1 - e.2.toNat) / 8) :: e.1, BitVec.ofNat 64 f.2 &&& pteAddrMask) ∈
          bootTables) := by
  decide +kernel

/-- A slot of a boot table that is not empty, by its entry. -/
theorem bootTables_slot (h : (p, t) ∈ bootTables)
    (hne : ¬ entry (setupPaging m) t (BitVec.ofNat 64 i) &&& ptePresent = 0#64) :
    (p.length = 2 ∧ entry (setupPaging m) t (BitVec.ofNat 64 i) &&& pteHuge ≠ 0#64) ∨
      (p.length < 2 ∧ entry (setupPaging m) t (BitVec.ofNat 64 i) &&& pteHuge = 0#64 ∧
        (i :: p, entry (setupPaging m) t (BitVec.ofNat 64 i) &&& pteAddrMask) ∈ bootTables) := by
  obtain ⟨v, hv, hentry⟩ := bootTables_entry h hne
  have hi := i.isLt
  have hslot := bootEntries_slots _ h _ hv (by simp) (show t.toNat + 8 * i < t.toNat + 4096 by omega)
  have hindex : Fin.ofNat 512 ((t.toNat + 8 * i - t.toNat) / 8) = i := by
    refine Fin.ext ?_
    show (t.toNat + 8 * i - t.toNat) / 8 % 512 = i
    omega
  dsimp only at hslot
  rwa [hindex, ← hentry] at hslot

theorem bootTables_reach (h : Table (setupPaging m) 0x70000#64 p t) : (p, t) ∈ bootTables := by
  induction h with
  | root => exact List.mem_cons_self
  | @child p t u i h hs ih =>
      unfold pageSlot at hs
      split at hs
      · cases hs
      · rename_i hpresent
        split at hs
        · cases hs
        · rename_i hk
          cases hs
          rcases bootTables_slot ih hpresent with ⟨hlen, hhuge⟩ | ⟨-, -, hchild⟩
          · exact absurd (Or.inr ⟨by omega, hhuge⟩) hk
          · exact hchild

/-- A written entry that names a table. -/
theorem bootTables_child (h : (p, t) ∈ bootTables) (ht : Table (setupPaging m) 0x70000#64 p t)
    (hv : (t.toNat + 8 * i, v) ∈ bootEntries) (hpresent : ¬ BitVec.ofNat 64 v &&& ptePresent = 0#64)
    (hsmall : BitVec.ofNat 64 v &&& pteHuge = 0#64) (hu : BitVec.ofNat 64 v &&& pteAddrMask = u)
    (hlen : p.length < 3) : Table (setupPaging m) 0x70000#64 (i :: p) u := by
  subst hu
  have hentry : entry (setupPaging m) t (BitVec.ofNat 64 i) = BitVec.ofNat 64 v :=
    bootTables_written h hv
  rw [← hentry] at hpresent hsmall ⊢
  refine .child ht (pageSlot_child hpresent ?_)
  rintro (hzero | ⟨-, hhuge⟩)
  · omega
  · exact hhuge hsmall

/-- The boot tables are tables. -/
theorem bootTables_table (h : (p, t) ∈ bootTables) : Table (setupPaging m) 0x70000#64 p t := by
  have hroot : Table (setupPaging m) 0x70000#64 [] 0x70000#64 := .root
  have hident : Table (setupPaging m) 0x70000#64 [0] 0x71000#64 :=
    bootTables_child (v := 0x71003) (by decide) hroot (by decide) (by decide) (by decide) (by decide)
      (by decide)
  have hhigher : Table (setupPaging m) 0x70000#64 [256] 0x73000#64 :=
    bootTables_child (v := 0x73003) (by decide) hroot (by decide) (by decide) (by decide) (by decide)
      (by decide)
  simp only [bootTables, List.mem_cons, Prod.mk.injEq, List.not_mem_nil, or_false] at h
  rcases h with ⟨rfl, rfl⟩ | ⟨rfl, rfl⟩ | ⟨rfl, rfl⟩ | ⟨rfl, rfl⟩ | ⟨rfl, rfl⟩
  · exact hroot
  · exact hident
  · exact hhigher
  · exact bootTables_child (v := 0x72003) (by decide) hident (by decide) (by decide) (by decide)
      (by decide) (by decide)
  · exact bootTables_child (v := 0x74003) (by decide) hhigher (by decide) (by decide) (by decide)
      (by decide) (by decide)

/-- A walk that meets a huge page. -/
theorem bootTables_leaf {rest : List Index} (h : (p, t) ∈ bootTables)
    (hv : (t.toNat + 8 * i, v) ∈ bootEntries) (hpresent : ¬ BitVec.ofNat 64 v &&& ptePresent = 0#64)
    (hhuge : BitVec.ofNat 64 v &&& pteHuge ≠ 0#64) (hp : p.length + (i :: rest).length = 4)
    (hrest : rest.length ≤ 2) :
    lookup (pageSlot (setupPaging m)) 0x70000#64 (p.reverse ++ i :: rest) =
      some (BitVec.ofNat 64 v, rest) := by
  have hentry : entry (setupPaging m) t (BitVec.ofNat 64 i) = BitVec.ofNat 64 v :=
    bootTables_written h hv
  rw [← hentry] at hpresent hhuge ⊢
  rw [(bootTables_table h).lookup_append _ hp, lookup,
    pageSlot_leaf hpresent (Or.inr ⟨hrest, hhuge⟩)]

/-- A walk that meets an entry not written. -/
theorem bootTables_empty {rest : List Index} (h : (p, t) ∈ bootTables)
    (hno : t.toNat + 8 * i ∉ bootEntries.map Prod.fst) (hp : p.length + (i :: rest).length = 4) :
    lookup (pageSlot (setupPaging m)) 0x70000#64 (p.reverse ++ i :: rest) = none := by
  have hentry : entry (setupPaging m) t (BitVec.ofNat 64 i) &&& ptePresent = 0#64 := by
    by_contra hpresent
    obtain ⟨v, hv, -⟩ := bootTables_entry h hpresent
    exact hno (List.mem_map_of_mem hv)
  rw [(bootTables_table h).lookup_append _ hp, lookup, pageSlot_empty hentry]

/-- **The invariant holds of the boot tables.** -/
theorem setupPaging_tables (m : Mem) {used : Word → Prop} (hused : ∀ e ∈ bootTables, used e.2) :
    Tables (setupPaging m) 0x70000#64 used := by
  have hapart : ∀ e ∈ bootTables, ∀ f ∈ bootTables, e.2 = f.2 → e.1 = f.1 := by decide +kernel
  constructor
  case tree =>
    intro p q t hp hq
    exact hapart _ (bootTables_reach hp) _ (bootTables_reach hq) rfl
  case page => exact fun p t hp => bootTables_pageAddr (bootTables_reach hp)
  case taken => exact fun p t hp => hused _ (bootTables_reach hp)
  case noGiant =>
    intro i t j l ht hleaf
    unfold pageSlot at hleaf
    split at hleaf
    · cases hleaf
    · rename_i hpresent
      split at hleaf
      · rename_i hk
        rcases hk with hzero | ⟨-, hhuge⟩
        · cases hzero
        · rcases bootTables_slot (bootTables_reach ht) hpresent with ⟨hlen, -⟩ | ⟨-, hsmall, -⟩
          · cases hlen
          · exact hhuge hsmall
      · cases hleaf

end Tree

end VectorForth.Vmm
