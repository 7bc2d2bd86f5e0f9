import VectorForth.Memory.Pointers

/-!
# Huge pages

The walk for an address may end in a 2 MB page. `vmm_map_page` takes its entry for that
of a table, and `vmm_unmap_page` clears the entry with all its pages.
-/

namespace VectorForth.Vmm

open ByteMemory RadixTree LabelledRun

/-- Only the page of `v` may change its translation, and only page tables are written. -/
def OwnPage {P : Type} (s s' : State P) (v : Word) : Prop :=
  (∀ x, s'.mem x ≠ s.mem x → InTables s'.mem (getPml4 s') x) ∧
    ∀ w, Canonical w → ¬ SamePage w v → Pointer.vmmGetPhys s' w = Pointer.vmmGetPhys s w

/-- Mapping and unmapping `v` concern its own page. -/
def Consistent {P : Type} (pmmAllocPage : P → Option (Word × P)) (s : State P) (v : Word) : Prop :=
  (∀ phys flags s' ret, Pointer.vmmMapPage pmmAllocPage s v phys flags = some (s', ret) →
    OwnPage s s' v) ∧
    ∀ s', Pointer.vmmUnmapPage s v = some s' → OwnPage s s' v

section Huge

variable {P : Type} {pmmAllocPage : P → Option (Word × P)} {used : P → Word → Prop} {s s' : State P}
  {m : Mem} {root t u l v w pdpt pd : Word} {p : List Index} {i : Index} {k : Nat} {ops : List Op}

theorem Retranslated.ownPage (h : Retranslated s.mem s'.mem (getPml4 s) (· = v))
    (hs : Addressed used s) (hs' : Addressed used s') (hcr : s'.cr3 = s.cr3) (hv : Canonical v) :
    OwnPage s s' v := by
  have hroot : getPml4 s' = getPml4 s := by rw [getPml4, getPml4, hcr]
  constructor
  · rw [hroot]
    exact h.within
  · intro w hw hother
    rw [hs.getPhys, hs'.getPhys]
    refine congrArg some (vmmGetPhys_congr hcr (h.others w ?_))
    rintro u rfl heq
    exact hother (samePage_of_indices hv hw heq)

theorem pageSlot_child_entry (h : pageSlot m k t i = .child u) :
    ¬ entry m t (BitVec.ofNat 64 i) &&& ptePresent = 0#64 ∧
      entry m t (BitVec.ofNat 64 i) &&& pteAddrMask = u := by
  unfold pageSlot at h
  split at h
  · cases h
  · rename_i hpresent
    split at h
    · cases h
    · cases h
      exact ⟨hpresent, rfl⟩

theorem pageSlot_leaf_entry (h : pageSlot m k t i = .leaf l) (hk : k ≠ 0) :
    ¬ entry m t (BitVec.ofNat 64 i) &&& ptePresent = 0#64 ∧
      entry m t (BitVec.ofNat 64 i) &&& pteHuge ≠ 0#64 := by
  unfold pageSlot at h
  split at h
  · cases h
  · rename_i hpresent
    split at h
    · rename_i hleaf
      exact ⟨hpresent, (hleaf.resolve_left hk).2⟩
    · cases h

/-- The walk for `v` meets a huge page in the page directory `pd`. -/
structure MeetsHuge (m : Mem) (root v pd l : Word) : Prop where
  table : Table m root [indexAt 30 v, indexAt 39 v] pd
  leaf : pageSlot m 1 pd (indexAt 21 v) = .leaf l

/-- The walk that meets a huge page meets it in a page directory. -/
theorem huge_walk {used : Word → Prop} (h : Tables m root used) (hhuge : ¬ NoHuge m root v) :
    ∃ pd l, MeetsHuge m root v pd l := by
  unfold NoHuge at hhuge
  push Not at hhuge
  obtain ⟨e, rest, hleaf, hrest⟩ := hhuge
  have hroot : Table m root [] root := .root
  rw [leafOf, indices, lookup] at hleaf
  cases h3 : pageSlot m 3 root (indexAt 39 v) with
  | empty => simp [h3] at hleaf
  | leaf l => exact absurd h3 (pageSlot_top m root _ l)
  | child pdpt =>
      have hpdpt : Table m root [indexAt 39 v] pdpt := .child hroot h3
      simp only [List.length_cons, List.length_nil, h3] at hleaf
      rw [lookup] at hleaf
      cases h2 : pageSlot m 2 pdpt (indexAt 30 v) with
      | empty => simp [h2] at hleaf
      | leaf l => exact absurd h2 (h.noGiant _ _ _ l hpdpt)
      | child pd =>
          simp only [List.length_cons, List.length_nil, h2] at hleaf
          rw [lookup] at hleaf
          cases h1 : pageSlot m 1 pd (indexAt 21 v) with
          | empty => simp [h1] at hleaf
          | leaf l => exact ⟨pd, l, .child hpdpt h2, h1⟩
          | child pt =>
              simp only [List.length_cons, List.length_nil, h1] at hleaf
              rw [lookup] at hleaf
              cases h0 : pageSlot m 0 pt (indexAt 12 v) with
              | empty => simp [h0] at hleaf
              | leaf l =>
                  simp only [List.length_nil, h0, Option.some.injEq, Prod.mk.injEq] at hleaf
                  exact absurd hleaf.2.symm hrest
              | child u => exact absurd h0 (pageSlot_bottom m _ _ u)

/-- The indices of a page under it. -/
theorem indices_under (hw : tablePath w = tablePath v) :
    indices w = [indexAt 39 v, indexAt 30 v] ++ [indexAt 21 v, indexAt 12 w] := by
  rw [indices_eq, hw]
  rfl

/-- All pages under the huge page are mapped. -/
theorem MeetsHuge.leafOf (h : MeetsHuge m root v pd l) (hw : tablePath w = tablePath v) :
    Vmm.leafOf m root w = some (l, [indexAt 12 w]) := by
  have hgo := h.table.lookup_append [indexAt 21 v, indexAt 12 w] rfl
  have hstep : lookup (pageSlot m) pd [indexAt 21 v, indexAt 12 w] = some (l, [indexAt 12 w]) := by
    rw [lookup, List.length_singleton, h.leaf]
  rw [Vmm.leafOf, indices_under hw]
  exact hgo.trans hstep

theorem MeetsHuge.mapped (h : MeetsHuge s.mem (getPml4 s) v pd l) (hw : tablePath w = tablePath v) :
    vmmGetPhys s w ≠ -1#64 := by
  rw [vmmGetPhys_eq, h.leafOf hw]
  exact translation_ne _ _ _

/-- The huge page is gone. -/
def cleared (s : State P) (v pd : Word) : State P :=
  { s with mem := setEntry s.mem pd (BitVec.ofNat 64 (indexAt 21 v)) 0#64 }

/-- Unmapping clears the whole huge page. -/
theorem MeetsHuge.unmapPage (h : MeetsHuge s.mem (getPml4 s) v pd l) :
    vmmUnmapPage s v = cleared s v pd := by
  obtain ⟨hpresent₁, hhuge⟩ := pageSlot_leaf_entry h.leaf (by decide)
  cases h.table with
  | child hpdpt h2 =>
      cases hpdpt with
      | child hroot h3 =>
          cases hroot
          obtain ⟨hpresent₃, rfl⟩ := pageSlot_child_entry h3
          obtain ⟨hpresent₂, rfl⟩ := pageSlot_child_entry h2
          unfold vmmUnmapPage
          simp only [pml4Index, pdptIndex, pdIndex, ptIndex, index_eq]
          rw [if_neg hpresent₃, if_neg hpresent₂, if_neg hpresent₁, if_pos hhuge]
          rfl

/-- The slot of the huge page is empty then, and no other slot has changed. -/
theorem MeetsHuge.slot_cleared (h : MeetsHuge s.mem (getPml4 s) v pd l) (hs : Sound used s) :
    pageSlot (cleared s v pd).mem k pd (indexAt 21 v) = .empty := by
  have hpage := hs.page _ _ h.table
  have hentry : entry (cleared s v pd).mem pd (BitVec.ofNat 64 (indexAt 21 v)) = 0#64 := by
    rw [cleared, entry_setEntry hpage hpage, if_pos ⟨rfl, rfl⟩]
  exact pageSlot_empty (by rw [hentry]; rfl)

theorem MeetsHuge.tables_cleared (h : MeetsHuge s.mem (getPml4 s) v pd l) (hs : Sound used s)
    (ht : Table (cleared s v pd).mem (getPml4 s) p t) : Table s.mem (getPml4 s) p t := by
  have hsame := setEntry_sameBut (i := indexAt 21 v) (e := 0#64) hs h.table
  refine hsame.symm_reach ht ?_
  intro hsuf
  obtain ⟨u, hu⟩ := ht.of_suffix hsuf
  cases hu with
  | child hq hslot =>
      have hpd := hsame.symm_reach hq fun hsuf => by simpa using hsuf.length_le
      rw [hpd.unique h.table, h.slot_cleared hs] at hslot
      cases hslot

/-- The pages under it are mapped no longer, and the walks of the others are as before. -/
theorem MeetsHuge.leafOf_cleared (h : MeetsHuge s.mem (getPml4 s) v pd l) (hs : Sound used s)
    (w : Word) : Vmm.leafOf (cleared s v pd).mem (getPml4 s) w =
      if tablePath w = tablePath v then none else Vmm.leafOf s.mem (getPml4 s) w := by
  have hsame := setEntry_sameBut (i := indexAt 21 v) (e := 0#64) hs h.table
  split
  · rename_i hw
    have hpd := hsame.reach h.table fun hsuf => by simpa using hsuf.length_le
    have hgo := hpd.lookup_append [indexAt 21 v, indexAt 12 w] rfl
    have hstep : lookup (pageSlot (cleared s v pd).mem) pd [indexAt 21 v, indexAt 12 w] = none := by
      rw [lookup, h.slot_cleared hs]
    rw [Vmm.leafOf, indices_under hw]
    exact hgo.trans hstep
  · rename_i hw
    refine hsame.lookup .root rfl ?_
    rw [List.append_nil]
    intro hsuf
    -- the last three of the four indices are those of the slot
    have hlist : (indices w).reverse = indexAt 12 w :: tablePath w := by
      rw [indices_eq, List.reverse_append, List.reverse_reverse]
      rfl
    rw [hlist] at hsuf
    rcases List.suffix_cons_iff.mp hsuf with heq | hsuf
    · exact absurd (congrArg List.length heq) (by simp [tablePath])
    · exact hw (hsuf.eq_of_length rfl).symm

/-- An entry is read as before, or its address was under the huge page. -/
theorem MeetsHuge.load_cleared (h : MeetsHuge s.mem (getPml4 s) v pd l) (hs : Addressed used s)
    (ht : Table (cleared s v pd).mem (getPml4 s) p t) (i : Index) :
    Pointer.loadEntry (cleared s v pd) t (BitVec.ofNat 64 i) =
        some (entry (cleared s v pd).mem t (BitVec.ofNat 64 i)) ∨
      (∃ x : Word, x.toNat < identityTop ∧ tablePath x = tablePath v) ∧
        Pointer.loadEntry (cleared s v pd) t (BitVec.ofNat 64 i) = none := by
  have hold := h.tables_cleared hs.sound ht
  have hlow := slot_low (hs.sound.page _ _ hold) (hs.reachable _ _ hold) i
  have hleaf := h.leafOf_cleared hs.sound (t + 8#64 * BitVec.ofNat 64 i)
  by_cases hunder : tablePath (t + 8#64 * BitVec.ofNat 64 i) = tablePath v
  · refine Or.inr ⟨⟨_, hlow, hunder⟩, ?_⟩
    rw [if_pos hunder] at hleaf
    have hphys : vmmGetPhys (cleared s v pd) (t + 8#64 * BitVec.ofNat 64 i) = -1#64 :=
      vmmGetPhys_none hleaf
    rw [Pointer.loadEntry, Pointer.translate, if_neg]
    · rfl
    · rintro ⟨-, hmapped⟩
      rw [vmmIsMapped, hphys] at hmapped
      exact absurd hmapped (by decide)
  · rw [if_neg hunder, hs.identity _ hlow] at hleaf
    left
    rw [Pointer.loadEntry, translate_of_leaf hlow hleaf]
    rfl

/-- **All pages under the huge page lose their translation.** -/
theorem MeetsHuge.lost (h : MeetsHuge s.mem (getPml4 s) v pd l) (hs : Addressed used s)
    (hw : tablePath w = tablePath v) :
    Pointer.vmmGetPhys (cleared s v pd) w = some (-1#64) ∨
      (∃ x : Word, x.toNat < identityTop ∧ tablePath x = tablePath v) ∧
        Pointer.vmmGetPhys (cleared s v pd) w = none := by
  have hleaf := h.leafOf_cleared hs.sound w
  rw [if_pos hw] at hleaf
  have hphys : vmmGetPhys (cleared s v pd) w = -1#64 := vmmGetPhys_none hleaf
  rw [← hphys]
  exact getPhys_cases w fun p t i ht => h.load_cleared hs ht i

/-- The page after the one of `v`, in the same 2 MB. -/
def neighbour (v : Word) : Word :=
  BitVec.ofNat 64 (v.toNat / 2 ^ 21 * 2 ^ 21 + (v.toNat + pageSize) % 2 ^ 21)

theorem neighbour_toNat (v : Word) :
    (neighbour v).toNat = v.toNat / 2 ^ 21 * 2 ^ 21 + (v.toNat + 4096) % 2 ^ 21 := by
  have hlt := v.isLt
  rw [neighbour, BitVec.toNat_ofNat, pageSize]
  omega

theorem neighbour_canonical (hv : Canonical v) : Canonical (neighbour v) := by
  have hlt := v.isLt
  unfold Canonical at hv ⊢
  rw [neighbour_toNat]
  omega

theorem neighbour_page (v : Word) : ¬ SamePage (neighbour v) v := by
  unfold SamePage
  rw [neighbour_toNat, pageSize]
  omega

theorem neighbour_tablePath (v : Word) : tablePath (neighbour v) = tablePath v := by
  have hblock : (neighbour v).toNat / 2 ^ 21 = v.toNat / 2 ^ 21 := by
    rw [neighbour_toNat]
    omega
  have hindex : ∀ shift, 21 ≤ shift → indexAt shift (neighbour v) = indexAt shift v := by
    intro shift hshift
    obtain ⟨k, rfl⟩ := Nat.exists_eq_add_of_le hshift
    refine Fin.ext ?_
    show (neighbour v).toNat / 2 ^ (21 + k) % 512 = v.toNat / 2 ^ (21 + k) % 512
    rw [Nat.pow_add, ← Nat.div_div_eq_div_mul, ← Nat.div_div_eq_div_mul, hblock]
  rw [tablePath, tablePath, hindex 39 (by decide), hindex 30 (by decide), hindex 21 (by decide)]

/-- **Mapping and unmapping stay in their page exactly where the walk meets no huge
page**, while the pages for new tables are mapped to themselves. -/
theorem consistent_iff (ha : Supplies pmmAllocPage used) (m : Mem) {p₀ : P}
    (hboot : ∀ e ∈ bootTables, used p₀ e.2)
    (hrun : Run (Pointer.Step pmmAllocPage) (bootState m p₀) ops s) (hv : Canonical v)
    (hlow : TakesLow pmmAllocPage s (tablesFor v)) :
    Consistent pmmAllocPage s v ↔ NoHuge s.mem (getPml4 s) v := by
  have hs := run_addressed ha m hboot hrun
  constructor
  · rintro ⟨-, hunmap⟩
    by_contra hhuge
    obtain ⟨pd, l, hmeets⟩ := huge_walk hs.sound hhuge
    have hrun : Pointer.vmmUnmapPage s v = some (cleared s v pd) := by
      rw [hs.unmapPage, hmeets.unmapPage]
    have hsame := (hunmap _ hrun).2 (neighbour v) (neighbour_canonical hv) (neighbour_page v)
    have hmapped := hmeets.mapped (neighbour_tablePath v)
    rw [hs.getPhys] at hsame
    rcases hmeets.lost hs (neighbour_tablePath v) with hlost | ⟨-, hlost⟩
    · rw [hlost] at hsame
      exact hmapped (Option.some.inj hsame).symm
    · rw [hlost] at hsame
      cases hsame
  · intro hnone
    constructor
    · intro phys flags s' ret hmap
      obtain ⟨heq, haddressed⟩ := hs.mapPage ha hnone hlow phys flags
      rw [heq] at hmap
      obtain ⟨-, hcr, -, hretr, -⟩ := vmmMapPage_ok ha hs.sound hnone hmap
      exact hretr.ownPage hs (haddressed s' ret hmap) hcr hv
    · intro s' hunmap
      rw [hs.unmapPage] at hunmap
      obtain rfl := Option.some.inj hunmap
      obtain ⟨hcr, -, hretr, -⟩ := vmmUnmapPage_ok hs.sound hnone
      exact hretr.ownPage hs (hs.unmapped hnone) hcr hv

end Huge

/-- The first pages of the concrete allocator are mapped to themselves. -/
theorem nextPage_low {s : State Nat} {N : Set (List Index)} (hs : s.pmm ≤ 700) (hN : N.encard ≤ 3) :
    TakesLow nextPage s N := by
  rintro a t a' ⟨n, hn, htakes⟩ halloc
  have hthree : (n : ℕ∞) < 3 := hn.trans_le ((Set.encard_le_encard Set.sdiff_subset).trans hN)
  have hlt : n < 3 := by exact_mod_cast hthree
  have ha := takePages_nextPage htakes
  obtain ⟨-, ht, -⟩ := nextPage_eq halloc
  have htop : identityTop = 0x400000 := rfl
  rw [InIdentity, pageSize]
  omega

/-- Two pages of the second gigabyte: the first is mapped, and the second may be. -/
theorem consistent_second_gigabyte : ∃ s,
    Run (Pointer.Step nextPage) (bootState (fun _ => 0#8) 0)
      [.mapPage 0x40000000#64 0x200000#64 3#64] s ∧
    Consistent nextPage s 0x40001000#64 := by
  have hs := boot_addressed (fun _ => 0#8) bootTables_used
  have hnone : NoHuge (bootState (fun _ => 0#8) 0).mem (getPml4 (bootState (fun _ => 0#8) 0))
      0x40000000#64 := boot_noHuge _
  have hlow : TakesLow nextPage (bootState (fun _ => 0#8) 0) (tablesFor 0x40000000#64) :=
    nextPage_low (Nat.zero_le _) (tablesFor_encard _)
  obtain ⟨s, ret, hphys⟩ := vmmMapPage_some (s := bootState (fun _ => 0#8) 0) nextPage_free
    0x40000000#64 0x200000#64 3#64 (show 3 ≤ 2 ^ 20 - 0 by decide)
  have hmap := (hs.mapPage nextPage_supplies hnone hlow _ _).1.trans hphys
  have hrun : Run (Pointer.Step nextPage) (bootState (fun _ => 0#8) 0)
      [.mapPage 0x40000000#64 0x200000#64 3#64] s := by
    refine .cons ⟨?_, hlow, ret, hmap⟩ (.nil s)
    rintro v rfl
    exact ⟨Or.inl (by decide), hnone⟩
  -- it has taken at most three pages
  obtain ⟨n, hgrows⟩ := vmmMapPage_grows nextPage_supplies hs.sound hnone hphys
  have hthree : (n : ℕ∞) ≤ 3 := by
    rw [hgrows.count]
    exact (Set.encard_le_encard Set.sdiff_subset).trans (tablesFor_encard _)
  have hlen : n ≤ 3 := by exact_mod_cast hthree
  have hpmm : s.pmm = 0 + n := takePages_nextPage hgrows.takes
  have hnone' : NoHuge s.mem (getPml4 s) 0x40001000#64 := by
    obtain ⟨-, -, -, hretr, -⟩ := vmmMapPage_ok nextPage_supplies hs.sound hnone hphys
    rw [hgrows.root]
    refine hretr.noHuge ?_ ?_
    · rintro v rfl
      decide
    · intro e rest hleaf
      rw [getPml4_bootState] at hleaf
      cases (boot_gigabyte (i := 0) (j := 1) _ (by decide)).symm.trans hleaf
  refine ⟨s, hrun, (consistent_iff nextPage_supplies _ bootTables_used hrun (Or.inl (by decide))
    (nextPage_low (by omega) (tablesFor_encard _))).mpr hnone'⟩

/-- The first page directory entry of the higher half is a huge page. -/
theorem boot_meetsHuge (m : Mem) : MeetsHuge (setupPaging m) 0x70000#64 0xFFFF800000000000#64
    0x74000#64 0x83#64 := by
  have hmem : ([0, 256], 0x74000#64) ∈ bootTables := by decide
  have hindex : indexAt 21 0xFFFF800000000000#64 = 0 := by decide
  have hentry : entry (setupPaging m) 0x74000#64 (BitVec.ofNat 64 (0 : Index)) = BitVec.ofNat 64 0x83 :=
    bootTables_written hmem (by decide)
  refine ⟨bootTables_table hmem, ?_⟩
  rw [hindex, pageSlot_leaf, hentry]
  · rw [hentry]
    decide
  · rw [hentry]
    exact Or.inr ⟨by decide, by decide⟩

/-- Unmapping the first kernel page at boot takes the second one away as well. -/
theorem unmap_first_kernel_page :
    Canonical 0xFFFF800000000000#64 ∧ Canonical 0xFFFF800000001000#64 ∧
      ¬ SamePage 0xFFFF800000001000#64 0xFFFF800000000000#64 ∧
      Pointer.vmmGetPhys (bootState (fun _ => 0#8) 0) 0xFFFF800000001000#64 = some 0x1000#64 ∧
      ∃ s, Pointer.vmmUnmapPage (bootState (fun _ => 0#8) 0) 0xFFFF800000000000#64 = some s ∧
        Pointer.vmmGetPhys s 0xFFFF800000001000#64 = some (-1#64) := by
  have hs := boot_addressed (fun _ => 0#8) bootTables_used
  have hmeets : MeetsHuge (bootState (fun _ => 0#8) 0).mem (getPml4 (bootState (fun _ => 0#8) 0))
      0xFFFF800000000000#64 0x74000#64 0x83#64 := by
    rw [getPml4_bootState]
    exact boot_meetsHuge _
  have hpath : tablePath 0xFFFF800000001000#64 = tablePath 0xFFFF800000000000#64 := by decide
  refine ⟨Or.inr (by decide), Or.inr (by decide), by unfold SamePage; decide, ?_,
    _, by rw [hs.unmapPage, hmeets.unmapPage], ?_⟩
  · have hleaf : leafOf (bootState (fun _ => 0#8) 0).mem (getPml4 (bootState (fun _ => 0#8) 0))
        0xFFFF800000001000#64 = some (0x83#64, [1]) := hmeets.leafOf hpath
    rw [hs.getPhys, vmmGetPhys_eq, hleaf]
    decide
  · refine (hmeets.lost hs hpath).resolve_right ?_
    rintro ⟨⟨x, hx, hsame⟩, -⟩
    -- the addresses of the tables are under the first entry of the PML4
    have hfirst : indexAt 39 x = indexAt 39 0xFFFF800000000000#64 := (List.cons.inj
      (List.cons.inj (List.cons.inj hsame).2).2).1
    have hindex := congrArg Fin.val hfirst
    have htop : identityTop = 0x400000 := rfl
    have hzero : (indexAt 39 x).val = x.toNat / 2 ^ 39 % 512 := rfl
    have hhigh : (indexAt 39 0xFFFF800000000000#64).val = 256 := by decide
    omega

end VectorForth.Vmm
