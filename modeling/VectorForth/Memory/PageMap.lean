import VectorForth.Memory.PageTree

/-!
# The page tables as a map of pages

What `vmm_map_page`, `vmm_unmap_page` and `vmm_map_range` do to the walks of all
addresses, where the walks for their own pages meet no huge page.
-/

namespace VectorForth.Vmm

open ByteMemory RadixTree

/-- The walk for an address meets no 2 MB or 1 GB entry. -/
def NoHuge (m : Mem) (root virt : Word) : Prop :=
  ∀ e rest, leafOf m root virt = some (e, rest) → rest = []

/-- The upper bits repeat bit 47. -/
def Canonical (virt : Word) : Prop := virt.toNat < 2 ^ 47 ∨ 2 ^ 64 - 2 ^ 47 ≤ virt.toNat

def SamePage (w v : Word) : Prop := w.toNat / pageSize = v.toNat / pageSize

/-- The tables on the way to an address, the last index first. -/
def tablePath (virt : Word) : List Index := [indexAt 21 virt, indexAt 30 virt, indexAt 39 virt]

section Pages

variable {v w : Word}

theorem indices_eq (v : Word) : indices v = (tablePath v).reverse ++ [indexAt 12 v] := rfl

theorem SamePage.indices_eq (h : SamePage w v) : indices w = indices v := by
  have hpage : w.toNat / 4096 = v.toNat / 4096 := h
  have hindex : ∀ shift, 12 ≤ shift → indexAt shift w = indexAt shift v := by
    intro shift hshift
    obtain ⟨k, rfl⟩ := Nat.exists_eq_add_of_le hshift
    refine Fin.ext ?_
    show w.toNat / 2 ^ (12 + k) % 512 = v.toNat / 2 ^ (12 + k) % 512
    rw [Nat.pow_add, ← Nat.div_div_eq_div_mul, ← Nat.div_div_eq_div_mul, hpage]
  rw [indices, indices, hindex 39 (by decide), hindex 30 (by decide), hindex 21 (by decide),
    hindex 12 (by decide)]

/-- **Canonical addresses with the same indices are in one page.** -/
theorem samePage_of_indices (hv : Canonical v) (hw : Canonical w) (h : indices w = indices v) :
    SamePage w v := by
  have hindex : ∀ {shift}, indexAt shift w = indexAt shift v →
      w.toNat / 2 ^ shift % 512 = v.toNat / 2 ^ shift % 512 := fun heq => congrArg Fin.val heq
  simp only [indices, List.cons.injEq, and_true] at h
  obtain ⟨h39, h30, h21, h12⟩ := h
  replace h39 := hindex h39
  replace h30 := hindex h30
  replace h21 := hindex h21
  replace h12 := hindex h12
  unfold Canonical at hv hw
  show w.toNat / 4096 = v.toNat / 4096
  have hvlt := v.isLt
  have hwlt := w.isLt
  -- the 36 bits of the four indices, then the 16 above them
  have hlow : w.toNat / 2 ^ 12 % 2 ^ 36 = v.toNat / 2 ^ 12 % 2 ^ 36 := by omega
  omega

end Pages

/-! ## A page table entry is written -/

/-- Only the walks of the pages named may change, and only page tables are written. -/
structure Retranslated (m m' : Mem) (root : Word) (names : Word → Prop) : Prop where
  keeps : ∀ p t, Table m root p t → Table m' root p t
  others : ∀ w, (∀ v, names v → indices w ≠ indices v) → leafOf m' root w = leafOf m root w
  within : ∀ x, m' x ≠ m x → InTables m' root x

section Write

variable {m m' m'' : Mem} {root t e v w : Word} {used names names' : Word → Prop}
  {p q : List Index} {i : Index}

theorem Retranslated.refl (m : Mem) (root : Word) (names : Word → Prop) :
    Retranslated m m root names :=
  ⟨fun _ _ h => h, fun _ _ => rfl, fun _ h => absurd rfl h⟩

theorem Retranslated.mono (h : Retranslated m m' root names) (hsub : ∀ v, names v → names' v) :
    Retranslated m m' root names' :=
  ⟨h.keeps, fun w hw => h.others w fun v hv => hw v (hsub v hv), h.within⟩

theorem Retranslated.trans (h : Retranslated m m' root names)
    (h' : Retranslated m' m'' root names) : Retranslated m m'' root names := by
  constructor
  case keeps => exact fun p t ht => h'.keeps p t (h.keeps p t ht)
  case others => exact fun w hw => (h'.others w hw).trans (h.others w hw)
  case within =>
    intro x hx
    by_cases hne : m'' x = m' x
    · rw [hne] at hx
      obtain ⟨p, t, ht, hin⟩ := h.within x hx
      exact ⟨p, t, h'.keeps p t ht, hin⟩
    · exact h'.within x hne

theorem Extends.leafOf (h : Extends m m' root) (v : Word) :
    leafOf m' root v = Vmm.leafOf m root v := h.lookup _ rfl

/-- New tables concern no page. -/
theorem Extends.retranslated (h : Extends m m' root) (names : Word → Prop) :
    Retranslated m m' root names :=
  ⟨h.keeps, fun w _ => h.leafOf w, h.within⟩

/-- The walks for pages not named meet no new huge page. -/
theorem Retranslated.noHuge (h : Retranslated m m' root names)
    (hother : ∀ v, names v → indices w ≠ indices v) (hw : NoHuge m root w) : NoHuge m' root w := by
  intro e rest hleaf
  rw [h.others w hother] at hleaf
  exact hw e rest hleaf

theorem setEntry_sameBut (h : Tables m root used) (ht : Table m root p t) :
    SameBut (pageSlot m) (pageSlot (setEntry m t (BitVec.ofNat 64 i) e)) 4 root p i := by
  intro q u j hq hslot
  refine pageSlot_congr ?_
  rw [entry_setEntry (h.page p t ht) (h.page q u hq), if_neg]
  rintro ⟨rfl, rfl⟩
  exact hslot ⟨h.tree q p u hq ht, rfl⟩

theorem setEntry_table_iff (h : Tables m root used) (ht : Table m root p t) (hp : p.length = 3)
    {u : Word} : Table (setEntry m t (BitVec.ofNat 64 i) e) root q u ↔ Table m root q u :=
  (setEntry_sameBut h ht).reach_iff (by omega) (pageSlot_bottom _) (pageSlot_bottom _) (by decide)

/-- Tables stay tables when a last level entry changes. -/
theorem setEntry_tables (h : Tables m root used) (ht : Table m root p t) (hp : p.length = 3) :
    Tables (setEntry m t (BitVec.ofNat 64 i) e) root used := by
  have hiff : ∀ {q u}, Table (setEntry m t (BitVec.ofNat 64 i) e) root q u ↔ Table m root q u :=
    setEntry_table_iff h ht hp
  constructor
  case tree => exact fun q q' u hq hq' => h.tree q q' u (hiff.mp hq) (hiff.mp hq')
  case page => exact fun q u hq => h.page q u (hiff.mp hq)
  case taken => exact fun q u hq => h.taken q u (hiff.mp hq)
  case noGiant =>
    intro j u k l hq hleaf
    have hsame : pageSlot (setEntry m t (BitVec.ofNat 64 i) e) 2 u k = pageSlot m 2 u k := by
      refine setEntry_sameBut h ht [j] u k (hiff.mp hq) ?_
      rintro ⟨rfl, -⟩
      simp at hp
    exact h.noGiant j u k l (hiff.mp hq) (hsame.symm.trans hleaf)

/-- **Writing the last entry of the walk for an address concerns its page only.** -/
theorem setEntry_retranslated (h : Tables m root used) (ht : Table m root (tablePath v) t) :
    Retranslated m (setEntry m t (BitVec.ofNat 64 (indexAt 12 v)) e) root (· = v) := by
  have hiff : ∀ {q u}, Table (setEntry m t (BitVec.ofNat 64 (indexAt 12 v)) e) root q u ↔
      Table m root q u := setEntry_table_iff h ht rfl
  constructor
  case keeps => exact fun q u hq => hiff.mpr hq
  case others =>
    intro w hw
    refine (setEntry_sameBut h ht).lookup .root rfl ?_
    rw [List.append_nil]
    intro hsuf
    -- both lists have four indices
    have heq : indexAt 12 v :: tablePath v = (indices w).reverse := hsuf.eq_of_length rfl
    have hrev : indices w = (indexAt 12 v :: tablePath v).reverse := by
      rw [heq, List.reverse_reverse]
    exact hw v rfl hrev
  case within =>
    intro x hx
    have ha := h.page _ _ ht
    have hi := (indexAt 12 v).isLt
    have hsize : pageSize = 4096 := rfl
    by_contra hout
    refine hx ?_
    rw [setEntry, slot_toNat ha, write64_outside]
    by_contra hin
    exact hout ⟨_, t, hiff.mpr ht, by omega, by omega⟩

/-- What the walk then finds. -/
theorem setEntry_leafOf (h : Tables m root used) (ht : Table m root (tablePath v) t) :
    leafOf (setEntry m t (BitVec.ofNat 64 (indexAt 12 v)) e) root v =
      if e &&& ptePresent = 0#64 then none else some (e, []) := by
  have hentry : entry (setEntry m t (BitVec.ofNat 64 (indexAt 12 v)) e) t
      (BitVec.ofNat 64 (indexAt 12 v)) = e := by
    rw [entry_setEntry (h.page _ _ ht) (h.page _ _ ht), if_pos ⟨rfl, rfl⟩]
  have ht' := (setEntry_retranslated (e := e) h ht).keeps _ _ ht
  rw [leafOf, indices_eq, ht'.lookup_append _ rfl, lookup]
  by_cases hpresent : e &&& ptePresent = 0#64
  · rw [if_pos hpresent, List.length_nil, pageSlot_empty (by rw [hentry, hpresent])]
  · rw [if_neg hpresent, List.length_nil, pageSlot_leaf (by rwa [hentry]) (Or.inl rfl), hentry]

end Write

/-! ## Mapping a page -/

section Operations

variable {P : Type} {pmmAllocPage : P → Option (Word × P)} {used : P → Word → Prop} {s s' : State P}
  {m : Mem} {root t v phys flags : Word} {ret : Int}

/-- The invariant, of a machine. -/
def Sound (used : P → Word → Prop) (s : State P) : Prop :=
  Tables s.mem (getPml4 s) (used s.pmm)

/-- The second level has a table or nothing for an address without huge pages. -/
theorem NoHuge.slot (h : NoHuge m root v) (ht : Table m root [indexAt 30 v, indexAt 39 v] t)
    (l : Word) : pageSlot m 1 t (indexAt 21 v) ≠ .leaf l := by
  intro hleaf
  have hwalk : leafOf m root v = some (l, [indexAt 12 v]) := by
    have hgo := ht.lookup_append [indexAt 21 v, indexAt 12 v] rfl
    have hstep : lookup (pageSlot m) t [indexAt 21 v, indexAt 12 v] = some (l, [indexAt 12 v]) := by
      rw [lookup, List.length_singleton, hleaf]
    exact hgo.trans hstep
  cases h l _ hwalk

theorem pageSlot_top (m : Mem) (t : Word) (i : Index) (l : Word) : pageSlot m 3 t i ≠ .leaf l := by
  unfold pageSlot
  split
  · exact fun h => by cases h
  · rw [if_neg (by simp)]
    exact fun h => by cases h

/-- The entry that `vmm_map_page` writes. -/
def pageEntry (phys flags : Word) : Word := (phys &&& pteAddrMask) ||| flags ||| ptePresent

theorem pageEntry_present (phys flags : Word) : ¬ pageEntry phys flags &&& ptePresent = 0#64 := by
  intro h
  have hbit := congrArg (fun b => BitVec.getLsbD b 0) h
  simp [pageEntry, ptePresent] at hbit

/-- A call of `vmm_get_or_create_table` for slot `i` of the table `t` at `p`. -/
structure Descends (pmmAllocPage : P → Option (Word × P)) (used : P → Word → Prop) (root : Word)
    (s s' : State P) (p : List Index) (t : Word) (i : Index) (u : Word) : Prop where
  run : vmmGetOrCreateTable pmmAllocPage s t (BitVec.ofNat 64 i) (ptePresent ||| pteWritable) =
    some (s', u)
  tables : Tables s.mem root (used s.pmm)
  parent : Table s.mem root p t
  short : p.length < 3
  noLeaf : ∀ l, pageSlot s.mem (4 - (p.length + 1)) t i ≠ .leaf l

/-- What `vmm_map_page` does: three tables are looked up or made, then the entry is
written. -/
theorem vmmMapPage_walk (ha : Supplies pmmAllocPage used) (h : Sound used s)
    (hv : NoHuge s.mem (getPml4 s) v)
    (hrun : vmmMapPage pmmAllocPage s v phys flags = some (s', ret)) :
    ∃ s₁ s₂ s₃ pdpt pd pt,
      Descends pmmAllocPage used (getPml4 s) s s₁ [] (getPml4 s) (indexAt 39 v) pdpt ∧
      Descends pmmAllocPage used (getPml4 s) s₁ s₂ [indexAt 39 v] pdpt (indexAt 30 v) pd ∧
      Descends pmmAllocPage used (getPml4 s) s₂ s₃ [indexAt 30 v, indexAt 39 v] pd (indexAt 21 v) pt ∧
      ret = 0 ∧
      s' = { s₃ with mem := setEntry s₃.mem pt (BitVec.ofNat 64 (indexAt 12 v))
                              (pageEntry phys flags) } := by
  unfold vmmMapPage at hrun
  simp only [pml4Index, pdptIndex, pdIndex, ptIndex, index_eq] at hrun
  obtain ⟨⟨s₁, pdpt⟩, hrun₁, hrun⟩ := Option.bind_eq_some_iff.mp hrun
  have hfirst : Descends pmmAllocPage used (getPml4 s) s s₁ [] (getPml4 s) (indexAt 39 v) pdpt :=
    ⟨hrun₁, h, .root, by decide, pageSlot_top s.mem _ _⟩
  obtain ⟨-, htab₁, hext₁, hpdpt⟩ := getOrCreate_ok ha h .root (by decide)
    (pageSlot_top s.mem _ _) hrun₁
  dsimp only at hrun
  rw [if_neg (htab₁.page _ _ hpdpt).ne_zero] at hrun
  obtain ⟨⟨s₂, pd⟩, hrun₂, hrun⟩ := Option.bind_eq_some_iff.mp hrun
  have hsecond : Descends pmmAllocPage used (getPml4 s) s₁ s₂ [indexAt 39 v] pdpt (indexAt 30 v) pd :=
    ⟨hrun₂, htab₁, hpdpt, by simp, fun l => htab₁.noGiant _ _ _ l hpdpt⟩
  obtain ⟨-, htab₂, hext₂, hpd⟩ := getOrCreate_ok ha htab₁ hpdpt (by simp)
    (fun l => htab₁.noGiant _ _ _ l hpdpt) hrun₂
  dsimp only at hrun
  rw [if_neg (htab₂.page _ _ hpd).ne_zero] at hrun
  obtain ⟨⟨s₃, pt⟩, hrun₃, hrun⟩ := Option.bind_eq_some_iff.mp hrun
  -- the first two tables have changed no walk
  have hv₂ : NoHuge s₂.mem (getPml4 s) v := by
    intro e rest hleaf
    rw [(hext₁.trans hext₂).leafOf] at hleaf
    exact hv e rest hleaf
  obtain ⟨-, htab₃, -, hpt⟩ := getOrCreate_ok ha htab₂ hpd (by simp) (hv₂.slot hpd) hrun₃
  dsimp only at hrun
  rw [if_neg (htab₃.page _ _ hpt).ne_zero] at hrun
  obtain ⟨rfl, rfl⟩ := Prod.mk.inj (Option.some.inj hrun)
  exact ⟨s₁, s₂, s₃, pdpt, pd, pt, hfirst, hsecond, ⟨hrun₃, htab₂, hpd, by simp, hv₂.slot hpd⟩, rfl,
    rfl⟩

theorem Descends.ok {i : Index} {p : List Index} {u : Word} (ha : Supplies pmmAllocPage used)
    (h : Descends pmmAllocPage used root s s' p t i u) :
    s'.cr3 = s.cr3 ∧ Tables s'.mem root (used s'.pmm) ∧ Extends s.mem s'.mem root ∧
      Table s'.mem root (i :: p) u :=
  getOrCreate_ok ha h.tables h.parent h.short h.noLeaf h.run

/-- **`vmm_map_page` sets the walk of its page** and no other. -/
theorem vmmMapPage_ok (ha : Supplies pmmAllocPage used) (h : Sound used s)
    (hv : NoHuge s.mem (getPml4 s) v)
    (hrun : vmmMapPage pmmAllocPage s v phys flags = some (s', ret)) :
    ret = 0 ∧ s'.cr3 = s.cr3 ∧ Sound used s' ∧ Retranslated s.mem s'.mem (getPml4 s) (· = v) ∧
      leafOf s'.mem (getPml4 s) v = some (pageEntry phys flags, []) := by
  obtain ⟨s₁, s₂, s₃, pdpt, pd, pt, hfirst, hsecond, hthird, rfl, rfl⟩ := vmmMapPage_walk ha h hv hrun
  obtain ⟨hcr₁, -, hext₁, -⟩ := hfirst.ok ha
  obtain ⟨hcr₂, -, hext₂, -⟩ := hsecond.ok ha
  obtain ⟨hcr₃, htab₃, hext₃, hpt⟩ := hthird.ok ha
  have hcr : s₃.cr3 = s.cr3 := by rw [hcr₃, hcr₂, hcr₁]
  have hroot : getPml4 s₃ = getPml4 s := by rw [getPml4, getPml4, hcr]
  refine ⟨rfl, hcr, ?_, ?_, ?_⟩
  · show Tables _ (getPml4 s₃) _
    rw [hroot]
    exact setEntry_tables htab₃ hpt rfl
  · exact (((hext₁.trans hext₂).trans hext₃).retranslated _).trans (setEntry_retranslated htab₃ hpt)
  · have hleaf := setEntry_leafOf (e := pageEntry phys flags) htab₃ hpt
    rw [if_neg (pageEntry_present phys flags)] at hleaf
    exact hleaf

/-! ## Unmapping a page -/

/-- What `vmm_unmap_page` does: nothing, or it clears the last entry of the walk. -/
theorem vmmUnmapPage_walk (h : Sound used s) (hv : NoHuge s.mem (getPml4 s) v) :
    (vmmUnmapPage s v = s ∧ leafOf s.mem (getPml4 s) v = none) ∨
      ∃ pt, Table s.mem (getPml4 s) (tablePath v) pt ∧
        vmmUnmapPage s v =
          { s with mem := setEntry s.mem pt (BitVec.ofNat 64 (indexAt 12 v)) 0#64 } := by
  unfold vmmUnmapPage
  simp only [pml4Index, pdptIndex, pdIndex, ptIndex, index_eq]
  have hroot : Table s.mem (getPml4 s) [] (getPml4 s) := .root
  by_cases h4 : entry s.mem (getPml4 s) (BitVec.ofNat 64 (indexAt 39 v)) &&& ptePresent = 0#64
  · rw [if_pos h4]
    refine Or.inl ⟨rfl, ?_⟩
    rw [leafOf, indices, lookup, pageSlot_empty h4]
  rw [if_neg h4]
  have hpdpt : Table s.mem (getPml4 s) [indexAt 39 v] _ :=
    .child hroot (pageSlot_child h4 (by simp))
  generalize entry s.mem (getPml4 s) (BitVec.ofNat 64 (indexAt 39 v)) &&& pteAddrMask = pdpt at *
  by_cases h3 : entry s.mem pdpt (BitVec.ofNat 64 (indexAt 30 v)) &&& ptePresent = 0#64
  · rw [if_pos h3]
    refine Or.inl ⟨rfl, ?_⟩
    have hgo := hpdpt.lookup_append [indexAt 30 v, indexAt 21 v, indexAt 12 v] rfl
    have hstep : lookup (pageSlot s.mem) pdpt [indexAt 30 v, indexAt 21 v, indexAt 12 v] = none := by
      rw [lookup, pageSlot_empty h3]
    exact hgo.trans hstep
  rw [if_neg h3]
  have hpd : Table s.mem (getPml4 s) [indexAt 30 v, indexAt 39 v] _ :=
    .child hpdpt (pageSlot_child h3 fun hk => h.noGiant _ _ _ _ hpdpt (pageSlot_leaf h3 hk))
  generalize entry s.mem pdpt (BitVec.ofNat 64 (indexAt 30 v)) &&& pteAddrMask = pd at *
  by_cases h2 : entry s.mem pd (BitVec.ofNat 64 (indexAt 21 v)) &&& ptePresent = 0#64
  · rw [if_pos h2]
    refine Or.inl ⟨rfl, ?_⟩
    have hgo := hpd.lookup_append [indexAt 21 v, indexAt 12 v] rfl
    have hstep : lookup (pageSlot s.mem) pd [indexAt 21 v, indexAt 12 v] = none := by
      rw [lookup, pageSlot_empty h2]
    exact hgo.trans hstep
  have hslot : ¬ (1 = 0 ∨ (1 ≤ 2 ∧
      entry s.mem pd (BitVec.ofNat 64 (indexAt 21 v)) &&& pteHuge ≠ 0#64)) :=
    fun hk => hv.slot hpd _ (pageSlot_leaf h2 hk)
  rw [if_neg h2, if_neg fun hhuge => hslot (Or.inr ⟨by decide, hhuge⟩)]
  exact Or.inr ⟨_, .child hpd (pageSlot_child h2 hslot), rfl⟩

/-- **`vmm_unmap_page` clears the walk of its page** and no other. -/
theorem vmmUnmapPage_ok (h : Sound used s) (hv : NoHuge s.mem (getPml4 s) v) :
    (vmmUnmapPage s v).cr3 = s.cr3 ∧ Sound used (vmmUnmapPage s v) ∧
      Retranslated s.mem (vmmUnmapPage s v).mem (getPml4 s) (· = v) ∧
      leafOf (vmmUnmapPage s v).mem (getPml4 s) v = none := by
  rcases vmmUnmapPage_walk h hv with ⟨heq, hleaf⟩ | ⟨pt, hpt, heq⟩
  · rw [heq]
    exact ⟨rfl, h, Retranslated.refl _ _ _, hleaf⟩
  · rw [heq]
    refine ⟨rfl, setEntry_tables h hpt rfl, setEntry_retranslated h hpt, ?_⟩
    have hleaf := setEntry_leafOf (e := 0#64) h hpt
    rw [if_pos (BitVec.zero_and)] at hleaf
    exact hleaf

/-! ## Mapping a range -/

/-- Page `n` of a range. -/
def rangePage (start : Word) (n : Nat) : Word := start + BitVec.ofNat 64 n * 4096#64

theorem rangePage_toNat (start : Word) (n : Nat) :
    (rangePage start n).toNat = (start.toNat + n * 4096) % 2 ^ 64 := by
  rw [rangePage, BitVec.toNat_add, BitVec.toNat_mul, BitVec.toNat_ofNat, BitVec.toNat_ofNat]
  omega

/-- The pages of a range that fits in the address space are distinct. -/
theorem rangePage_inj {start : Word} {a b : Nat} (ha : a < 2 ^ 52) (hb : b < 2 ^ 52)
    (h : SamePage (rangePage start a) (rangePage start b)) : a = b := by
  have hpage : (rangePage start a).toNat / 4096 = (rangePage start b).toNat / 4096 := h
  rw [rangePage_toNat, rangePage_toNat] at hpage
  omega

/-- The pages from `j` on that the loop has still to map. -/
def pagesFrom (start : Word) (j k : Nat) (w : Word) : Prop :=
  ∃ n, j ≤ n ∧ n < j + k ∧ w = rangePage start n

theorem pagesFrom_here (vs : Word) (j k : Nat) : pagesFrom vs j (k + 1) (rangePage vs j) :=
  ⟨j, le_refl j, by omega, rfl⟩

theorem pagesFrom_later {vs w : Word} {j k : Nat} (h : pagesFrom vs (j + 1) k w) :
    pagesFrom vs j (k + 1) w := by
  obtain ⟨n, hn, hlt, rfl⟩ := h
  exact ⟨n, by omega, by omega, rfl⟩

/-- The later pages of a range have other walks than the first one. -/
theorem later_indices {vs w : Word} {j k : Nat} (hfits : j + (k + 1) ≤ 2 ^ 52)
    (hcanon : ∀ w, pagesFrom vs j (k + 1) w → Canonical w) (hw : pagesFrom vs (j + 1) k w) :
    indices w ≠ indices (rangePage vs j) := by
  intro heq
  have hsame := samePage_of_indices (hcanon _ (pagesFrom_here vs j k)) (hcanon _ (pagesFrom_later hw))
    heq
  obtain ⟨n, hn, hlt, rfl⟩ := hw
  have := rangePage_inj (by omega) (by omega) hsame
  omega

/-- They meet no huge page after the first one has been mapped. -/
theorem later_noHuge {vs : Word} {m' : Mem} {j k : Nat} (hfits : j + (k + 1) ≤ 2 ^ 52)
    (hcanon : ∀ w, pagesFrom vs j (k + 1) w → Canonical w)
    (hv : ∀ w, pagesFrom vs j (k + 1) w → NoHuge m root w)
    (h : Retranslated m m' root (· = rangePage vs j)) :
    ∀ w, pagesFrom vs (j + 1) k w → NoHuge m' root w := by
  intro w hw
  refine h.noHuge ?_ (hv w (pagesFrom_later hw))
  rintro v rfl
  exact later_indices hfits hcanon hw

/-- The loop maps its pages one after the other; none undoes another. -/
theorem vmmMapRangeFrom_ok (ha : Supplies pmmAllocPage used) {vs ps : Word} {k j : Nat}
    (hfits : j + k ≤ 2 ^ 52) (hcanon : ∀ w, pagesFrom vs j k w → Canonical w) (h : Sound used s)
    (hv : ∀ w, pagesFrom vs j k w → NoHuge s.mem (getPml4 s) w)
    (hrun : vmmMapRangeFrom pmmAllocPage vs ps flags k (BitVec.ofNat 64 j) s = some (s', ret)) :
    ret = 0 ∧ s'.cr3 = s.cr3 ∧ Sound used s' ∧
      Retranslated s.mem s'.mem (getPml4 s) (pagesFrom vs j k) ∧
      ∀ n, j ≤ n → n < j + k →
        leafOf s'.mem (getPml4 s) (rangePage vs n) = some (pageEntry (rangePage ps n) flags, []) := by
  induction k generalizing j s with
  | zero =>
      obtain ⟨rfl, rfl⟩ := Prod.mk.inj (Option.some.inj hrun)
      exact ⟨rfl, rfl, h, Retranslated.refl _ _ _, fun n h₁ h₂ => by omega⟩
  | succ k ih =>
      rw [vmmMapRangeFrom] at hrun
      obtain ⟨⟨s₁, ret₁⟩, hrun₁, hrun⟩ := Option.bind_eq_some_iff.mp hrun
      have hhere := pagesFrom_here vs j k
      obtain ⟨rfl, hcr₁, hsound₁, hret₁, hleaf₁⟩ := vmmMapPage_ok ha h (hv _ hhere) hrun₁
      have hroot : getPml4 s₁ = getPml4 s := by rw [getPml4, getPml4, hcr₁]
      dsimp only at hrun
      rw [if_neg (fun hne => hne rfl), ← BitVec.ofNat_add] at hrun
      obtain ⟨hret, hcr, hsound, hretr, hleaf⟩ := ih (by omega)
        (fun w hw => hcanon w (pagesFrom_later hw)) hsound₁
        (fun w hw => by
          rw [hroot]
          exact later_noHuge hfits hcanon hv hret₁ w hw) hrun
      rw [hroot] at hretr hleaf
      refine ⟨hret, hcr.trans hcr₁, hsound, ?_, ?_⟩
      · refine (hret₁.mono ?_).trans (hretr.mono fun w hw => pagesFrom_later hw)
        rintro v rfl
        exact hhere
      · intro n hn hlt
        rcases Nat.eq_or_lt_of_le hn with rfl | hgt
        · rw [hretr.others _ fun w hw heq => later_indices hfits hcanon hw heq.symm]
          exact hleaf₁
        · exact hleaf n hgt (by omega)

end Operations

end VectorForth.Vmm
