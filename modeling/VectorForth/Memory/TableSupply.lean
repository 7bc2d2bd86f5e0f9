import VectorForth.Memory.PageMap
import Mathlib.Data.Set.Card

/-!
# The pages that new tables take

A call takes one page for each table that its walks lack, one after the other. It
has no result exactly when the allocator has none on the way.
-/

namespace VectorForth.Vmm

open ByteMemory RadixTree

/-- The paths that lead to tables. -/
def paths {P : Type} (s : State P) : Set (List Index) := {p | ∃ t, Table s.mem (getPml4 s) p t}

/-- The paths of the tables that the walk for an address needs. -/
def tablesFor (v : Word) : Set (List Index) := {p | p ≠ [] ∧ p <:+ tablePath v}

/-- `n` pages are taken from the allocator. -/
def takePages {P : Type} (pmmAllocPage : P → Option (Word × P)) : Nat → P → Option P
  | 0, a => some a
  | n + 1, a => (pmmAllocPage a).bind fun r => takePages pmmAllocPage n r.2

/-- The allocator comes to `a` while there are still tables to make for the paths
`N`. -/
def Meets {P : Type} (pmmAllocPage : P → Option (Word × P)) (s : State P) (N : Set (List Index))
    (a : P) : Prop :=
  ∃ n : ℕ, (n : ℕ∞) < (N \ paths s).encard ∧ takePages pmmAllocPage n s.pmm = some a

/-- `n` pages have become the tables of the paths `N` that led to none. -/
structure Grows {P : Type} (pmmAllocPage : P → Option (Word × P)) (s s' : State P) (n : ℕ)
    (N : Set (List Index)) : Prop where
  root : getPml4 s' = getPml4 s
  takes : takePages pmmAllocPage n s.pmm = some s'.pmm
  reached : paths s' = paths s ∪ N
  count : (n : ℕ∞) = (N \ paths s).encard

section Grows

variable {P : Type} {pmmAllocPage : P → Option (Word × P)} {used : P → Word → Prop}
  {s s' s'' : State P} {a a' : P} {m n : ℕ} {N K : Set (List Index)} {root t u v : Word}
  {p : List Index} {i : Index}

theorem takePages_add : takePages pmmAllocPage (m + n) a =
    (takePages pmmAllocPage m a).bind (takePages pmmAllocPage n) := by
  induction m generalizing a with
  | zero =>
      rw [Nat.zero_add, takePages]
      rfl
  | succ m ih =>
      rw [Nat.add_right_comm, takePages, takePages, Option.bind_assoc]
      exact congrArg _ (funext fun r => ih)

theorem Grows.refl (s : State P) : Grows pmmAllocPage s s 0 ∅ where
  root := rfl
  takes := rfl
  reached := (Set.union_empty _).symm
  count := by simp

/-- The tables of `K` that are missing after those of `N` have been made. -/
theorem Grows.encard_union (h : Grows pmmAllocPage s s' n N) (K : Set (List Index)) :
    ((N ∪ K) \ paths s).encard = n + (K \ paths s').encard := by
  have hsplit : (N ∪ K) \ paths s = N \ paths s ∪ K \ paths s' := by
    rw [h.reached]
    ext p
    simp only [Set.mem_union, Set.mem_sdiff]
    tauto
  have hapart : Disjoint (N \ paths s) (K \ paths s') := by
    rw [h.reached, Set.disjoint_left]
    rintro p ⟨hp, -⟩ ⟨-, hp'⟩
    exact hp' (Or.inr hp)
  rw [hsplit, Set.encard_union_eq hapart, ← h.count]

theorem Grows.trans (h : Grows pmmAllocPage s s' m N) (h' : Grows pmmAllocPage s' s'' n K) :
    Grows pmmAllocPage s s'' (m + n) (N ∪ K) := by
  constructor
  case root => exact h'.root.trans h.root
  case takes =>
    rw [takePages_add, h.takes]
    exact h'.takes
  case reached => rw [h'.reached, h.reached, Set.union_assoc]
  case count => rw [h.encard_union, ← h'.count, Nat.cast_add]

theorem Meets.mono (h : Meets pmmAllocPage s N a) (hsub : N ⊆ K) : Meets pmmAllocPage s K a := by
  obtain ⟨n, hn, htakes⟩ := h
  exact ⟨n, hn.trans_le (Set.encard_le_encard (Set.sdiff_subset_sdiff_left hsub)), htakes⟩

/-- What the allocator comes to later in a call, it comes to in the whole call. -/
theorem Grows.meets (h : Grows pmmAllocPage s s' m N) (h' : Meets pmmAllocPage s' K a) :
    Meets pmmAllocPage s (N ∪ K) a := by
  obtain ⟨n, hn, htakes⟩ := h'
  refine ⟨m + n, ?_, ?_⟩
  · rw [h.encard_union, Nat.cast_add]
    exact (ENat.add_lt_add_iff_left (ENat.natCast_ne_top m)).mpr hn
  · rw [takePages_add, h.takes]
    exact htakes

/-- For a table that is missing the allocator is asked at once. -/
theorem meets_missing (h : p ∉ paths s) : Meets pmmAllocPage s {p} s.pmm := by
  refine ⟨0, ?_, rfl⟩
  rw [sdiff_eq_left.mpr (Set.disjoint_singleton_left.mpr h), Set.encard_singleton]
  decide

/-- An empty slot leads to no table. -/
theorem not_mem_paths (hroot : getPml4 s = root) (ht : Table s.mem root p t)
    (hempty : entry s.mem t (BitVec.ofNat 64 i) &&& ptePresent = 0#64) : i :: p ∉ paths s := by
  subst hroot
  rintro ⟨w, hw⟩
  cases hw with
  | child hp hslot =>
      rw [hp.unique ht, pageSlot_empty hempty] at hslot
      cases hslot

/-- One table is looked up or made. -/
theorem Descends.grows (ha : Supplies pmmAllocPage used)
    (h : Descends pmmAllocPage used root s s' p t i u) (hroot : getPml4 s = root) :
    ∃ n, Grows pmmAllocPage s s' n {i :: p} := by
  subst hroot
  rcases getOrCreate_cases ha h.tables h.parent h.short h.noLeaf h.run with
    ⟨rfl, hu⟩ | ⟨pmm, halloc, rfl, hgrown⟩
  · have hthere : ({i :: p} : Set (List Index)) ⊆ paths s' :=
      Set.singleton_subset_iff.mpr ⟨u, hu⟩
    refine ⟨0, rfl, rfl, (Set.union_eq_left.mpr hthere).symm, ?_⟩
    rw [Set.sdiff_eq_empty.mpr hthere]
    simp
  · have hnone : i :: p ∉ paths s := by
      rintro ⟨w, hw⟩
      exact hgrown.not_suffix hw (List.suffix_refl _)
    refine ⟨1, rfl, ?_, ?_, ?_⟩
    · rw [takePages, halloc]
      rfl
    · ext q
      constructor
      · rintro ⟨w, hw⟩
        rcases hgrown.reach_iff.mp hw with hold | ⟨rfl, -⟩
        · exact Or.inl ⟨w, hold⟩
        · exact Or.inr rfl
      · rintro (⟨w, hw⟩ | rfl)
        · exact ⟨w, hgrown.keeps hw⟩
        · exact ⟨u, hgrown.new⟩
    · rw [sdiff_eq_left.mpr (Set.disjoint_singleton_left.mpr hnone), Set.encard_singleton]
      rfl

/-- Writing a page table entry makes no table. -/
theorem grows_setEntry {e : Word} (h : Tables s.mem root (used s.pmm)) (hroot : getPml4 s = root)
    (ht : Table s.mem root p t) (hp : p.length = 3) :
    Grows pmmAllocPage s { s with mem := setEntry s.mem t (BitVec.ofNat 64 i) e } 0 ∅ := by
  subst hroot
  have hiff : ∀ {q u}, Table (setEntry s.mem t (BitVec.ofNat 64 i) e) (getPml4 s) q u ↔
      Table s.mem (getPml4 s) q u := setEntry_table_iff h ht hp
  refine ⟨rfl, rfl, ?_, by simp⟩
  rw [Set.union_empty]
  ext q
  exact ⟨fun ⟨u, hu⟩ => ⟨u, hiff.mp hu⟩, fun ⟨u, hu⟩ => ⟨u, hiff.mpr hu⟩⟩

theorem tablesFor_eq (v : Word) : tablesFor v =
    {[indexAt 39 v]} ∪ {[indexAt 30 v, indexAt 39 v]} ∪
      {[indexAt 21 v, indexAt 30 v, indexAt 39 v]} := by
  ext p
  simp only [tablesFor, tablePath, Set.mem_ofPred_eq, Set.mem_union, Set.mem_singleton_iff,
    List.suffix_cons_iff, List.suffix_nil]
  constructor
  · rintro ⟨hne, hp⟩
    tauto
  · rintro ((rfl | rfl) | rfl)
    · exact ⟨List.cons_ne_nil _ _, by tauto⟩
    · exact ⟨List.cons_ne_nil _ _, by tauto⟩
    · exact ⟨List.cons_ne_nil _ _, by tauto⟩

/-- A walk needs at most three tables. -/
theorem tablesFor_encard (v : Word) : (tablesFor v).encard ≤ 3 := by
  rw [tablesFor_eq]
  refine (Set.encard_union_le _ _).trans ?_
  refine (add_le_add_left (Set.encard_union_le _ _) _).trans ?_
  simp only [Set.encard_singleton]
  decide

end Grows

/-! ## Calls -/

section Calls

variable {P : Type} {pmmAllocPage : P → Option (Word × P)} {used : P → Word → Prop}
  {s s' : State P} {root t v phys flags : Word} {ret : Int} {p : List Index} {i : Index}

/-- **`vmm_map_page` makes the tables that its walk lacks.** -/
theorem vmmMapPage_grows (ha : Supplies pmmAllocPage used) (h : Sound used s)
    (hv : NoHuge s.mem (getPml4 s) v)
    (hrun : vmmMapPage pmmAllocPage s v phys flags = some (s', ret)) :
    ∃ n, Grows pmmAllocPage s s' n (tablesFor v) := by
  obtain ⟨s₁, s₂, s₃, pdpt, pd, pt, hfirst, hsecond, hthird, -, rfl⟩ := vmmMapPage_walk ha h hv hrun
  obtain ⟨n₁, hgrows₁⟩ := hfirst.grows ha rfl
  obtain ⟨n₂, hgrows₂⟩ := hsecond.grows ha hgrows₁.root
  have hgrows := hgrows₁.trans hgrows₂
  obtain ⟨n₃, hgrows₃⟩ := hthird.grows ha hgrows.root
  have hall := hgrows.trans hgrows₃
  obtain ⟨-, htables, -, hpt⟩ := hthird.ok ha
  have hwrite := hall.trans (grows_setEntry (i := indexAt 12 v) (e := pageEntry phys flags) htables
    hall.root hpt rfl)
  rw [Set.union_empty, ← tablesFor_eq] at hwrite
  exact ⟨_, hwrite⟩

theorem bind_none {α β : Type} {o : Option α} {f : α → Option β} (h : o.bind f = none) :
    o = none ∨ ∃ a, o = some a ∧ f a = none := by
  cases o with
  | none => exact Or.inl rfl
  | some a => exact Or.inr ⟨a, rfl, h⟩

theorem getOrCreate_none (hroot : getPml4 s = root) (ht : Table s.mem root p t)
    (h : vmmGetOrCreateTable pmmAllocPage s t (BitVec.ofNat 64 i) flags = none) :
    Meets pmmAllocPage s {i :: p} s.pmm ∧ pmmAllocPage s.pmm = none := by
  unfold vmmGetOrCreateTable at h
  split at h
  · rename_i hempty
    refine ⟨meets_missing (not_mem_paths hroot ht hempty), ?_⟩
    rcases bind_none h with hnone | ⟨r, -, hr⟩
    · exact hnone
    · dsimp only at hr
      split at hr <;> cases hr
  · cases h

/-- **Only the allocator stops a call**, before the tables that the walk lacks are made. -/
theorem vmmMapPage_none (ha : Supplies pmmAllocPage used) (h : Sound used s)
    (hrun : vmmMapPage pmmAllocPage s v phys flags = none) :
    ∃ a, Meets pmmAllocPage s (tablesFor v) a ∧ pmmAllocPage a = none := by
  have hsplit := tablesFor_eq v
  unfold vmmMapPage at hrun
  simp only [pml4Index, pdptIndex, pdIndex, ptIndex, index_eq] at hrun
  rcases bind_none hrun with hnone | ⟨⟨s₁, pdpt⟩, hrun₁, hrun⟩
  · obtain ⟨hmeets, hstop⟩ := getOrCreate_none rfl .root hnone
    refine ⟨_, hmeets.mono ?_, hstop⟩
    rw [hsplit, Set.union_assoc]
    exact Set.subset_union_left
  have hfirst : Descends pmmAllocPage used (getPml4 s) s s₁ [] (getPml4 s) (indexAt 39 v) pdpt :=
    ⟨hrun₁, h, .root, by decide, pageSlot_top s.mem _ _⟩
  obtain ⟨-, htab₁, hext₁, hpdpt⟩ := hfirst.ok ha
  obtain ⟨n₁, hgrows₁⟩ := hfirst.grows ha rfl
  dsimp only at hrun
  rw [if_neg (htab₁.page _ _ hpdpt).ne_zero] at hrun
  rcases bind_none hrun with hnone | ⟨⟨s₂, pd⟩, hrun₂, hrun⟩
  · obtain ⟨hmeets, hstop⟩ := getOrCreate_none hgrows₁.root hpdpt hnone
    refine ⟨_, (hgrows₁.meets hmeets).mono ?_, hstop⟩
    rw [hsplit]
    exact Set.subset_union_left
  have hsecond : Descends pmmAllocPage used (getPml4 s) s₁ s₂ [indexAt 39 v] pdpt (indexAt 30 v) pd :=
    ⟨hrun₂, htab₁, hpdpt, by simp, fun l => htab₁.noGiant _ _ _ l hpdpt⟩
  obtain ⟨-, htab₂, hext₂, hpd⟩ := hsecond.ok ha
  obtain ⟨n₂, hgrows₂⟩ := hsecond.grows ha hgrows₁.root
  have hgrows := hgrows₁.trans hgrows₂
  dsimp only at hrun
  rw [if_neg (htab₂.page _ _ hpd).ne_zero] at hrun
  rcases bind_none hrun with hnone | ⟨⟨s₃, pt⟩, hrun₃, hrun⟩
  · obtain ⟨hmeets, hstop⟩ := getOrCreate_none hgrows.root hpd hnone
    refine ⟨_, (hgrows.meets hmeets).mono ?_, hstop⟩
    rw [hsplit]
  dsimp only at hrun
  split at hrun <;> cases hrun

/-- The tables of the pages that a loop has still to map. -/
theorem tables_succ (vs : Word) (j k : Nat) :
    {p | ∃ v, pagesFrom vs j (k + 1) v ∧ p ∈ tablesFor v} =
      tablesFor (rangePage vs j) ∪ {p | ∃ v, pagesFrom vs (j + 1) k v ∧ p ∈ tablesFor v} := by
  ext p
  constructor
  · rintro ⟨_, ⟨n, hn, hlt, rfl⟩, hp⟩
    rcases Nat.eq_or_lt_of_le hn with rfl | hgt
    · exact Or.inl hp
    · exact Or.inr ⟨_, ⟨n, hgt, by omega, rfl⟩, hp⟩
  · rintro (hp | ⟨w, hw, hp⟩)
    · exact ⟨_, pagesFrom_here vs j k, hp⟩
    · exact ⟨w, pagesFrom_later hw, hp⟩

theorem vmmMapRangeFrom_none (ha : Supplies pmmAllocPage used) {vs ps : Word} {k j : Nat}
    (hfits : j + k ≤ 2 ^ 52) (hcanon : ∀ w, pagesFrom vs j k w → Canonical w) (h : Sound used s)
    (hv : ∀ w, pagesFrom vs j k w → NoHuge s.mem (getPml4 s) w)
    (hrun : vmmMapRangeFrom pmmAllocPage vs ps flags k (BitVec.ofNat 64 j) s = none) :
    ∃ a, Meets pmmAllocPage s {p | ∃ v, pagesFrom vs j k v ∧ p ∈ tablesFor v} a ∧
      pmmAllocPage a = none := by
  induction k generalizing j s with
  | zero => cases hrun
  | succ k ih =>
      rw [tables_succ]
      have hhere := pagesFrom_here vs j k
      rcases bind_none hrun with hnone | ⟨⟨s₁, ret⟩, hpage, hrun⟩
      · obtain ⟨a, hmeets, hstop⟩ := vmmMapPage_none ha h hnone
        exact ⟨a, hmeets.mono Set.subset_union_left, hstop⟩
      · obtain ⟨rfl, hcr, hsound, hretr, -⟩ := vmmMapPage_ok ha h (hv _ hhere) hpage
        obtain ⟨n, hgrows⟩ := vmmMapPage_grows ha h (hv _ hhere) hpage
        dsimp only at hrun
        rw [if_neg (fun hne => hne rfl), ← BitVec.ofNat_add] at hrun
        obtain ⟨a, hmeets, hstop⟩ := ih (by omega) (fun w hw => hcanon w (pagesFrom_later hw)) hsound
          (fun w hw => by
            rw [hgrows.root]
            exact later_noHuge hfits hcanon hv hretr w hw) hrun
        exact ⟨a, hgrows.meets hmeets, hstop⟩

end Calls

end VectorForth.Vmm
