import VectorForth.Memory.PageRuns
import VectorForth.Memory.PagePool

/-!
# Where page tables are made

The kernel clears and reads a new page table through its physical address, and
`setup_paging` maps only the first 4 MB to themselves. The allocator returns low
pages first, so a call stays in that range exactly as long as there are enough
low pages for the tables that its walks lack.
-/

namespace VectorForth.Vmm

open ByteMemory RadixTree LabelledRun LowestFirst
open Pmm (Pool)

/-- What the two entries of `PD_IDENT` map to itself. -/
def identityTop : Nat := 2 * 0x200000

/-- The page of a table is mapped to itself at boot. -/
def InIdentity (t : Word) : Prop := t.toNat + pageSize ≤ identityTop

/-- The addresses below `identityTop` are mapped as `setup_paging` has left them. -/
def IdentityMapped {P : Type} (s : State P) : Prop :=
  ∀ x : Word, x.toNat < identityTop → leafOf s.mem (getPml4 s) x =
    some (BitVec.ofNat 64 (x.toNat / 2 ^ 21 * 0x200000 + 0x83), [indexAt 12 x])

section Identity

variable {P : Type} {s s' : State P} {v x : Word} {names : Word → Prop}

theorem IdentityMapped.congr (h : IdentityMapped s) (hcr : s'.cr3 = s.cr3)
    (hleaf : ∀ x : Word, x.toNat < identityTop →
      leafOf s'.mem (getPml4 s) x = leafOf s.mem (getPml4 s) x) : IdentityMapped s' := by
  intro x hx
  have hroot : getPml4 s' = getPml4 s := by rw [getPml4, getPml4, hcr]
  rw [hroot, hleaf x hx]
  exact h x hx

/-- Low addresses are in other pages than those without a huge page. -/
theorem IdentityMapped.indices_ne (h : IdentityMapped s) (hv : NoHuge s.mem (getPml4 s) v)
    (hx : x.toNat < identityTop) : indices x ≠ indices v := by
  intro heq
  have hleaf := h x hx
  rw [leafOf, heq] at hleaf
  cases hv _ _ hleaf

/-- Calls about addresses without a huge page keep the identity mapping. -/
theorem IdentityMapped.retranslated (h : IdentityMapped s) (hcr : s'.cr3 = s.cr3)
    (hretr : Retranslated s.mem s'.mem (getPml4 s) names)
    (hnames : ∀ v, names v → NoHuge s.mem (getPml4 s) v) : IdentityMapped s' :=
  h.congr hcr fun _ hx => hretr.others _ fun v hv => h.indices_ne (hnames v hv) hx

end Identity

/-- `xs` are the pages taken for new tables, those of the paths `N` that led to
none. -/
structure Spends (s s' : State Pool) (xs : List ℕ) (N : Set (List Index)) : Prop extends
    Grows Pool.allocPage s s' xs.length N where
  spent : Takes s.pmm.free xs s'.pmm.free
  keeps : ∀ p t, Table s.mem (getPml4 s) p t → Table s'.mem (getPml4 s) p t
  taken : ∀ p t, Table s'.mem (getPml4 s) p t → Table s.mem (getPml4 s) p t ∨ t.toNat / 4096 ∈ xs
  made : ∀ x ∈ xs, ∃ p t, Table s'.mem (getPml4 s) p t ∧ t.toNat = x * 4096

section Spends

variable {s s' s'' : State Pool} {xs ys : List ℕ} {N K : Set (List Index)} {root t u v : Word}
  {p : List Index} {i : Index}

theorem Spends.refl (s : State Pool) : Spends s s [] ∅ where
  toGrows := Grows.refl s
  spent := .nil _
  keeps _ _ h := h
  taken _ _ h := Or.inl h
  made _ h := absurd h List.not_mem_nil

theorem Spends.trans (h : Spends s s' xs N) (h' : Spends s' s'' ys K) :
    Spends s s'' (xs ++ ys) (N ∪ K) := by
  have hroot := h.root
  constructor
  case toGrows =>
    rw [List.length_append]
    exact h.toGrows.trans h'.toGrows
  case spent => exact h.spent.append h'.spent
  case keeps =>
    intro p t ht
    have hkeep := h'.keeps p t
    rw [hroot] at hkeep
    exact hkeep (h.keeps p t ht)
  case taken =>
    intro p t ht
    have hstep := h'.taken p t
    rw [hroot] at hstep
    rcases hstep ht with hold | hnew
    · rcases h.taken p t hold with hold | hnew
      · exact Or.inl hold
      · exact Or.inr (List.mem_append_left _ hnew)
    · exact Or.inr (List.mem_append_right _ hnew)
  case made =>
    intro x hx
    have hkeep := h'.keeps
    have hmade := h'.made
    rw [hroot] at hkeep hmade
    rcases List.mem_append.mp hx with hx | hx
    · obtain ⟨p, t, ht, hpage⟩ := h.made x hx
      exact ⟨p, t, hkeep p t ht, hpage⟩
    · exact hmade x hx

/-- One table is looked up or made. -/
theorem Descends.spends (h : Descends Pool.allocPage Pool.used root s s' p t i u)
    (hroot : getPml4 s = root) : ∃ xs, Spends s s' xs {i :: p} := by
  subst hroot
  obtain ⟨n, hgrows⟩ := h.grows Pool.supplies rfl
  rcases getOrCreate_cases Pool.supplies h.tables h.parent h.short h.noLeaf h.run with
    ⟨rfl, hu⟩ | ⟨pmm, halloc, rfl, hgrown⟩
  · have hthere : ({i :: p} : Set (List Index)) ⊆ paths s' :=
      Set.singleton_subset_iff.mpr ⟨u, hu⟩
    have hnone : n = 0 := by
      have hcount := hgrows.count
      rw [Set.sdiff_eq_empty.mpr hthere, Set.encard_empty] at hcount
      exact_mod_cast hcount
    subst hnone
    have hspends := Spends.refl s'
    exact ⟨[], hgrows, hspends.spent, hspends.keeps, hspends.taken, hspends.made⟩
  · obtain ⟨x, hx, htakes⟩ := Pool.allocPage_takes halloc
    have hone : n = 1 := by
      have hcount := hgrows.count
      have hmissing : i :: p ∉ paths s := by
        rintro ⟨w, hw⟩
        exact hgrown.not_suffix hw (List.suffix_refl _)
      rw [sdiff_eq_left.mpr (Set.disjoint_singleton_left.mpr hmissing), Set.encard_singleton] at hcount
      exact_mod_cast hcount
    subst hone
    refine ⟨[x], hgrows, htakes, fun q w hq => hgrown.keeps hq, ?_, ?_⟩
    · intro q w hq
      rcases hgrown.reach_iff.mp hq with hold | ⟨-, rfl⟩
      · exact Or.inl hold
      · refine Or.inr ?_
        rw [hx, Nat.mul_div_cancel _ (by decide)]
        exact List.mem_singleton_self x
    · intro y hy
      obtain rfl := List.mem_singleton.mp hy
      exact ⟨i :: p, u, hgrown.new, hx⟩

/-- Writing a page table entry makes no table. -/
theorem spends_setEntry {e : Word} (h : Tables s.mem root (s.pmm.used)) (hroot : getPml4 s = root)
    (ht : Table s.mem root p t) (hp : p.length = 3) :
    Spends s { s with mem := setEntry s.mem t (BitVec.ofNat 64 i) e } [] ∅ := by
  have hgrows : Grows Pool.allocPage s { s with mem := setEntry s.mem t (BitVec.ofNat 64 i) e } 0 ∅ :=
    grows_setEntry h hroot ht hp
  subst hroot
  have hiff : ∀ {q u}, Table (setEntry s.mem t (BitVec.ofNat 64 i) e) (getPml4 s) q u ↔
      Table s.mem (getPml4 s) q u := setEntry_table_iff h ht hp
  exact ⟨hgrows, .nil _, fun q u hq => hiff.mpr hq, fun q u hq => Or.inl (hiff.mp hq),
    fun _ hx => absurd hx List.not_mem_nil⟩

/-- With the pages that `vmm_map_page` takes. -/
theorem vmmMapPage_spends {phys flags : Word} {ret : Int} (h : Sound Pool.used s)
    (hv : NoHuge s.mem (getPml4 s) v)
    (hrun : vmmMapPage Pool.allocPage s v phys flags = some (s', ret)) :
    ∃ xs, Spends s s' xs (tablesFor v) := by
  obtain ⟨s₁, s₂, s₃, pdpt, pd, pt, hfirst, hsecond, hthird, -, rfl⟩ :=
    vmmMapPage_walk Pool.supplies h hv hrun
  obtain ⟨xs₁, hspends₁⟩ := hfirst.spends rfl
  obtain ⟨xs₂, hspends₂⟩ := hsecond.spends hspends₁.root
  obtain ⟨xs₃, hspends₃⟩ := hthird.spends (hspends₂.root.trans hspends₁.root)
  obtain ⟨-, htables, -, hpt⟩ := hthird.ok Pool.supplies
  have hroot := hspends₃.root.trans (hspends₂.root.trans hspends₁.root)
  have hwrite := spends_setEntry (i := indexAt 12 v) (e := pageEntry phys flags) htables hroot hpt rfl
  have hall := ((hspends₁.trans hspends₂).trans hspends₃).trans hwrite
  rw [Set.union_empty, ← tablesFor_eq] at hall
  exact ⟨_, hall⟩

end Spends

/-! ## Calls -/

/-- A call by a client of the two managers. -/
inductive Call
  | allocPage
  | mapPage (virt phys flags : Word)
  | mapRange (virtStart physStart size flags : Word)

namespace Call

/-- The addresses that a call maps. -/
def names : Call → Word → Prop
  | allocPage => fun _ => False
  | mapPage virt _ _ => (· = virt)
  | mapRange virtStart _ size _ => pagesFrom virtStart 0 ((size + 4096#64 - 1#64) / 4096#64).toNat

def run : Call → State Pool → Option (State Pool × Int)
  | allocPage, s => s.pmm.allocPage.map fun r => ({ s with pmm := r.2 }, 0)
  | mapPage virt phys flags, s => vmmMapPage Pool.allocPage s virt phys flags
  | mapRange virtStart physStart size flags, s =>
      vmmMapRange Pool.allocPage s virtStart physStart size flags

/-- The tables that its walks need. -/
def tables (c : Call) : Set (List Index) := {p | ∃ v, c.names v ∧ p ∈ tablesFor v}

/-- There are as many free pages in the identity mapping as its walks lack tables. -/
def Fits (c : Call) (s : State Pool) : Prop :=
  (c.tables \ paths s).encard ≤ (under s.pmm.free (identityTop / pageSize)).card

end Call

/-- A call that returns, about addresses that are not mapped in `b`. -/
def Serves (b s : State Pool) (c : Call) (s' : State Pool) : Prop :=
  (∀ v, c.names v → vmmIsMapped b v = false) ∧ ∃ ret, c.run s = some (s', ret)

/-- All tables can be reached through their physical addresses. -/
def TablesReachable {P : Type} (s : State P) : Prop :=
  ∀ p t, Table s.mem (getPml4 s) p t → InIdentity t

section Calls

variable {b s s' : State Pool} {xs : List ℕ} {N : Set (List Index)} {c : Call} {cs : List Call}
  {v w phys flags : Word} {ret : Int}

/-- What holds in a run from `b`. -/
structure Unspoiled (b s : State Pool) : Prop where
  sound : Sound Pool.used s
  identity : IdentityMapped s
  noHuge : ∀ v, vmmIsMapped b v = false → NoHuge s.mem (getPml4 s) v

theorem inIdentity_iff {t : Word} {x : ℕ} (ht : t.toNat = x * 4096) :
    InIdentity t ↔ x < identityTop / pageSize := by
  have htop : identityTop = 0x400000 := rfl
  have hpage : identityTop / pageSize = 1024 := rfl
  rw [InIdentity, ht, hpage, htop, pageSize]
  omega

/-- New tables are reachable when their pages are low. -/
theorem Spends.reachable_iff (h : Spends s s' xs N) (hs : Sound Pool.used s') :
    TablesReachable s' ↔ TablesReachable s ∧
      (N \ paths s).encard ≤ (under s.pmm.free (identityTop / pageSize)).card := by
  have hroot := h.root
  rw [← h.count, Nat.cast_le, ← h.spent.lt_iff]
  unfold TablesReachable
  rw [hroot]
  constructor
  · intro hall
    refine ⟨fun p t ht => hall p t (h.keeps p t ht), ?_⟩
    intro x hx
    obtain ⟨p, t, ht, hpage⟩ := h.made x hx
    exact (inIdentity_iff hpage).mp (hall p t ht)
  · rintro ⟨hold, hnew⟩ p t ht
    rcases h.taken p t ht with hthere | htaken
    · exact hold p t hthere
    · have haligned : t.toNat % 4096 = 0 := by
        rw [Sound, hroot] at hs
        exact (hs.page p t ht).aligned
      exact (inIdentity_iff (x := t.toNat / 4096) (by omega)).mpr (hnew _ htaken)

theorem noHuge_congr {m : Mem} {root : Word} (h : indices w = indices v) (hv : NoHuge m root v) :
    NoHuge m root w := by
  intro e rest hleaf
  rw [leafOf, h] at hleaf
  exact hv e rest hleaf

theorem mapPage_serves (h : Unspoiled b s) (hv : vmmIsMapped b v = false)
    (hrun : vmmMapPage Pool.allocPage s v phys flags = some (s', ret)) :
    ret = 0 ∧ Unspoiled b s' ∧ ∃ xs, Spends s s' xs (tablesFor v) := by
  have hclear := h.noHuge v hv
  obtain ⟨hret, hcr, hsound, hretr, hleaf⟩ := vmmMapPage_ok Pool.supplies h.sound hclear hrun
  have hroot : getPml4 s' = getPml4 s := by rw [getPml4, getPml4, hcr]
  have hidentity : IdentityMapped s' := by
    refine h.identity.retranslated hcr hretr ?_
    rintro _ rfl
    exact hclear
  refine ⟨hret, ⟨hsound, hidentity, ?_⟩, vmmMapPage_spends h.sound hclear hrun⟩
  intro w hw
  rw [hroot]
  by_cases hsame : indices w = indices v
  · refine noHuge_congr hsame fun e rest hfound => ?_
    rw [hleaf] at hfound
    exact (Prod.mk.inj (Option.some.inj hfound)).2.symm
  · refine hretr.noHuge ?_ (h.noHuge w hw)
    rintro _ rfl
    exact hsame

/-- The loop of `vmm_map_range`, by induction on the pages still to map. -/
theorem mapRange_serves {vs ps : Word} {k j : Nat} (h : Unspoiled b s)
    (hv : ∀ w, pagesFrom vs j k w → vmmIsMapped b w = false)
    (hrun : vmmMapRangeFrom Pool.allocPage vs ps flags k (BitVec.ofNat 64 j) s = some (s', ret)) :
    Unspoiled b s' ∧ ∃ xs, Spends s s' xs {p | ∃ v, pagesFrom vs j k v ∧ p ∈ tablesFor v} := by
  induction k generalizing j s with
  | zero =>
      obtain ⟨rfl, rfl⟩ := Prod.mk.inj (Option.some.inj hrun)
      have hnone : {p | ∃ v, pagesFrom vs j 0 v ∧ p ∈ tablesFor v} = ∅ := by
        rw [Set.eq_empty_iff_forall_notMem]
        rintro p ⟨v, ⟨n, h₁, h₂, -⟩, -⟩
        omega
      rw [hnone]
      exact ⟨h, [], Spends.refl _⟩
  | succ k ih =>
      rw [vmmMapRangeFrom] at hrun
      obtain ⟨⟨s₁, ret₁⟩, hrun₁, hrun⟩ := Option.bind_eq_some_iff.mp hrun
      have hhere := pagesFrom_here vs j k
      obtain ⟨rfl, h₁, xs, hspends⟩ := mapPage_serves h (hv _ hhere) hrun₁
      dsimp only at hrun
      rw [if_neg (fun hne => hne rfl), ← BitVec.ofNat_add] at hrun
      obtain ⟨hsound, ys, hrest⟩ := ih h₁ (fun w hw => hv w (pagesFrom_later hw)) hrun
      rw [tables_succ]
      exact ⟨hsound, _, hspends.trans hrest⟩

/-- **What a call needs**: its tables are reachable if there are low pages for all of
them. -/
theorem Serves.step (hstep : Serves b s c s') (h : Unspoiled b s) :
    Unspoiled b s' ∧ (TablesReachable s' ↔ TablesReachable s ∧ c.Fits s) := by
  obtain ⟨hnames, ret, hrun⟩ := hstep
  cases c with
  | allocPage =>
      obtain ⟨⟨t, a⟩, halloc, heq⟩ := Option.map_eq_some_iff.mp hrun
      obtain ⟨rfl, -⟩ := Prod.mk.inj heq
      have htables := h.sound
      have hfits : Call.allocPage.Fits s := by
        have hnone : Call.allocPage.tables = ∅ := by
          rw [Set.eq_empty_iff_forall_notMem]
          rintro p ⟨v, hv, -⟩
          exact hv
        rw [Call.Fits, hnone, Set.empty_sdiff, Set.encard_empty]
        exact bot_le
      refine ⟨⟨⟨htables.tree, htables.page, ?_, htables.noGiant⟩, h.identity, h.noHuge⟩, ?_⟩
      · exact fun p u hu => Pool.supplies.mono _ _ _ _ halloc (htables.taken p u hu)
      · exact ⟨fun hall => ⟨hall, hfits⟩, fun hall => hall.1⟩
  | mapPage virt phys flags =>
      obtain ⟨-, hsound, xs, hspends⟩ := mapPage_serves h (hnames virt rfl) hrun
      have htables : (Call.mapPage virt phys flags).tables = tablesFor virt := by
        ext p
        exact ⟨fun ⟨v, hv, hp⟩ => hv ▸ hp, fun hp => ⟨virt, rfl, hp⟩⟩
      rw [Call.Fits, htables]
      exact ⟨hsound, hspends.reachable_iff hsound.sound⟩
  | mapRange virtStart physStart size flags =>
      obtain ⟨hsound, xs, hspends⟩ := mapRange_serves h hnames hrun
      exact ⟨hsound, hspends.reachable_iff hsound.sound⟩

/-- The result of a call is determined. -/
theorem Serves.unique (h : Serves b s c s') {s'' : State Pool} (h' : Serves b s c s'') : s' = s'' := by
  obtain ⟨-, ret, hrun⟩ := h
  obtain ⟨-, ret', hrun'⟩ := h'
  rw [hrun] at hrun'
  exact (Prod.mk.inj (Option.some.inj hrun')).1

/-- The run lemma for `Serves.step`: induction on the calls. -/
theorem run_reachable_iff (hrun : Run (Serves b) s cs s') (h : Unspoiled b s) :
    TablesReachable s' ↔
      TablesReachable s ∧ Run (fun s c s' => Serves b s c s' ∧ c.Fits s) s cs s' := by
  induction hrun with
  | nil s => exact ⟨fun hs => ⟨hs, .nil s⟩, fun hs => hs.1⟩
  | @cons s t u c cs hstep _ ih =>
      obtain ⟨hnext, hiff⟩ := hstep.step h
      rw [ih hnext, hiff]
      constructor
      · rintro ⟨⟨hreach, hfits⟩, hrest⟩
        exact ⟨hreach, .cons ⟨hstep, hfits⟩ hrest⟩
      · rintro ⟨hreach, hall⟩
        cases hall with
        | cons hfirst hrest =>
            obtain rfl := hstep.unique hfirst.1
            exact ⟨⟨hreach, hfirst.2⟩, hrest⟩

/-! ## From the boot tables -/

/-- An address that is not mapped has no leaf. -/
theorem leafOf_of_not_mapped {P : Type} {s : State P} (h : vmmIsMapped s v = false) :
    leafOf s.mem (getPml4 s) v = none := by
  have hphys : vmmGetPhys s v = -1#64 := by simpa [vmmIsMapped] using h
  rw [vmmGetPhys_eq] at hphys
  cases hleaf : leafOf s.mem (getPml4 s) v with
  | none => rfl
  | some r =>
      rw [hleaf] at hphys
      exact absurd hphys (translation_ne _ _ _)

/-- An address under a 2 MB page that maps its own address range. -/
theorem identity_offset {e x : Word} {i : ℕ} (he : (e &&& pteAddrMask).toNat = 2 ^ 21 * i)
    (hx : x.toNat / 2 ^ 21 = i) : (e &&& pteAddrMask) ||| (x &&& offsetMask 1) = x := by
  have hoffset : (x &&& offsetMask 1).toNat = x.toNat % 2 ^ 21 :=
    Masks.toNat_and_mask (k := 21) _ (by decide)
  have hlow : x.toNat % 2 ^ 21 < 2 ^ 21 := Nat.mod_lt _ (by decide)
  apply BitVec.eq_of_toNat_eq
  rw [BitVec.toNat_or, he, hoffset, ← Nat.two_pow_add_eq_or_of_lt hlow, ← hx, Nat.div_add_mod]

/-- The walks of the first 4 MB meet the entries of `PD_IDENT`. -/
theorem boot_low (m : Mem) {x : Word} (hx : x.toNat < identityTop) :
    leafOf (setupPaging m) 0x70000#64 x =
      some (BitVec.ofNat 64 (x.toNat / 2 ^ 21 * 0x200000 + 0x83), [indexAt 12 x]) := by
  have htop : identityTop = 0x400000 := rfl
  have h39 : indexAt 39 x = 0 := Fin.ext (by show x.toNat / 2 ^ 39 % 512 = 0; omega)
  have h30 : indexAt 30 x = 0 := Fin.ext (by show x.toNat / 2 ^ 30 % 512 = 0; omega)
  have hindices : indices x = [(0 : Index), 0].reverse ++ indexAt 21 x :: [indexAt 12 x] := by
    rw [indices, h39, h30]
    rfl
  rw [leafOf, hindices]
  rcases Nat.lt_or_ge x.toNat 0x200000 with hlt | hge
  · have h21 : indexAt 21 x = 0 := Fin.ext (by show x.toNat / 2 ^ 21 % 512 = 0; omega)
    rw [h21, show x.toNat / 2 ^ 21 * 0x200000 + 0x83 = 0x83 by omega]
    exact bootTables_leaf (t := 0x72000#64) (by decide) (by decide) (by decide) (by decide) rfl
      (by simp)
  · have h21 : indexAt 21 x = 1 := Fin.ext (by show x.toNat / 2 ^ 21 % 512 = 1; omega)
    rw [h21, show x.toNat / 2 ^ 21 * 0x200000 + 0x83 = 0x200083 by omega]
    exact bootTables_leaf (t := 0x72000#64) (by decide) (by decide) (by decide) (by decide) rfl
      (by simp)

/-- Those of the rest of the first 4 GB meet none. -/
theorem boot_rest (m : Mem) {x : Word} (hx : x.toNat < 2 ^ 32) (htop : identityTop ≤ x.toNat) :
    leafOf (setupPaging m) 0x70000#64 x = none := by
  have htop' : identityTop = 0x400000 := rfl
  have h39 : indexAt 39 x = 0 := Fin.ext (by show x.toNat / 2 ^ 39 % 512 = 0; omega)
  rcases Nat.lt_or_ge x.toNat (2 ^ 30) with hlt | hge
  · have h30 : indexAt 30 x = 0 := Fin.ext (by show x.toNat / 2 ^ 30 % 512 = 0; omega)
    have hindices : indices x = [(0 : Index), 0].reverse ++ indexAt 21 x :: [indexAt 12 x] := by
      rw [indices, h39, h30]
      rfl
    have h21 : 2 ≤ (indexAt 21 x).val := by
      show 2 ≤ x.toNat / 2 ^ 21 % 512
      omega
    have hlast : ∀ i : Index, 2 ≤ i.val →
        (0x72000#64).toNat + 8 * i.val ∉ bootEntries.map Prod.fst := by decide +kernel
    rw [leafOf, hindices]
    exact bootTables_empty (t := 0x72000#64) (by decide) (hlast _ h21) rfl
  · have hindices : indices x =
        [(0 : Index)].reverse ++ indexAt 30 x :: [indexAt 21 x, indexAt 12 x] := by
      rw [indices, h39]
      rfl
    have h30 : 1 ≤ (indexAt 30 x).val := by
      show 1 ≤ x.toNat / 2 ^ 30 % 512
      omega
    have hlast : ∀ i : Index, 1 ≤ i.val →
        (0x71000#64).toNat + 8 * i.val ∉ bootEntries.map Prod.fst := by decide +kernel
    rw [leafOf, hindices]
    exact bootTables_empty (t := 0x71000#64) (by decide) (hlast _ h30) rfl

/-- **`setup_paging` maps exactly the addresses below `identityTop` to themselves**,
of those in the first 4 GB. -/
theorem boot_identity_iff {P : Type} (m : Mem) (a : P) {x : Word} (hx : x.toNat < 2 ^ 32) :
    vmmGetPhys (bootState m a) x = x ↔ x.toNat < identityTop := by
  have hmem : (bootState m a).mem = setupPaging m := rfl
  rw [vmmGetPhys_eq, getPml4_bootState, hmem]
  rcases Nat.lt_or_ge x.toNat identityTop with hlow | hhigh
  · rw [boot_low m hlow]
    refine iff_of_true (identity_offset (i := x.toNat / 2 ^ 21) ?_ rfl) hlow
    have htop : identityTop = 0x400000 := rfl
    rw [toNat_and_pteAddrMask, BitVec.toNat_ofNat]
    omega
  · rw [boot_rest m hx hhigh]
    refine iff_of_false ?_ (Nat.not_lt.mpr hhigh)
    intro heq
    have hx' : (-1#64).toNat < 2 ^ 32 := by
      rw [show -1#64 = x from heq]
      exact hx
    exact absurd hx' (by decide)

theorem boot_identity {P : Type} (m : Mem) (a : P) : IdentityMapped (bootState m a) := by
  intro x hx
  rw [getPml4_bootState]
  exact boot_low m hx

theorem boot_unspoiled (m : Mem) (a : Pool) : Unspoiled (bootState m a) (bootState m a) where
  sound := bootState_sound m a.bootTables_used
  identity := boot_identity m a
  noHuge v hv := by
    intro e rest hleaf
    rw [leafOf_of_not_mapped hv] at hleaf
    cases hleaf

theorem boot_reachable {P : Type} (m : Mem) (a : P) : TablesReachable (bootState m a) := by
  intro p t ht
  rw [getPml4_bootState] at ht
  have hrange := (bootTables_range (bootTables_reach ht)).2.1
  have hbase : pml4Addr = 0x70000 := rfl
  have htop : identityTop = 0x400000 := rfl
  rw [InIdentity, pageSize, htop]
  omega

/-- **Every page table is reachable through its physical address**, in a run from the
boot tables, exactly when each call finds a low page for every table it makes. -/
theorem tables_reachable_iff (old : Nat → BitVec 8) (mmap : List Pmm.E820Entry) (m : Mem)
    (hrun : Run (Serves (bootState m (Pool.booted old mmap))) (bootState m (Pool.booted old mmap))
      cs s) :
    TablesReachable s ↔
      Run (fun s c s' => Serves (bootState m (Pool.booted old mmap)) s c s' ∧ c.Fits s)
        (bootState m (Pool.booted old mmap)) cs s := by
  rw [run_reachable_iff hrun (boot_unspoiled _ _)]
  exact and_iff_right (boot_reachable _ _)

/-! ## A machine with 128 MB -/

/-- The state in which the kernel starts on it. -/
abbrev sampleBoot : State Pool := bootState (fun _ => 0#8) (Pool.booted (fun _ => 0#8) Pmm.sampleMap)

theorem pool_alloc_some (a : Pool) (hpos : 0 < a.free.card) :
    ∃ t a', a.allocPage = some (t, a') ∧ a.free.card ≤ a'.free.card + 1 := by
  obtain ⟨t, a', halloc⟩ := Pool.allocPage_some (Finset.card_pos.mp hpos)
  obtain ⟨page, -, htakes⟩ := Pool.allocPage_takes halloc
  exact ⟨t, a', halloc, htakes.card.ge⟩

/-- Clients can take as many pages as there are. -/
theorem run_allocPages (b : State Pool) {n : ℕ} (hn : n ≤ s.pmm.free.card) :
    ∃ a xs, Run (Serves b) s (List.replicate n .allocPage) { s with pmm := a } ∧
      Takes s.pmm.free xs a.free ∧ xs.length = n := by
  induction n generalizing s with
  | zero => exact ⟨s.pmm, [], .nil s, .nil _, rfl⟩
  | succ n ih =>
      obtain ⟨t, a, halloc, hcard⟩ := pool_alloc_some s.pmm (by omega)
      obtain ⟨page, -, htakes⟩ := Pool.allocPage_takes halloc
      obtain ⟨a', xs, hrun, hrest, hlen⟩ := ih (s := { s with pmm := a }) (by
        show n ≤ a.free.card
        omega)
      refine ⟨a', page :: xs, ?_, htakes.append hrest, by rw [List.length_cons, hlen]⟩
      have hserves : Serves b s .allocPage { s with pmm := a } := by
        refine ⟨fun v hv => hv.elim, 0, ?_⟩
        rw [Call.run, halloc]
        rfl
      rw [List.replicate_succ]
      exact .cons hserves hrun

/-- The first page of the second gigabyte. -/
theorem sample_unmapped : vmmIsMapped sampleBoot 0x40000000#64 = false := by
  have hleaf : leafOf sampleBoot.mem (getPml4 sampleBoot) 0x40000000#64 = none := by
    rw [getPml4_bootState]
    exact boot_unmapped _
  rw [vmmIsMapped, vmmGetPhys_none hleaf]
  rfl

/-- Mapping it in a state with the boot tables. -/
theorem mapPage_sample (a : Pool) (hfree : 3 ≤ a.free.card) :
    ∃ s, Serves sampleBoot { sampleBoot with pmm := a } (.mapPage 0x40000000#64 0x200000#64 3#64) s := by
  obtain ⟨s, ret, hrun⟩ := vmmMapPage_some (s := { sampleBoot with pmm := a }) pool_alloc_some
    0x40000000#64 0x200000#64 3#64 hfree
  refine ⟨s, ?_, ret, hrun⟩
  rintro v rfl
  exact sample_unmapped

theorem tables_reachable_sample : ∃ s,
    Run (Serves sampleBoot) sampleBoot [.mapPage 0x40000000#64 0x200000#64 3#64] s ∧
      TablesReachable s := by
  have hsub : ({0x201, 0x202, 0x203} : Finset ℕ) ⊆ under sampleBoot.pmm.free 1024 := by
    intro p hp
    rw [Finset.mem_insert, Finset.mem_insert, Finset.mem_singleton] at hp
    exact Finset.mem_filter.mpr ⟨Pool.booted_free _ (by omega), by omega⟩
  have hlow : 3 ≤ (under sampleBoot.pmm.free 1024).card := Finset.card_le_card hsub
  have hfree : 3 ≤ sampleBoot.pmm.free.card :=
    hlow.trans (Finset.card_le_card (Finset.filter_subset _ _))
  obtain ⟨s, hserves⟩ := mapPage_sample sampleBoot.pmm hfree
  have hfits : (Call.mapPage 0x40000000#64 0x200000#64 3#64).Fits sampleBoot := by
    have htables : (Call.mapPage 0x40000000#64 0x200000#64 3#64).tables =
        tablesFor 0x40000000#64 := by
      ext p
      exact ⟨fun ⟨v, hv, hp⟩ => hv ▸ hp, fun hp => ⟨_, rfl, hp⟩⟩
    rw [Call.Fits, htables]
    refine (Set.encard_le_encard Set.sdiff_subset).trans ((tablesFor_encard _).trans ?_)
    exact_mod_cast hlow
  exact ⟨s, .cons hserves (.nil s),
    (tables_reachable_iff _ _ _ (.cons hserves (.nil s))).mpr (.cons ⟨hserves, hfits⟩ (.nil s))⟩

/-- The second gigabyte has no page directory at boot. -/
theorem sample_missing (a : Pool) :
    ¬ (Call.mapPage 0x40000000#64 0x200000#64 3#64).tables ⊆ paths { sampleBoot with pmm := a } := by
  intro hsub
  have hneeds : [1, 0] ∈ (Call.mapPage 0x40000000#64 0x200000#64 3#64).tables :=
    ⟨0x40000000#64, rfl, List.cons_ne_nil _ _, by decide⟩
  obtain ⟨t, ht⟩ := hsub hneeds
  have hroot : getPml4 { sampleBoot with pmm := a } = 0x70000#64 := getPml4_bootState _ a
  rw [hroot] at ht
  have hpath : [1, 0] ∈ bootTables.map Prod.fst := List.mem_map_of_mem (bootTables_reach ht)
  exact absurd hpath (by decide)

/-- Without low pages left, the next page table is out of reach. -/
theorem drained {n : ℕ} (hn : 1024 ≤ n) (hfree : n + 3 ≤ sampleBoot.pmm.free.card) : ∃ s,
    Run (Serves sampleBoot) sampleBoot
      (List.replicate n .allocPage ++ [.mapPage 0x40000000#64 0x200000#64 3#64]) s ∧
      ¬ TablesReachable s := by
  obtain ⟨a, xs, hrun, htakes, hlen⟩ := run_allocPages (s := sampleBoot) sampleBoot (n := n) (by omega)
  have hcard := htakes.card
  obtain ⟨s, hserves⟩ := mapPage_sample a (by omega)
  refine ⟨s, hrun.snoc hserves, ?_⟩
  have hunspoiled : Unspoiled sampleBoot { sampleBoot with pmm := a } :=
    hrun.invariant (fun _ _ _ h hstep => (hstep.step h).1) (boot_unspoiled _ _)
  rw [(hserves.step hunspoiled).2]
  rintro ⟨-, hfits⟩
  have hnone : (under a.free 1024).card = 0 := by
    have hrange : under sampleBoot.pmm.free 1024 ⊆ Finset.range 1024 := by
      intro p hp
      exact Finset.mem_range.mpr (Finset.mem_filter.mp hp).2
    have hle := Finset.card_le_card hrange
    rw [Finset.card_range] at hle
    rw [htakes.left_under, hlen]
    omega
  have hempty : ((Call.mapPage 0x40000000#64 0x200000#64 3#64).tables \
      paths { sampleBoot with pmm := a }).encard ≤ ((under a.free 1024).card : ℕ∞) := hfits
  rw [hnone, Nat.cast_zero, nonpos_iff_eq_zero, Set.encard_eq_zero, Set.sdiff_eq_empty] at hempty
  exact sample_missing a hempty

/-- After 1024 pages for other clients on a machine with 128 MB. -/
theorem table_above_identity : ∃ s,
    Run (Serves sampleBoot) sampleBoot
      (List.replicate 1024 .allocPage ++ [.mapPage 0x40000000#64 0x200000#64 3#64]) s ∧
      ¬ TablesReachable s := by
  have hsub : Finset.Ico 0x400 0x8000 ⊆ sampleBoot.pmm.free := by
    intro p hp
    rw [Finset.mem_Ico] at hp
    exact Pool.booted_free _ (Or.inr hp)
  have hcard := Finset.card_le_card hsub
  rw [Nat.card_Ico] at hcard
  exact drained (Nat.le_refl _) (by omega)

end Calls

end VectorForth.Vmm
