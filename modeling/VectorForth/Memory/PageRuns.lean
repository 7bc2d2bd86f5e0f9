import VectorForth.Lib.Run
import VectorForth.Memory.BootTables
import VectorForth.Memory.TableSupply

/-!
# Runs of the virtual memory interface

From the boot tables, any sequence of calls about canonical addresses whose walks
meet no huge page keeps the invariant. The tables then behave as a map from pages
to pages.
-/

namespace VectorForth.Vmm

open ByteMemory RadixTree LabelledRun

/-- A call of the interface. -/
inductive Op
  | mapPage (virt phys flags : Word)
  | unmapPage (virt : Word)
  | mapRange (virtStart physStart size flags : Word)

namespace Op

/-- The pages that a call names. -/
def names : Op → Word → Prop
  | mapPage virt _ _ => (· = virt)
  | unmapPage virt => (· = virt)
  | mapRange virtStart _ size _ => pagesFrom virtStart 0 ((size + 4096#64 - 1#64) / 4096#64).toNat

/-- The call is about canonical addresses whose walks meet no huge page. -/
def Clear {P : Type} (op : Op) (s : State P) : Prop :=
  ∀ v, op.names v → Canonical v ∧ NoHuge s.mem (getPml4 s) v

def run {P : Type} (pmmAllocPage : P → Option (Word × P)) : Op → State P → Option (State P × Int)
  | mapPage virt phys flags, s => vmmMapPage pmmAllocPage s virt phys flags
  | unmapPage virt, s => some (vmmUnmapPage s virt, 0)
  | mapRange virtStart physStart size flags, s =>
      vmmMapRange pmmAllocPage s virtStart physStart size flags

/-- Ranges are page-aligned and no flag is in the address field (bits 0 to 11 and 63
are not). -/
def Args : Op → Prop
  | mapPage _ _ flags => flags &&& pteAddrMask = 0#64
  | unmapPage _ => True
  | mapRange virtStart physStart size flags =>
      virtStart.toNat % pageSize = 0 ∧ physStart.toNat % pageSize = 0 ∧ size.toNat % pageSize = 0 ∧
        flags &&& pteAddrMask = 0#64

/-- What `vmm_get_phys` gives on the pages named by a call, after it. -/
def Maps {P : Type} (s : State P) : Op → Prop
  | mapPage virt phys _ => ∀ w, SamePage w virt →
      vmmGetPhys s w = (phys &&& pteAddrMask) + (w &&& 0xFFF#64)
  | unmapPage virt => ∀ w, SamePage w virt → vmmGetPhys s w = -1#64
  | mapRange virtStart physStart size _ => ∀ x < size.toNat,
      (vmmGetPhys s (virtStart + BitVec.ofNat 64 x)).toNat = (physStart.toNat + x) % 2 ^ 52

/-- The tables that the walks of a call need; `vmm_unmap_page` makes none. -/
def tables : Op → Set (List Index)
  | mapPage virt _ _ => tablesFor virt
  | unmapPage _ => ∅
  | mapRange virtStart _ size _ => {p | ∃ v,
      pagesFrom virtStart 0 ((size + 4096#64 - 1#64) / 4096#64).toNat v ∧ p ∈ tablesFor v}

/-- A call sets the translation of the pages it names and leaves that of the others
alone. It has a result unless the allocator has none for one of the tables that the
call itself has to make. -/
def Correct {P : Type} (pmmAllocPage : P → Option (Word × P)) (op : Op) (s : State P) : Prop :=
  (op.run pmmAllocPage s = none →
    ∃ a, Meets pmmAllocPage s op.tables a ∧ pmmAllocPage a = none) ∧
    ∀ s' ret, op.run pmmAllocPage s = some (s', ret) → ret = 0 ∧ op.Maps s' ∧
      ∀ w, Canonical w → (∀ v, op.names v → ¬ SamePage w v) → vmmGetPhys s' w = vmmGetPhys s w

end Op

section Steps

variable {P : Type} {pmmAllocPage : P → Option (Word × P)} {used : P → Word → Prop} {s s' : State P}
  {op : Op} {ops : List Op} {ret : Int} {v w phys flags : Word}

/-- A clear call that the allocator can serve. -/
def Step (pmmAllocPage : P → Option (Word × P)) (s : State P) (op : Op) (s' : State P) : Prop :=
  op.Clear s ∧ ∃ ret, op.run pmmAllocPage s = some (s', ret)

theorem rangePages_le (size : Word) : ((size + 4096#64 - 1#64) / 4096#64).toNat ≤ 2 ^ 52 := by
  rw [BitVec.toNat_udiv]
  have hlt := (size + 4096#64 - 1#64).isLt
  show _ / 4096 ≤ _
  omega

/-- What every clear call does. -/
theorem run_ok (ha : Supplies pmmAllocPage used) (h : Sound used s) (hclear : op.Clear s)
    (hrun : op.run pmmAllocPage s = some (s', ret)) :
    ret = 0 ∧ s'.cr3 = s.cr3 ∧ Sound used s' ∧ Retranslated s.mem s'.mem (getPml4 s) op.names := by
  cases op with
  | mapPage virt phys flags =>
      obtain ⟨hret, hcr, hsound, hretr, -⟩ := vmmMapPage_ok ha h (hclear virt rfl).2 hrun
      exact ⟨hret, hcr, hsound, hretr⟩
  | unmapPage virt =>
      obtain ⟨rfl, rfl⟩ := Prod.mk.inj (Option.some.inj hrun)
      obtain ⟨hcr, hsound, hretr, -⟩ := vmmUnmapPage_ok h (hclear virt rfl).2
      exact ⟨rfl, hcr, hsound, hretr⟩
  | mapRange virtStart physStart size flags =>
      have hpages := rangePages_le size
      obtain ⟨hret, hcr, hsound, hretr, -⟩ := vmmMapRangeFrom_ok ha (by omega)
        (fun w hw => (hclear w hw).1) h (fun w hw => (hclear w hw).2) hrun
      exact ⟨hret, hcr, hsound, hretr⟩

theorem getPml4_bootState (m : Mem) (p₀ : P) : getPml4 (bootState m p₀) = 0x70000#64 := by
  show BitVec.ofNat 64 pml4Addr &&& pteAddrMask = 0x70000#64
  decide

theorem bootState_sound (m : Mem) {p₀ : P} (hboot : ∀ e ∈ bootTables, used p₀ e.2) :
    Sound used (bootState m p₀) := by
  unfold Sound
  rw [getPml4_bootState]
  exact setupPaging_tables m hboot

theorem run_sound (ha : Supplies pmmAllocPage used) {m : Mem} {p₀ : P}
    (hboot : ∀ e ∈ bootTables, used p₀ e.2)
    (hrun : Run (Step pmmAllocPage) (bootState m p₀) ops s) : Sound used s := by
  refine hrun.invariant (I := Sound used) ?_ (bootState_sound m hboot)
  rintro s op s' hs ⟨hclear, ret, hstep⟩
  exact (run_ok ha hs hclear hstep).2.2.1

/-! ## Translations -/

theorem vmmGetPhys_congr (hcr : s'.cr3 = s.cr3)
    (h : leafOf s'.mem (getPml4 s) w = leafOf s.mem (getPml4 s) w) :
    vmmGetPhys s' w = vmmGetPhys s w := by
  have hroot : getPml4 s' = getPml4 s := by rw [getPml4, getPml4, hcr]
  rw [vmmGetPhys_eq, vmmGetPhys_eq, hroot, h]

/-- A translation is no error: the address field and the offset leave bit 63 clear. -/
theorem translation_ne (e v : Word) (k : Nat) :
    (e &&& pteAddrMask) ||| (v &&& offsetMask k) ≠ -1#64 := by
  intro heq
  have hoffset : (offsetMask k)[63] = false := by
    rcases k with _ | _ | k
    · decide
    · decide
    · show (0x3FFFFFFF#64)[63] = false
      decide
  have hbit := congrArg (fun b => BitVec.getLsbD b 63) heq
  simp [pteAddrMask, hoffset] at hbit

theorem vmmGetPhys_none (h : leafOf s.mem (getPml4 s) w = none) : vmmGetPhys s w = -1#64 := by
  rw [vmmGetPhys_eq, h]

theorem pageEntry_addr (hflags : flags &&& pteAddrMask = 0#64) :
    pageEntry phys flags &&& pteAddrMask = phys &&& pteAddrMask := by
  have hpresent : ptePresent &&& pteAddrMask = 0#64 := by decide
  rw [pageEntry, BitVec.and_or_distrib_right, BitVec.and_or_distrib_right, hflags, hpresent,
    BitVec.and_assoc, BitVec.and_self, BitVec.or_zero, BitVec.or_zero]

theorem vmmGetPhys_mapped (hflags : flags &&& pteAddrMask = 0#64)
    (h : leafOf s.mem (getPml4 s) w = some (pageEntry phys flags, [])) :
    vmmGetPhys s w = (phys &&& pteAddrMask) + (w &&& 0xFFF#64) := by
  have hapart : (phys &&& pteAddrMask) &&& (w &&& 0xFFF#64) = 0#64 := by
    have hfields : pteAddrMask &&& 0xFFF#64 = 0#64 := by decide
    rw [BitVec.and_comm w, ← BitVec.and_assoc, BitVec.and_assoc phys, hfields, BitVec.and_zero,
      BitVec.zero_and]
  have hleaf : vmmGetPhys s w = (pageEntry phys flags &&& pteAddrMask) ||| (w &&& 0xFFF#64) := by
    rw [vmmGetPhys_eq, h]
    rfl
  rw [hleaf, pageEntry_addr hflags, BitVec.add_eq_or_of_and_eq_zero _ _ hapart]

/-- The address field, as a number. -/
theorem toNat_and_pteAddrMask (x : Word) :
    (x &&& pteAddrMask).toNat = x.toNat % 2 ^ 52 / 2 ^ 12 * 2 ^ 12 := by
  have hfield : pteAddrMask = BitVec.ofNat 64 (2 ^ 52 - 1) &&& ~~~BitVec.ofNat 64 (2 ^ 12 - 1) := by
    decide
  rw [hfield, ← BitVec.and_assoc, Masks.toNat_and_not_mask _ (by decide),
    Masks.toNat_and_mask _ (by decide)]

/-- Page and offset of a range are added without a carry. -/
theorem rangePage_offset (vs : Word) {ps : Word} {x : Nat} (hvs : vs.toNat % pageSize = 0)
    (hps : ps.toNat % pageSize = 0) :
    ((rangePage ps (x / pageSize) &&& pteAddrMask) + ((vs + BitVec.ofNat 64 x) &&& 0xFFF#64)).toNat =
      (ps.toNat + x) % 2 ^ 52 := by
  have hoffset : ((vs + BitVec.ofNat 64 x) &&& 0xFFF#64).toNat =
      (vs + BitVec.ofNat 64 x).toNat % 2 ^ 12 :=
    Masks.toNat_and_mask (k := 12) _ (by decide)
  rw [pageSize] at *
  rw [BitVec.toNat_add, toNat_and_pteAddrMask, rangePage_toNat, hoffset, BitVec.toNat_add,
    BitVec.toNat_ofNat]
  omega

theorem samePage_rangePage {vs : Word} {x : Nat} (hvs : vs.toNat % pageSize = 0) :
    SamePage (vs + BitVec.ofNat 64 x) (rangePage vs (x / pageSize)) := by
  unfold SamePage
  rw [rangePage_toNat, BitVec.toNat_add, BitVec.toNat_ofNat]
  rw [pageSize] at *
  omega

/-- The pages named by a call are translated as it says. -/
theorem run_maps (ha : Supplies pmmAllocPage used) (h : Sound used s) (hclear : op.Clear s)
    (hargs : op.Args) (hrun : op.run pmmAllocPage s = some (s', ret)) : op.Maps s' := by
  have hroot : getPml4 s' = getPml4 s := by
    rw [getPml4, getPml4, (run_ok ha h hclear hrun).2.1]
  cases op with
  | mapPage virt phys flags =>
      obtain ⟨-, -, -, -, hleaf⟩ := vmmMapPage_ok ha h (hclear virt rfl).2 hrun
      intro w hw
      refine vmmGetPhys_mapped hargs ?_
      rw [hroot, leafOf, hw.indices_eq]
      exact hleaf
  | unmapPage virt =>
      obtain ⟨rfl, rfl⟩ := Prod.mk.inj (Option.some.inj hrun)
      obtain ⟨-, -, -, hleaf⟩ := vmmUnmapPage_ok h (hclear virt rfl).2
      intro w hw
      refine vmmGetPhys_none ?_
      rw [hroot, leafOf, hw.indices_eq]
      exact hleaf
  | mapRange virtStart physStart size flags =>
      obtain ⟨hvs, hps, hsize, hflags⟩ := hargs
      have hpages : ((size + 4096#64 - 1#64) / 4096#64).toNat = size.toNat / 4096 := by
        have hlt := size.isLt
        have hround : (size + 4096#64 - 1#64).toNat = size.toNat + 4095 := by
          rw [pageSize] at hsize
          bv_omega
        rw [BitVec.toNat_udiv, hround]
        show (size.toNat + 4095) / 4096 = _
        rw [pageSize] at hsize
        omega
      obtain ⟨-, -, -, -, hleaf⟩ := vmmMapRangeFrom_ok ha (by rw [hpages]; have := size.isLt; omega)
        (fun w hw => (hclear w hw).1) h (fun w hw => (hclear w hw).2) hrun
      intro x hx
      have hpage : x / pageSize < ((size + 4096#64 - 1#64) / 4096#64).toNat := by
        rw [hpages]
        rw [pageSize] at *
        omega
      rw [← rangePage_offset virtStart hvs hps]
      refine congrArg BitVec.toNat (vmmGetPhys_mapped hflags ?_)
      rw [hroot, leafOf, (samePage_rangePage hvs).indices_eq]
      exact hleaf _ (Nat.zero_le _) (by omega)

/-- Canonical addresses in other pages are translated as before. -/
theorem run_others (ha : Supplies pmmAllocPage used) (h : Sound used s) (hclear : op.Clear s)
    (hrun : op.run pmmAllocPage s = some (s', ret)) (hw : Canonical w)
    (hother : ∀ v, op.names v → ¬ SamePage w v) : vmmGetPhys s' w = vmmGetPhys s w := by
  obtain ⟨-, hcr, -, hretr⟩ := run_ok ha h hclear hrun
  refine vmmGetPhys_congr hcr (hretr.others w ?_)
  intro v hv heq
  exact hother v hv (samePage_of_indices (hclear v hv).1 hw heq)

/-! ## No result -/

/-- Only the allocator stops a call, and in this call. -/
theorem run_none (ha : Supplies pmmAllocPage used) (h : Sound used s) (hclear : op.Clear s)
    (hrun : op.run pmmAllocPage s = none) :
    ∃ a, Meets pmmAllocPage s op.tables a ∧ pmmAllocPage a = none := by
  cases op with
  | mapPage => exact vmmMapPage_none ha h hrun
  | unmapPage => cases hrun
  | mapRange virtStart physStart size flags =>
      have hpages := rangePages_le size
      exact vmmMapRangeFrom_none ha (by omega) (fun w hw => (hclear w hw).1) h
        (fun w hw => (hclear w hw).2) hrun

/-- A call that may need a table has a result while there is a free page. -/
theorem getOrCreate_some {free : P → Nat}
    (hfree : ∀ a, 0 < free a → ∃ t a', pmmAllocPage a = some (t, a') ∧ free a ≤ free a' + 1)
    (t index flags : Word) (h : 0 < free s.pmm) :
    ∃ s' u, vmmGetOrCreateTable pmmAllocPage s t index flags = some (s', u) ∧
      free s.pmm ≤ free s'.pmm + 1 := by
  unfold vmmGetOrCreateTable
  split
  · obtain ⟨phys, pmm, halloc, hle⟩ := hfree _ h
    rw [halloc]
    by_cases hphys : phys = 0#64
    · exact ⟨_, _, if_pos hphys, hle⟩
    · exact ⟨_, _, if_neg hphys, hle⟩
  · exact ⟨_, _, rfl, Nat.le_succ _⟩

theorem vmmMapPage_some {free : P → Nat}
    (hfree : ∀ a, 0 < free a → ∃ t a', pmmAllocPage a = some (t, a') ∧ free a ≤ free a' + 1)
    (v phys flags : Word) (h : 3 ≤ free s.pmm) :
    ∃ s' ret, vmmMapPage pmmAllocPage s v phys flags = some (s', ret) := by
  obtain ⟨s₁, pdpt, hrun₁, hle₁⟩ := getOrCreate_some hfree (getPml4 s) (pml4Index v)
    (ptePresent ||| pteWritable) (show 0 < free s.pmm by omega)
  obtain ⟨s₂, pd, hrun₂, hle₂⟩ := getOrCreate_some hfree pdpt (pdptIndex v)
    (ptePresent ||| pteWritable) (show 0 < free s₁.pmm by omega)
  obtain ⟨s₃, pt, hrun₃, -⟩ := getOrCreate_some hfree pd (pdIndex v)
    (ptePresent ||| pteWritable) (show 0 < free s₂.pmm by omega)
  rw [vmmMapPage, hrun₁, Option.bind_eq_bind, Option.bind_some]
  dsimp only
  split
  · exact ⟨_, _, rfl⟩
  rw [hrun₂, Option.bind_some]
  dsimp only
  split
  · exact ⟨_, _, rfl⟩
  rw [hrun₃, Option.bind_some]
  dsimp only
  split
  · exact ⟨_, _, rfl⟩
  · exact ⟨_, _, rfl⟩

/-- **The tables are a map of pages**, in every run from the boot tables. -/
theorem page_map (ha : Supplies pmmAllocPage used) (m : Mem) {p₀ : P}
    (hboot : ∀ e ∈ bootTables, used p₀ e.2)
    (hrun : Run (Step pmmAllocPage) (bootState m p₀) ops s) (hclear : op.Clear s)
    (hargs : op.Args) : op.Correct pmmAllocPage s := by
  have hsound := run_sound ha hboot hrun
  refine ⟨run_none ha hsound hclear, ?_⟩
  intro s' ret hop
  exact ⟨(run_ok ha hsound hclear hop).1, run_maps ha hsound hclear hargs hop,
    fun w hw hother => run_others ha hsound hclear hop hw hother⟩

end Steps

/-! ## A concrete allocator -/

/-- Pages from 1 MB on, one after the other. -/
def nextPage (n : Nat) : Option (Word × Nat) :=
  if n < 2 ^ 20 then some (BitVec.ofNat 64 ((n + 256) * 4096), n + 1) else none

/-- The pages below those still to come. -/
def pageUsed (n : Nat) (t : Word) : Prop := t.toNat / 4096 < n + 256

theorem nextPage_eq {n n' : Nat} {t : Word} (h : nextPage n = some (t, n')) :
    n < 2 ^ 20 ∧ t.toNat = (n + 256) * 4096 ∧ n' = n + 1 := by
  unfold nextPage at h
  split at h
  · rename_i hn
    obtain ⟨rfl, rfl⟩ := Prod.mk.inj (Option.some.inj h)
    exact ⟨hn, by rw [BitVec.toNat_ofNat]; omega, rfl⟩
  · cases h

theorem nextPage_supplies : Supplies nextPage pageUsed := by
  constructor
  case page =>
    intro n t n' h
    obtain ⟨hn, ht, -⟩ := nextPage_eq h
    refine ⟨by omega, by omega, ?_⟩
    rintro rfl
    rw [BitVec.toNat_ofNat] at ht
    omega
  case fresh =>
    intro n t n' h
    obtain ⟨-, ht, -⟩ := nextPage_eq h
    unfold pageUsed
    omega
  case taken =>
    intro n t n' h
    obtain ⟨-, ht, rfl⟩ := nextPage_eq h
    unfold pageUsed
    omega
  case mono =>
    intro n t n' u h hu
    obtain ⟨-, -, rfl⟩ := nextPage_eq h
    unfold pageUsed at hu ⊢
    omega

theorem nextPage_free : ∀ n, 0 < 2 ^ 20 - n →
    ∃ t n', nextPage n = some (t, n') ∧ 2 ^ 20 - n ≤ 2 ^ 20 - n' + 1 := by
  intro n hn
  exact ⟨_, n + 1, if_pos (by omega), by omega⟩

theorem bootTables_used : ∀ e ∈ bootTables, pageUsed 0 e.2 := by
  unfold pageUsed
  decide +kernel

/-- The second gigabyte is not mapped at boot. -/
theorem boot_gigabyte (m : Mem) {w : Word} {i j : Index} (hw : indices w = [0, 1, i, j]) :
    leafOf (setupPaging m) 0x70000#64 w = none := by
  have hindices : indices w = [(0 : Index)].reverse ++ 1 :: [i, j] := hw
  rw [leafOf, hindices]
  exact bootTables_empty (t := 0x71000#64) (by decide) (by decide) rfl

theorem boot_unmapped (m : Mem) : leafOf (setupPaging m) 0x70000#64 0x40000000#64 = none :=
  boot_gigabyte (i := 0) (j := 0) m (by decide)

theorem boot_noHuge (m : Mem) :
    NoHuge (bootState m 0).mem (getPml4 (bootState m 0)) 0x40000000#64 := by
  intro e rest hleaf
  rw [getPml4_bootState] at hleaf
  cases (boot_unmapped m).symm.trans hleaf

theorem takePages_nextPage {k n n' : Nat} (h : takePages nextPage k n = some n') : n' = n + k := by
  induction k generalizing n with
  | zero => exact (Option.some.inj h).symm
  | succ k ih =>
      obtain ⟨⟨t, a⟩, halloc, h⟩ := Option.bind_eq_some_iff.mp h
      obtain ⟨-, -, rfl⟩ := nextPage_eq halloc
      have := ih h
      omega

/-- The first page of the second gigabyte: the call returns, for there are pages for its
three tables. -/
theorem page_map_second_gigabyte :
    ∃ s', (Op.mapPage 0x40000000#64 0x200000#64 3#64).run nextPage (bootState (fun _ => 0#8) 0) =
      some (s', 0) ∧ vmmGetPhys s' 0x40000123#64 = 0x200123#64 := by
  have hrun : Run (Step nextPage) (bootState (fun _ => 0#8) 0) [] (bootState (fun _ => 0#8) 0) :=
    .nil _
  have hclear : (Op.mapPage 0x40000000#64 0x200000#64 3#64).Clear (bootState (fun _ => 0#8) 0) := by
    rintro v rfl
    exact ⟨Or.inl (by decide), boot_noHuge _⟩
  have hargs : (Op.mapPage 0x40000000#64 0x200000#64 3#64).Args := by
    show 3#64 &&& pteAddrMask = 0#64
    decide
  obtain ⟨hreturns, hmaps⟩ := page_map nextPage_supplies _ bootTables_used hrun hclear hargs
  cases hop : (Op.mapPage 0x40000000#64 0x200000#64 3#64).run nextPage
      (bootState (fun _ => 0#8) 0) with
  | none =>
      obtain ⟨a, ⟨n, hn, htakes⟩, hstop⟩ := hreturns hop
      have hthree : (n : ℕ∞) < 3 :=
        hn.trans_le ((Set.encard_le_encard Set.sdiff_subset).trans (tablesFor_encard _))
      have hlt : n < 3 := by exact_mod_cast hthree
      have hpage : 0 < 2 ^ 20 - a := by
        rw [takePages_nextPage htakes, show (bootState (fun _ => 0#8) 0).pmm = 0 from rfl]
        omega
      obtain ⟨t, a', halloc, -⟩ := nextPage_free a hpage
      rw [hstop] at halloc
      cases halloc
  | some r =>
      obtain ⟨s', ret⟩ := r
      obtain ⟨rfl, hset, -⟩ := hmaps s' ret hop
      exact ⟨s', rfl, (hset 0x40000123#64 (by unfold SamePage; decide)).trans (by decide)⟩

/-- Bits of `phys_start` above the address field are lost. -/
theorem map_range_above_52_bits :
    (Op.mapRange 0x40000000#64 0x10000000000000#64 4096#64 3#64).Clear
        (bootState (fun _ => 0#8) 0) ∧
      (Op.mapRange 0x40000000#64 0x10000000000000#64 4096#64 3#64).Args ∧
      ∃ s', (Op.mapRange 0x40000000#64 0x10000000000000#64 4096#64 3#64).run nextPage
          (bootState (fun _ => 0#8) 0) = some (s', 0) ∧
        vmmGetPhys s' (0x40000000#64 + 0#64) ≠ 0x10000000000000#64 + 0#64 := by
  have hsound := bootState_sound (fun _ => 0#8) bootTables_used
  have hclear : (Op.mapRange 0x40000000#64 0x10000000000000#64 4096#64 3#64).Clear
      (bootState (fun _ => 0#8) 0) := by
    rintro v ⟨n, -, hn, rfl⟩
    have hzero : n = 0 := by
      have hone : ((4096#64 + 4096#64 - 1#64) / 4096#64).toNat = 1 := by decide
      omega
    subst hzero
    exact ⟨Or.inl (by decide), boot_noHuge _⟩
  have hargs : (Op.mapRange 0x40000000#64 0x10000000000000#64 4096#64 3#64).Args :=
    ⟨by decide, by decide, by decide, by decide⟩
  obtain ⟨s', ret, hrun⟩ := vmmMapPage_some (s := bootState (fun _ => 0#8) 0) nextPage_free
    (0x40000000#64 + 0#64 * 4096#64) (0x10000000000000#64 + 0#64 * 4096#64) 3#64
    (show 3 ≤ 2 ^ 20 - 0 by decide)
  obtain ⟨rfl, -⟩ := vmmMapPage_ok nextPage_supplies hsound (boot_noHuge _) hrun
  have hrange : (Op.mapRange 0x40000000#64 0x10000000000000#64 4096#64 3#64).run nextPage
      (bootState (fun _ => 0#8) 0) = some (s', 0) := by
    show vmmMapRangeFrom nextPage 0x40000000#64 0x10000000000000#64 3#64
      ((4096#64 + 4096#64 - 1#64) / 4096#64).toNat 0#64 (bootState (fun _ => 0#8) 0) = some (s', 0)
    rw [show ((4096#64 + 4096#64 - 1#64) / 4096#64).toNat = 1 by decide, vmmMapRangeFrom, hrun]
    rfl
  refine ⟨hclear, hargs, s', hrange, ?_⟩
  intro heq
  have hphys := run_maps nextPage_supplies hsound hclear hargs hrange 0 (by decide)
  have hlit := congrArg BitVec.toNat heq
  exact absurd (hphys.symm.trans hlit) (by decide)

end VectorForth.Vmm
