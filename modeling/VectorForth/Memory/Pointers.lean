import VectorForth.Memory.Frames

/-!
# Page tables behind pointers

The kernel has no other way to a page table than a pointer with the table's physical
address as its value, and the processor translates it like every other address. Here the
functions of `kernel/memory/vmm.c` are written with such pointers. While all tables lie in
the 4 MB that `setup_paging` maps to themselves they do what the functions on physical
memory do, and nothing is lost by naming tables by their physical addresses.
-/

namespace VectorForth.Vmm

open ByteMemory RadixTree LabelledRun LowestFirst
open Pmm (Pool)

instance : DecidablePred Canonical :=
  fun v => inferInstanceAs (Decidable (v.toNat < 2 ^ 47 ∨ 2 ^ 64 - 2 ^ 47 ≤ v.toNat))

namespace Pointer

/-- Where the processor finds the byte at an address. It walks the same tables, by
physical address; none is a fault. -/
def translate {P : Type} (s : State P) (virt : Word) : Option Word :=
  if Canonical virt ∧ vmmIsMapped s virt = true then some (vmmGetPhys s virt) else none

/-- `table[index]`; an entry does not cross a page. -/
def loadEntry {P : Type} (s : State P) (table index : Word) : Option Word :=
  (translate s (table + 8#64 * index)).map fun phys => BitVec.ofNat 64 (read64 s.mem phys.toNat)

/-- `table[index] = v`. -/
def storeEntry {P : Type} (s : State P) (table index v : Word) : Option (State P) :=
  (translate s (table + 8#64 * index)).map fun phys =>
    { s with mem := write64 s.mem phys.toNat v.toNat }

/-- `memset` of `n` bytes, lowest address first. -/
def memset {P : Type} (c : BitVec 8) : Nat → Word → State P → Option (State P)
  | 0, _, s => some s
  | n + 1, virt, s => do
      let phys ← translate s virt
      memset c n (virt + 1#64) { s with mem := write8 s.mem phys.toNat c }

section Vmm

variable {P : Type} (pmmAllocPage : P → Option (Word × P))

def vmmGetOrCreateTable (s : State P) (table index flags : Word) : Option (State P × Word) := do
  let e ← loadEntry s table index
  if e &&& ptePresent = 0#64 then
    let (phys, pmm) ← pmmAllocPage s.pmm
    let s := { s with pmm := pmm }
    if phys = 0#64 then some (s, 0#64)
    else
      let s ← memset 0#8 pageSize phys s
      let s ← storeEntry s table index (phys ||| flags ||| ptePresent ||| pteWritable)
      let e ← loadEntry s table index
      some (s, e &&& pteAddrMask)
  else some (s, e &&& pteAddrMask)

def vmmMapPage (s : State P) (virt phys flags : Word) : Option (State P × Int) := do
  let (s, pdpt) ← vmmGetOrCreateTable pmmAllocPage s (getPml4 s) (pml4Index virt)
    (ptePresent ||| pteWritable)
  if pdpt = 0#64 then some (s, -1)
  else
    let (s, pd) ← vmmGetOrCreateTable pmmAllocPage s pdpt (pdptIndex virt)
      (ptePresent ||| pteWritable)
    if pd = 0#64 then some (s, -1)
    else
      let (s, pt) ← vmmGetOrCreateTable pmmAllocPage s pd (pdIndex virt)
        (ptePresent ||| pteWritable)
      if pt = 0#64 then some (s, -1)
      else
        let s ← storeEntry s pt (ptIndex virt) ((phys &&& pteAddrMask) ||| flags ||| ptePresent)
        some (s, 0)

def vmmUnmapPage (s : State P) (virt : Word) : Option (State P) := do
  let e4 ← loadEntry s (getPml4 s) (pml4Index virt)
  if e4 &&& ptePresent = 0#64 then some s
  else
    let pdpt := e4 &&& pteAddrMask
    let e3 ← loadEntry s pdpt (pdptIndex virt)
    if e3 &&& ptePresent = 0#64 then some s
    else
      let pd := e3 &&& pteAddrMask
      let e2 ← loadEntry s pd (pdIndex virt)
      if e2 &&& ptePresent = 0#64 then some s
      else if e2 &&& pteHuge ≠ 0#64 then storeEntry s pd (pdIndex virt) 0#64
      else
        let pt := e2 &&& pteAddrMask
        storeEntry s pt (ptIndex virt) 0#64

def vmmGetPhys (s : State P) (virt : Word) : Option Word := do
  let e4 ← loadEntry s (getPml4 s) (pml4Index virt)
  if e4 &&& ptePresent = 0#64 then some (-1#64)
  else
    let pdpt := e4 &&& pteAddrMask
    let e3 ← loadEntry s pdpt (pdptIndex virt)
    if e3 &&& ptePresent = 0#64 then some (-1#64)
    else if e3 &&& pteHuge ≠ 0#64 then
      some ((e3 &&& pteAddrMask) ||| (virt &&& 0x3FFFFFFF#64))
    else
      let pd := e3 &&& pteAddrMask
      let e2 ← loadEntry s pd (pdIndex virt)
      if e2 &&& ptePresent = 0#64 then some (-1#64)
      else if e2 &&& pteHuge ≠ 0#64 then
        some ((e2 &&& pteAddrMask) ||| (virt &&& 0x1FFFFF#64))
      else
        let pt := e2 &&& pteAddrMask
        let e1 ← loadEntry s pt (ptIndex virt)
        if e1 &&& ptePresent = 0#64 then some (-1#64)
        else some ((e1 &&& pteAddrMask) ||| (virt &&& 0xFFF#64))

/-- The loop of `vmm_map_range`, with the pages still to map. -/
def vmmMapRangeFrom (virtStart physStart flags : Word) :
    Nat → Word → State P → Option (State P × Int)
  | 0, _, s => some (s, 0)
  | k + 1, i, s => do
      let (s, ret) ← vmmMapPage pmmAllocPage s (virtStart + i * 4096#64) (physStart + i * 4096#64)
        flags
      if ret ≠ 0 then some (s, ret)
      else vmmMapRangeFrom virtStart physStart flags k (i + 1#64) s

def vmmMapRange (s : State P) (virtStart physStart size flags : Word) : Option (State P × Int) :=
  let pages := (size + 4096#64 - 1#64) / 4096#64
  vmmMapRangeFrom pmmAllocPage virtStart physStart flags pages.toNat 0#64 s

/-- A call of the interface. -/
def run (op : Op) (s : State P) : Option (State P × Int) :=
  match op with
  | .mapPage virt phys flags => vmmMapPage pmmAllocPage s virt phys flags
  | .unmapPage virt => (vmmUnmapPage s virt).map fun s => (s, 0)
  | .mapRange virtStart physStart size flags =>
      vmmMapRange pmmAllocPage s virtStart physStart size flags

end Vmm

end Pointer

/-! ## The identity mapping -/

/-- The pages that the allocator has for the missing tables of `N` are mapped to
themselves. -/
def TakesLow {P : Type} (pmmAllocPage : P → Option (Word × P)) (s : State P)
    (N : Set (List Index)) : Prop :=
  ∀ a t a', Meets pmmAllocPage s N a → pmmAllocPage a = some (t, a') → InIdentity t

/-- A machine whose tables the kernel can reach. -/
structure Addressed {P : Type} (used : P → Word → Prop) (s : State P) : Prop where
  sound : Sound used s
  identity : IdentityMapped s
  reachable : TablesReachable s

section Identity

variable {P : Type} {pmmAllocPage : P → Option (Word × P)} {used : P → Word → Prop}
  {s s' : State P} {m : Mem} {root t u v w x : Word} {n : ℕ} {N K : Set (List Index)}
  {p : List Index} {i : Index}

theorem identity_phys (hx : x.toNat < identityTop)
    (h : leafOf s.mem (getPml4 s) x =
      some (BitVec.ofNat 64 (x.toNat / 2 ^ 21 * 0x200000 + 0x83), [indexAt 12 x])) :
    vmmGetPhys s x = x := by
  have htop : identityTop = 0x400000 := rfl
  rw [vmmGetPhys_eq, h]
  refine identity_offset (i := x.toNat / 2 ^ 21) ?_ rfl
  rw [toNat_and_pteAddrMask, BitVec.toNat_ofNat]
  omega

theorem identity_canonical (hx : x.toNat < identityTop) : Canonical x := by
  have htop : identityTop = 0x400000 := rfl
  exact Or.inl (by omega)

/-- A pointer to low memory points where it says. -/
theorem translate_of_leaf (hx : x.toNat < identityTop)
    (h : leafOf s.mem (getPml4 s) x =
      some (BitVec.ofNat 64 (x.toNat / 2 ^ 21 * 0x200000 + 0x83), [indexAt 12 x])) :
    Pointer.translate s x = some x := by
  have hphys := identity_phys hx h
  have hmapped : vmmIsMapped s x = true := by
    rw [vmmIsMapped, hphys, bne_iff_ne]
    rintro rfl
    exact absurd hx (by decide)
  rw [Pointer.translate, if_pos ⟨identity_canonical hx, hmapped⟩, hphys]

theorem IdentityMapped.translate (h : IdentityMapped s) (hx : x.toNat < identityTop) :
    Pointer.translate s x = some x := translate_of_leaf hx (h x hx)

theorem slot_low (ht : PageAddr t) (hlow : InIdentity t) (i : Index) :
    (t + 8#64 * BitVec.ofNat 64 i).toNat < identityTop := by
  have hi := i.isLt
  rw [InIdentity, pageSize] at hlow
  rw [slot_toNat ht]
  omega

theorem IdentityMapped.loadEntry (h : IdentityMapped s) (ht : PageAddr t) (hlow : InIdentity t)
    (i : Index) : Pointer.loadEntry s t (BitVec.ofNat 64 i) = some (entry s.mem t (BitVec.ofNat 64 i)) := by
  rw [Pointer.loadEntry, h.translate (slot_low ht hlow i)]
  rfl

theorem IdentityMapped.storeEntry (h : IdentityMapped s) (ht : PageAddr t) (hlow : InIdentity t)
    (i : Index) (v : Word) : Pointer.storeEntry s t (BitVec.ofNat 64 i) v =
      some { s with mem := setEntry s.mem t (BitVec.ofNat 64 i) v } := by
  rw [Pointer.storeEntry, h.translate (slot_low ht hlow i)]
  rfl

/-- Clearing low memory outside the tables: the byte written moves no pointer. -/
theorem memset_low {c : BitVec 8} {a : Word} (h : Addressed used s)
    (hlow : a.toNat + n ≤ identityTop)
    (hout : ∀ y, a.toNat ≤ y → y < a.toNat + n → ¬ InTables s.mem (getPml4 s) y) :
    Pointer.memset c n a s = some { s with mem := fill s.mem a.toNat c n } := by
  induction n generalizing a s with
  | zero => rfl
  | succ n ih =>
      have htop : identityTop = 0x400000 := rfl
      have hnext : (a + 1#64).toNat = a.toNat + 1 := by
        rw [BitVec.toNat_add, BitVec.toNat_ofNat]
        omega
      have hmem : ∀ y, InTables s.mem (getPml4 s) y → write8 s.mem a.toNat c y = s.mem y := by
        intro y hy
        refine write8_outside ?_
        rintro rfl
        exact hout _ (le_refl _) (by omega) hy
      have hsame := same_of_tables h.sound hmem
      have hwritten : Addressed used { s with mem := write8 s.mem a.toNat c } :=
        ⟨h.sound.congr hmem, h.identity.congr rfl fun x _ => h.sound.leafOf_congr hmem x,
          fun p t ht => h.reachable p t (hsame.reach_iff.mp ht)⟩
      have htranslate : Pointer.translate s a = some a := h.identity.translate (by omega)
      have hrest := @ih { s with mem := write8 s.mem a.toNat c } (a + 1#64) hwritten (by omega) ?_
      · rw [hnext] at hrest
        rw [Pointer.memset, htranslate]
        exact hrest
      · rw [hnext]
        rintro y h₁ h₂ ⟨p, t, ht, hin⟩
        exact hout y (by omega) (by omega) ⟨p, t, hsame.reach_iff.mp ht, hin⟩

end Identity

/-! ## Refinement -/

section Refinement

variable {P : Type} {pmmAllocPage : P → Option (Word × P)} {used : P → Word → Prop}
  {s s' : State P} {root t u v w phys flags : Word} {n : ℕ} {N K : Set (List Index)} {op : Op}
  {ret : Int} {p : List Index} {i : Index}

theorem Addressed.load (h : Addressed used s) (ht : Table s.mem (getPml4 s) p t) (i : Index) :
    Pointer.loadEntry s t (BitVec.ofNat 64 i) = some (entry s.mem t (BitVec.ofNat 64 i)) :=
  h.identity.loadEntry (h.sound.page p t ht) (h.reachable p t ht) i

theorem Addressed.store (h : Addressed used s) (ht : Table s.mem (getPml4 s) p t) (i : Index)
    (v : Word) : Pointer.storeEntry s t (BitVec.ofNat 64 i) v =
      some { s with mem := setEntry s.mem t (BitVec.ofNat 64 i) v } :=
  h.identity.storeEntry (h.sound.page p t ht) (h.reachable p t ht) i v

/-- `vmm_get_phys` where some entries may be out of reach. -/
theorem getPhys_cases {Lost : Prop} (v : Word)
    (hload : ∀ p t (i : Index), Table s.mem (getPml4 s) p t →
      Pointer.loadEntry s t (BitVec.ofNat 64 i) = some (entry s.mem t (BitVec.ofNat 64 i)) ∨
        Lost ∧ Pointer.loadEntry s t (BitVec.ofNat 64 i) = none) :
    Pointer.vmmGetPhys s v = some (vmmGetPhys s v) ∨ Lost ∧ Pointer.vmmGetPhys s v = none := by
  unfold Pointer.vmmGetPhys vmmGetPhys
  simp only [pml4Index, pdptIndex, pdIndex, ptIndex, index_eq]
  rcases hload [] _ (indexAt 39 v) .root with h | ⟨hlost, h⟩
  swap
  · exact Or.inr ⟨hlost, by rw [h]; rfl⟩
  rw [h, Option.bind_eq_bind, Option.bind_some]
  by_cases h4 : entry s.mem (getPml4 s) (BitVec.ofNat 64 (indexAt 39 v)) &&& ptePresent = 0#64
  · rw [if_pos h4, if_pos h4]
    exact Or.inl rfl
  rw [if_neg h4, if_neg h4]
  have hpdpt : Table s.mem (getPml4 s) [indexAt 39 v] _ := .child .root (pageSlot_child h4 (by simp))
  generalize entry s.mem (getPml4 s) (BitVec.ofNat 64 (indexAt 39 v)) &&& pteAddrMask = pdpt at *
  rcases hload _ _ (indexAt 30 v) hpdpt with h | ⟨hlost, h⟩
  swap
  · exact Or.inr ⟨hlost, by rw [h]; rfl⟩
  rw [h, Option.bind_some]
  by_cases h3 : entry s.mem pdpt (BitVec.ofNat 64 (indexAt 30 v)) &&& ptePresent = 0#64
  · rw [if_pos h3, if_pos h3]
    exact Or.inl rfl
  by_cases huge3 : entry s.mem pdpt (BitVec.ofNat 64 (indexAt 30 v)) &&& pteHuge ≠ 0#64
  · rw [if_neg h3, if_neg h3, if_pos huge3, if_pos huge3]
    exact Or.inl rfl
  rw [if_neg h3, if_neg h3, if_neg huge3, if_neg huge3]
  have hpd : Table s.mem (getPml4 s) [indexAt 30 v, indexAt 39 v] _ :=
    .child hpdpt (pageSlot_child h3 (by simp [huge3]))
  generalize entry s.mem pdpt (BitVec.ofNat 64 (indexAt 30 v)) &&& pteAddrMask = pd at *
  rcases hload _ _ (indexAt 21 v) hpd with h | ⟨hlost, h⟩
  swap
  · exact Or.inr ⟨hlost, by rw [h]; rfl⟩
  rw [h, Option.bind_some]
  by_cases h2 : entry s.mem pd (BitVec.ofNat 64 (indexAt 21 v)) &&& ptePresent = 0#64
  · rw [if_pos h2, if_pos h2]
    exact Or.inl rfl
  by_cases huge2 : entry s.mem pd (BitVec.ofNat 64 (indexAt 21 v)) &&& pteHuge ≠ 0#64
  · rw [if_neg h2, if_neg h2, if_pos huge2, if_pos huge2]
    exact Or.inl rfl
  rw [if_neg h2, if_neg h2, if_neg huge2, if_neg huge2]
  have hpt : Table s.mem (getPml4 s) (tablePath v) _ :=
    .child hpd (pageSlot_child h2 (by simp [huge2]))
  generalize entry s.mem pd (BitVec.ofNat 64 (indexAt 21 v)) &&& pteAddrMask = pt at *
  rcases hload _ _ (indexAt 12 v) hpt with h | ⟨hlost, h⟩
  swap
  · exact Or.inr ⟨hlost, by rw [h]; rfl⟩
  rw [h, Option.bind_some]
  left
  split <;> rfl

theorem Addressed.getPhys (h : Addressed used s) (v : Word) :
    Pointer.vmmGetPhys s v = some (vmmGetPhys s v) := by
  have hcases : _ ∨ False ∧ _ := getPhys_cases v fun p t i ht => Or.inl (h.load ht i)
  exact hcases.resolve_right fun hlost => hlost.1

theorem Addressed.unmapPage (h : Addressed used s) (v : Word) :
    Pointer.vmmUnmapPage s v = some (vmmUnmapPage s v) := by
  have hload := fun p t (i : Index) (ht : Table s.mem (getPml4 s) p t) => h.load ht i
  unfold Pointer.vmmUnmapPage vmmUnmapPage
  simp only [pml4Index, pdptIndex, pdIndex, ptIndex, index_eq]
  rw [hload [] _ (indexAt 39 v) .root, Option.bind_eq_bind, Option.bind_some]
  by_cases h4 : entry s.mem (getPml4 s) (BitVec.ofNat 64 (indexAt 39 v)) &&& ptePresent = 0#64
  · rw [if_pos h4, if_pos h4]
  rw [if_neg h4, if_neg h4]
  have hpdpt : Table s.mem (getPml4 s) [indexAt 39 v] _ := .child .root (pageSlot_child h4 (by simp))
  generalize entry s.mem (getPml4 s) (BitVec.ofNat 64 (indexAt 39 v)) &&& pteAddrMask = pdpt at *
  rw [hload _ _ (indexAt 30 v) hpdpt, Option.bind_some]
  by_cases h3 : entry s.mem pdpt (BitVec.ofNat 64 (indexAt 30 v)) &&& ptePresent = 0#64
  · rw [if_pos h3, if_pos h3]
  rw [if_neg h3, if_neg h3]
  have hpd : Table s.mem (getPml4 s) [indexAt 30 v, indexAt 39 v] _ :=
    .child hpdpt (pageSlot_child h3 fun hk => h.sound.noGiant _ _ _ _ hpdpt (pageSlot_leaf h3 hk))
  generalize entry s.mem pdpt (BitVec.ofNat 64 (indexAt 30 v)) &&& pteAddrMask = pd at *
  rw [hload _ _ (indexAt 21 v) hpd, Option.bind_some]
  by_cases h2 : entry s.mem pd (BitVec.ofNat 64 (indexAt 21 v)) &&& ptePresent = 0#64
  · rw [if_pos h2, if_pos h2]
  rw [if_neg h2, if_neg h2]
  by_cases huge : entry s.mem pd (BitVec.ofNat 64 (indexAt 21 v)) &&& pteHuge ≠ 0#64
  · rw [if_pos huge, if_pos huge, h.store hpd]
  rw [if_neg huge, if_neg huge]
  exact h.store (.child hpd (pageSlot_child h2 (by simp [huge]))) _ _

/-- The last entry of a walk is written. -/
theorem Addressed.written {e : Word} (h : Addressed used s)
    (ht : Table s.mem (getPml4 s) (tablePath v) t) (hv : NoHuge s.mem (getPml4 s) v) :
    Addressed used { s with mem := setEntry s.mem t (BitVec.ofNat 64 (indexAt 12 v)) e } := by
  refine ⟨setEntry_tables h.sound ht rfl, ?_, ?_⟩
  · refine h.identity.retranslated rfl (setEntry_retranslated h.sound ht) ?_
    rintro _ rfl
    exact hv
  · exact fun q u hq => h.reachable q u ((setEntry_table_iff h.sound ht rfl).mp hq)

theorem TakesLow.mono (h : TakesLow pmmAllocPage s K) (hsub : N ⊆ K) : TakesLow pmmAllocPage s N :=
  fun a t a' hmeets => h a t a' (hmeets.mono hsub)

theorem Grows.takesLow (h : Grows pmmAllocPage s s' n N) (hlow : TakesLow pmmAllocPage s (N ∪ K)) :
    TakesLow pmmAllocPage s' K :=
  fun a t a' hmeets => hlow a t a' (h.meets hmeets)

/-- A new table, cleared and named through pointers. -/
theorem Addressed.getOrCreate (ha : Supplies pmmAllocPage used) (h : Addressed used s)
    (ht : Table s.mem (getPml4 s) p t) (hp : p.length < 3)
    (hlow : TakesLow pmmAllocPage s {i :: p}) :
    Pointer.vmmGetOrCreateTable pmmAllocPage s t (BitVec.ofNat 64 i) (ptePresent ||| pteWritable) =
      vmmGetOrCreateTable pmmAllocPage s t (BitVec.ofNat 64 i) (ptePresent ||| pteWritable) := by
  unfold Pointer.vmmGetOrCreateTable vmmGetOrCreateTable
  simp only [Option.bind_eq_bind]
  rw [h.load ht i, Option.bind_some]
  by_cases hempty : entry s.mem t (BitVec.ofNat 64 i) &&& ptePresent = 0#64
  swap
  · rw [if_neg hempty, if_neg hempty]
  rw [if_pos hempty, if_pos hempty]
  cases halloc : pmmAllocPage s.pmm with
  | none => rfl
  | some r =>
      obtain ⟨u, pmm⟩ := r
      have hpage := ha.page _ _ _ halloc
      have hfresh := ha.fresh _ _ _ halloc
      have hreach : InIdentity u :=
        hlow _ _ _ (meets_missing (not_mem_paths rfl ht hempty)) halloc
      have hta := h.sound.page p t ht
      have htlow := h.reachable p t ht
      rw [Option.bind_some, Option.bind_some]
      dsimp only
      rw [if_neg hpage.ne_zero, if_neg hpage.ne_zero]
      -- the page is in no table
      have hnext : Addressed (fun _ => used s.pmm) { s with pmm := pmm } :=
        ⟨h.sound, h.identity, h.reachable⟩
      have hout : ∀ y, u.toNat ≤ y → y < u.toNat + pageSize →
          ¬ InTables s.mem (getPml4 s) y := by
        rintro y h₁ h₂ ⟨q, w, hq, h₃, h₄⟩
        have haligned := hpage.aligned
        have haligned' := (h.sound.page q w hq).aligned
        have hsame : w = u := by
          apply BitVec.eq_of_toNat_eq
          rw [pageSize] at *
          omega
        exact hfresh (hsame ▸ h.sound.taken q w hq)
      have hset := @memset_low P _ _ pageSize 0#8 u hnext hreach hout
      have hkeep : ∀ y, InTables s.mem (getPml4 s) y →
          fill s.mem u.toNat 0#8 pageSize y = s.mem y := by
        intro y hy
        refine fill_outside ?_
        by_contra hin
        exact hout y (by omega) (by omega) hy
      have hgrown := newTable_grown h.sound ht hp hpage hfresh hempty
      unfold newTable at hgrown
      generalize fill s.mem u.toNat 0#8 pageSize = m at hset hkeep hgrown ⊢
      have hcleared : IdentityMapped ({ s with mem := m, pmm := pmm } : State P) :=
        h.identity.congr rfl fun x _ => h.sound.leafOf_congr hkeep x
      have hnamed : IdentityMapped
          ({ s with mem := setEntry m t (BitVec.ofNat 64 i) (tableEntry u), pmm := pmm } : State P) :=
        h.identity.congr rfl fun x _ => hgrown.lookup rfl
      have hload := hnamed.loadEntry hta htlow i
      rw [tableEntry] at hload
      rw [hset, Option.bind_some, hcleared.storeEntry hta htlow, Option.bind_some, hload,
        Option.bind_some]

/-- The level below, and what is known there. -/
structure Below (pmmAllocPage : P → Option (Word × P)) (used : P → Word → Prop) (s s' : State P)
    (p : List Index) (u : Word) : Prop where
  addressed : Addressed used s'
  table : Table s'.mem (getPml4 s') p u
  cr3 : s'.cr3 = s.cr3
  grows : ∃ n, Grows pmmAllocPage s s' n {p}
  noHuge : ∀ v, NoHuge s.mem (getPml4 s) v → NoHuge s'.mem (getPml4 s') v

theorem Addressed.below (ha : Supplies pmmAllocPage used) (h : Addressed used s)
    (ht : Table s.mem (getPml4 s) p t) (hp : p.length < 3)
    (hleaf : ∀ l, pageSlot s.mem (4 - (p.length + 1)) t i ≠ .leaf l)
    (hlow : TakesLow pmmAllocPage s {i :: p})
    (hrun : vmmGetOrCreateTable pmmAllocPage s t (BitVec.ofNat 64 i) (ptePresent ||| pteWritable) =
      some (s', u)) : Below pmmAllocPage used s s' (i :: p) u := by
  have hdescends : Descends pmmAllocPage used (getPml4 s) s s' p t i u :=
    ⟨hrun, h.sound, ht, hp, hleaf⟩
  obtain ⟨hcr, htables, hext, hu⟩ := hdescends.ok ha
  have hroot : getPml4 s' = getPml4 s := by rw [getPml4, getPml4, hcr]
  constructor
  case addressed =>
    refine ⟨?_, h.identity.congr hcr fun x _ => hext.leafOf x, ?_⟩
    · rw [Sound, hroot]
      exact htables
    · intro q w hq
      rw [hroot] at hq
      rcases getOrCreate_cases ha h.sound ht hp hleaf hrun with ⟨rfl, -⟩ | ⟨pmm, halloc, rfl, hgrown⟩
      · exact h.reachable q w hq
      · rcases hgrown.reach_iff.mp hq with hold | ⟨rfl, rfl⟩
        · exact h.reachable q w hold
        · refine hlow _ _ _ (meets_missing ?_) halloc
          rintro ⟨x, hx⟩
          exact hgrown.not_suffix hx (List.suffix_refl _)
  case table => rwa [hroot]
  case cr3 => exact hcr
  case grows => exact hdescends.grows ha rfl
  case noHuge =>
    intro v hv e rest hfound
    rw [hroot, hext.leafOf] at hfound
    exact hv e rest hfound

/-- **`vmm_map_page` through pointers is `vmm_map_page` on physical memory**, and the
kernel reaches the tables that it leaves. -/
theorem Addressed.mapPage (ha : Supplies pmmAllocPage used) (h : Addressed used s)
    (hv : NoHuge s.mem (getPml4 s) v)
    (hlow : TakesLow pmmAllocPage s (tablesFor v)) (phys flags : Word) :
    Pointer.vmmMapPage pmmAllocPage s v phys flags = vmmMapPage pmmAllocPage s v phys flags ∧
      ∀ s' ret, vmmMapPage pmmAllocPage s v phys flags = some (s', ret) → Addressed used s' := by
  rw [tablesFor_eq, Set.union_assoc] at hlow
  unfold Pointer.vmmMapPage vmmMapPage
  simp only [pml4Index, pdptIndex, pdIndex, ptIndex, index_eq, Option.bind_eq_bind]
  have hlow₁ := hlow.mono Set.subset_union_left
  rw [h.getOrCreate ha .root (by decide) hlow₁]
  cases hrun₁ : vmmGetOrCreateTable pmmAllocPage s (getPml4 s) (BitVec.ofNat 64 (indexAt 39 v))
      (ptePresent ||| pteWritable) with
  | none => exact ⟨rfl, fun s' ret hnone => by cases hnone⟩
  | some r =>
    obtain ⟨s₁, pdpt⟩ := r
    have hb₁ := h.below ha .root (by decide) (pageSlot_top s.mem _ _) hlow₁ hrun₁
    have h₁ := hb₁.addressed
    obtain ⟨n₁, hgrows₁⟩ := hb₁.grows
    have hlow₂ := (hgrows₁.takesLow hlow).mono Set.subset_union_left
    have hne₁ := (h₁.sound.page _ _ hb₁.table).ne_zero
    rw [Option.bind_some, Option.bind_some]
    dsimp only
    rw [if_neg hne₁, if_neg hne₁, h₁.getOrCreate ha hb₁.table (by simp) hlow₂]
    cases hrun₂ : vmmGetOrCreateTable pmmAllocPage s₁ pdpt (BitVec.ofNat 64 (indexAt 30 v))
        (ptePresent ||| pteWritable) with
    | none => exact ⟨rfl, fun s' ret hnone => by cases hnone⟩
    | some r =>
      obtain ⟨s₂, pd⟩ := r
      have hb₂ := h₁.below ha hb₁.table (by simp) (fun l => h₁.sound.noGiant _ _ _ l hb₁.table)
        hlow₂ hrun₂
      have h₂ := hb₂.addressed
      obtain ⟨n₂, hgrows₂⟩ := hb₂.grows
      have hlow₃ := hgrows₂.takesLow (hgrows₁.takesLow hlow)
      have hne₂ := (h₂.sound.page _ _ hb₂.table).ne_zero
      rw [Option.bind_some, Option.bind_some]
      dsimp only
      rw [if_neg hne₂, if_neg hne₂, h₂.getOrCreate ha hb₂.table (by simp) hlow₃]
      cases hrun₃ : vmmGetOrCreateTable pmmAllocPage s₂ pd (BitVec.ofNat 64 (indexAt 21 v))
          (ptePresent ||| pteWritable) with
      | none => exact ⟨rfl, fun s' ret hnone => by cases hnone⟩
      | some r =>
        obtain ⟨s₃, pt⟩ := r
        have hb₃ := h₂.below ha hb₂.table (by simp)
          ((hb₂.noHuge v (hb₁.noHuge v hv)).slot hb₂.table) hlow₃ hrun₃
        have h₃ := hb₃.addressed
        have hne₃ := (h₃.sound.page _ _ hb₃.table).ne_zero
        rw [Option.bind_some, Option.bind_some]
        dsimp only
        rw [if_neg hne₃, if_neg hne₃, h₃.store hb₃.table]
        refine ⟨rfl, fun s' ret heq => ?_⟩
        obtain ⟨rfl, -⟩ := Prod.mk.inj (Option.some.inj heq)
        have hv₃ := hb₃.noHuge v (hb₂.noHuge v (hb₁.noHuge v hv))
        exact h₃.written hb₃.table hv₃

/-- Unmapping leaves the tables within reach. -/
theorem Addressed.unmapped (h : Addressed used s) (hv : NoHuge s.mem (getPml4 s) v) :
    Addressed used (vmmUnmapPage s v) := by
  rcases vmmUnmapPage_walk h.sound hv with ⟨heq, -⟩ | ⟨pt, hpt, heq⟩
  · rwa [heq]
  · rw [heq]
    exact h.written hpt hv

/-- The loop of `vmm_map_range`, by induction on the pages still to map. -/
theorem Addressed.mapRangeFrom (ha : Supplies pmmAllocPage used) {vs ps : Word} {k j : Nat}
    (hfits : j + k ≤ 2 ^ 52) (hcanon : ∀ w, pagesFrom vs j k w → Canonical w)
    (h : Addressed used s) (hv : ∀ w, pagesFrom vs j k w → NoHuge s.mem (getPml4 s) w)
    (hlow : TakesLow pmmAllocPage s {p | ∃ v, pagesFrom vs j k v ∧ p ∈ tablesFor v}) :
    Pointer.vmmMapRangeFrom pmmAllocPage vs ps flags k (BitVec.ofNat 64 j) s =
        vmmMapRangeFrom pmmAllocPage vs ps flags k (BitVec.ofNat 64 j) s ∧
      ∀ s' ret, vmmMapRangeFrom pmmAllocPage vs ps flags k (BitVec.ofNat 64 j) s = some (s', ret) →
        Addressed used s' := by
  induction k generalizing j s with
  | zero =>
      refine ⟨rfl, fun s' ret heq => ?_⟩
      obtain ⟨rfl, -⟩ := Prod.mk.inj (Option.some.inj heq)
      exact h
  | succ k ih =>
      rw [tables_succ] at hlow
      have hhere := pagesFrom_here vs j k
      have hpage := h.mapPage ha (hv _ hhere) (hlow.mono Set.subset_union_left)
        (ps + BitVec.ofNat 64 j * 4096#64) flags
      rw [rangePage] at hpage
      rw [Pointer.vmmMapRangeFrom, vmmMapRangeFrom, hpage.1]
      cases hrun : vmmMapPage pmmAllocPage s (vs + BitVec.ofNat 64 j * 4096#64)
          (ps + BitVec.ofNat 64 j * 4096#64) flags with
      | none => exact ⟨rfl, fun s' ret hnone => by cases hnone⟩
      | some r =>
          obtain ⟨s₁, ret₁⟩ := r
          have h₁ := hpage.2 s₁ ret₁ hrun
          obtain ⟨rfl, -, -, hretr, -⟩ := vmmMapPage_ok ha h.sound (hv _ hhere) hrun
          obtain ⟨n, hgrows⟩ := vmmMapPage_grows ha h.sound (hv _ hhere) hrun
          simp only [Option.bind_eq_bind, Option.bind_some]
          rw [if_neg (fun hne => hne rfl), if_neg (fun hne => hne rfl), ← BitVec.ofNat_add]
          refine ih (by omega) (fun w hw => hcanon w (pagesFrom_later hw)) h₁ (fun w hw => ?_)
            (hgrows.takesLow hlow)
          rw [hgrows.root]
          exact later_noHuge hfits hcanon hv hretr w hw

/-- **Every call through pointers is the call on physical memory.** -/
theorem Addressed.run (ha : Supplies pmmAllocPage used) (h : Addressed used s)
    (hclear : op.Clear s) (hlow : TakesLow pmmAllocPage s op.tables) :
    Pointer.run pmmAllocPage op s = op.run pmmAllocPage s ∧
      ∀ s' ret, op.run pmmAllocPage s = some (s', ret) → Addressed used s' := by
  cases op with
  | mapPage virt phys flags => exact h.mapPage ha (hclear virt rfl).2 hlow phys flags
  | unmapPage virt =>
      refine ⟨?_, fun s' ret heq => ?_⟩
      · rw [Pointer.run, h.unmapPage]
        rfl
      · obtain ⟨rfl, -⟩ := Prod.mk.inj (Option.some.inj heq)
        exact h.unmapped (hclear virt rfl).2
  | mapRange virtStart physStart size flags =>
      have hpages := rangePages_le size
      exact h.mapRangeFrom ha (by omega) (fun w hw => (hclear w hw).1)
        (fun w hw => (hclear w hw).2) hlow

end Refinement

/-! ## Runs -/

/-- A call through pointers about canonical addresses whose walks meet no huge page, with
pages for its tables that are mapped to themselves. -/
def Pointer.Step {P : Type} (pmmAllocPage : P → Option (Word × P)) (s : State P) (op : Op)
    (s' : State P) : Prop :=
  op.Clear s ∧ TakesLow pmmAllocPage s op.tables ∧
    ∃ ret, Pointer.run pmmAllocPage op s = some (s', ret)

section Runs

variable {P : Type} {pmmAllocPage : P → Option (Word × P)} {used : P → Word → Prop}
  {s s' : State P} {p₀ : P} {op : Op} {ops : List Op}

theorem boot_addressed (m : Mem) (hboot : ∀ e ∈ bootTables, used p₀ e.2) :
    Addressed used (bootState m p₀) :=
  ⟨bootState_sound m hboot, boot_identity m p₀, boot_reachable m p₀⟩

theorem Pointer.Step.addressed (ha : Supplies pmmAllocPage used) (h : Addressed used s)
    (hstep : Pointer.Step pmmAllocPage s op s') : Addressed used s' := by
  obtain ⟨hclear, hlow, ret, hrun⟩ := hstep
  obtain ⟨heq, haddressed⟩ := h.run ha hclear hlow
  rw [heq] at hrun
  exact haddressed s' ret hrun

theorem run_addressed (ha : Supplies pmmAllocPage used) (m : Mem)
    (hboot : ∀ e ∈ bootTables, used p₀ e.2)
    (hrun : Run (Pointer.Step pmmAllocPage) (bootState m p₀) ops s) : Addressed used s :=
  hrun.invariant (I := Addressed used) (fun _ _ _ h hstep => hstep.addressed ha h)
    (boot_addressed m hboot)

end Runs

/-! ## Clients -/

/-- A call by a client of the two managers, through pointers. -/
def Pointer.serve : Call → State Pool → Option (State Pool × Int)
  | .allocPage, s => s.pmm.allocPage.map fun r => ({ s with pmm := r.2 }, 0)
  | .mapPage virt phys flags, s => Pointer.vmmMapPage Pool.allocPage s virt phys flags
  | .mapRange virtStart physStart size flags, s =>
      Pointer.vmmMapRange Pool.allocPage s virtStart physStart size flags

section Clients

variable {b s : State Pool} {a a' : Pool} {n : ℕ} {c : Call}

theorem takePages_takes (h : takePages Pool.allocPage n a = some a') :
    ∃ xs, Takes a.free xs a'.free ∧ xs.length = n := by
  induction n generalizing a with
  | zero =>
      obtain rfl := Option.some.inj h
      exact ⟨[], .nil _, rfl⟩
  | succ n ih =>
      obtain ⟨⟨t, a₁⟩, halloc, h⟩ := Option.bind_eq_some_iff.mp h
      obtain ⟨page, -, hone⟩ := Pool.allocPage_takes halloc
      obtain ⟨xs, hrest, hlen⟩ := ih h
      exact ⟨page :: xs, hone.append hrest, by rw [List.length_cons, hlen]⟩

/-- A call that fits takes low pages, for the pool hands them out first. -/
theorem Call.Fits.takesLow (h : c.Fits s) : TakesLow Pool.allocPage s c.tables := by
  rintro a t a' ⟨n, hn, htakes⟩ halloc
  have hlt : n < (under s.pmm.free (identityTop / pageSize)).card := by
    exact_mod_cast hn.trans_le h
  obtain ⟨xs, hxs, hlen⟩ := takePages_takes htakes
  obtain ⟨page, ht, hone⟩ := Pool.allocPage_takes halloc
  have hlow := (hxs.append hone).lt_iff.mpr (by
    rw [List.length_append, List.length_singleton, hlen]
    exact hlt)
  exact (inIdentity_iff ht).mpr (hlow page (List.mem_append_right _ (List.mem_singleton_self page)))

theorem Unspoiled.addressed (h : Unspoiled b s) (hreach : TablesReachable s) :
    Addressed Pool.used s := ⟨h.sound, h.identity, hreach⟩

/-- **Clients are served through pointers as on physical memory** while the low pages
last. -/
theorem Unspoiled.serve (h : Unspoiled b s) (hreach : TablesReachable s) (hfits : c.Fits s)
    (hnames : ∀ v, c.names v → vmmIsMapped b v = false ∧ Canonical v) :
    Pointer.serve c s = c.run s := by
  have hs := h.addressed hreach
  have hlow := hfits.takesLow
  cases c with
  | allocPage => rfl
  | mapPage virt phys flags =>
      refine (hs.mapPage Pool.supplies (h.noHuge virt (hnames virt rfl).1) (hlow.mono ?_)
        phys flags).1
      exact fun p hp => ⟨virt, rfl, hp⟩
  | mapRange virtStart physStart size flags =>
      have hpages := rangePages_le size
      exact (hs.mapRangeFrom (j := 0) Pool.supplies (by omega) (fun v hv => (hnames v hv).2)
        (fun v hv => h.noHuge v (hnames v hv).1) hlow).1

end Clients

end VectorForth.Vmm
