import VectorForth.Memory.Pointers
import VectorForth.Vm.State

/-!
# The memory of the dictionary

`dict_init` takes one block of physical pages and maps the dictionary to it. The
interpreter works on flat memory; here that memory is the one that a store through
the page tables sees, and it stays so whatever else is allocated and mapped.
-/

namespace VectorForth.Vmm

open ByteMemory RadixTree LabelledRun
open Pmm (Pool bitmapTest)
open Forth (dictVirtBase dictSize)

/-! ## The mappings that the kernel makes -/

def pteNocache : Word := 0x10#64

def e1000VirtBase : Word := 0xFFFF8000F0000000#64

def e1000MmioSize : Word := 128#64 * 1024#64

/-- The mapping that `e1000_init` makes when `pci_init` has found a card. -/
def e1000Map (bar0 : BitVec 32) (s : State Pool) : Option (State Pool) :=
  if bar0 = 0#32 then some s
  else (vmmMapRange Pool.allocPage s e1000VirtBase (bar0.setWidth 64) e1000MmioSize
    (ptePresent ||| pteWritable ||| pteNocache)).map Prod.fst

/-- The address of byte `x` of the dictionary. -/
def dictAddr (x : Nat) : Word := BitVec.ofNat 64 dictVirtBase + BitVec.ofNat 64 x

/-- A store and a load through the page tables. -/
def storeByte (s : State Pool) (virt : Word) (c : BitVec 8) : State Pool :=
  { s with mem := write8 s.mem (vmmGetPhys s virt).toNat c }

def loadByte (s : State Pool) (virt : Word) : BitVec 8 := s.mem (vmmGetPhys s virt).toNat

/-- The `memset` of `dict_init`. -/
def clearDict (s : State Pool) : State Pool :=
  (List.range dictSize).foldl (fun s x => storeByte s (dictAddr x) 0#8) s

/-- `dict_init`, with the physical address it maps the dictionary to; none when it
panics. -/
def dictInit (s : State Pool) : Option (State Pool × Word) := do
  let (phys, pmm) ← s.pmm.allocPages (BitVec.ofNat 64 (dictSize / pageSize))
  if phys = 0#64 then none
  else
    let (s, ret) ← vmmMapRange Pool.allocPage { s with pmm := pmm } (BitVec.ofNat 64 dictVirtBase)
      phys (BitVec.ofNat 64 dictSize) (ptePresent ||| pteWritable)
    if ret ≠ 0 then none else some (clearDict s, phys)

/-! ## The dictionary is mapped -/

/-- The address lies in the dictionary. -/
def InDictSpace (v : Word) : Prop := dictVirtBase ≤ v.toNat ∧ v.toNat < dictVirtBase + dictSize

/-- The page belongs to the block from page `start` on. -/
def InBlock (start p : Nat) : Prop := start ≤ p ∧ p < start + dictSize / pageSize

/-- The tables, in a run from `b`: their pages are used. -/
structure Mapped (b s : State Pool) : Prop where
  unspoiled : Unspoiled b s
  marked : ∀ p t, Table s.mem (getPml4 s) p t → t.toNat / 4096 < s.pmm.pmm.totalPages →
    bitmapTest s.pmm.pmm (t.toNat / 4096) = true

/-- The dictionary is mapped to the block from page `start` on, and nothing else is there. -/
structure DictMapped (start : Nat) (b s : State Pool) : Prop extends Mapped b s where
  leaf : ∀ n < dictSize / pageSize, leafOf s.mem (getPml4 s)
    (rangePage (BitVec.ofNat 64 dictVirtBase) n) =
      some (pageEntry (rangePage (BitVec.ofNat 64 (start * 4096)) n)
        (ptePresent ||| pteWritable), [])
  held : ∀ p, InBlock start p → p < s.pmm.pmm.totalPages ∧ bitmapTest s.pmm.pmm p = true
  apart : ∀ p t, Table s.mem (getPml4 s) p t → ¬ InBlock start (t.toNat / 4096)

section Steps

variable {b s s' : State Pool} {c : Call} {names : Word → Prop} {start x y : Nat} {v w : Word}

theorem Mapped.served (h : Mapped b s) (hserved : Served names s s') (hs : Unspoiled b s') :
    Mapped b s' := by
  refine ⟨hs, ?_⟩
  intro p t ht hlt
  have htaken := hs.sound.taken p t ht
  rw [hserved.root] at ht
  rw [hserved.keeps.total] at hlt
  rcases hserved.fresh p t ht with hold | hnew
  · exact hserved.keeps.bits _ (h.marked p t hold hlt)
  · have hword := (Pmm.mem_freePages.mp hnew).1
    by_contra hclear
    refine htaken (Pmm.mem_freePages.mpr ⟨?_, by simpa using hclear⟩)
    rwa [hserved.keeps.total]

theorem dictPages_canonical {n : Nat} (hn : n < dictSize / pageSize) :
    Canonical (rangePage (BitVec.ofNat 64 dictVirtBase) n) ∧
      InDictSpace (rangePage (BitVec.ofNat 64 dictVirtBase) n) := by
  have hsize : dictSize / pageSize = 256 := by decide
  have hbase : (BitVec.ofNat 64 dictVirtBase).toNat = 0xFFFF800010000000 := by decide
  have hbase' : dictVirtBase = 0xFFFF800010000000 := rfl
  have hsize' : dictSize = 0x100000 := by decide
  have hpage := rangePage_toNat (BitVec.ofNat 64 dictVirtBase) n
  rw [hbase] at hpage
  constructor
  · right
    omega
  · unfold InDictSpace
    omega

/-- Another canonical address has other indices. -/
theorem dictPages_indices {n : Nat} (hn : n < dictSize / pageSize) (hv : Canonical v)
    (hout : ¬ InDictSpace v) :
    indices (rangePage (BitVec.ofNat 64 dictVirtBase) n) ≠ indices v := by
  intro heq
  have hsame := samePage_of_indices hv (dictPages_canonical hn).1 heq
  refine hout ?_
  have hsize : dictSize / pageSize = 256 := by decide
  have hbase : (BitVec.ofNat 64 dictVirtBase).toNat = 0xFFFF800010000000 := by decide
  have hbase' : dictVirtBase = 0xFFFF800010000000 := rfl
  have hsize' : dictSize = 0x100000 := by decide
  have hpage := rangePage_toNat (BitVec.ofNat 64 dictVirtBase) n
  rw [hbase] at hpage
  rw [SamePage, pageSize] at hsame
  unfold InDictSpace
  omega

/-- A call about other addresses leaves the dictionary where it is. -/
theorem DictMapped.served (h : DictMapped start b s) (hserved : Served names s s')
    (hs : Unspoiled b s') (hnames : ∀ v, names v → Canonical v ∧ ¬ InDictSpace v) :
    DictMapped start b s' := by
  refine ⟨h.toMapped.served hserved hs, ?_, ?_, ?_⟩
  · intro n hn
    rw [hserved.root, hserved.retranslated.others _ fun v hv =>
      dictPages_indices hn (hnames v hv).1 (hnames v hv).2]
    exact h.leaf n hn
  · intro p hp
    obtain ⟨hlt, hbit⟩ := h.held p hp
    exact ⟨hserved.keeps.total.symm ▸ hlt, hserved.keeps.bits p hbit⟩
  · intro p t ht hin
    rw [hserved.root] at ht
    rcases hserved.fresh p t ht with hold | hnew
    · exact h.apart p t hold hin
    · have hclear := (Pmm.mem_freePages.mp hnew).2
      rw [(h.held _ hin).2] at hclear
      cases hclear

/-- The physical addresses of the block lie in no table. -/
theorem DictMapped.outside (h : DictMapped start b s) (hx : x < dictSize) :
    ¬ InTables s.mem (getPml4 s) (start * 4096 + x) := by
  rintro ⟨p, t, ht, hlow, hhigh⟩
  have haligned := (h.unspoiled.sound.page p t ht).aligned
  have hsize : dictSize / pageSize = 256 := by decide
  have hsize' : dictSize = 0x100000 := by decide
  rw [pageSize] at hhigh
  refine h.apart p t ht ⟨by omega, by omega⟩

theorem DictMapped.start_le (h : DictMapped start b s) : start + dictSize / pageSize ≤ 2 ^ 20 := by
  have hsize : dictSize / pageSize = 256 := by decide
  have hlast := (h.held (start + 255) ⟨by omega, by omega⟩).1
  have hsmall := s.pmm.small
  omega

/-- **Byte `x` of the dictionary is byte `x` of the block.** -/
theorem DictMapped.phys (h : DictMapped start b s) (hx : x < dictSize) :
    (vmmGetPhys s (dictAddr x)).toNat = start * 4096 + x := by
  have hsize : dictSize / pageSize = 256 := by decide
  have hsize' : dictSize = 0x100000 := by decide
  have hstart := h.start_le
  have hbase : (BitVec.ofNat 64 dictVirtBase).toNat % pageSize = 0 := by decide
  have hblock : (BitVec.ofNat 64 (start * 4096)).toNat = start * 4096 := by
    rw [BitVec.toNat_ofNat]
    omega
  have hblock' : (BitVec.ofNat 64 (start * 4096)).toNat % pageSize = 0 := by
    rw [hblock, pageSize]
    omega
  have hflags : (ptePresent ||| pteWritable) &&& pteAddrMask = 0#64 := by decide
  have hpage : x / pageSize < dictSize / pageSize := by
    rw [hsize, pageSize]
    omega
  have hleaf : leafOf s.mem (getPml4 s) (dictAddr x) =
      some (pageEntry (rangePage (BitVec.ofNat 64 (start * 4096)) (x / pageSize))
        (ptePresent ||| pteWritable), []) := by
    rw [leafOf, dictAddr, (samePage_rangePage hbase).indices_eq]
    exact h.leaf _ hpage
  rw [vmmGetPhys_mapped hflags hleaf, dictAddr, rangePage_offset _ hbase hblock', hblock]
  omega

/-- A store to the dictionary changes one byte, outside the tables. -/
theorem DictMapped.storeByte (h : DictMapped start b s) (hx : x < dictSize) (c : BitVec 8) :
    DictMapped start b (storeByte s (dictAddr x) c) ∧
      ∀ v, vmmGetPhys (Vmm.storeByte s (dictAddr x) c) v = vmmGetPhys s v := by
  have hmem : ∀ y, InTables s.mem (getPml4 s) y →
      (Vmm.storeByte s (dictAddr x) c).mem y = s.mem y := by
    intro y hy
    have hne : y ≠ start * 4096 + x := by
      rintro rfl
      exact h.outside hx hy
    rw [Vmm.storeByte, h.phys hx]
    exact write8_outside hne
  have htables := h.unspoiled.sound
  have hleaf := htables.leafOf_congr hmem
  have hreach := same_of_tables htables hmem
  refine ⟨⟨⟨⟨htables.congr hmem, ?_, ?_⟩, ?_⟩, ?_, h.held, ?_⟩, ?_⟩
  · exact h.unspoiled.identity.congr rfl fun v _ => hleaf v
  · intro v hv e rest hfound
    exact h.unspoiled.noHuge v hv e rest ((hleaf v).symm.trans hfound)
  · exact fun p t ht => h.marked p t (hreach.reach_iff.mp ht)
  · exact fun n hn => (hleaf _).trans (h.leaf n hn)
  · exact fun p t ht => h.apart p t (hreach.reach_iff.mp ht)
  · exact fun v => vmmGetPhys_congr rfl (hleaf v)

end Steps

/-! ## Runs -/

/-- What happens beside the dictionary, and stores to it. -/
inductive Act
  | call (c : Call)
  | allocPages (count : Word)
  | store (x : Nat) (c : BitVec 8)

/-- Byte `x` of flat memory, `c` before. -/
def Act.writes (x : Nat) (c : BitVec 8) : Act → BitVec 8
  | store y c' => if y = x then c' else c
  | _ => c

/-- Calls are about canonical addresses outside the dictionary that were not mapped in
`b`, and the tables they meet and make are where the kernel can reach them. -/
inductive DictStep (b : State Pool) : State Pool → Act → State Pool → Prop
  | call {s s' : State Pool} {c : Call} {ret : Int} :
      (∀ v, c.names v → vmmIsMapped b v = false ∧ Canonical v ∧ ¬ InDictSpace v) →
      TablesReachable s → c.Fits s → Pointer.serve c s = some (s', ret) → DictStep b s (.call c) s'
  | allocPages {s : State Pool} {count t : Word} {a : Pool} :
      s.pmm.allocPages count = some (t, a) → DictStep b s (.allocPages count) { s with pmm := a }
  | store {s : State Pool} {x : Nat} {c : BitVec 8} : x < dictSize →
      DictStep b s (.store x c) (storeByte s (dictAddr x) c)

section Runs

variable {b s s' : State Pool} {a : Act} {as : List Act} {names : Word → Prop} {start x y : Nat}
  {count t v w : Word} {pool : Pool}

theorem Unspoiled.takePages (h : Unspoiled b s) (hkeeps : s.pmm.Keeps pool) :
    Unspoiled b { s with pmm := pool } := by
  refine ⟨⟨h.sound.tree, h.sound.page, ?_, h.sound.noGiant⟩, h.identity, h.noHuge⟩
  exact fun p t ht => hkeeps.used (h.sound.taken p t ht)

theorem served_takePages (s : State Pool) (hkeeps : s.pmm.Keeps pool) :
    Served (fun _ => False) s { s with pmm := pool } :=
  ⟨rfl, Retranslated.refl _ _ _, fun _ _ ht => Or.inl ht, hkeeps⟩

/-- The dictionary keeps its bytes while others are served. -/
theorem DictMapped.bytes (h : DictMapped start b s) (h' : DictMapped start b s')
    (hserved : Served names s s') (hx : x < dictSize) :
    loadByte s' (dictAddr x) = loadByte s (dictAddr x) := by
  rw [loadByte, loadByte, h.phys hx, h'.phys hx]
  by_contra hne
  refine h'.outside hx ?_
  rw [hserved.root]
  exact hserved.retranslated.within _ hne

/-- **One step**: the dictionary stays mapped and behaves as flat memory. -/
theorem DictMapped.step (h : DictMapped start b s) (hstep : DictStep b s a s') :
    DictMapped start b s' ∧
      ∀ x < dictSize, loadByte s' (dictAddr x) = a.writes x (loadByte s (dictAddr x)) := by
  cases hstep with
  | call hnames hreach hfits hrun =>
      rw [h.unspoiled.serve hreach hfits fun v hv => ⟨(hnames v hv).1, (hnames v hv).2.1⟩] at hrun
      obtain ⟨hs, hserved⟩ := Serves.served ⟨fun v hv => (hnames v hv).1, _, hrun⟩ h.unspoiled
        fun v hv => (hnames v hv).2.1
      have h' := h.served hserved hs fun v hv => (hnames v hv).2
      exact ⟨h', fun x hx => h.bytes h' hserved hx⟩
  | allocPages halloc =>
      have hkeeps := (Pool.allocPages_hands halloc).keeps
      have hserved := served_takePages s hkeeps
      have h' := h.served hserved (h.unspoiled.takePages hkeeps) fun v hv => hv.elim
      exact ⟨h', fun x hx => h.bytes h' hserved hx⟩
  | @store y c hy =>
      obtain ⟨h', -⟩ := h.storeByte hy c
      refine ⟨h', ?_⟩
      intro x hx
      rw [loadByte, loadByte, h.phys hx, h'.phys hx, Vmm.storeByte, h.phys hy, Act.writes]
      split
      · rename_i heq
        rw [heq]
        exact write8_same _ _ _
      · exact write8_outside (by omega)

/-- By induction on the run. -/
theorem DictMapped.run (hrun : Run (DictStep b) s as s') (h : DictMapped start b s) :
    DictMapped start b s' ∧
      ∀ x < dictSize, loadByte s' (dictAddr x) =
        as.foldl (Act.writes x) (loadByte s (dictAddr x)) := by
  induction hrun with
  | nil s => exact ⟨h, fun x hx => rfl⟩
  | cons hstep _ ih =>
      obtain ⟨h₁, hbytes⟩ := h.step hstep
      obtain ⟨h', hrest⟩ := ih h₁
      refine ⟨h', ?_⟩
      intro x hx
      rw [hrest x hx, hbytes x hx, List.foldl_cons]

theorem store_run (b s : State Pool) {l : List Nat} (hl : ∀ x ∈ l, x < dictSize) :
    Run (DictStep b) s (l.map fun x => .store x 0#8)
      (l.foldl (fun s x => storeByte s (dictAddr x) 0#8) s) := by
  induction l generalizing s with
  | nil => exact .nil s
  | cons x l ih =>
      exact .cons (.store (hl x (List.mem_cons_self ..)))
        (ih _ fun y hy => hl y (List.mem_cons_of_mem _ hy))

theorem writes_zeros {l : List Nat} (c : BitVec 8) (hx : x ∈ l ∨ c = 0#8) :
    (l.map fun x => Act.store x 0#8).foldl (Act.writes x) c = 0#8 := by
  induction l generalizing c with
  | nil =>
      rcases hx with hx | hx
      · cases hx
      · exact hx
  | cons y l ih =>
      rw [List.map_cons, List.foldl_cons]
      apply ih
      rcases hx with hx | rfl
      · rcases List.mem_cons.mp hx with rfl | hx
        · exact Or.inr (if_pos rfl)
        · exact Or.inl hx
      · right
        show (if y = x then 0#8 else 0#8) = 0#8
        exact ite_self _

/-- Translations are as before while the dictionary is cleared. -/
theorem DictMapped.clearDict (h : DictMapped start b s) : DictMapped start b (clearDict s) ∧
    (∀ x < dictSize, loadByte (Vmm.clearDict s) (dictAddr x) = 0#8) ∧
    (∀ v, vmmGetPhys (Vmm.clearDict s) v = vmmGetPhys s v) := by
  have hrange : ∀ x ∈ List.range dictSize, x < dictSize := fun x hx => List.mem_range.mp hx
  obtain ⟨h', hbytes⟩ := h.run (store_run b s hrange)
  refine ⟨h', ?_, ?_⟩
  · intro x hx
    exact (hbytes x hx).trans (writes_zeros _ (Or.inl (List.mem_range.mpr hx)))
  · unfold Vmm.clearDict
    generalize List.range dictSize = l at hrange
    intro v
    clear h' hbytes
    induction l generalizing s with
    | nil => rfl
    | cons x l ih =>
        obtain ⟨h₁, hphys⟩ := h.storeByte (hrange x (List.mem_cons_self ..)) 0#8
        exact (ih h₁ fun y hy => hrange y (List.mem_cons_of_mem _ hy)).trans (hphys v)

end Runs

/-! ## From boot -/

/-- What `kernel_main` does to the tables and the allocator until the interpreter
starts. -/
def bootDict (m : Mem) (a : Pool) (bar0 : BitVec 32) : Option (State Pool × Word) :=
  (e1000Map bar0 (bootState m a)).bind dictInit

section Boot

variable {m : Mem} {a : Pool} {b s s' : State Pool} {bar0 : BitVec 32} {phys v w : Word} {x : Nat}

theorem boot_mapped (m : Mem) (a : Pool) : Mapped (bootState m a) (bootState m a) := by
  refine ⟨boot_unspoiled m a, ?_⟩
  intro p t ht hlt
  rw [getPml4_bootState] at ht
  obtain ⟨hlow, hhigh, -⟩ := bootTables_range (bootTables_reach ht)
  have hbase : pml4Addr = 0x70000 := rfl
  exact a.reserved _ (by omega) hlt

theorem not_mapped_of_leafOf (h : leafOf (setupPaging m) 0x70000#64 v = none) :
    vmmIsMapped (bootState m a) v = false := by
  have hleaf : leafOf (bootState m a).mem (getPml4 (bootState m a)) v = none := by
    rw [getPml4_bootState]
    exact h
  rw [vmmIsMapped, vmmGetPhys_none hleaf]
  rfl

/-- The dictionary is not mapped at boot. -/
theorem boot_dict_unmapped (m : Mem) (a : Pool) (hv : InDictSpace v) :
    vmmIsMapped (bootState m a) v = false := by
  obtain ⟨hlow, hhigh⟩ := hv
  have hbase : dictVirtBase = 0xFFFF800010000000 := rfl
  have hsize : dictSize = 0x100000 := by decide
  have h39 : indexAt 39 v = 256 := Fin.ext (by show v.toNat / 2 ^ 39 % 512 = 256; omega)
  have h30 : indexAt 30 v = 0 := Fin.ext (by show v.toNat / 2 ^ 30 % 512 = 0; omega)
  have h21 : indexAt 21 v = 128 := Fin.ext (by show v.toNat / 2 ^ 21 % 512 = 128; omega)
  have hindices : indices v = [(0 : Index), 256].reverse ++ 128 :: [indexAt 12 v] := by
    rw [indices, h39, h30, h21]
    rfl
  apply not_mapped_of_leafOf
  rw [leafOf, hindices]
  exact bootTables_empty (t := 0x74000#64) (by decide) (by decide +kernel) rfl

def InMmio (v : Word) : Prop :=
  e1000VirtBase.toNat ≤ v.toNat ∧ v.toNat < e1000VirtBase.toNat + e1000MmioSize.toNat

/-- The addresses of the network card are not mapped at boot. -/
theorem boot_mmio_unmapped (m : Mem) (a : Pool) (hv : InMmio v) :
    vmmIsMapped (bootState m a) v = false := by
  obtain ⟨hlow, hhigh⟩ := hv
  have hbase : e1000VirtBase.toNat = 0xFFFF8000F0000000 := by decide
  have hsize : e1000MmioSize.toNat = 0x20000 := by decide
  have h39 : indexAt 39 v = 256 := Fin.ext (by show v.toNat / 2 ^ 39 % 512 = 256; omega)
  have h30 : indexAt 30 v = 3 := Fin.ext (by show v.toNat / 2 ^ 30 % 512 = 3; omega)
  have hindices : indices v = [(256 : Index)].reverse ++ 3 :: [indexAt 21 v, indexAt 12 v] := by
    rw [indices, h39, h30]
    rfl
  apply not_mapped_of_leafOf
  rw [leafOf, hindices]
  exact bootTables_empty (t := 0x73000#64) (by decide) (by decide +kernel) rfl

theorem mmio_names (hv : pagesFrom e1000VirtBase 0
    ((e1000MmioSize + 4096#64 - 1#64) / 4096#64).toNat v) : Canonical v ∧ InMmio v := by
  obtain ⟨n, -, hn, rfl⟩ := hv
  have hpages : ((e1000MmioSize + 4096#64 - 1#64) / 4096#64).toNat = 32 := by decide
  have hbase : e1000VirtBase.toNat = 0xFFFF8000F0000000 := by decide
  have hsize : e1000MmioSize.toNat = 0x20000 := by decide
  have hpage := rangePage_toNat e1000VirtBase n
  rw [hbase] at hpage
  constructor
  · right
    omega
  · unfold InMmio
    omega

theorem dict_names (hv : pagesFrom (BitVec.ofNat 64 dictVirtBase) 0
    ((BitVec.ofNat 64 dictSize + 4096#64 - 1#64) / 4096#64).toNat v) :
    Canonical v ∧ InDictSpace v := by
  obtain ⟨n, -, hn, rfl⟩ := hv
  have hpages : ((BitVec.ofNat 64 dictSize + 4096#64 - 1#64) / 4096#64).toNat =
      dictSize / pageSize := by decide
  exact dictPages_canonical (by omega)

/-- Other canonical addresses are translated as before. -/
theorem Served.others {names : Word → Prop} (h : Served names s s')
    (hnames : ∀ v, names v → Canonical v) (hw : Canonical w)
    (hother : ∀ v, names v → ¬ SamePage w v) (hcr : s'.cr3 = s.cr3) :
    vmmGetPhys s' w = vmmGetPhys s w := by
  refine vmmGetPhys_congr hcr (h.retranslated.others w ?_)
  intro v hv heq
  exact hother v hv (samePage_of_indices (hnames v hv) hw heq)

/-- What `dict_init` does where the dictionary is not mapped yet. -/
theorem dictInit_spec (h : Mapped b s) (hb : ∀ v, InDictSpace v → vmmIsMapped b v = false)
    (hrun : dictInit s = some (s', phys)) : ∃ start, phys.toNat = start * 4096 ∧
      Pmm.FreeRun s.pmm.pmm start (dictSize / pageSize) ∧ DictMapped start b s' ∧
      (∀ x < dictSize, loadByte s' (dictAddr x) = 0#8) ∧
      ∀ w, Canonical w → ¬ InDictSpace w → vmmGetPhys s' w = vmmGetPhys s w := by
  obtain ⟨⟨t, pool⟩, halloc, hrun⟩ := Option.bind_eq_some_iff.mp hrun
  dsimp only at hrun
  split at hrun
  · cases hrun
  obtain ⟨⟨s₁, ret⟩, hmap, hrun⟩ := Option.bind_eq_some_iff.mp hrun
  dsimp only at hrun
  split at hrun
  · cases hrun
  obtain ⟨rfl, rfl⟩ := Prod.mk.inj (Option.some.inj hrun)
  have hhands := Pool.allocPages_hands halloc
  have hcount : (BitVec.ofNat 64 (dictSize / pageSize)).toNat = dictSize / pageSize := by decide
  have hsize : dictSize / pageSize = 256 := by decide
  have haligned := hhands.aligned
  have hfree := hhands.free
  have htaken := hhands.taken
  rw [hcount] at hfree htaken
  have hstart : t.toNat = t.toNat / 4096 * 4096 := by omega
  generalize t.toNat / 4096 = start at hstart hfree htaken
  have ht : t = BitVec.ofNat 64 (start * 4096) := by
    rw [← hstart, BitVec.ofNat_toNat, BitVec.setWidth_eq]
  -- the block is taken, the tables are as before
  have h₀ : Mapped b { s with pmm := pool } :=
    h.served (served_takePages s hhands.keeps) (h.unspoiled.takePages hhands.keeps)
  have hheld : ∀ p, InBlock start p → p < pool.pmm.totalPages ∧ bitmapTest pool.pmm p = true := by
    rintro p ⟨h₁, h₂⟩
    exact ⟨hhands.keeps.total.symm ▸ (hfree p h₁ h₂).1, htaken p h₁ h₂⟩
  have hserves : Serves b { s with pmm := pool } (.mapRange (BitVec.ofNat 64 dictVirtBase) t
      (BitVec.ofNat 64 dictSize) (ptePresent ||| pteWritable)) s₁ :=
    ⟨fun v hv => hb v (dict_names hv).2, ret, hmap⟩
  obtain ⟨hs₁, hserved⟩ := hserves.served h₀.unspoiled fun v hv => (dict_names hv).1
  have hpages : ((BitVec.ofNat 64 dictSize + 4096#64 - 1#64) / 4096#64).toNat =
      dictSize / pageSize := by decide
  obtain ⟨-, hcr, -, -, hleaf⟩ := vmmMapRangeFrom_ok (j := 0) Pool.supplies
    (by rw [hpages, hsize]; decide) (fun v hv => (dict_names hv).1) h₀.unspoiled.sound
    (fun v hv => h₀.unspoiled.noHuge v (hb v (dict_names hv).2)) hmap
  have hmapped : DictMapped start b s₁ := by
    refine ⟨h₀.served hserved hs₁, ?_, ?_, ?_⟩
    · intro n hn
      rw [hserved.root, ← ht]
      exact hleaf n (Nat.zero_le _) (by rw [hpages, Nat.zero_add]; exact hn)
    · intro p hp
      obtain ⟨hlt, hbit⟩ := hheld p hp
      exact ⟨hserved.keeps.total.symm ▸ hlt, hserved.keeps.bits p hbit⟩
    · intro p u hu hin
      rw [hserved.root] at hu
      rcases hserved.fresh p u hu with hold | hnew
      · -- an old table: its page was used when the block was free
        have hbit := hfree _ hin.1 hin.2
        rw [h.marked p u hold hbit.1] at hbit
        cases hbit.2
      · have hclear := (Pmm.mem_freePages.mp hnew).2
        rw [(hheld _ hin).2] at hclear
        cases hclear
  obtain ⟨hcleared, hzero, hsame⟩ := hmapped.clearDict
  refine ⟨start, hstart, hfree, hcleared, hzero, ?_⟩
  intro w hw hout
  rw [hsame w]
  refine hserved.others (fun v hv => (dict_names hv).1) hw ?_ hcr
  rintro v ⟨n, -, hn, rfl⟩ hpage
  have hbase : (BitVec.ofNat 64 dictVirtBase).toNat = 0xFFFF800010000000 := by decide
  have hbase' : dictVirtBase = 0xFFFF800010000000 := rfl
  have hsize' : dictSize = 0x100000 := by decide
  have hnat := rangePage_toNat (BitVec.ofNat 64 dictVirtBase) n
  rw [hbase] at hnat
  rw [SamePage, pageSize] at hpage
  refine hout ?_
  unfold InDictSpace
  omega

/-- The step before: the card is mapped, or there is none. -/
theorem e1000Map_spec (hrun : e1000Map bar0 (bootState m a) = some s) :
    Mapped (bootState m a) s ∧ a.Keeps s.pmm ∧
      (bar0 ≠ 0#32 → bar0.toNat % pageSize = 0 → ∀ x < e1000MmioSize.toNat,
        (vmmGetPhys s (e1000VirtBase + BitVec.ofNat 64 x)).toNat = bar0.toNat + x) ∧
      ∀ w, Canonical w → (bar0 ≠ 0#32 → ¬ InMmio w) →
        vmmGetPhys s w = vmmGetPhys (bootState m a) w := by
  have hboot := boot_mapped m a
  unfold e1000Map at hrun
  split at hrun
  · rename_i hnone
    obtain rfl := Option.some.inj hrun
    exact ⟨hboot, Pool.Keeps.refl a, fun hne => absurd hnone hne, fun _ _ _ => rfl⟩
  · rename_i hcard
    obtain ⟨⟨s₁, ret⟩, hmap, rfl⟩ := Option.map_eq_some_iff.mp hrun
    have hunmapped := fun v hv => boot_mmio_unmapped m a (mmio_names (v := v) hv).2
    have hserves : Serves (bootState m a) (bootState m a) (.mapRange e1000VirtBase
        (bar0.setWidth 64) e1000MmioSize (ptePresent ||| pteWritable ||| pteNocache)) s₁ :=
      ⟨hunmapped, ret, hmap⟩
    obtain ⟨hs, hserved⟩ := hserves.served hboot.unspoiled fun v hv => (mmio_names hv).1
    have hclear : (Op.mapRange e1000VirtBase (bar0.setWidth 64) e1000MmioSize
        (ptePresent ||| pteWritable ||| pteNocache)).Clear (bootState m a) :=
      fun v hv => ⟨(mmio_names hv).1, hboot.unspoiled.noHuge v (hunmapped v hv)⟩
    obtain ⟨-, hcr, -, -⟩ := run_ok Pool.supplies hboot.unspoiled.sound hclear hmap
    have hbase : e1000VirtBase.toNat = 0xFFFF8000F0000000 := by decide
    have hsize : e1000MmioSize.toNat = 0x20000 := by decide
    have hlt := bar0.isLt
    have hbar : (bar0.setWidth 64).toNat = bar0.toNat := by
      rw [BitVec.toNat_setWidth]
      omega
    refine ⟨hboot.served hserved hs, hserved.keeps, ?_, ?_⟩
    · intro _ haligned x hx
      have hargs : (Op.mapRange e1000VirtBase (bar0.setWidth 64) e1000MmioSize
          (ptePresent ||| pteWritable ||| pteNocache)).Args := by
        refine ⟨by decide, ?_, by decide, by decide⟩
        rwa [hbar]
      have hmaps := run_maps Pool.supplies hboot.unspoiled.sound hclear hargs hmap
      have hx' := hmaps x hx
      rw [hbar] at hx'
      rw [hx']
      omega
    · intro w hw hout
      refine hserved.others (fun v hv => (mmio_names hv).1) hw ?_ hcr
      rintro v ⟨n, -, hn, rfl⟩ hpage
      have hpages : ((e1000MmioSize + 4096#64 - 1#64) / 4096#64).toNat = 32 := by decide
      have hnat := rangePage_toNat e1000VirtBase n
      rw [hbase] at hnat
      rw [SamePage, pageSize] at hpage
      refine hout hcard ?_
      unfold InMmio
      omega

/-- The block lies apart from the memory in live use. -/
theorem block_clear {old : Nat → BitVec 8} {mmap : List Pmm.E820Entry} {start : Nat}
    (hkeeps : (Pool.booted old mmap).Keeps s.pmm)
    (hfree : Pmm.FreeRun s.pmm.pmm start (dictSize / pageSize)) :
    Pmm.Clear (Pmm.booted old mmap).totalPages [⟨start * 4096, dictSize / pageSize⟩] := by
  have hsize : dictSize / pageSize = 256 := by decide
  have hrun : Pmm.FreeRun (Pmm.booted old mmap) start (dictSize / pageSize) := by
    intro p h₁ h₂
    obtain ⟨hlt, hbit⟩ := hfree p h₁ h₂
    rw [hkeeps.total, Pool.booted_pmm] at hlt
    refine ⟨hlt, ?_⟩
    by_contra hset
    have hkept := hkeeps.bits p (by rw [Pool.booted_pmm]; simpa using hset)
    rw [hbit] at hkept
    cases hkept
  rw [hsize] at hrun ⊢
  refine Pmm.clear_of_freeRun hrun fun _ => ?_
  by_contra hlow
  -- such a block would hold the first page of the kernel
  obtain ⟨hfirst, hbit⟩ := hrun start (le_refl _) (by omega)
  have hstart : ¬ start < 0x80 := fun h => (Pmm.outside_of_free hfirst hbit).1 (Or.inl h)
  obtain ⟨hlt, hbit'⟩ := hrun 0x100 (by omega) (by omega)
  exact (Pmm.outside_of_free hlt hbit').1 (Or.inr (Or.inl ⟨le_refl _, by decide⟩))

end Boot

/-- **The kernel gives the dictionary memory of its own.** On every machine on which
`dict_init` does not panic, the dictionary is mapped byte for byte to a block of
zeros that meets no live region and no page table. The registers of the network card, if
there is one and its BAR0 is page-aligned, are mapped in order, and all other addresses as
`setup_paging` has left them. -/
theorem dict_space {old : Nat → BitVec 8} {mmap : List Pmm.E820Entry} {m : Mem} {bar0 : BitVec 32}
    {s : State Pool} {phys : Word}
    (hrun : bootDict m (Pool.booted old mmap) bar0 = some (s, phys)) :
    (∀ x < dictSize, (vmmGetPhys s (dictAddr x)).toNat = phys.toNat + x ∧
      loadByte s (dictAddr x) = 0#8) ∧
    Pmm.Clear (Pmm.booted old mmap).totalPages [⟨phys.toNat, dictSize / pageSize⟩] ∧
    (∀ p t, Table s.mem (getPml4 s) p t →
      t.toNat + pageSize ≤ phys.toNat ∨ phys.toNat + dictSize ≤ t.toNat) ∧
    (bar0 ≠ 0#32 → bar0.toNat % pageSize = 0 → ∀ x < e1000MmioSize.toNat,
      (vmmGetPhys s (e1000VirtBase + BitVec.ofNat 64 x)).toNat = bar0.toNat + x) ∧
    ∀ w, Canonical w → ¬ InDictSpace w → (bar0 ≠ 0#32 → ¬ InMmio w) →
      vmmGetPhys s w = vmmGetPhys (bootState m (Pool.booted old mmap)) w := by
  obtain ⟨s₁, hcard, hdict⟩ := Option.bind_eq_some_iff.mp hrun
  obtain ⟨hmapped₁, hkeeps, hmmio, hothers₁⟩ := e1000Map_spec hcard
  obtain ⟨start, hphys, hfree, hmapped, hzero, hothers⟩ :=
    dictInit_spec hmapped₁ (fun v hv => boot_dict_unmapped m _ hv) hdict
  refine ⟨?_, ?_, ?_, ?_, ?_⟩
  · intro x hx
    rw [hmapped.phys hx, hphys]
    exact ⟨rfl, hzero x hx⟩
  · rw [hphys]
    exact block_clear hkeeps hfree
  · intro p t ht
    have haligned := (hmapped.unspoiled.sound.page p t ht).aligned
    have hapart := hmapped.apart p t ht
    have hsize : dictSize / pageSize = 256 := by decide
    have hsize' : dictSize = 0x100000 := by decide
    unfold InBlock at hapart
    rw [hphys, pageSize]
    omega
  · intro hne haligned x hx
    have hbase : e1000VirtBase.toNat = 0xFFFF8000F0000000 := by decide
    have hsize : e1000MmioSize.toNat = 0x20000 := by decide
    have haddr : (e1000VirtBase + BitVec.ofNat 64 x).toNat = 0xFFFF8000F0000000 + x := by
      rw [BitVec.toNat_add, BitVec.toNat_ofNat, hbase]
      omega
    have hbase' : dictVirtBase = 0xFFFF800010000000 := rfl
    have hsize' : dictSize = 0x100000 := by decide
    rw [hothers _ (Or.inr (by omega)) (by unfold InDictSpace; omega)]
    exact hmmio hne haligned x hx
  · intro w hw hdict hcard
    rw [hothers w hw hdict]
    exact hothers₁ w hw hcard

/-- **The dictionary is flat memory of its own**, whatever is allocated later and mapped
elsewhere with tables in low memory: it holds what was last stored in it, no page of it is
handed out, and no store to it changes a translation. -/
theorem dict_space_kept {old : Nat → BitVec 8} {mmap : List Pmm.E820Entry} {m : Mem}
    {bar0 : BitVec 32} {s s' : State Pool} {phys : Word} {as : List Act}
    (hboot : bootDict m (Pool.booted old mmap) bar0 = some (s, phys))
    (hrun : Run (DictStep (bootState m (Pool.booted old mmap))) s as s') :
    (∀ x < dictSize, (vmmGetPhys s' (dictAddr x)).toNat = phys.toNat + x ∧
      loadByte s' (dictAddr x) = as.foldl (Act.writes x) 0#8) ∧
    (∀ count t a, s'.pmm.allocPage = some (t, a) ∧ count = 1 ∨
        (∃ n, s'.pmm.allocPages n = some (t, a) ∧ count = n.toNat) → 0 < count →
      t.toNat + count * pageSize ≤ phys.toNat ∨ phys.toNat + dictSize ≤ t.toNat) ∧
    ∀ x < dictSize, ∀ c v, vmmGetPhys (storeByte s' (dictAddr x) c) v = vmmGetPhys s' v := by
  obtain ⟨s₁, hcard, hdict⟩ := Option.bind_eq_some_iff.mp hboot
  obtain ⟨hmapped₁, -, -, -⟩ := e1000Map_spec hcard
  obtain ⟨start, hphys, -, hmapped, hzero, -⟩ :=
    dictInit_spec hmapped₁ (fun v hv => boot_dict_unmapped m _ hv) hdict
  obtain ⟨hmapped', hbytes⟩ := hmapped.run hrun
  refine ⟨?_, ?_, ?_⟩
  · intro x hx
    rw [hmapped'.phys hx, hphys, hbytes x hx, hzero x hx]
    exact ⟨rfl, rfl⟩
  · intro count t a halloc hcount
    have hhands : s'.pmm.Hands a t count := by
      rcases halloc with ⟨halloc, rfl⟩ | ⟨n, halloc, rfl⟩
      · exact Pool.allocPage_hands halloc
      · exact Pool.allocPages_hands halloc
    have haligned := hhands.aligned
    have hsize : dictSize / pageSize = 256 := by decide
    have hsize' : dictSize = 0x100000 := by decide
    rw [hphys, pageSize]
    by_contra hmeets
    -- a page in both is used and was free
    obtain ⟨p, h₁, h₂, h₃, h₄⟩ : ∃ p, t.toNat / 4096 ≤ p ∧ p < t.toNat / 4096 + count ∧
        start ≤ p ∧ p < start + 256 := by
      rcases Nat.le_total (t.toNat / 4096) start with hle | hle
      · exact ⟨start, hle, by omega, le_refl _, by omega⟩
      · exact ⟨t.toNat / 4096, le_refl _, by omega, hle, by omega⟩
    have hbit := (hhands.free p h₁ h₂).2
    rw [(hmapped'.held p ⟨h₃, by omega⟩).2] at hbit
    cases hbit
  · exact fun x hx c v => (hmapped'.storeByte hx c).2 v

/-! ## A machine with 128 MB -/

/-- A range is mapped while there are three free pages for each of its pages. -/
theorem mapRangeFrom_some {b : State Pool} {vs ps flags : Word} {k j : Nat} {s : State Pool}
    (h : Unspoiled b s) (hv : ∀ w, pagesFrom vs j k w → vmmIsMapped b w = false)
    (hfree : 3 * k ≤ s.pmm.free.card) :
    ∃ s', vmmMapRangeFrom Pool.allocPage vs ps flags k (BitVec.ofNat 64 j) s = some (s', 0) := by
  induction k generalizing j s with
  | zero => exact ⟨s, rfl⟩
  | succ k ih =>
      have hhere : pagesFrom vs j (k + 1) (rangePage vs j) := ⟨j, le_refl j, by omega, rfl⟩
      obtain ⟨s₁, ret, hpage⟩ := vmmMapPage_some pool_alloc_some (rangePage vs j) (rangePage ps j)
        flags (show 3 ≤ s.pmm.free.card by omega)
      obtain ⟨rfl, h₁, xs, hspends⟩ := mapPage_serves h (hv _ hhere) hpage
      have hthree : (xs.length : ℕ∞) ≤ 3 := by
        rw [hspends.count]
        exact (Set.encard_le_encard Set.sdiff_subset).trans (tablesFor_encard _)
      have hlen : xs.length ≤ 3 := by exact_mod_cast hthree
      have hcard := hspends.spent.card
      obtain ⟨s', hrest⟩ := ih (j := j + 1) h₁ (fun w ⟨n, hn, hlt, hw⟩ =>
        hv w ⟨n, by omega, by omega, hw⟩) (by omega)
      refine ⟨s', ?_⟩
      rw [vmmMapRangeFrom]
      refine Option.bind_eq_some_iff.mpr ⟨(s₁, 0), hpage, ?_⟩
      dsimp only
      rw [if_neg (fun hne => hne rfl), ← BitVec.ofNat_add]
      exact hrest

/-- A block leaves the other free pages. -/
theorem free_after_block {a a' : Pool} {t count : Word} (h : a.allocPages count = some (t, a')) :
    a.free.card ≤ a'.free.card + count.toNat := by
  have hhands := Pool.allocPages_hands h
  have honly := fun p hp => Pool.allocPages_only h (p := p) hp
  have hsub : a.free ⊆ a'.free ∪ Finset.Ico (t.toNat / 4096) (t.toNat / 4096 + count.toNat) := by
    intro p hp
    obtain ⟨hlt, hclear⟩ := Pmm.mem_freePages.mp hp
    rw [Finset.mem_union, Finset.mem_Ico]
    by_contra hnot
    push Not at hnot
    refine hnot.1 (Pmm.mem_freePages.mpr ⟨?_, ?_⟩)
    · rwa [hhands.keeps.total]
    · rw [← Bool.not_eq_true]
      intro hset
      rcases honly p hset with hold | ⟨h₁, h₂⟩
      · rw [hclear] at hold
        cases hold
      · exact absurd (hnot.2 h₁) (Nat.not_le.mpr h₂)
  refine (Finset.card_le_card hsub).trans ((Finset.card_union_le _ _).trans ?_)
  rw [Nat.card_Ico]
  omega

/-- `dict_init` succeeds where a block is free and pages for the tables are left. -/
theorem dictInit_some {b s : State Pool} (h : Mapped b s)
    (hb : ∀ v, InDictSpace v → vmmIsMapped b v = false) {start : Nat}
    (hfree : Pmm.FreeRun s.pmm.pmm start (dictSize / pageSize))
    (hroom : 4 * (dictSize / pageSize) ≤ s.pmm.free.card) :
    ∃ s' phys, dictInit s = some (s', phys) := by
  have hsize : dictSize / pageSize = 256 := by decide
  have hcount : (BitVec.ofNat 64 (dictSize / pageSize)).toNat = dictSize / pageSize := by decide
  have hpages : ((BitVec.ofNat 64 dictSize + 4096#64 - 1#64) / 4096#64).toNat =
      dictSize / pageSize := by decide
  obtain ⟨t, pool, halloc⟩ := Pool.allocPages_some (a := s.pmm)
    (by rw [hcount, hsize]; decide : 1 ≤ (BitVec.ofNat 64 (dictSize / pageSize)).toNat)
    (by rwa [hcount])
  have hhands := Pool.allocPages_hands halloc
  have hleft := free_after_block halloc
  rw [hcount] at hleft
  have hne : t ≠ 0#64 := by
    rintro rfl
    obtain ⟨hlt, hbit⟩ := hhands.free 0 (Nat.zero_le _) (by rw [hcount, hsize]; decide)
    rw [s.pmm.reserved 0 (by decide) hlt] at hbit
    cases hbit
  have hroom' : 3 * ((BitVec.ofNat 64 dictSize + 4096#64 - 1#64) / 4096#64).toNat ≤
      pool.free.card := by
    rw [hpages]
    omega
  obtain ⟨s₁, hmap⟩ : ∃ s₁, vmmMapRange Pool.allocPage { s with pmm := pool }
      (BitVec.ofNat 64 dictVirtBase) t (BitVec.ofNat 64 dictSize) (ptePresent ||| pteWritable) =
        some (s₁, 0) :=
    mapRangeFrom_some (j := 0) (h.unspoiled.takePages hhands.keeps)
      (fun v hv => hb v (dict_names hv).2) hroom'
  refine ⟨clearDict s₁, t, ?_⟩
  refine Option.bind_eq_some_iff.mpr ⟨(t, pool), halloc, ?_⟩
  dsimp only
  rw [if_neg hne]
  refine Option.bind_eq_some_iff.mpr ⟨(s₁, 0), hmap, ?_⟩
  dsimp only
  rw [if_neg (fun hret => hret rfl)]

theorem sample_bootDict : ∃ s phys,
    bootDict (fun _ => 0#8) (Pool.booted (fun _ => 0#8) Pmm.sampleMap) 0#32 = some (s, phys) := by
  have hfreed : ∀ p, 0x400 ≤ p → p < 0x8000 →
      p ∈ (Pool.booted (fun _ => 0#8) Pmm.sampleMap).free :=
    fun p h₁ h₂ => Pool.booted_free _ (Or.inr ⟨h₁, h₂⟩)
  generalize Pool.booted (fun _ => 0#8) Pmm.sampleMap = a at *
  have hsize : dictSize / pageSize = 256 := by decide
  have hpool : (bootState (fun _ => 0#8) a).pmm = a := rfl
  have hblock : Pmm.FreeRun a.pmm 0x400 (dictSize / pageSize) := by
    rw [hsize]
    intro p h₁ h₂
    obtain ⟨hlt, hclear⟩ := Pmm.mem_freePages.mp (hfreed p h₁ (by omega))
    exact ⟨by omega, hclear⟩
  have hsub : Finset.Ico 0x400 0x8000 ⊆ a.free := by
    intro p hp
    obtain ⟨h₁, h₂⟩ := Finset.mem_Ico.mp hp
    exact hfreed p h₁ h₂
  have hcard := Finset.card_le_card hsub
  rw [Nat.card_Ico] at hcard
  have hroom : 4 * (dictSize / pageSize) ≤ a.free.card := by
    rw [hsize]
    omega
  rw [← hpool] at hblock hroom
  obtain ⟨s, phys, hdict⟩ := dictInit_some (boot_mapped (fun _ => 0#8) a)
    (fun v hv => boot_dict_unmapped _ _ hv) hblock hroom
  refine ⟨s, phys, ?_⟩
  rw [bootDict, e1000Map, if_pos rfl, Option.bind_some]
  exact hdict

theorem dict_space_sample : ∃ (s : State Pool) (phys : Word),
    (∀ x < dictSize, (vmmGetPhys s (dictAddr x)).toNat = phys.toNat + x) ∧
      Pmm.Clear (Pmm.booted (fun _ => 0#8) Pmm.sampleMap).totalPages
        [⟨phys.toNat, dictSize / pageSize⟩] := by
  obtain ⟨s, phys, hboot⟩ := sample_bootDict
  obtain ⟨hbytes, hclear, -⟩ := dict_space hboot
  exact ⟨s, phys, fun x hx => (hbytes x hx).1, hclear⟩

/-- The dictionary after 7 has been stored in its third byte. -/
theorem dict_space_kept_sample : ∃ s, loadByte s (dictAddr 2) = 7#8 ∧
    loadByte s (dictAddr 3) = 0#8 := by
  obtain ⟨s, phys, hboot⟩ := sample_bootDict
  have hin : 2 < dictSize := by decide
  have hin' : 3 < dictSize := by decide
  have hrun : Run (DictStep sampleBoot) s [.store 2 7#8] (storeByte s (dictAddr 2) 7#8) :=
    .cons (.store hin) (.nil _)
  obtain ⟨hbytes, -⟩ := dict_space_kept hboot hrun
  exact ⟨_, (hbytes 2 hin).2, (hbytes 3 hin').2⟩

end VectorForth.Vmm
