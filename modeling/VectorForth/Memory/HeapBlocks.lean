import VectorForth.Lib.BlockList
import VectorForth.Memory.Heap

/-!
# The heap as a block list

The headers in memory describe a list of blocks (`Chained`), and the loops of
`heap.c` compute on that list: `kmalloc` is first fit and `carve`, `kfree` is
`coalesce`. Each loop writes into headers of free blocks only.
-/

namespace VectorForth.Heap

open ByteMemory BlockList

def headerSize : Nat := 32
def minBlock : Nat := 64

/-- The header at `a` describes `b`, and its link is `link`. -/
structure HeaderAt (m : Mem) (a : Nat) (b : Block) (link : Nat) : Prop where
  size : read64 m a = b.size
  next : read64 m (a + 8) = link
  magic : read64 m (a + 16) = heapMagic.toNat
  free : m (a + 24) = if b.free then 1#8 else 0#8

/-- The link to blocks that start at `a`; `z` when there are none. -/
def linkTo (bs : List Block) (a z : Nat) : Nat :=
  match bs with
  | [] => z
  | _ :: _ => a

/-- The blocks lie one after the other from `a` on, linked in this order; the last
link is `z`. -/
def Chained (m : Mem) (z : Nat) : Nat → List Block → Prop
  | _, [] => True
  | a, b :: bs =>
      HeaderAt m a b (linkTo bs (a + (headerSize + b.size)) z) ∧
        Chained m z (a + (headerSize + b.size)) bs

section Chained

variable {m m' : Mem} {z a n : Nat} {b c : Block} {bs post : List Block}

theorem linkTo_append (xs ys : List Block) (a : Nat) :
    linkTo (xs ++ ys) a z = linkTo xs a (linkTo ys a z) := by
  cases xs with
  | nil => rfl
  | cons x xs => rfl

theorem linkTo_lt (ha : a < n) (hz : z < n) : linkTo bs a z < n := by
  cases bs with
  | nil => exact hz
  | cons b bs => exact ha

theorem chained_append (xs ys : List Block) (a : Nat) :
    Chained m z a (xs ++ ys) ↔ Chained m (linkTo ys (a + span headerSize xs) z) a xs ∧
      Chained m z (a + span headerSize xs) ys := by
  induction xs generalizing a with
  | nil => exact ⟨fun h => ⟨trivial, h⟩, fun h => h.2⟩
  | cons x xs ih =>
      rw [List.cons_append, Chained, Chained, ih, span, linkTo_append,
        ← Nat.add_assoc a (headerSize + x.size), and_assoc]
      cases xs with
      | nil => rfl
      | cons y xs => rfl

/-- Only the header bytes matter. -/
theorem HeaderAt.congr {link : Nat} (h : HeaderAt m a b link)
    (hm : ∀ x, a ≤ x → x < a + headerSize → m' x = m x) : HeaderAt m' a b link := by
  have hsize : headerSize = 32 := rfl
  have hread : ∀ o, o + 8 ≤ headerSize → read64 m' (a + o) = read64 m (a + o) :=
    fun o ho => read64_congr fun x h₁ h₂ => hm x (by omega) (by omega)
  exact ⟨(hread 0 (by omega)).trans h.size, (hread 8 (by omega)).trans h.next,
    (hread 16 (by omega)).trans h.magic, (hm _ (by omega) (by omega)).trans h.free⟩

/-- So the payloads in use may be written, and whatever is outside. -/
theorem Chained.congr (h : Chained m z a bs)
    (hm : ∀ x, a ≤ x → x < a + span headerSize bs →
      (∀ p ∈ payloads headerSize a bs, ¬ (p.1 ≤ x ∧ x < p.1 + p.2)) → m' x = m x) :
    Chained m' z a bs := by
  induction bs generalizing a with
  | nil => trivial
  | cons b bs ih =>
      obtain ⟨hhead, hrest⟩ := h
      have hspan : span headerSize (b :: bs) = headerSize + b.size + span headerSize bs := rfl
      constructor
      · refine hhead.congr ?_
        intro x h₁ h₂
        refine hm x h₁ (by omega) ?_
        intro p hp
        have hbound := (payload_bounds hp).1
        omega
      · refine ih hrest ?_
        intro x h₁ h₂ hx
        refine hm x (by omega) (by omega) ?_
        intro p hp
        rw [payloads] at hp
        split at hp
        · exact hx p hp
        · rcases List.mem_cons.mp hp with rfl | hp
          · dsimp only
            omega
          · exact hx p hp

end Chained

/-! ## Reading and writing headers -/

section Fields

variable {m : Mem} {a k link : Nat} {b : Block} {v : Word}

theorem ofNat_add_toNat (h : a + k < 2 ^ 64) :
    (BitVec.ofNat 64 a + BitVec.ofNat 64 k).toNat = a + k := by
  rw [← BitVec.ofNat_add, BitVec.toNat_ofNat, Nat.mod_eq_of_lt h]

theorem ofNat_toNat (h : a < 2 ^ 64) : (BitVec.ofNat 64 a).toNat = a := by
  rw [BitVec.toNat_ofNat, Nat.mod_eq_of_lt h]

theorem setSize_at (h : a < 2 ^ 64) : setSize m (BitVec.ofNat 64 a) v = write64 m a v.toNat := by
  rw [setSize, setWord, ofNat_toNat h]

theorem setNext_at (h : a + 8 < 2 ^ 64) :
    setNext m (BitVec.ofNat 64 a) v = write64 m (a + 8) v.toNat := by
  rw [setNext, setWord, ofNat_add_toNat h]

theorem setMagic_at (h : a + 16 < 2 ^ 64) :
    setMagic m (BitVec.ofNat 64 a) v = write64 m (a + 16) v.toNat := by
  rw [setMagic, setWord, ofNat_add_toNat h]

theorem setFree_at {f : Byte} (h : a + 24 < 2 ^ 64) :
    setFree m (BitVec.ofNat 64 a) f = write8 m (a + 24) f := by
  rw [setFree, ofNat_add_toNat h]

/-- The fields as the C code reads them. -/
structure Fields (m : Mem) (block : Word) (b : Block) (link : Nat) : Prop where
  size : size m block = BitVec.ofNat 64 b.size
  next : next m block = BitVec.ofNat 64 link
  magic : magic m block = heapMagic
  free : free m block ≠ 0#8 ↔ b.free = true

theorem HeaderAt.fields (h : HeaderAt m a b link) (ha : a + headerSize < 2 ^ 64) :
    Fields m (BitVec.ofNat 64 a) b link := by
  have hsize : headerSize = 32 := rfl
  constructor
  case size => rw [Heap.size, word, ofNat_toNat (by omega), h.size]
  case next => rw [Heap.next, word, ofNat_add_toNat (by omega), h.next]
  case magic =>
    rw [Heap.magic, word, ofNat_add_toNat (by omega), h.magic, BitVec.ofNat_toNat,
      BitVec.setWidth_eq]
  case free =>
    rw [Heap.free, ofNat_add_toNat (by omega), h.free]
    cases b.free with
    | false => simp
    | true => simp

/-- A header whose size and link are written anew. -/
theorem HeaderAt.relink {size' link' : Nat} (h : HeaderAt m a b link) (hsize : size' < 2 ^ 64)
    (hlink : link' < 2 ^ 64) :
    HeaderAt (write64 (write64 m a size') (a + 8) link') a { b with size := size' } link' := by
  constructor
  case size => rw [read64_write64_of_disjoint (Or.inl (Nat.le_refl _)), read64_write64_of_lt hsize]
  case next => exact read64_write64_of_lt hlink
  case magic =>
    rw [read64_write64_of_disjoint (by omega), read64_write64_of_disjoint (by omega), h.magic]
  case free => rw [write64_outside (by omega), write64_outside (by omega), h.free]

/-- A header that is marked free or in use. -/
theorem HeaderAt.setFree {f : Bool} (h : HeaderAt m a b link) :
    HeaderAt (write8 m (a + 24) (if f then 1#8 else 0#8)) a { b with free := f } link := by
  constructor
  case size => rw [read64_write8_of_disjoint (by omega), h.size]
  case next => rw [read64_write8_of_disjoint (by omega), h.next]
  case magic => rw [read64_write8_of_disjoint (by omega), h.magic]
  case free => exact write8_same ..

/-- The header that `heap_split` writes. -/
theorem headerAt_new {n : Nat} (m : Mem) (a : Nat) (hn : n < 2 ^ 64) (hlink : link < 2 ^ 64) :
    HeaderAt (write8 (write64 (write64 (write64 m a n) (a + 8) link) (a + 16) heapMagic.toNat)
      (a + 24) 1#8) a ⟨n, true⟩ link := by
  constructor
  case size =>
    rw [read64_write8_of_disjoint (by omega), read64_write64_of_disjoint (by omega),
      read64_write64_of_disjoint (by omega), read64_write64_of_lt hn]
  case next =>
    rw [read64_write8_of_disjoint (by omega), read64_write64_of_disjoint (by omega),
      read64_write64_of_lt hlink]
  case magic =>
    rw [read64_write8_of_disjoint (by omega), read64_write64_of_lt heapMagic.isLt]
  case free => exact write8_same ..

end Fields

/-! ## `kmalloc` -/

section Alloc

variable {s : State} {m : Mem} {z a p fuel : Nat} {b : Block} {bs post : List Block} {n : Word}

/-- The block that `kmalloc` has found is split and put to use. -/
def takeBlock (s : State) (n block : Word) : State × Word :=
  let m := setFree (heapSplit s.mem block n) block 0#8
  ({ s with mem := m, heapUsed := s.heapUsed + size m block }, block + heapHeaderSize)

theorem fits_iff {link : Nat} {block : Word} (h : Fields m block b link) (hb : b.size < 2 ^ 64) :
    (free m block ≠ 0#8 ∧ n ≤ size m block) ↔ fits n.toNat b = true := by
  rw [h.free, h.size, fits, Bool.and_eq_true, decide_eq_true_eq, BitVec.le_def, ofNat_toNat hb]

/-- The loop finds the first block that fits. -/
theorem kmallocFrom_eq (h : Chained s.mem 0 a bs) (ha : 0 < a)
    (hend : a + span headerSize bs < 2 ^ 64) (hfuel : bs.length < fuel) (n : Word) :
    kmallocFrom s n fuel (BitVec.ofNat 64 (linkTo bs a 0)) =
      match firstFit n.toNat bs with
      | none => .error (.panic "Heap: Out of memory!")
      | some (pre, _, _) => .ok (takeBlock s n (BitVec.ofNat 64 (a + span headerSize pre))) := by
  induction bs generalizing a fuel with
  | nil =>
      cases fuel with
      | zero => cases hfuel
      | succ fuel => rw [kmallocFrom, linkTo, if_pos rfl, firstFit]
  | cons b bs ih =>
      obtain ⟨hhead, hrest⟩ := h
      have hspan : span headerSize (b :: bs) = headerSize + b.size + span headerSize bs := rfl
      have hsize : headerSize = 32 := rfl
      have hfields := hhead.fields (by omega)
      have hne : BitVec.ofNat 64 a ≠ 0#64 := by
        intro h0
        have h0 := congrArg BitVec.toNat h0
        rw [ofNat_toNat (by omega)] at h0
        exact absurd h0 (by simp; omega)
      cases fuel with
      | zero => cases hfuel
      | succ fuel =>
          rw [linkTo, kmallocFrom, if_neg hne, if_neg (not_not_intro hfields.magic), firstFit]
          by_cases hfits : fits n.toNat b = true
          · rw [if_pos ((fits_iff hfields (by omega)).mpr hfits), if_pos hfits]
            rfl
          · rw [if_neg (fun hc => hfits ((fits_iff hfields (by omega)).mp hc)), if_neg hfits,
              hfields.next, ih hrest (by omega) (by omega) (Nat.lt_of_succ_lt_succ hfuel)]
            cases firstFit n.toNat bs with
            | none => rfl
            | some r =>
                dsimp only [Option.map_some]
                rw [span, Nat.add_assoc a]

/-- The header of the rest that is cut off. -/
def restHeader (m : Mem) (q size link : Nat) : Mem :=
  write8 (write64 (write64 (write64 m q size) (q + 8) link) (q + 16) heapMagic.toNat) (q + 24) 1#8

theorem restHeader_outside {q size link x : Nat} (h : x < q ∨ q + headerSize ≤ x) :
    restHeader m q size link x = m x := by
  have hsize : headerSize = 32 := rfl
  rw [restHeader, write8_outside (by omega), write64_outside (by omega), write64_outside (by omega),
    write64_outside (by omega)]

theorem heapSplit_small {link : Nat} (h : HeaderAt m p b link) (hp : minBlock ≤ p)
    (hend : p + (headerSize + b.size) < 2 ^ 64) (hn : n.toNat ≤ b.size)
    (hsmall : b.size ≤ n.toNat + headerSize + minBlock) : heapSplit m (BitVec.ofNat 64 p) n = m := by
  have hsize : headerSize = 32 := rfl
  have hmin : minBlock = 64 := rfl
  have hfields := h.fields (by omega)
  refine if_pos ?_
  rw [hfields.size, BitVec.le_def, ofNat_toNat (by omega), heapHeaderSize, heapMinBlock,
    BitVec.toNat_add, BitVec.toNat_add, BitVec.toNat_ofNat, BitVec.toNat_ofNat]
  omega

theorem heapSplit_large {link : Nat} (h : HeaderAt m p b link) (hlink : link < 2 ^ 64)
    (hp : minBlock ≤ p) (hend : p + (headerSize + b.size) < 2 ^ 64)
    (hlarge : n.toNat + headerSize + minBlock < b.size) :
    heapSplit m (BitVec.ofNat 64 p) n =
      write64 (write64 (restHeader m (p + headerSize + n.toNat)
          (b.size - n.toNat - headerSize) link) p n.toNat) (p + 8) (p + headerSize + n.toNat) := by
  have hsize : headerSize = 32 := rfl
  have hmin : minBlock = 64 := rfl
  have hfields := h.fields (by omega)
  have hbig : ¬ size m (BitVec.ofNat 64 p) ≤ n + heapHeaderSize + heapMinBlock := by
    rw [hfields.size, BitVec.le_def, ofNat_toNat (by omega), heapHeaderSize, heapMinBlock,
      BitVec.toNat_add, BitVec.toNat_add, BitVec.toNat_ofNat, BitVec.toNat_ofNat]
    omega
  have hblock : BitVec.ofNat 64 p + heapHeaderSize + n =
      BitVec.ofNat 64 (p + headerSize + n.toNat) := by
    rw [BitVec.ofNat_add, BitVec.ofNat_add, BitVec.ofNat_toNat, BitVec.setWidth_eq]
    rfl
  have hrest : (size m (BitVec.ofNat 64 p) - n - heapHeaderSize).toNat =
      b.size - n.toNat - headerSize := by
    rw [hfields.size, heapHeaderSize, BitVec.toNat_sub, BitVec.toNat_sub, ofNat_toNat (by omega),
      BitVec.toNat_ofNat]
    omega
  -- the link is read after the size of the new header is written
  have hnext : next (write64 m (p + headerSize + n.toNat) (b.size - n.toNat - headerSize))
      (BitVec.ofNat 64 p) = BitVec.ofNat 64 link := by
    rw [next, word, ofNat_add_toNat (by omega), read64_write64_of_disjoint (by omega), h.next]
  have hfirst : setSize m (BitVec.ofNat 64 (p + headerSize + n.toNat))
      (size m (BitVec.ofNat 64 p) - n - heapHeaderSize) =
        write64 m (p + headerSize + n.toNat) (b.size - n.toNat - headerSize) := by
    rw [setSize_at (by omega), hrest]
  rw [heapSplit, if_neg hbig, hblock]
  dsimp only
  rw [hfirst, hnext, setNext_at (by omega), setMagic_at (by omega), setFree_at (by omega),
    setSize_at (by omega), setNext_at (by omega), ofNat_toNat hlink, ofNat_toNat (by omega)]
  rfl

/-- The block found becomes the carved one; only bytes of the free block are written. -/
theorem takeBlock_chained (h : Chained m z p (b :: post)) (hn : n.toNat ≤ b.size)
    (hp : minBlock ≤ p) (hz : z < 2 ^ 64)
    (hend : p + (headerSize + b.size) + span headerSize post < 2 ^ 64) :
    Chained (setFree (heapSplit m (BitVec.ofNat 64 p) n) (BitVec.ofNat 64 p) 0#8) z p
        (carve headerSize minBlock n.toNat b ++ post) ∧
      ∀ x, x < p ∨ p + (headerSize + b.size) ≤ x →
        setFree (heapSplit m (BitVec.ofNat 64 p) n) (BitVec.ofNat 64 p) 0#8 x = m x := by
  obtain ⟨hhead, hrest⟩ := h
  have hsize : headerSize = 32 := rfl
  have hmin : minBlock = 64 := rfl
  have hlink : linkTo post (p + (headerSize + b.size)) z < 2 ^ 64 := linkTo_lt (by omega) hz
  rw [setFree_at (by omega), carve]
  split <;> rename_i hcut
  · rw [heapSplit_small hhead hp (by omega) hn hcut]
    have hframe : ∀ x, x < p ∨ p + (headerSize + b.size) ≤ x → write8 m (p + 24) 0#8 x = m x :=
      fun x hx => write8_outside (by omega)
    refine ⟨⟨hhead.setFree (f := false), ?_⟩, hframe⟩
    exact hrest.congr fun x h₁ _ _ => hframe x (Or.inr h₁)
  · rw [heapSplit_large hhead hlink hp (by omega) (by omega)]
    generalize hq : p + headerSize + n.toNat = q
    generalize hsz : b.size - n.toNat - headerSize = sz
    have hframe : ∀ x, x < p ∨ p + (headerSize + b.size) ≤ x →
        write8 (write64 (write64 (restHeader m q sz (linkTo post (p + (headerSize + b.size)) z)) p
          n.toNat) (p + 8) q) (p + 24) 0#8 x = m x := by
      intro x hx
      rw [write8_outside (by omega), write64_outside (by omega), write64_outside (by omega),
        restHeader_outside (by omega)]
    refine ⟨⟨?_, ?_, ?_⟩, hframe⟩
    · -- the block itself, now linked to the rest
      have hold : HeaderAt (restHeader m q sz (linkTo post (p + (headerSize + b.size)) z)) p b
          (linkTo post (p + (headerSize + b.size)) z) :=
        hhead.congr fun x _ h₂ => restHeader_outside (by omega)
      have hnew := (hold.relink (show n.toNat < 2 ^ 64 by omega)
        (show q < 2 ^ 64 by omega)).setFree (f := false)
      rw [← hq, Nat.add_assoc] at hnew ⊢
      exact hnew
    · -- the rest
      have hstop : p + (headerSize + n.toNat) = q := by omega
      have hafter : q + (headerSize + sz) = p + (headerSize + b.size) := by omega
      rw [hstop]
      change HeaderAt _ q ⟨sz, true⟩ (linkTo post (q + (headerSize + sz)) z)
      rw [hafter]
      refine (headerAt_new m q (by omega) hlink).congr ?_
      intro x h₁ _
      rw [write8_outside (by omega), write64_outside (by omega), write64_outside (by omega)]
      rfl
    · have hafter : p + (headerSize + n.toNat) + (headerSize + sz) =
          p + (headerSize + b.size) := by omega
      change Chained _ z (p + (headerSize + n.toNat) + (headerSize + sz)) post
      rw [hafter]
      exact hrest.congr fun x h₁ _ _ => hframe x (Or.inr h₁)

end Alloc

/-! ## `heap_coalesce` -/

section Coalesce

variable {m : Mem} {a fuel x : Nat} {b c : Block} {bs : List Block}

/-- The address is outside the blocks, or in a payload in use. -/
def Untouched (a : Nat) (bs : List Block) (x : Nat) : Prop :=
  (x < a ∨ a + span headerSize bs ≤ x) ∨
    ∃ p ∈ payloads headerSize a bs, p.1 ≤ x ∧ x < p.1 + p.2

theorem Untouched.tail (h : Untouched a (b :: bs) x) :
    Untouched (a + (headerSize + b.size)) bs x := by
  have hspan : span headerSize (b :: bs) = headerSize + b.size + span headerSize bs := rfl
  rcases h with (h | h) | ⟨p, hp, hx⟩
  · exact Or.inl (Or.inl (by omega))
  · exact Or.inl (Or.inr (by omega))
  · rw [payloads] at hp
    split at hp
    · exact Or.inr ⟨p, hp, hx⟩
    · rcases List.mem_cons.mp hp with rfl | hp
      · dsimp only at hx
        exact Or.inl (Or.inl (by omega))
      · exact Or.inr ⟨p, hp, hx⟩

theorem Untouched.not_header (h : Untouched a (b :: bs) x) : x < a ∨ a + headerSize ≤ x := by
  have hspan : span headerSize (b :: bs) = headerSize + b.size + span headerSize bs := rfl
  rcases h with (h | h) | ⟨p, hp, hx⟩
  · exact Or.inl h
  · exact Or.inr (by omega)
  · have hbound := (payload_bounds hp).1
    exact Or.inr (by omega)

theorem next_ne_zero (ha : 0 < a) (hend : a < 2 ^ 64) : BitVec.ofNat 64 a ≠ 0#64 := by
  intro h0
  have h0 := congrArg BitVec.toNat h0
  rw [ofNat_toNat hend, BitVec.toNat_ofNat, Nat.zero_mod] at h0
  omega

/-- The body of the loop joins two blocks. -/
theorem merge_eq {z : Nat} (h : Chained m z a (b :: c :: bs)) (hz : z < 2 ^ 64)
    (hend : a + span headerSize (b :: c :: bs) < 2 ^ 64) :
    let m' := setSize m (BitVec.ofNat 64 a) (size m (BitVec.ofNat 64 a) +
      (heapHeaderSize + size m (BitVec.ofNat 64 (a + (headerSize + b.size)))))
    setNext m' (BitVec.ofNat 64 a) (next m' (next m' (BitVec.ofNat 64 a))) =
      write64 (write64 m a (b.size + (headerSize + c.size))) (a + 8)
        (linkTo bs (a + (headerSize + (b.size + (headerSize + c.size)))) z) := by
  have hsize : headerSize = 32 := rfl
  have hspan : span headerSize (b :: c :: bs) =
      headerSize + b.size + (headerSize + c.size + span headerSize bs) := rfl
  obtain ⟨hb, hc, -⟩ := h
  have hfb := hb.fields (by omega)
  have hfc := hc.fields (by omega)
  have hstop : a + (headerSize + b.size) + (headerSize + c.size) =
      a + (headerSize + (b.size + (headerSize + c.size))) := by omega
  have hlink : linkTo bs (a + (headerSize + (b.size + (headerSize + c.size)))) z < 2 ^ 64 :=
    linkTo_lt (by omega) hz
  have hsum : size m (BitVec.ofNat 64 a) +
      (heapHeaderSize + size m (BitVec.ofNat 64 (a + (headerSize + b.size)))) =
        BitVec.ofNat 64 (b.size + (headerSize + c.size)) := by
    rw [hfb.size, hfc.size, BitVec.ofNat_add, BitVec.ofNat_add]
    rfl
  intro m'
  have hm' : m' = write64 m a (b.size + (headerSize + c.size)) := by
    show setSize m _ _ = _
    rw [hsum, setSize_at (by omega), ofNat_toNat (by omega)]
  -- the links are read after the size is written
  have hfirst : next m' (BitVec.ofNat 64 a) = BitVec.ofNat 64 (a + (headerSize + b.size)) := by
    rw [hm', next, word, ofNat_add_toNat (by omega), read64_write64_of_disjoint (by omega), hb.next]
    rfl
  have hsecond : next m' (BitVec.ofNat 64 (a + (headerSize + b.size))) =
      BitVec.ofNat 64 (linkTo bs (a + (headerSize + (b.size + (headerSize + c.size)))) z) := by
    rw [hm', next, word, ofNat_add_toNat (by omega), read64_write64_of_disjoint (by omega), hc.next,
      hstop]
  rw [hfirst, hsecond, setNext_at (by omega), ofNat_toNat hlink, hm']

/-- The loop of `heap_coalesce` absorbs free neighbours and writes into headers of
free blocks only. -/
theorem heapCoalesceFrom_eq (h : Chained m 0 a (b :: bs)) (ha : 0 < a)
    (hend : a + span headerSize (b :: bs) < 2 ^ 64) (hfuel : bs.length < fuel) :
    ∃ m', heapCoalesceFrom fuel m (BitVec.ofNat 64 a) = some m' ∧
      Chained m' 0 a (absorb headerSize b bs) ∧ ∀ x, Untouched a (b :: bs) x → m' x = m x := by
  have hsize : headerSize = 32 := rfl
  induction bs generalizing a b m fuel with
  | nil =>
      have hspan : span headerSize [b] = headerSize + b.size + 0 := rfl
      have hfields := h.1.fields (by omega)
      cases fuel with
      | zero => cases hfuel
      | succ fuel =>
          have hlast : next m (BitVec.ofNat 64 a) = 0#64 := hfields.next
          refine ⟨m, ?_, h, fun x _ => rfl⟩
          rw [heapCoalesceFrom, if_pos (Or.inr hlast)]
  | cons c bs ih =>
      have hspan : span headerSize (b :: c :: bs) =
          headerSize + b.size + (headerSize + c.size + span headerSize bs) := rfl
      obtain ⟨hb, hc, hrest⟩ := h
      have hfb := hb.fields (by omega)
      have hfc := hc.fields (by omega)
      have hnext : next m (BitVec.ofNat 64 a) = BitVec.ofNat 64 (a + (headerSize + b.size)) :=
        hfb.next
      have hgo : ¬ (BitVec.ofNat 64 a = 0#64 ∨ next m (BitVec.ofNat 64 a) = 0#64) := by
        rw [hnext]
        exact not_or.mpr ⟨next_ne_zero ha (by omega), next_ne_zero (by omega) (by omega)⟩
      cases fuel with
      | zero => cases hfuel
      | succ fuel =>
          rw [heapCoalesceFrom, if_neg hgo, absorb, hnext]
          by_cases hfree : b.free = true ∧ c.free = true
          · rw [if_pos ⟨hfb.free.mpr hfree.1, hfc.free.mpr hfree.2⟩,
              if_pos (Bool.and_eq_true_iff.mpr hfree)]
            dsimp only
            rw [merge_eq ⟨hb, hc, hrest⟩ (by omega) hend]
            have hstop : a + (headerSize + b.size) + (headerSize + c.size) =
                a + (headerSize + (b.size + (headerSize + c.size))) := by omega
            have hlink : linkTo bs (a + (headerSize + (b.size + (headerSize + c.size)))) 0 < 2 ^ 64 :=
              linkTo_lt (by omega) (by omega)
            have hwrites : ∀ x, x < a ∨ a + headerSize ≤ x →
                write64 (write64 m a (b.size + (headerSize + c.size))) (a + 8)
                  (linkTo bs (a + (headerSize + (b.size + (headerSize + c.size)))) 0) x = m x := by
              intro x hx
              rw [write64_outside (by omega), write64_outside (by omega)]
            have hjoined := hb.relink (show b.size + (headerSize + c.size) < 2 ^ 64 by omega) hlink
            rw [hstop] at hrest
            generalize write64 (write64 m a (b.size + (headerSize + c.size))) (a + 8)
              (linkTo bs (a + (headerSize + (b.size + (headerSize + c.size)))) 0) = m₁ at *
            have hchain : Chained m₁ 0 a ({ b with size := b.size + (headerSize + c.size) } :: bs) :=
              ⟨hjoined, hrest.congr fun x hx _ _ => hwrites x (Or.inr (by omega))⟩
            have hspan' : span headerSize ({ b with size := b.size + (headerSize + c.size) } :: bs) =
                span headerSize (b :: c :: bs) := by
              rw [hspan]
              show headerSize + (b.size + (headerSize + c.size)) + span headerSize bs = _
              omega
            obtain ⟨m', hrun, hchain', hframe⟩ := ih hchain ha (by rw [hspan']; exact hend)
              (Nat.lt_of_succ_lt_succ hfuel)
            refine ⟨m', hrun, hchain', ?_⟩
            intro x hx
            have hx' : Untouched a ({ b with size := b.size + (headerSize + c.size) } :: bs) x := by
              rw [Untouched, payloads, if_pos hfree.1, hspan', ← hstop]
              rw [Untouched, payloads, if_pos hfree.1, payloads, if_pos hfree.2] at hx
              exact hx
            rw [hframe x hx', hwrites x hx.not_header]
          · have hfree' : ¬ (b.free && c.free) = true :=
              fun hcon => hfree (Bool.and_eq_true_iff.mp hcon)
            have hcond : ¬ (free m (BitVec.ofNat 64 a) ≠ 0#8 ∧
                free m (BitVec.ofNat 64 (a + (headerSize + b.size))) ≠ 0#8) :=
              fun hcon => hfree ⟨hfb.free.mp hcon.1, hfc.free.mp hcon.2⟩
            rw [if_neg hcond, if_neg hfree']
            obtain ⟨m', hrun, hchain, hframe⟩ := ih ⟨hc, hrest⟩ (by omega)
              (by have hspan' : span headerSize (c :: bs) =
                    headerSize + c.size + span headerSize bs := rfl
                  omega) (Nat.lt_of_succ_lt_succ hfuel)
            refine ⟨m', hrun, ⟨?_, hchain⟩, fun x hx => hframe x hx.tail⟩
            obtain ⟨n, rest, habsorb⟩ := @absorb_head headerSize c bs
            rw [habsorb]
            exact hb.congr fun x _ hlt => hframe x (Or.inl (Or.inl (by omega)))

end Coalesce

end VectorForth.Heap
