import VectorForth.Lib.Run
import VectorForth.Memory.HeapOps

/-!
# Heap runs

Any order of `kmalloc`, `kcalloc`, `krealloc` and `kfree` on live pointers, with
client writes inside live payloads. The list of live pointers is kept beside the
heap; it is always the list of payloads in use.
-/

namespace VectorForth.Heap

open ByteMemory BlockList LabelledRun

/-! ## Live allocations -/

/-- The size in the header before a pointer. -/
def payloadSize (s : State) (ptr : Word) : Nat := (size s.mem (ptr - heapHeaderSize)).toNat

/-- The live pointers are those of the payloads in use. -/
def Live (bs : List Block) (live : List Word) : Prop :=
  (live.map BitVec.toNat).Perm ((inUse bs).map Prod.fst)

def Sound (s : State) (live : List Word) : Prop := ∃ bs, Blocks s bs ∧ Live bs live

/-- The payloads of `live` keep their size and their bytes. -/
def Undisturbed (s s' : State) (live : List Word) : Prop :=
  ∀ p ∈ live, payloadSize s' p = payloadSize s p ∧
    ∀ i < payloadSize s p, s'.mem (p.toNat + i) = s.mem (p.toNat + i)

section Live

variable {s s' : State} {bs pre post : List Block} {b : Block} {live : List Word} {n p q : Word}
  {sz : Nat}

theorem Undisturbed.trans {s'' : State} (h : Undisturbed s s' live) (h' : Undisturbed s' s'' live) :
    Undisturbed s s'' live := by
  intro p hp
  obtain ⟨hsize, hbytes⟩ := h p hp
  obtain ⟨hsize', hbytes'⟩ := h' p hp
  rw [hsize] at hsize' hbytes'
  exact ⟨hsize', fun i hi => (hbytes' i hi).trans (hbytes i hi)⟩

theorem Undisturbed.mono {live' : List Word} (h : Undisturbed s s' live)
    (hsub : ∀ p ∈ live', p ∈ live) : Undisturbed s s' live' :=
  fun p hp => h p (hsub p hp)

/-- The payloads in use before and after `k` bytes in the middle of the heap. -/
def around (pre : List Block) (k : Nat) (post : List Block) : List (Nat × Nat) :=
  payloads headerSize heapVirtStart.toNat pre ++
    payloads headerSize (heapVirtStart.toNat + span headerSize pre + k) post

theorem inUse_free (pre post : List Block) (hb : b.free = true) :
    inUse (pre ++ b :: post) = around pre (headerSize + b.size) post := by
  rw [inUse, payloads_append, payloads, if_pos hb, around]

theorem inUse_busy (pre mid post : List Block) {x : Nat × Nat}
    (hspan : span headerSize mid = headerSize + b.size)
    (hmid : payloads headerSize (heapVirtStart.toNat + span headerSize pre) mid = [x]) :
    (inUse (pre ++ mid ++ post)).Perm (x :: around pre (headerSize + b.size) post) := by
  rw [inUse, List.append_assoc, payloads_append, payloads_append, hmid, hspan]
  exact List.perm_middle

theorem around_outside {k : Nat} {x : Nat × Nat} (h : x ∈ around pre k post) :
    x.1 + x.2 ≤ heapVirtStart.toNat + span headerSize pre ∨
      heapVirtStart.toNat + span headerSize pre + k ≤ x.1 := by
  rcases List.mem_append.mp h with h | h
  · exact Or.inl (payload_bounds h).2
  · have hbound := (payload_bounds h).1
    exact Or.inr (by omega)

/-- A payload in use is what the header before it says. -/
theorem Blocks.payloadSize (h : Blocks s bs) (hp : (p.toNat, sz) ∈ inUse bs) :
    payloadSize s p = sz := by
  have hspan := h.span_eq
  have hstart := heapVirtStart_toNat
  have hsize : headerSize = 32 := rfl
  obtain ⟨pre, b, post, rfl, -, heq⟩ := mem_payloads hp
  obtain ⟨hptr, rfl⟩ := Prod.mk.inj heq
  rw [span_append, span] at hspan
  obtain ⟨-, hheader, -⟩ := (chained_append pre (b :: post) _).mp h.chained
  have hblock : p - heapHeaderSize =
      BitVec.ofNat 64 (heapVirtStart.toNat + span headerSize pre) := by
    apply BitVec.eq_of_toNat_eq
    rw [ofNat_toNat (by omega), heapHeaderSize, BitVec.toNat_sub, BitVec.toNat_ofNat, hptr]
    omega
  rw [Heap.payloadSize, hblock, (hheader.fields (by omega)).size, ofNat_toNat (by omega)]

theorem Live.mem (h : Live bs live) (hp : p ∈ live) : ∃ sz, (p.toNat, sz) ∈ inUse bs := by
  have hmem := h.subset (List.mem_map_of_mem hp)
  obtain ⟨⟨x, sz⟩, hx, rfl⟩ := List.mem_map.mp hmem
  exact ⟨sz, hx⟩

theorem Live.nodup (h : Live bs live) : live.Nodup := by
  have hstarts : ((inUse bs).map Prod.fst).Nodup := by
    refine List.pairwise_map.mpr ((payloads_apart _ bs).imp ?_)
    intro x y hxy
    have hsize : headerSize = 32 := rfl
    omega
  exact (h.nodup_iff.mpr hstarts).of_map _

/-- Payloads that survive, in a heap whose bytes are kept there, are undisturbed. -/
theorem undisturbed_of_blocks {bs' : List Block} (h : Blocks s bs) (h' : Blocks s' bs')
    (hlive : ∀ p ∈ live, ∃ sz, (p.toNat, sz) ∈ inUse bs ∧ (p.toNat, sz) ∈ inUse bs' ∧
      ∀ i < sz, s'.mem (p.toNat + i) = s.mem (p.toNat + i)) : Undisturbed s s' live := by
  intro p hp
  obtain ⟨sz, hin, hin', hbytes⟩ := hlive p hp
  rw [h.payloadSize hin, h'.payloadSize hin']
  exact ⟨rfl, hbytes⟩

/-- Two payloads in use do not overlap. -/
theorem apart_of_mem {x y : Nat × Nat} (hx : x ∈ inUse bs) (hy : y ∈ inUse bs) (hne : x ≠ y) :
    x.1 + x.2 ≤ y.1 ∨ y.1 + y.2 ≤ x.1 := by
  have hapart : (inUse bs).Pairwise fun x y => x.1 + x.2 ≤ y.1 ∨ y.1 + y.2 ≤ x.1 :=
    (payloads_apart _ bs).imp fun h => Or.inl (by omega)
  have hsymm : Std.Symm fun x y : Nat × Nat => x.1 + x.2 ≤ y.1 ∨ y.1 + y.2 ≤ x.1 :=
    ⟨fun _ _ h => h.symm⟩
  exact hapart.forall hx hy hne

end Live

/-! ## Steps -/

section Steps

variable {s s' : State} {live : List Word} {n p q : Word}

/-- What a successful allocation has done. -/
structure Malloced (s : State) (live : List Word) (n : Word) (s' : State) (p : Word) : Prop where
  sound : Sound s' (p :: live)
  ne_zero : p ≠ 0#64
  large : n.toNat ≤ payloadSize s' p
  undisturbed : Undisturbed s s' live

/-- A request that finds a block, whether its size was wrapped by the rounding or not. -/
theorem Sound.place (h : Sound s live) (hn : n ≠ 0#64) (hk : kmalloc s n = .ok (s', p)) :
    Sound s' (p :: live) ∧ p ≠ 0#64 ∧ (roundUp n).toNat ≤ payloadSize s' p ∧
      Undisturbed s s' live := by
  obtain ⟨bs, hblocks, hlive⟩ := h
  obtain ⟨pre, b, post, rfl, hplaced⟩ := kmalloc_ok hblocks hn hk
  obtain ⟨hfree, hle⟩ := Bool.and_eq_true_iff.mp hplaced.fits
  rw [decide_eq_true_eq] at hle
  obtain ⟨size, rest, -, hlarge, -, -, hpayload⟩ :=
    @carve_head headerSize minBlock _ (heapVirtStart.toNat + span headerSize pre) _ hle
  have hbefore := inUse_free pre post hfree
  have hafter := inUse_busy pre _ post (span_carve b) hpayload
  rw [← hplaced.ptr] at hafter
  have hin : (p.toNat, size) ∈ inUse _ := hafter.mem_iff.mpr (List.mem_cons_self ..)
  refine ⟨⟨_, hplaced.blocks, ?_⟩, ?_, ?_, ?_⟩
  · refine List.Perm.trans (List.Perm.cons p.toNat ?_) (hafter.map Prod.fst).symm
    rw [← hbefore]
    exact hlive
  · rintro rfl
    have hptr := hplaced.ptr
    rw [BitVec.toNat_ofNat, Nat.zero_mod, headerSize] at hptr
    omega
  · rw [hplaced.blocks.payloadSize hin]
    exact hlarge
  · refine undisturbed_of_blocks hblocks hplaced.blocks ?_
    intro q hq
    obtain ⟨sz, hsz⟩ := hlive.mem hq
    have haround := hsz
    rw [hbefore] at haround
    refine ⟨sz, hsz, hafter.mem_iff.mpr (List.mem_cons_of_mem _ haround), ?_⟩
    intro i hi
    have hout := around_outside haround
    exact hplaced.outside _ (by omega)

theorem Sound.malloc (h : Sound s live) (hn : n ≠ 0#64) (hround : Rounds n)
    (hk : kmalloc s n = .ok (s', p)) : Malloced s live n s' p := by
  obtain ⟨hsound, hne, hlarge, hkept⟩ := h.place hn hk
  rw [roundUp_toNat hround] at hlarge
  exact ⟨hsound, hne, by omega, hkept⟩

theorem Sound.free (h : Sound s live) (hp : p ∈ live) : ∃ s', kfree s p = .ok s' ∧
    Sound s' (live.erase p) ∧ Undisturbed s s' (live.erase p) := by
  obtain ⟨bs, hblocks, hlive⟩ := h
  obtain ⟨sz, hin⟩ := hlive.mem hp
  obtain ⟨pre, b, post, rfl, hb, heq⟩ := mem_payloads hin
  obtain ⟨hptr, rfl⟩ := Prod.mk.inj heq
  obtain ⟨s', hrun, hblocks', hframe⟩ := kfree_ok hblocks hb hptr
  have hsingle : payloads headerSize (heapVirtStart.toNat + span headerSize pre) [b] =
      [(p.toNat, b.size)] := by
    rw [payloads, if_neg (by rw [hb]; exact Bool.false_ne_true), hptr]
    rfl
  have hbefore : (inUse (pre ++ b :: post)).Perm
      ((p.toNat, b.size) :: around pre (headerSize + b.size) post) := by
    rw [List.append_cons]
    exact inUse_busy pre [b] post rfl hsingle
  have hafter : inUse (coalesce headerSize (pre ++ { b with free := true } :: post)) =
      around pre (headerSize + b.size) post :=
    (payloads_coalesce _ _).trans (inUse_free pre post rfl)
  have hperm : (live.map BitVec.toNat).Perm
      (p.toNat :: (around pre (headerSize + b.size) post).map Prod.fst) :=
    hlive.trans (hbefore.map Prod.fst)
  have herase : Live (coalesce headerSize (pre ++ { b with free := true } :: post))
      (live.erase p) := by
    have hcons : (p :: live.erase p).Perm live := (List.perm_cons_erase hp).symm
    rw [Live, hafter]
    exact ((hcons.map BitVec.toNat).trans hperm).cons_inv
  refine ⟨s', hrun, ⟨_, hblocks', herase⟩, undisturbed_of_blocks hblocks hblocks' ?_⟩
  intro q hq
  obtain ⟨sz, hsz⟩ := herase.mem hq
  have haround := hsz
  rw [hafter] at haround
  refine ⟨sz, hbefore.mem_iff.mpr (List.mem_cons_of_mem _ haround), hsz, ?_⟩
  intro i hi
  refine hframe _ (Or.inr ⟨(q.toNat, sz), ?_, ?_, ?_⟩)
  · rw [← inUse, inUse_free pre post rfl]
    exact haround
  · exact Nat.le_add_right _ _
  · exact Nat.add_lt_add_left hi _

/-- Writes inside one live payload keep the heap and the other payloads. -/
theorem Sound.write {m : Mem} (h : Sound s live) (hq : q ∈ live)
    (hm : ∀ x, x < q.toNat ∨ q.toNat + payloadSize s q ≤ x → m x = s.mem x) :
    Sound { s with mem := m } live ∧ Undisturbed s { s with mem := m } (live.erase q) ∧
      payloadSize { s with mem := m } q = payloadSize s q := by
  obtain ⟨bs, hblocks, hlive⟩ := h
  obtain ⟨sz, hin⟩ := hlive.mem hq
  rw [hblocks.payloadSize hin] at hm ⊢
  have hblocks' : Blocks { s with mem := m } bs := by
    refine hblocks.congr ?_
    intro x hx
    have hout := hx _ hin
    dsimp only at hout
    exact hm x (by omega)
  refine ⟨⟨bs, hblocks', hlive⟩, undisturbed_of_blocks hblocks hblocks' ?_,
    hblocks'.payloadSize hin⟩
  intro r hr
  obtain ⟨hne, hr⟩ := (hlive.nodup.mem_erase_iff).mp hr
  obtain ⟨sz', hin'⟩ := hlive.mem hr
  refine ⟨sz', hin', hin', ?_⟩
  intro i hi
  have hpair : (r.toNat, sz') ≠ (q.toNat, sz) := by
    intro heq
    exact hne (BitVec.eq_of_toNat_eq (Prod.mk.inj heq).1)
  have hapart := apart_of_mem hin' hin hpair
  dsimp only at hapart
  exact hm _ (by omega)

end Steps

/-! ## Calls -/

inductive HeapCall
  | kmalloc (n : Word)
  | kcalloc (count n : Word)
  | krealloc (ptr n : Word)
  | kfree (ptr : Word)

/-- The state a call leaves and the pointer it returns. -/
def HeapCall.run (s : State) : HeapCall → Except Stop (State × Word)
  | .kmalloc n => Heap.kmalloc s n
  | .kcalloc count n => Heap.kcalloc s count n
  | .krealloc ptr n => Heap.krealloc s ptr n
  | .kfree ptr => (Heap.kfree s ptr).map fun s => (s, 0#64)

/-- The pointer a call takes back. -/
def HeapCall.gives : HeapCall → Word
  | .krealloc ptr _ => ptr
  | .kfree ptr => ptr
  | _ => 0#64

/-- The size a call asks for. -/
def HeapCall.request : HeapCall → Word
  | .kmalloc n => n
  | .kcalloc count n => count * n
  | .krealloc _ n => n
  | .kfree _ => 0#64

/-- Pointers given back are live, and the size is not wrapped by the rounding. -/
def HeapCall.Valid (live : List Word) (call : HeapCall) : Prop :=
  (call.gives = 0#64 ∨ call.gives ∈ live) ∧ Rounds call.request

/-- The live pointers after a call that returns `ptr`. -/
def HeapCall.after (call : HeapCall) (ptr : Word) (live : List Word) : List Word :=
  if ptr = 0#64 then live.erase call.gives else ptr :: live.erase call.gives

/-- What a call keeps and what it delivers. -/
structure Preserves (s : State) (live : List Word) (call : HeapCall) (s' : State) (ptr : Word) :
    Prop where
  undisturbed : Undisturbed s s' (live.erase call.gives)
  delivered : ptr ≠ 0#64 → call.gives ∈ live → ∀ i < payloadSize s call.gives,
    s'.mem (ptr.toNat + i) = s.mem (call.gives.toNat + i)

section Calls

variable {s s' : State} {live : List Word} {call : HeapCall} {n p q count : Word}

theorem Undisturbed.refl (s : State) (live : List Word) : Undisturbed s s live :=
  fun _ _ => ⟨rfl, fun _ _ => rfl⟩

theorem Sound.zero_not_mem (h : Sound s live) : 0#64 ∉ live := by
  intro hmem
  obtain ⟨bs, -, hlive⟩ := h
  obtain ⟨sz, hin⟩ := hlive.mem hmem
  have hbound := (payload_bounds hin).1
  rw [heapVirtStart_toNat, BitVec.toNat_ofNat, Nat.zero_mod] at hbound
  omega

theorem Sound.nodup (h : Sound s live) : live.Nodup := by
  obtain ⟨bs, -, hlive⟩ := h
  exact hlive.nodup

/-- The payloads of two live pointers do not overlap. -/
theorem Sound.apart (h : Sound s live) (hp : p ∈ live) (hq : q ∈ live) (hne : p ≠ q) :
    p.toNat + payloadSize s p ≤ q.toNat ∨ q.toNat + payloadSize s q ≤ p.toNat := by
  obtain ⟨bs, hblocks, hlive⟩ := h
  obtain ⟨sz, hin⟩ := hlive.mem hp
  obtain ⟨sz', hin'⟩ := hlive.mem hq
  rw [hblocks.payloadSize hin, hblocks.payloadSize hin']
  refine apart_of_mem hin hin' ?_
  intro heq
  exact hne (BitVec.eq_of_toNat_eq (Prod.mk.inj heq).1)

theorem Sound.perm {live' : List Word} (h : Sound s live) (hperm : live'.Perm live) :
    Sound s live' := by
  obtain ⟨bs, hblocks, hlive⟩ := h
  exact ⟨bs, hblocks, (hperm.map _).trans hlive⟩

/-- `kmalloc` returns NULL only when it is asked for nothing. -/
theorem Sound.kmalloc (h : Sound s live) (hround : Rounds n) (hk : Heap.kmalloc s n = .ok (s', p)) :
    (n = 0#64 ∧ p = 0#64 ∧ s' = s) ∨ Malloced s live n s' p := by
  by_cases hn : n = 0#64
  · rw [Heap.kmalloc, if_pos hn] at hk
    obtain ⟨rfl, rfl⟩ := Prod.mk.inj (Except.ok.inj hk)
    exact Or.inl ⟨hn, rfl, rfl⟩
  · exact Or.inr (h.malloc hn hround hk)

/-- `kcalloc` clears the payload it got. -/
theorem Sound.kcalloc (h : Sound s live) (hround : Rounds (count * n))
    (hk : Heap.kcalloc s count n = .ok (s', p)) :
    (p = 0#64 ∧ s' = s) ∨ Malloced s live (count * n) s' p := by
  rw [Heap.kcalloc] at hk
  cases hm : Heap.kmalloc s (count * n) with
  | error e =>
      rw [hm] at hk
      cases hk
  | ok r =>
      obtain ⟨s₁, q⟩ := r
      rw [hm] at hk
      change (if q ≠ 0#64 then _ else _) = _ at hk
      rcases h.kmalloc hround hm with ⟨-, rfl, rfl⟩ | hmalloc
      · rw [if_neg (not_not_intro rfl)] at hk
        obtain ⟨rfl, rfl⟩ := Prod.mk.inj (Except.ok.inj hk)
        exact Or.inl ⟨rfl, rfl⟩
      · rw [if_pos hmalloc.ne_zero] at hk
        obtain ⟨rfl, rfl⟩ := Prod.mk.inj (Except.ok.inj hk)
        have hlarge := hmalloc.large
        obtain ⟨hsound, hkept, hsize⟩ := hmalloc.sound.write
          (m := fill s₁.mem q.toNat 0#8 (count * n).toNat) (List.mem_cons_self ..)
          (fun x hx => fill_outside (by omega))
        rw [List.erase_cons_head] at hkept
        refine Or.inr ⟨hsound, hmalloc.ne_zero, ?_, hmalloc.undisturbed.trans hkept⟩
        rw [hsize]
        exact hlarge

/-- `krealloc` to another block with room for the payload, which is copied before the old
block is freed. -/
theorem Sound.move {s₁ : State} (hsound₁ : Sound s₁ (q :: live)) (hkept₁ : Undisturbed s s₁ live)
    (hp : p ∈ live) (hroom : payloadSize s p ≤ payloadSize s₁ q) :
    ∃ s', kfree { s₁ with mem := copy s₁.mem q.toNat p.toNat (payloadSize s₁ p) } p = .ok s' ∧
      Sound s' (q :: live.erase p) ∧ payloadSize s' q = payloadSize s₁ q ∧
        Undisturbed s s' (live.erase p) ∧
          ∀ i < payloadSize s p, s'.mem (q.toNat + i) = s.mem (p.toNat + i) := by
  obtain ⟨hsize, hbytes⟩ := hkept₁ p hp
  have hnew : q ∉ live := (List.nodup_cons.mp hsound₁.nodup).1
  have hne : q ≠ p := by
    rintro rfl
    exact hnew hp
  have hapart := hsound₁.apart (List.mem_cons_self ..) (List.mem_cons_of_mem _ hp) hne
  -- the copy stays inside the new payload
  obtain ⟨hcopied, hkept, hsizeq⟩ := hsound₁.write (m := copy s₁.mem q.toNat p.toNat
    (payloadSize s₁ p)) (List.mem_cons_self ..) (fun x hx => copy_outside (by omega))
  rw [List.erase_cons_head] at hkept
  obtain ⟨s', hfree, hsound, hrest⟩ := hcopied.free (List.mem_cons_of_mem _ hp)
  rw [List.erase_cons_tail (by simpa using hne)] at hsound hrest
  obtain ⟨hqsize, hq⟩ := hrest q (List.mem_cons_self ..)
  rw [hsizeq] at hqsize hq
  refine ⟨s', hfree, hsound, hqsize, ?_, ?_⟩
  · have hsub : ∀ r ∈ live.erase p, r ∈ live := fun r hr => List.mem_of_mem_erase hr
    exact ((hkept₁.trans hkept).mono hsub).trans
      (hrest.mono fun r hr => List.mem_cons_of_mem _ hr)
  · intro i hi
    have hcopy : copy s₁.mem q.toNat p.toNat (payloadSize s₁ p) (q.toNat + i) =
        s₁.mem (p.toNat + i) := copy_inside (by omega) (by omega)
    rw [hq i (by omega), ← hbytes i hi, ← hcopy]

/-- `krealloc` to a larger block. -/
theorem Malloced.move {s₁ : State} (hp : p ∈ live) (hm : Malloced s live n s₁ q)
    (hsmall : payloadSize s p < n.toNat) :
    ∃ s', kfree { s₁ with mem := copy s₁.mem q.toNat p.toNat (payloadSize s₁ p) } p = .ok s' ∧
      Sound s' (q :: live.erase p) ∧ Undisturbed s s' (live.erase p) ∧
        ∀ i < payloadSize s p, s'.mem (q.toNat + i) = s.mem (p.toNat + i) := by
  have hlarge := hm.large
  obtain ⟨s', hfree, hsound, -, hrest⟩ := hm.sound.move hm.undisturbed hp (by omega)
  exact ⟨s', hfree, hsound, hrest⟩

/-- A call that takes nothing back. -/
theorem Sound.fresh (h : Sound s live) (hgives : call.gives = 0#64)
    (hcall : (q = 0#64 ∧ s' = s) ∨ Malloced s live n s' q) :
    Sound s' (call.after q live) ∧ Preserves s live call s' q := by
  have hnone : call.gives ∉ live := by
    rw [hgives]
    exact h.zero_not_mem
  rw [HeapCall.after, List.erase_of_not_mem hnone]
  rcases hcall with ⟨rfl, rfl⟩ | hm
  · rw [if_pos rfl]
    exact ⟨h, Undisturbed.refl _ _, fun hne => absurd rfl hne⟩
  · rw [if_neg hm.ne_zero]
    refine ⟨hm.sound, ?_, fun _ hmem => absurd hmem hnone⟩
    rw [List.erase_of_not_mem hnone]
    exact hm.undisturbed

/-- A call that frees and returns NULL. -/
theorem Sound.freed (h : Sound s live) (hmem : call.gives ∈ live)
    (hcall : Heap.kfree s call.gives = .ok s') :
    Sound s' (call.after 0#64 live) ∧ Preserves s live call s' 0#64 := by
  obtain ⟨t, hrun, hsound, hkept⟩ := h.free hmem
  obtain rfl := Except.ok.inj (hrun.symm.trans hcall)
  rw [HeapCall.after, if_pos rfl]
  exact ⟨hsound, hkept, fun hne => absurd rfl hne⟩

theorem gives_ne_zero (h : Sound s live) (hp : p ∈ live) : p ≠ 0#64 := by
  rintro rfl
  exact h.zero_not_mem hp

/-- The header before a live pointer passes the check of `krealloc`. -/
theorem Sound.magic (h : Sound s live) (hp : p ∈ live) :
    Heap.magic s.mem (p - heapHeaderSize) = heapMagic := by
  by_contra hmagic
  obtain ⟨s', hrun, -⟩ := h.free hp
  rw [Heap.kfree, if_neg (gives_ne_zero h hp)] at hrun
  dsimp only at hrun
  rw [if_pos hmagic] at hrun
  cases hrun

/-- The four ways through `krealloc` for a live pointer. -/
theorem krealloc_live (h : Sound s live) (hp : p ∈ live) (n : Word) :
    Heap.krealloc s p n =
      if n = 0#64 then (Heap.kfree s p).map fun s => (s, 0#64)
      else if n.toNat ≤ payloadSize s p then .ok (s, p)
      else match Heap.kmalloc s n with
        | .error e => .error e
        | .ok (s₁, q) =>
            if q ≠ 0#64 then
              (Heap.kfree { s₁ with mem := copy s₁.mem q.toNat p.toNat (payloadSize s₁ p) } p).map
                fun s => (s, q)
            else .ok (s₁, q) := by
  rw [Heap.krealloc, if_neg (gives_ne_zero h hp)]
  dsimp only
  rw [if_neg (not_not_intro (h.magic hp))]
  split
  · cases Heap.kfree s p <;> rfl
  · refine if_congr Iff.rfl rfl ?_
    cases Heap.kmalloc s n with
    | error e => rfl
    | ok r =>
        change (if r.2 ≠ 0#64 then _ else _) = (if r.2 ≠ 0#64 then _ else _)
        refine if_congr Iff.rfl ?_ rfl
        change (Heap.kfree { r.1 with mem := copy r.1.mem r.2.toNat p.toNat (payloadSize r.1 p) } p >>=
          fun s => Except.ok (s, r.2)) = _
        cases Heap.kfree { r.1 with
          mem := copy r.1.mem r.2.toNat p.toNat (payloadSize r.1 p) } p <;> rfl

theorem Sound.realloc (h : Sound s live) (hp : p ∈ live) (hround : Rounds n)
    (hrun : Heap.krealloc s p n = .ok (s', q)) :
    Sound s' (HeapCall.after (.krealloc p n) q live) ∧
      Preserves s live (.krealloc p n) s' q := by
  rw [krealloc_live h hp] at hrun
  by_cases hn : n = 0#64
  · obtain ⟨t, hfree, -⟩ := h.free hp
    rw [if_pos hn, hfree] at hrun
    obtain ⟨rfl, rfl⟩ := Prod.mk.inj (Except.ok.inj hrun)
    exact h.freed hp hfree
  · rw [if_neg hn] at hrun
    by_cases hroom : n.toNat ≤ payloadSize s p
    · -- the block is large enough as it is
      rw [if_pos hroom] at hrun
      obtain ⟨rfl, rfl⟩ := Prod.mk.inj (Except.ok.inj hrun)
      rw [HeapCall.after, if_neg (gives_ne_zero h hp)]
      exact ⟨h.perm (List.perm_cons_erase hp).symm, Undisturbed.refl _ _, fun _ _ _ _ => rfl⟩
    · rw [if_neg hroom] at hrun
      cases hm : Heap.kmalloc s n with
      | error e =>
          rw [hm] at hrun
          cases hrun
      | ok r =>
          obtain ⟨s₁, r⟩ := r
          have hmalloc := h.malloc hn hround hm
          rw [hm] at hrun
          dsimp only at hrun
          rw [if_pos hmalloc.ne_zero] at hrun
          obtain ⟨t, hfree, hsound, hkept, hbytes⟩ := hmalloc.move hp (by omega)
          rw [hfree] at hrun
          obtain ⟨rfl, rfl⟩ := Prod.mk.inj (Except.ok.inj hrun)
          rw [HeapCall.after, if_neg hmalloc.ne_zero]
          exact ⟨hsound, hkept, fun _ _ => hbytes⟩

/-- A call on a sound heap with valid arguments keeps it sound. -/
theorem Sound.after_call (h : Sound s live) (hv : call.Valid live) (hrun : call.run s = .ok (s', q)) :
    Sound s' (call.after q live) ∧ Preserves s live call s' q := by
  obtain ⟨hgives, hround⟩ := hv
  cases call with
  | kmalloc n =>
      refine h.fresh rfl ((h.kmalloc hround hrun).imp_left ?_)
      rintro ⟨-, hq, hs⟩
      exact ⟨hq, hs⟩
  | kcalloc count n => exact h.fresh rfl (h.kcalloc hround hrun)
  | krealloc ptr n =>
      change Heap.krealloc s ptr n = .ok (s', q) at hrun
      rcases hgives with hnull | hmem
      · change ptr = 0#64 at hnull
        rw [Heap.krealloc, if_pos hnull] at hrun
        refine h.fresh hnull ((h.kmalloc hround hrun).imp_left ?_)
        rintro ⟨-, hq, hs⟩
        exact ⟨hq, hs⟩
      · change ptr ∈ live at hmem
        exact h.realloc hmem hround hrun
  | kfree ptr =>
      change (Heap.kfree s ptr).map _ = _ at hrun
      rcases hgives with hnull | hmem
      · change ptr = 0#64 at hnull
        subst hnull
        rw [Heap.kfree, if_pos rfl] at hrun
        obtain ⟨rfl, rfl⟩ := Prod.mk.inj (Except.ok.inj hrun)
        exact h.fresh (n := 0#64) rfl (Or.inl ⟨rfl, rfl⟩)
      · change ptr ∈ live at hmem
        obtain ⟨t, hfree, -⟩ := h.free hmem
        rw [hfree] at hrun
        obtain ⟨rfl, rfl⟩ := Prod.mk.inj (Except.ok.inj hrun)
        exact h.freed hmem hfree

/-- Memory is the only thing that can run out: no check of a header fails, and no
walk goes astray. -/
theorem Sound.stops {e : Stop} (h : Sound s live) (hv : call.Valid live)
    (he : call.run s = .error e) : e = .panic "Heap: Out of memory!" := by
  obtain ⟨hgives, hround⟩ := hv
  obtain ⟨bs, hblocks, -⟩ := id h
  cases call with
  | kmalloc n => exact kmalloc_error hblocks he
  | kcalloc count n =>
      change Heap.kcalloc s count n = .error e at he
      rw [Heap.kcalloc] at he
      cases hm : Heap.kmalloc s (count * n) with
      | error e' =>
          rw [hm] at he
          obtain rfl := Except.error.inj he
          exact kmalloc_error hblocks hm
      | ok r =>
          rw [hm] at he
          change (if r.2 ≠ 0#64 then _ else _) = _ at he
          split at he <;> cases he
  | krealloc ptr n =>
      change Heap.krealloc s ptr n = .error e at he
      rcases hgives with hnull | hmem
      · change ptr = 0#64 at hnull
        rw [Heap.krealloc, if_pos hnull] at he
        exact kmalloc_error hblocks he
      · change ptr ∈ live at hmem
        rw [krealloc_live h hmem] at he
        split at he
        · obtain ⟨t, hfree, -⟩ := h.free hmem
          rw [hfree] at he
          cases he
        · rename_i hn
          split at he
          · cases he
          · cases hm : Heap.kmalloc s n with
            | error e' =>
                rw [hm] at he
                obtain rfl := Except.error.inj he
                exact kmalloc_error hblocks hm
            | ok r =>
                obtain ⟨s₁, q⟩ := r
                have hmalloc := h.malloc hn hround hm
                obtain ⟨t, hfree, -⟩ := hmalloc.move hmem (by omega)
                rw [hm] at he
                dsimp only at he
                rw [if_pos hmalloc.ne_zero, hfree] at he
                cases he
  | kfree ptr =>
      change (Heap.kfree s ptr).map _ = _ at he
      rcases hgives with hnull | hmem
      · change ptr = 0#64 at hnull
        subst hnull
        rw [Heap.kfree, if_pos rfl] at he
        cases he
      · change ptr ∈ live at hmem
        obtain ⟨t, hfree, -⟩ := h.free hmem
        rw [hfree] at he
        cases he

end Calls

/-! ## Runs -/

structure Client where
  heap : State
  live : List Word

inductive HeapOp
  | call (call : HeapCall) (ptr : Word)
  | write (x : Nat) (b : Byte)

inductive HeapStep : Client → HeapOp → Client → Prop
  | call {c : Client} {call : HeapCall} {s' : State} {ptr : Word} (hv : call.Valid c.live)
      (hrun : call.run c.heap = .ok (s', ptr)) :
      HeapStep c (.call call ptr) { heap := s', live := call.after ptr c.live }
  | write {c : Client} {p : Word} {x : Nat} {b : Byte} (hp : p ∈ c.live) (hlow : p.toNat ≤ x)
      (hhigh : x < p.toNat + payloadSize c.heap p) :
      HeapStep c (.write x b)
        { c with heap := { c.heap with mem := write8 c.heap.mem x b } }

/-- Right after `heap_init`. -/
def Started (c : Client) : Prop := (∃ s, c.heap = heapInit s) ∧ c.live = []

/-- The integrity of a heap with its live pointers, and of every next call. -/
structure Intact (c : Client) : Prop where
  sound : Sound c.heap c.live
  aligned : ∀ p ∈ c.live, 16 ∣ p.toNat
  apart : c.live.Pairwise fun p q => p.toNat + payloadSize c.heap p ≤ q.toNat ∨
    q.toNat + payloadSize c.heap q ≤ p.toNat
  preserves : ∀ (call : HeapCall) s' ptr, call.Valid c.live → call.run c.heap = .ok (s', ptr) →
    Preserves c.heap c.live call s' ptr
  stops : ∀ (call : HeapCall) e, call.Valid c.live → call.run c.heap = .error e →
    e = .panic "Heap: Out of memory!"

section Runs

variable {c c' c₀ : Client} {op : HeapOp} {ops : List HeapOp}

theorem Started.sound (h : Started c) : Sound c.heap c.live := by
  obtain ⟨⟨s, hheap⟩, hlive⟩ := h
  have hnone : inUse [⟨0x100000 - headerSize, true⟩] = [] := by
    rw [inUse, payloads, if_pos rfl, payloads]
  rw [hheap, hlive]
  refine ⟨_, heapInit_blocks s, ?_⟩
  rw [Live, hnone, List.map_nil, List.map_nil]

theorem HeapStep.sound (h : Sound c.heap c.live) (hstep : HeapStep c op c') :
    Sound c'.heap c'.live := by
  cases hstep with
  | call hv hrun => exact (h.after_call hv hrun).1
  | write hp hlow hhigh => exact (h.write hp fun x hx => write8_outside (by omega)).1

theorem Sound.aligned {s : State} {live : List Word} {p : Word} (h : Sound s live) (hp : p ∈ live) :
    16 ∣ p.toNat := by
  obtain ⟨bs, hblocks, hlive⟩ := h
  obtain ⟨sz, hin⟩ := hlive.mem hp
  obtain ⟨pre, b, post, rfl, -, heq⟩ := mem_payloads hin
  have hspan : 16 ∣ span headerSize pre :=
    dvd_span (by decide) fun x hx => hblocks.aligned x (List.mem_append_left _ hx)
  have hstart := heapVirtStart_toNat
  have hsize : headerSize = 32 := rfl
  have hptr := (Prod.mk.inj heq).1
  omega

theorem Sound.intact (h : Sound c.heap c.live) : Intact c := by
  constructor
  case sound => exact h
  case aligned => exact fun p hp => h.aligned hp
  case apart =>
    exact h.nodup.imp_of_mem fun hp hq hne => h.apart hp hq hne
  case preserves => exact fun call s' ptr hv hrun => (h.after_call hv hrun).2
  case stops => exact fun call e hv he => h.stops hv he

theorem run_sound (h₀ : Started c₀) (hrun : Run HeapStep c₀ ops c) : Sound c.heap c.live :=
  hrun.invariant (I := fun c => Sound c.heap c.live) (fun _ _ _ h hstep => hstep.sound h) h₀.sound

/-- **Every run of the heap keeps its integrity**, and every further call keeps the
live payloads. -/
theorem heap_integrity (h₀ : Started c₀) (hrun : Run HeapStep c₀ ops c) : Intact c :=
  (run_sound h₀ hrun).intact

end Runs

/-- A machine that has not called `heap_init` yet. -/
def blankHeap : State where
  mem := fun _ => 0#8
  heapHead := 0#64
  heapEnd := 0#64
  heapTotal := 0#64
  heapUsed := 0#64
  pmm := { bitmap := fun _ => 0#8, totalPages := 0, usedPages := 0#64, totalMemory := 0 }
  serialLog := []

/-- A hundred bytes from a fresh heap. -/
theorem heap_integrity_alloc : ∃ s' p, kmalloc (heapInit blankHeap) 100#64 = .ok (s', p) ∧
    Intact { heap := s', live := [p] } := by
  obtain ⟨s', p, hk⟩ : ∃ s' p, kmalloc (heapInit blankHeap) 100#64 = .ok (s', p) :=
    ⟨_, _, kmalloc_eq (heapInit_blocks blankHeap) (by decide)⟩
  have hround : Rounds 100#64 := by decide
  have hstart : Started { heap := heapInit blankHeap, live := [] } := ⟨⟨blankHeap, rfl⟩, rfl⟩
  have hrun : Run HeapStep { heap := heapInit blankHeap, live := [] }
      [.call (.kmalloc 100#64) p] { heap := s', live := HeapCall.after (.kmalloc 100#64) p [] } :=
    .cons (.call ⟨Or.inl rfl, hround⟩ hk) (.nil _)
  have hne : p ≠ 0#64 := (hstart.sound.malloc (by decide) hround hk).ne_zero
  have hintact := heap_integrity hstart hrun
  rw [HeapCall.after, if_neg hne] at hintact
  exact ⟨s', p, hk, hintact⟩

end VectorForth.Heap
