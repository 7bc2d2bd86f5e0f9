import Mathlib.Data.List.Chain
import Mathlib.Tactic.Common

/-!
# Block lists

A region cut into blocks, in address order: every block is a header of `hdr`
bytes and a payload, free or in use. First fit finds a free block that is large
enough, `carve` cuts the rest off it, and `coalesce` joins free neighbours. The
payloads in use never overlap, and no operation moves one.
-/

namespace BlockList

structure Block where
  size : Nat
  free : Bool
  deriving DecidableEq

/-- The bytes that the blocks take up, headers included. -/
def span (hdr : Nat) : List Block → Nat
  | [] => 0
  | b :: bs => hdr + b.size + span hdr bs

/-- The payload bytes in use. -/
def used : List Block → Nat
  | [] => 0
  | b :: bs => (if b.free then 0 else b.size) + used bs

/-- Address and size of the payloads in use, for blocks that start at `a`. -/
def payloads (hdr : Nat) : Nat → List Block → List (Nat × Nat)
  | _, [] => []
  | a, b :: bs =>
      if b.free then payloads hdr (a + (hdr + b.size)) bs
      else (a + hdr, b.size) :: payloads hdr (a + (hdr + b.size)) bs

/-- No two neighbours are both free. -/
def Separate (bs : List Block) : Prop :=
  bs.IsChain fun b c => ¬ (b.free = true ∧ c.free = true)

/-- The block at the head of the list takes in the free blocks after it. -/
def absorb (hdr : Nat) (b : Block) : List Block → List Block
  | [] => [b]
  | c :: bs =>
      if b.free && c.free then absorb hdr { b with size := b.size + (hdr + c.size) } bs
      else b :: absorb hdr c bs

def coalesce (hdr : Nat) : List Block → List Block
  | [] => []
  | b :: bs => absorb hdr b bs

def fits (n : Nat) (b : Block) : Bool := b.free && decide (n ≤ b.size)

/-- The blocks before the first that fits, that block, and those after it. -/
def firstFit (n : Nat) : List Block → Option (List Block × Block × List Block)
  | [] => none
  | b :: bs =>
      if fits n b then some ([], b, bs)
      else (firstFit n bs).map fun r => (b :: r.1, r.2)

/-- The block is put to use; what it has beyond `n` and `least` is cut off. -/
def carve (hdr least n : Nat) (b : Block) : List Block :=
  if b.size ≤ n + hdr + least then [{ b with free := false }]
  else [⟨n, false⟩, ⟨b.size - n - hdr, true⟩]

section Lists

variable {hdr least n k a : Nat} {b c d : Block} {bs pre post rest : List Block}
  {x y : Nat × Nat} {m : Nat}

/-! ## Concatenation -/

theorem span_append (xs ys : List Block) : span hdr (xs ++ ys) = span hdr xs + span hdr ys := by
  induction xs with
  | nil => rw [List.nil_append, span, Nat.zero_add]
  | cons b xs ih => rw [List.cons_append, span, span, ih, Nat.add_assoc (hdr + b.size)]

theorem used_append (xs ys : List Block) : used (xs ++ ys) = used xs + used ys := by
  induction xs with
  | nil => rw [List.nil_append, used, Nat.zero_add]
  | cons b xs ih => rw [List.cons_append, used, used, ih, Nat.add_assoc]

theorem payloads_append (a : Nat) (xs ys : List Block) :
    payloads hdr a (xs ++ ys) = payloads hdr a xs ++ payloads hdr (a + span hdr xs) ys := by
  induction xs generalizing a with
  | nil => rfl
  | cons b xs ih =>
      rw [List.cons_append, payloads, payloads, ih, span, ← Nat.add_assoc a (hdr + b.size)]
      split
      · rfl
      · rfl

theorem used_le_span (hdr : Nat) (bs : List Block) : used bs ≤ span hdr bs := by
  induction bs with
  | nil => exact Nat.le_refl _
  | cons b bs ih =>
      rw [used, span]
      split <;> omega

theorem dvd_span (hk : k ∣ hdr) (h : ∀ x ∈ bs, k ∣ x.size) : k ∣ span hdr bs := by
  induction bs with
  | nil => exact Nat.dvd_zero k
  | cons b bs ih =>
      have hb := h b (List.mem_cons_self ..)
      exact Nat.dvd_add (Nat.dvd_add hk hb) (ih fun x hx => h x (List.mem_cons_of_mem _ hx))

/-! ## Payloads -/

/-- A payload in use belongs to a block of the list. -/
theorem mem_payloads (h : x ∈ payloads hdr a bs) : ∃ pre b post, bs = pre ++ b :: post ∧
    b.free = false ∧ x = (a + span hdr pre + hdr, b.size) := by
  induction bs generalizing a with
  | nil => exact absurd h List.not_mem_nil
  | cons b bs ih =>
      have hrest : x ∈ payloads hdr (a + (hdr + b.size)) bs → ∃ pre c post,
          b :: bs = pre ++ c :: post ∧ c.free = false ∧ x = (a + span hdr pre + hdr, c.size) := by
        intro hx
        obtain ⟨pre, c, post, rfl, hc, rfl⟩ := ih hx
        refine ⟨b :: pre, c, post, rfl, hc, ?_⟩
        rw [span, ← Nat.add_assoc a (hdr + b.size)]
      rw [payloads] at h
      split at h
      · exact hrest h
      · rename_i hfree
        rcases List.mem_cons.mp h with rfl | h
        · exact ⟨[], b, bs, rfl, by simpa using hfree, rfl⟩
        · exact hrest h

theorem payload_mem (h : bs = pre ++ b :: post) (hb : b.free = false) :
    (a + span hdr pre + hdr, b.size) ∈ payloads hdr a bs := by
  rw [h, payloads_append, payloads, if_neg (by simp [hb])]
  exact List.mem_append_right _ (List.mem_cons_self ..)

theorem payload_bounds (h : x ∈ payloads hdr a bs) :
    a + hdr ≤ x.1 ∧ x.1 + x.2 ≤ a + span hdr bs := by
  obtain ⟨pre, b, post, rfl, -, rfl⟩ := mem_payloads h
  rw [span_append, span]
  constructor <;> omega

theorem length_payloads_le (hdr a : Nat) (bs : List Block) :
    (payloads hdr a bs).length ≤ bs.length := by
  induction bs generalizing a with
  | nil => exact Nat.le_refl _
  | cons b bs ih =>
      have hrest := ih (a + (hdr + b.size))
      rw [payloads, List.length_cons]
      split
      · omega
      · rw [List.length_cons]
        omega

/-- Payloads in use are apart, with a header between them. -/
theorem payloads_apart (a : Nat) (bs : List Block) :
    (payloads hdr a bs).Pairwise fun x y => x.1 + x.2 + hdr ≤ y.1 := by
  induction bs generalizing a with
  | nil => exact .nil
  | cons b bs ih =>
      rw [payloads]
      split
      · exact ih _
      · refine List.pairwise_cons.mpr ⟨?_, ih _⟩
        intro y hy
        have hy' := (payload_bounds hy).1
        dsimp only
        omega

/-! ## Joining free neighbours -/

/-- Whatever is absorbed, the head of the list stays free or in use. -/
theorem absorb_head (b : Block) (bs : List Block) :
    ∃ n rest, absorb hdr b bs = { b with size := n } :: rest := by
  induction bs generalizing b with
  | nil => exact ⟨b.size, [], rfl⟩
  | cons c bs ih =>
      rw [absorb]
      split
      · obtain ⟨n, rest, h⟩ := ih { b with size := b.size + (hdr + c.size) }
        exact ⟨n, rest, h⟩
      · exact ⟨b.size, absorb hdr c bs, rfl⟩

theorem span_absorb (b : Block) (bs : List Block) :
    span hdr (absorb hdr b bs) = span hdr (b :: bs) := by
  induction bs generalizing b with
  | nil => rfl
  | cons c bs ih =>
      rw [absorb]
      split
      · rw [ih, span, span, span]
        dsimp only
        omega
      · rw [span, ih]
        rfl

theorem used_absorb (b : Block) (bs : List Block) : used (absorb hdr b bs) = used (b :: bs) := by
  induction bs generalizing b with
  | nil => rfl
  | cons c bs ih =>
      rw [absorb]
      split
      · rename_i hfree
        obtain ⟨hb, hc⟩ := Bool.and_eq_true_iff.mp hfree
        rw [ih, used, used, used, if_pos hb, if_pos hb, if_pos hc, Nat.zero_add, Nat.zero_add]
      · rw [used, ih]
        rfl

theorem payloads_absorb (a : Nat) (b : Block) (bs : List Block) :
    payloads hdr a (absorb hdr b bs) = payloads hdr a (b :: bs) := by
  induction bs generalizing a b with
  | nil => rfl
  | cons c bs ih =>
      rw [absorb]
      split
      · rename_i hfree
        obtain ⟨hb, hc⟩ := Bool.and_eq_true_iff.mp hfree
        rw [ih, payloads, payloads, payloads, if_pos hb, if_pos hb, if_pos hc]
        congr 1
        dsimp only
        omega
      · rw [payloads, ih]
        rfl

theorem separate_absorb (b : Block) (bs : List Block) : Separate (absorb hdr b bs) := by
  induction bs generalizing b with
  | nil => exact List.isChain_singleton _
  | cons c bs ih =>
      rw [absorb]
      split
      · exact ih _
      · rename_i hfree
        have hrest := ih c
        obtain ⟨n, rest, h⟩ := @absorb_head hdr c bs
        rw [h] at hrest ⊢
        refine List.isChain_cons_cons.mpr ⟨?_, hrest⟩
        rintro ⟨hb, hc⟩
        exact hfree (by rw [hb]; exact hc)

theorem dvd_absorb (hk : k ∣ hdr) (h : ∀ x ∈ b :: bs, k ∣ x.size) :
    ∀ x ∈ absorb hdr b bs, k ∣ x.size := by
  induction bs generalizing b with
  | nil => exact h
  | cons c bs ih =>
      have hb := h b (List.mem_cons_self ..)
      have hc := h c (List.mem_cons_of_mem _ (List.mem_cons_self ..))
      have hbs : ∀ x ∈ bs, k ∣ x.size :=
        fun x hx => h x (List.mem_cons_of_mem _ (List.mem_cons_of_mem _ hx))
      rw [absorb]
      split
      · refine ih ?_
        intro x hx
        rcases List.mem_cons.mp hx with rfl | hx
        · exact Nat.dvd_add hb (Nat.dvd_add hk hc)
        · exact hbs x hx
      · intro x hx
        rcases List.mem_cons.mp hx with rfl | hx
        · exact hb
        · exact ih (fun y hy => h y (List.mem_cons_of_mem _ hy)) x hx

theorem span_coalesce (bs : List Block) : span hdr (coalesce hdr bs) = span hdr bs := by
  cases bs with
  | nil => rfl
  | cons b bs => exact span_absorb b bs

theorem used_coalesce (bs : List Block) : used (coalesce hdr bs) = used bs := by
  cases bs with
  | nil => rfl
  | cons b bs => exact used_absorb b bs

theorem payloads_coalesce (a : Nat) (bs : List Block) :
    payloads hdr a (coalesce hdr bs) = payloads hdr a bs := by
  cases bs with
  | nil => rfl
  | cons b bs => exact payloads_absorb a b bs

theorem separate_coalesce (bs : List Block) : Separate (coalesce hdr bs) := by
  cases bs with
  | nil => exact List.isChain_nil
  | cons b bs => exact separate_absorb b bs

theorem dvd_coalesce (hk : k ∣ hdr) (h : ∀ x ∈ bs, k ∣ x.size) :
    ∀ x ∈ coalesce hdr bs, k ∣ x.size := by
  cases bs with
  | nil => exact h
  | cons b bs => exact dvd_absorb hk h

theorem absorb_free (hb : b.free = true) (hc : c.free = true) :
    absorb hdr b (c :: bs) = absorb hdr { b with size := b.size + (hdr + c.size) } bs := by
  rw [absorb, hb, hc]
  rfl

theorem absorb_busy (hb : b.free = false) : absorb hdr b (c :: bs) = b :: absorb hdr c bs := by
  rw [absorb, hb]
  rfl

/-- Joining two free neighbours first makes no difference. -/
theorem absorb_join (b : Block) (hc : c.free = true) (hd : d.free = true) :
    absorb hdr b (pre ++ c :: d :: post) =
      absorb hdr b (pre ++ { c with size := c.size + (hdr + d.size) } :: post) := by
  induction pre generalizing b with
  | nil =>
      rw [List.nil_append, List.nil_append]
      cases hb : b.free with
      | true =>
          have hjoined : absorb hdr b ({ c with size := c.size + (hdr + d.size) } :: post) =
              absorb hdr { b with size := b.size + (hdr + (c.size + (hdr + d.size))) } post :=
            absorb_free hb hc
          have hstep : absorb hdr { b with size := b.size + (hdr + c.size) } (d :: post) =
              absorb hdr { b with size := b.size + (hdr + c.size) + (hdr + d.size) } post :=
            absorb_free hb hd
          rw [absorb_free hb hc, hstep, hjoined, Nat.add_assoc b.size, Nat.add_assoc hdr]
      | false => rw [absorb_busy hb, absorb_busy hb, absorb_free hc hd]
  | cons x pre ih =>
      rw [List.cons_append, List.cons_append, absorb, absorb]
      split
      · exact ih _
      · rw [ih]

theorem coalesce_join (hc : c.free = true) (hd : d.free = true) :
    coalesce hdr (pre ++ c :: d :: post) =
      coalesce hdr (pre ++ { c with size := c.size + (hdr + d.size) } :: post) := by
  cases pre with
  | nil =>
      rw [List.nil_append, List.nil_append, coalesce, coalesce, absorb, hc, hd]
      rfl
  | cons x pre => exact absorb_join x hc hd

/-- There is nothing to join where no two neighbours are free. -/
theorem absorb_of_separate (h : Separate (b :: bs)) : absorb hdr b bs = b :: bs := by
  induction bs generalizing b with
  | nil => rfl
  | cons c bs ih =>
      obtain ⟨hbc, hrest⟩ := List.isChain_cons_cons.mp h
      rw [absorb, if_neg (fun hfree => hbc (Bool.and_eq_true_iff.mp hfree)), ih hrest]

theorem coalesce_of_separate (h : Separate bs) : coalesce hdr bs = bs := by
  cases bs with
  | nil => rfl
  | cons b bs => exact absorb_of_separate h

/-! ## All free -/

theorem free_of_payloads (h : payloads hdr a bs = []) : ∀ b ∈ bs, b.free = true := by
  induction bs generalizing a with
  | nil => exact fun b hb => absurd hb List.not_mem_nil
  | cons c bs ih =>
      rw [payloads] at h
      split at h
      · rename_i hc
        intro b hb
        rcases List.mem_cons.mp hb with rfl | hb
        · exact hc
        · exact ih h b hb
      · cases h

/-- A separate list of free blocks is one block. -/
theorem single_of_free (h : Separate bs) (hfree : ∀ b ∈ bs, b.free = true) (hne : bs ≠ []) :
    bs = [⟨span hdr bs - hdr, true⟩] := by
  cases bs with
  | nil => exact absurd rfl hne
  | cons b bs =>
      have hb := hfree b (List.mem_cons_self ..)
      cases bs with
      | nil =>
          rw [span, span]
          obtain ⟨size, free⟩ := b
          obtain rfl : free = true := hb
          rw [Nat.add_zero, Nat.add_sub_cancel_left]
      | cons c bs =>
          have hc := hfree c (List.mem_cons_of_mem _ (List.mem_cons_self ..))
          exact absurd ⟨hb, hc⟩ (List.isChain_cons_cons.mp h).1

/-! ## First fit -/

theorem firstFit_some (h : firstFit n bs = some (pre, b, post)) :
    bs = pre ++ b :: post ∧ fits n b = true ∧ ∀ x ∈ pre, fits n x = false := by
  induction bs generalizing pre with
  | nil => cases h
  | cons c bs ih =>
      rw [firstFit] at h
      split at h
      · rename_i hfits
        cases h
        exact ⟨rfl, hfits, fun x hx => absurd hx List.not_mem_nil⟩
      · rename_i hfits
        obtain ⟨⟨pre', r⟩, hr, heq⟩ := Option.map_eq_some_iff.mp h
        obtain ⟨rfl, rfl⟩ := Prod.mk.inj heq
        obtain ⟨rfl, hb, hpre⟩ := ih hr
        refine ⟨rfl, hb, ?_⟩
        intro x hx
        rcases List.mem_cons.mp hx with rfl | hx
        · simpa using hfits
        · exact hpre x hx

theorem firstFit_none (h : firstFit n bs = none) : ∀ x ∈ bs, fits n x = false := by
  induction bs with
  | nil => exact fun x hx => absurd hx List.not_mem_nil
  | cons c bs ih =>
      rw [firstFit] at h
      split at h
      · cases h
      · rename_i hfits
        intro x hx
        rcases List.mem_cons.mp hx with rfl | hx
        · simpa using hfits
        · exact ih (Option.map_eq_none_iff.mp h) x hx

theorem firstFit_append (post : List Block) (hpre : ∀ x ∈ pre, fits n x = false)
    (hb : fits n b = true) :
    firstFit n (pre ++ b :: post) = some (pre, b, post) := by
  induction pre with
  | nil => rw [List.nil_append, firstFit, if_pos hb]
  | cons x pre ih =>
      have hx := hpre x (List.mem_cons_self ..)
      rw [List.cons_append, firstFit, if_neg (by rw [hx]; exact Bool.false_ne_true),
        ih fun y hy => hpre y (List.mem_cons_of_mem _ hy)]
      rfl

theorem firstFit_eq_none (h : ∀ x ∈ bs, fits n x = false) : firstFit n bs = none := by
  induction bs with
  | nil => rfl
  | cons x bs ih =>
      have hx := h x (List.mem_cons_self ..)
      rw [firstFit, if_neg (by rw [hx]; exact Bool.false_ne_true),
        ih fun y hy => h y (List.mem_cons_of_mem _ hy)]
      rfl

/-! ## Carving -/

/-- What the carved block has become. -/
theorem carve_head (h : n ≤ b.size) : ∃ m rest, carve hdr least n b = ⟨m, false⟩ :: rest ∧
    n ≤ m ∧ m ≤ b.size ∧ used (carve hdr least n b) = m ∧
    payloads hdr a (carve hdr least n b) = [(a + hdr, m)] := by
  unfold carve
  split
  · exact ⟨b.size, [], rfl, h, Nat.le_refl _, rfl, rfl⟩
  · exact ⟨n, _, rfl, Nat.le_refl _, h, rfl, rfl⟩

theorem span_carve (b : Block) : span hdr (carve hdr least n b) = hdr + b.size := by
  unfold carve
  split
  · rfl
  · simp only [span]
    omega

theorem dvd_carve (hk : k ∣ hdr) (hn : k ∣ n) (hb : k ∣ b.size) :
    ∀ x ∈ carve hdr least n b, k ∣ x.size := by
  intro x hx
  unfold carve at hx
  split at hx
  · rw [List.mem_singleton.mp hx]
    exact hb
  · rcases List.mem_cons.mp hx with rfl | hx
    · exact hn
    · rw [List.mem_singleton.mp hx]
      exact Nat.dvd_sub (Nat.dvd_sub hb hn) hk

/-- The neighbours of a free block are in use, so the rest that is cut off has no
free neighbour. -/
theorem separate_carve (h : Separate (pre ++ b :: post)) (hb : b.free = true) :
    Separate (pre ++ carve hdr least n b ++ post) := by
  obtain ⟨hpre, hpost, -⟩ := List.isChain_append.mp h
  obtain ⟨hnext, hpost⟩ := List.isChain_cons.mp hpost
  have hcarved : Separate (carve hdr least n b) := by
    unfold carve
    split
    · exact List.isChain_singleton _
    · exact List.isChain_pair.mpr (by simp)
  refine List.isChain_append.mpr ⟨List.isChain_append.mpr ⟨hpre, hcarved, ?_⟩, hpost, ?_⟩
  · intro x _ y hy
    have hhead : (carve hdr least n b).head?.map Block.free = some false := by
      unfold carve
      split <;> rfl
    rw [hy] at hhead
    simp at hhead
    simp [hhead]
  · intro x _ y hy hboth
    exact hnext y hy ⟨hb, hboth.2⟩

/-- A carved block: its head in use, and the rest. -/
theorem carve_eq (b : Block) : carve hdr least n b =
    if b.size ≤ n + hdr + least then [⟨b.size, false⟩]
    else [⟨n, false⟩, ⟨b.size - n - hdr, true⟩] := rfl

/-- **Freeing what was carved gives the list back.** -/
theorem coalesce_carve (h : Separate (pre ++ b :: post)) (hb : b.free = true) (hm : m ≤ b.size)
    (hcarve : carve hdr least n b = ⟨m, false⟩ :: rest) :
    coalesce hdr (pre ++ ⟨m, true⟩ :: rest ++ post) = pre ++ b :: post := by
  obtain ⟨size, free⟩ := b
  obtain rfl : free = true := hb
  rw [carve_eq] at hcarve
  split at hcarve
  · obtain ⟨hhead, rfl⟩ := List.cons.inj hcarve
    obtain ⟨rfl, -⟩ := Block.mk.inj hhead
    rw [List.append_assoc]
    exact coalesce_of_separate h
  · rename_i hlarge
    obtain ⟨hhead, rfl⟩ := List.cons.inj hcarve
    obtain ⟨rfl, -⟩ := Block.mk.inj hhead
    have hsize : n + (hdr + (size - n - hdr)) = size := by
      dsimp only at hlarge
      omega
    rw [List.append_assoc, List.cons_append, List.singleton_append, coalesce_join rfl rfl]
    dsimp only
    rw [hsize]
    exact coalesce_of_separate h

end Lists

end BlockList
