import Mathlib.Data.List.Basic
import Mathlib.Tactic.Common

/-!
# Radix trees in a store

A tree of depth `d` whose nodes are named, as page tables are: a slot of a node is
empty, holds a leaf or names a child. What a slot means may depend on how many
indices are still to come, its level. `Reach` relates a path, the last index
first, to the node it leads to; when no node has two paths (`IsTree`), an update
of one slot concerns only the keys that go through it.
-/

namespace RadixTree

/-- What is found in a slot. -/
inductive Slot (ν L : Type*)
  | empty
  | leaf (l : L)
  | child (u : ν)

variable {ν ι L : Type*}

/-- Follow a key: the leaf it meets, with the indices not consumed. -/
def lookup (slot : Nat → ν → ι → Slot ν L) : ν → List ι → Option (L × List ι)
  | _, [] => none
  | t, i :: is =>
      match slot is.length t i with
      | .empty => none
      | .leaf l => some (l, is)
      | .child u => lookup slot u is

/-- The node at the end of a path from the root. -/
inductive Reach (slot : Nat → ν → ι → Slot ν L) (d : Nat) (root : ν) : List ι → ν → Prop
  | root : Reach slot d root [] root
  | child {p : List ι} {t u : ν} {i : ι} (h : Reach slot d root p t)
      (hs : slot (d - (p.length + 1)) t i = .child u) : Reach slot d root (i :: p) u

/-- No node has two paths. -/
def IsTree (slot : Nat → ν → ι → Slot ν L) (d : Nat) (root : ν) : Prop :=
  ∀ p q t, Reach slot d root p t → Reach slot d root q t → p = q

/-- The last level holds leaves only. -/
def Bottom (slot : Nat → ν → ι → Slot ν L) : Prop := ∀ t i u, slot 0 t i ≠ .child u

/-- The slots of the nodes in the tree are the same, but for slot `i` of the node
at `p`. -/
def SameBut (slot slot' : Nat → ν → ι → Slot ν L) (d : Nat) (root : ν) (p : List ι) (i : ι) : Prop :=
  ∀ q t j, Reach slot d root q t → ¬ (q = p ∧ j = i) →
    slot' (d - (q.length + 1)) t j = slot (d - (q.length + 1)) t j

section Tree

variable {slot slot' : Nat → ν → ι → Slot ν L} {d : Nat} {root t u : ν} {p q is : List ι} {i : ι}

theorem Reach.length_lt (h : Reach slot d root p t) (hb : Bottom slot) (hd : 0 < d) :
    p.length < d := by
  cases h with
  | root => exact hd
  | @child p t u i h hs =>
      rw [List.length_cons]
      by_contra hge
      rw [show d - (p.length + 1) = 0 by omega] at hs
      exact hb _ _ _ hs

theorem Reach.unique (h : Reach slot d root p t) (h' : Reach slot d root p u) : t = u := by
  induction h generalizing u with
  | root =>
      cases h' with
      | root => rfl
  | child h hs ih =>
      cases h' with
      | child h' hs' =>
          rw [← ih h', hs] at hs'
          cases hs'
          rfl

/-- The way to a node leads through the nodes before it. -/
theorem Reach.of_suffix (h : Reach slot d root q t) (hsuf : p <:+ q) :
    ∃ u, Reach slot d root p u := by
  induction h with
  | root =>
      obtain rfl := List.suffix_nil.mp hsuf
      exact ⟨root, .root⟩
  | child h hs ih =>
      rcases List.suffix_cons_iff.mp hsuf with rfl | hsuf
      · exact ⟨_, .child h hs⟩
      · exact ih hsuf

/-- A key goes on from the node that its beginning leads to. -/
theorem Reach.lookup_append (h : Reach slot d root p t) (is : List ι)
    (hlen : p.length + is.length = d) :
    lookup slot root (p.reverse ++ is) = lookup slot t is := by
  induction h generalizing is with
  | root => rfl
  | @child p t u i h hs ih =>
      rw [List.length_cons] at hlen
      have hlevel : d - (p.length + 1) = is.length := by omega
      have hgo := ih (i :: is) (by rw [List.length_cons]; omega)
      rw [hlevel] at hs
      rw [List.reverse_cons, List.append_assoc, List.singleton_append, hgo, lookup, hs]

/-! ## A slot is changed -/

/-- Nodes whose path does not go through the slot stay where they are. -/
theorem SameBut.reach (h : SameBut slot slot' d root p i) (hq : Reach slot d root q t)
    (hpass : ¬ (i :: p) <:+ q) : Reach slot' d root q t := by
  induction hq with
  | root => exact .root
  | @child q t u j hq hs ih =>
      refine .child (ih fun hsuf => hpass (hsuf.trans (List.suffix_cons j q))) ?_
      rw [h q t j hq ?_, hs]
      rintro ⟨rfl, rfl⟩
      exact hpass (List.suffix_refl _)

theorem SameBut.symm_reach (h : SameBut slot slot' d root p i) (hq : Reach slot' d root q t)
    (hpass : ¬ (i :: p) <:+ q) : Reach slot d root q t := by
  induction hq with
  | root => exact .root
  | @child q t u j hq hs ih =>
      have hold := ih fun hsuf => hpass (hsuf.trans (List.suffix_cons j q))
      refine .child hold ?_
      rw [← h q t j hold ?_, hs]
      rintro ⟨rfl, rfl⟩
      exact hpass (List.suffix_refl _)

/-- **Keys that do not go through the slot are looked up as before.** -/
theorem SameBut.lookup (h : SameBut slot slot' d root p i) (hq : Reach slot d root q t)
    (hlen : q.length + is.length = d) (hpass : ¬ (i :: p) <:+ is.reverse ++ q) :
    lookup slot' t is = lookup slot t is := by
  induction is generalizing q t with
  | nil => rfl
  | cons j is ih =>
      rw [List.length_cons] at hlen
      rw [List.reverse_cons, List.append_assoc, List.singleton_append] at hpass
      have hlevel : d - (q.length + 1) = is.length := by omega
      have hslot := h q t j hq (by
        rintro ⟨rfl, rfl⟩
        exact hpass (List.suffix_append _ _))
      rw [hlevel] at hslot
      rw [RadixTree.lookup, RadixTree.lookup, hslot]
      cases hs : slot is.length t j with
      | empty => rfl
      | leaf l => rfl
      | child u =>
          rw [← hlevel] at hs
          exact ih (.child hq hs) (by rw [List.length_cons]; omega) hpass

/-! ## A leaf is set or cleared -/

/-- A change at the last level moves no node. -/
theorem SameBut.reach_iff (h : SameBut slot slot' d root p i) (hp : d ≤ p.length + 1)
    (hb : Bottom slot) (hb' : Bottom slot') (hd : 0 < d) :
    Reach slot' d root q t ↔ Reach slot d root q t := by
  have hpass : ∀ {slot : Nat → ν → ι → Slot ν L}, Bottom slot → Reach slot d root q t →
      ¬ (i :: p) <:+ q := by
    intro slot hb hq hsuf
    have hlen := hq.length_lt hb hd
    have hle := hsuf.length_le
    rw [List.length_cons] at hle
    omega
  exact ⟨fun hq => h.symm_reach hq (hpass hb' hq), fun hq => h.reach hq (hpass hb hq)⟩

/-! ## A node is added -/

/-- In an empty slot of the node `t` at `p`, a child `u` that is not in the tree and
whose slots are empty. -/
structure Grown (slot slot' : Nat → ν → ι → Slot ν L) (d : Nat) (root : ν) (p : List ι) (t : ν)
    (i : ι) (u : ν) : Prop where
  reach : Reach slot d root p t
  same : SameBut slot slot' d root p i
  empty : slot (d - (p.length + 1)) t i = .empty
  child : slot' (d - (p.length + 1)) t i = .child u
  fresh : ∀ q, ¬ Reach slot d root q u
  blank : ∀ k j, slot' k u j = .empty

/-- Nothing was reached through the slot before. -/
theorem Grown.not_suffix (h : Grown slot slot' d root p t i u) {v : ν}
    (hq : Reach slot d root q v) : ¬ (i :: p) <:+ q := by
  induction hq with
  | root => exact fun hsuf => absurd (List.suffix_nil.mp hsuf) (List.cons_ne_nil _ _)
  | @child q v w j hq hs ih =>
      intro hsuf
      rcases List.suffix_cons_iff.mp hsuf with heq | hsuf
      · obtain ⟨rfl, rfl⟩ := List.cons.inj heq
        rw [hq.unique h.reach, h.empty] at hs
        cases hs
      · exact ih hsuf

theorem Grown.keeps (h : Grown slot slot' d root p t i u) {v : ν} (hq : Reach slot d root q v) :
    Reach slot' d root q v :=
  h.same.reach hq (h.not_suffix hq)

theorem Grown.new (h : Grown slot slot' d root p t i u) : Reach slot' d root (i :: p) u :=
  .child (h.keeps h.reach) h.child

/-- The tree has one node more. -/
theorem Grown.reach_iff (h : Grown slot slot' d root p t i u) {v : ν} :
    Reach slot' d root q v ↔ Reach slot d root q v ∨ (q = i :: p ∧ v = u) := by
  constructor
  · intro hq
    induction hq with
    | root => exact Or.inl .root
    | @child q v w j hq hs ih =>
        rcases ih with hold | ⟨rfl, rfl⟩
        · by_cases hslot : q = p ∧ j = i
          · obtain ⟨rfl, rfl⟩ := hslot
            rw [hold.unique h.reach, h.child] at hs
            cases hs
            exact Or.inr ⟨rfl, rfl⟩
          · rw [h.same q v j hold hslot] at hs
            exact Or.inl (.child hold hs)
        · rw [h.blank] at hs
          cases hs
  · rintro (hold | ⟨rfl, rfl⟩)
    · exact h.keeps hold
    · exact h.new

theorem Grown.isTree (h : Grown slot slot' d root p t i u) (htree : IsTree slot d root) :
    IsTree slot' d root := by
  intro q q' v hq hq'
  rcases h.reach_iff.mp hq with hold | ⟨rfl, rfl⟩
  · rcases h.reach_iff.mp hq' with hold' | ⟨rfl, rfl⟩
    · exact htree _ _ _ hold hold'
    · exact absurd hold (h.fresh q)
  · rcases h.reach_iff.mp hq' with hold' | ⟨rfl, -⟩
    · exact absurd hold' (h.fresh q')
    · rfl

/-- **A new node changes no lookup.** -/
theorem Grown.lookup (h : Grown slot slot' d root p t i u) (hlen : is.length = d) :
    lookup slot' root is = lookup slot root is := by
  by_cases hpass : (i :: p) <:+ is.reverse
  · -- the key meets the slot, empty before and with an empty node after
    obtain ⟨rest, hrest⟩ := hpass
    have hkey : is = (i :: p).reverse ++ rest.reverse := by
      rw [← List.reverse_append, hrest, List.reverse_reverse]
    have hlen' : (i :: p).length + rest.reverse.length = d := by
      rw [← hlen, hkey]
      simp only [List.length_append, List.length_reverse]
    have hlen₀ : p.length + (i :: rest.reverse).length = d := by
      rw [← hlen', List.length_cons, List.length_cons]
      omega
    have hlevel : d - (p.length + 1) = rest.reverse.length := by
      rw [List.length_cons] at hlen'
      omega
    have hbefore : RadixTree.lookup slot root is = none := by
      have hslot := h.empty
      rw [hlevel] at hslot
      rw [hkey, List.reverse_cons, List.append_assoc, List.singleton_append,
        h.reach.lookup_append _ hlen₀, RadixTree.lookup, hslot]
    have hafter : RadixTree.lookup slot' root is = none := by
      rw [hkey, h.new.lookup_append _ hlen']
      cases rest.reverse with
      | nil => rfl
      | cons j js => rw [RadixTree.lookup, h.blank]
    rw [hbefore, hafter]
  · exact h.same.lookup .root (by rw [List.length_nil, Nat.zero_add, hlen])
      (by rwa [List.append_nil])

/-! ## No slot is changed -/

/-- The slots of the nodes in the tree are the same. -/
def Same (slot slot' : Nat → ν → ι → Slot ν L) (d : Nat) (root : ν) : Prop :=
  ∀ q t j, Reach slot d root q t → slot' (d - (q.length + 1)) t j = slot (d - (q.length + 1)) t j

theorem Same.reach (h : Same slot slot' d root) (hq : Reach slot d root q t) :
    Reach slot' d root q t := by
  induction hq with
  | root => exact .root
  | child hq hs ih => exact .child ih ((h _ _ _ hq).trans hs)

theorem Same.reach_iff (h : Same slot slot' d root) :
    Reach slot' d root q t ↔ Reach slot d root q t := by
  constructor
  · intro hq
    induction hq with
    | root => exact .root
    | child _ hs ih => exact .child ih ((h _ _ _ ih).symm.trans hs)
  · exact h.reach

theorem Same.lookup (h : Same slot slot' d root) (hq : Reach slot d root q t)
    (hlen : q.length + is.length = d) : lookup slot' t is = lookup slot t is := by
  induction is generalizing q t with
  | nil => rfl
  | cons j is ih =>
      rw [List.length_cons] at hlen
      have hlevel : d - (q.length + 1) = is.length := by omega
      have hslot := h q t j hq
      rw [hlevel] at hslot
      rw [RadixTree.lookup, RadixTree.lookup, hslot]
      cases hs : slot is.length t j with
      | empty => rfl
      | leaf l => rfl
      | child u =>
          rw [← hlevel] at hs
          exact ih (.child hq hs) (by rw [List.length_cons]; omega)

end Tree

end RadixTree
