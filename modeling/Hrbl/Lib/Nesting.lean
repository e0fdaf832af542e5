import Mathlib

/-!
# Nested ranges

Trees whose nodes are laid out in one line of addresses: a node with everything below it takes a
range, and the first part of that range is its own. When the ranges of siblings are apart and
behind what is their parent's own, nodes at different paths share no address.
-/

namespace Lib

/-- Trees with a range for each node. The part of a node's own is between `first` and `last`. -/
structure Nesting (α : Type) where
  children : α → List α
  start : α → Nat
  stop : α → Nat
  first : α → Nat
  last : α → Nat

namespace Nesting

variable {α : Type} (n : Nesting α)

/-- The node below another one, by the places of children. -/
def under : α → List Nat → Option α
  | a, [] => some a
  | a, i :: path => (n.children a)[i]?.bind fun child => under child path

/-- The node among some trees, of which the first place is one. -/
def among (roots : List α) : List Nat → Option α
  | [] => none
  | i :: path => roots[i]?.bind fun a => n.under a path

/-- The ranges of two nodes have nothing in common. -/
def Apart (a b : α) : Prop := n.stop a ≤ n.start b ∨ n.stop b ≤ n.start a

/-- What is the own of two nodes has nothing in common. -/
def OwnApart (a b : α) : Prop := n.last a ≤ n.first b ∨ n.last b ≤ n.first a

/-- The range of a node is what is its own, and behind it the ranges of its children. -/
structure Tight (a : α) : Prop where
  start_le : n.start a ≤ n.first a
  first_le : n.first a ≤ n.last a
  le_stop : n.last a ≤ n.stop a
  behind : ∀ child ∈ n.children a, n.last a ≤ n.start child
  inside : ∀ child ∈ n.children a, n.stop child ≤ n.stop a
  apart : (n.children a).Pairwise n.Apart

theorem Apart.symm {n : Nesting α} {a b : α} (h : n.Apart a b) : n.Apart b a := Or.symm h

theorem OwnApart.symm {n : Nesting α} {a b : α} (h : n.OwnApart a b) : n.OwnApart b a := Or.symm h

/-- Different members of a list are apart, whichever comes first. -/
theorem apart_of_ne {n : Nesting α} {l : List α} (h : l.Pairwise n.Apart) {i j : Nat} {a b : α}
    (hi : l[i]? = some a) (hj : l[j]? = some b) (hne : i ≠ j) : n.Apart a b := by
  obtain ⟨hilt, rfl⟩ := List.getElem?_eq_some_iff.mp hi
  obtain ⟨hjlt, rfl⟩ := List.getElem?_eq_some_iff.mp hj
  rw [List.pairwise_iff_getElem] at h
  rcases Nat.lt_or_gt_of_ne hne with hlt | hlt
  · exact h i j hilt hjlt hlt
  · exact (h j i hjlt hilt hlt).symm

section

variable {n} {Good : α → Prop}
  (hgood : ∀ a, Good a → n.Tight a ∧ ∀ child ∈ n.children a, Good child)

include hgood

/-- What is below a node is as good, and inside of its range. -/
theorem under_inside {a b : α} {path : List Nat} (ha : Good a) (h : n.under a path = some b) :
    Good b ∧ n.start a ≤ n.start b ∧ n.stop b ≤ n.stop a := by
  induction path generalizing a with
  | nil =>
    cases h
    exact ⟨ha, Nat.le_refl _, Nat.le_refl _⟩
  | cons i path ih =>
    obtain ⟨child, hchild, hrest⟩ := Option.bind_eq_some_iff.mp h
    obtain ⟨htight, hchildren⟩ := hgood a ha
    have hmem := List.mem_of_getElem? hchild
    obtain ⟨hb, hstart, hstop⟩ := ih (hchildren child hmem) hrest
    have hbehind := htight.behind child hmem
    have hfirst := htight.start_le
    have hlast := htight.first_le
    exact ⟨hb, by omega, hstop.trans (htight.inside child hmem)⟩

/-- What is the own of a node is inside of the range of a node above it. -/
theorem own_inside {a b : α} {path : List Nat} (ha : Good a) (h : n.under a path = some b) :
    n.start a ≤ n.first b ∧ n.last b ≤ n.stop a := by
  obtain ⟨hb, hstart, hstop⟩ := under_inside hgood ha h
  exact ⟨hstart.trans (hgood b hb).1.start_le, (hgood b hb).1.le_stop.trans hstop⟩

/-- Nodes below nodes that are apart have nothing in common. -/
theorem ownApart_of_apart {a b c d : α} {path path' : List Nat} (ha : Good a) (hb : Good b)
    (hapart : n.Apart a b) (hc : n.under a path = some c) (hd : n.under b path' = some d) :
    n.OwnApart c d := by
  obtain ⟨hstart, hstop⟩ := own_inside hgood ha hc
  obtain ⟨hstart', hstop'⟩ := own_inside hgood hb hd
  rcases hapart with h | h
  · exact .inl (by omega)
  · exact .inr (by omega)

/-- A node has nothing in common with what is further below. -/
theorem ownApart_below {a b : α} {i : Nat} {path : List Nat} (ha : Good a)
    (h : n.under a (i :: path) = some b) : n.OwnApart a b := by
  obtain ⟨child, hchild, hrest⟩ := Option.bind_eq_some_iff.mp h
  obtain ⟨htight, hchildren⟩ := hgood a ha
  have hmem := List.mem_of_getElem? hchild
  obtain ⟨hstart, -⟩ := own_inside hgood (hchildren child hmem) hrest
  exact .inl ((htight.behind child hmem).trans hstart)

theorem under_ownApart {a b c : α} {path path' : List Nat} (ha : Good a)
    (hb : n.under a path = some b) (hc : n.under a path' = some c) (hne : path ≠ path') :
    n.OwnApart b c := by
  induction path generalizing a path' with
  | nil =>
    cases hb
    cases path' with
    | nil => exact absurd rfl hne
    | cons j path' => exact ownApart_below hgood ha hc
  | cons i path ih =>
    cases path' with
    | nil =>
      cases hc
      exact (ownApart_below hgood ha hb).symm
    | cons j path' =>
      obtain ⟨child, hchild, hb⟩ := Option.bind_eq_some_iff.mp hb
      obtain ⟨child', hchild', hc⟩ := Option.bind_eq_some_iff.mp hc
      obtain ⟨htight, hchildren⟩ := hgood a ha
      have hgood₁ := hchildren child (List.mem_of_getElem? hchild)
      have hgood₂ := hchildren child' (List.mem_of_getElem? hchild')
      by_cases hij : i = j
      -- the paths go on together
      · subst hij
        cases hchild.symm.trans hchild'
        exact ih hgood₁ hb hc fun heq => hne (heq ▸ rfl)
      -- they part here
      · exact ownApart_of_apart hgood hgood₁ hgood₂ (apart_of_ne htight.apart hchild hchild' hij)
          hb hc

/-- Nodes at different paths among trees that are apart have nothing in common. -/
theorem among_ownApart {roots : List α} (hroots : ∀ a ∈ roots, Good a)
    (hapart : roots.Pairwise n.Apart) {a b : α} {path path' : List Nat}
    (ha : n.among roots path = some a) (hb : n.among roots path' = some b) (hne : path ≠ path') :
    n.OwnApart a b := by
  cases path with
  | nil => cases ha
  | cons i path =>
    cases path' with
    | nil => cases hb
    | cons j path' =>
      obtain ⟨root, hroot, ha⟩ := Option.bind_eq_some_iff.mp ha
      obtain ⟨root', hroot', hb⟩ := Option.bind_eq_some_iff.mp hb
      have hgood₁ := hroots root (List.mem_of_getElem? hroot)
      have hgood₂ := hroots root' (List.mem_of_getElem? hroot')
      by_cases hij : i = j
      · subst hij
        cases hroot.symm.trans hroot'
        exact under_ownApart hgood hgood₁ ha hb fun heq => hne (heq ▸ rfl)
      · exact ownApart_of_apart hgood hgood₁ hgood₂ (apart_of_ne hapart hroot hroot' hij) ha hb

end

end Nesting

/-- Ranges that are apart and inside of another range take no more room than that one. -/
theorem sum_width_le {ι : Type} [DecidableEq ι] {s : Finset ι} {low size : Nat}
    (first width : ι → Nat) (hinside : ∀ i ∈ s, low ≤ first i ∧ first i + width i ≤ low + size)
    (hapart : ∀ i ∈ s, ∀ j ∈ s, i ≠ j →
      first i + width i ≤ first j ∨ first j + width j ≤ first i) :
    ∑ i ∈ s, width i ≤ size := by
  have hcard : ∀ i ∈ s, (Finset.Ico (first i) (first i + width i)).card = width i := by
    intro i _
    rw [Nat.card_Ico, Nat.add_sub_cancel_left]
  have hdisjoint : ∀ i ∈ s, ∀ j ∈ s, i ≠ j →
      Disjoint (Finset.Ico (first i) (first i + width i))
        (Finset.Ico (first j) (first j + width j)) := by
    intro i hi j hj hne
    rw [Finset.disjoint_left]
    intro x hx hx'
    rw [Finset.mem_Ico] at hx hx'
    rcases hapart i hi j hj hne with h | h
    · omega
    · omega
  have hunion : (s.biUnion fun i => Finset.Ico (first i) (first i + width i)) ⊆
      Finset.Ico low (low + size) := by
    intro x hx
    obtain ⟨i, hi, hmem⟩ := Finset.mem_biUnion.mp hx
    obtain ⟨hlow, hhigh⟩ := hinside i hi
    rw [Finset.mem_Ico] at hmem ⊢
    omega
  have hle := Finset.card_le_card hunion
  rw [Finset.card_biUnion hdisjoint, Finset.sum_congr rfl hcard, Nat.card_Ico,
    Nat.add_sub_cancel_left] at hle
  exact hle

end Lib
