import Mathlib

/-!
# Sorting with a comparator

What a sort is to do with the comparator it is given, when that is a strict weak order of
the elements: a permutation in which nothing comes before something smaller. With a
comparator of keys this is the order of the keys, and there is one such list when the keys
are distinct.
-/

namespace Lib

/-- The comparator is a strict weak order of these elements. -/
structure StrictWeakOn {α : Type} (less : α → α → Bool) (l : List α) : Prop where
  asymm : ∀ a ∈ l, ∀ b ∈ l, less a b = true → less b a = false
  trans : ∀ a ∈ l, ∀ b ∈ l, ∀ c ∈ l, less b a = false → less c b = false → less c a = false

theorem StrictWeakOn.mono {α : Type} {less : α → α → Bool} {l l' : List α}
    (h : StrictWeakOn less l) (hsub : ∀ a ∈ l', a ∈ l) : StrictWeakOn less l' where
  asymm a ha b hb := h.asymm a (hsub a ha) b (hsub b hb)
  trans a ha b hb c hc := h.trans a (hsub a ha) b (hsub b hb) c (hsub c hc)

/-- A sort returns a permutation that is sorted for the comparator it is given. -/
def Sorts (sort : {α : Type} → (α → α → Bool) → List α → List α) : Prop :=
  ∀ {α : Type} (less : α → α → Bool) (l : List α), StrictWeakOn less l →
    (sort less l).Perm l ∧ (sort less l).Pairwise fun a b => less b a = false

/-! ## Keys -/

section

variable {α β : Type} [LinearOrder β] {less : α → α → Bool} {key : α → β} {l l' : List α}

theorem strictWeakOn_of_key (h : ∀ a ∈ l, ∀ b ∈ l, less a b = true ↔ key a < key b) :
    StrictWeakOn less l where
  asymm a ha b hb hab := by
    rw [← Bool.not_eq_true, h b hb a ha]
    exact ((h a ha b hb).mp hab).le.not_gt
  trans a ha b hb c hc hba hcb := by
    rw [← Bool.not_eq_true, h b hb a ha, not_lt] at hba
    rw [← Bool.not_eq_true, h c hc b hb, not_lt] at hcb
    rw [← Bool.not_eq_true, h c hc a ha, not_lt]
    exact hba.trans hcb

/-- A comparator of keys sorts by the keys. -/
theorem Sorts.by_key {sort : {α : Type} → (α → α → Bool) → List α → List α} (hsort : Sorts sort)
    (h : ∀ a ∈ l, ∀ b ∈ l, less a b = true ↔ key a < key b) :
    (sort less l).Perm l ∧ (sort less l).Pairwise fun a b => key a ≤ key b := by
  obtain ⟨hperm, hsorted⟩ := hsort less l (strictWeakOn_of_key h)
  refine ⟨hperm, List.Pairwise.imp_of_mem (fun {a b} ha hb hle => ?_) hsorted⟩
  rw [← Bool.not_eq_true, h b (hperm.mem_iff.mp hb) a (hperm.mem_iff.mp ha), not_lt] at hle
  exact hle

/-- With distinct keys there is one order. -/
theorem eq_of_sorted_of_perm (hnodup : (l.map key).Nodup) (hperm : l.Perm l')
    (hl : l.Pairwise fun a b => key a ≤ key b) (hl' : l'.Pairwise fun a b => key a ≤ key b) :
    l = l' := by
  refine List.Perm.eq_of_pairwise (fun a b ha hb hab hba => ?_) hl hl' hperm
  exact List.inj_on_of_nodup_map hnodup ha (hperm.mem_iff.mpr hb) (le_antisymm hab hba)

end

/-! ## A sort -/

/-- Insertion with a comparator, before what is not smaller. -/
def insertWith {α : Type} (less : α → α → Bool) (a : α) : List α → List α
  | [] => [a]
  | b :: l => if less b a then b :: insertWith less a l else a :: b :: l

def insertionSortWith {α : Type} (less : α → α → Bool) (l : List α) : List α :=
  l.foldr (insertWith less) []

theorem perm_insertWith {α : Type} (less : α → α → Bool) (a : α) (l : List α) :
    (insertWith less a l).Perm (a :: l) := by
  induction l with
  | nil => exact List.Perm.refl _
  | cons b l ih =>
    rw [insertWith]
    split
    · exact (ih.cons b).trans (List.Perm.swap a b l)
    · exact List.Perm.refl _

theorem pairwise_insertWith {α : Type} {less : α → α → Bool} {a : α} {l : List α}
    (h : StrictWeakOn less (a :: l)) (hl : l.Pairwise fun a b => less b a = false) :
    (insertWith less a l).Pairwise fun a b => less b a = false := by
  induction l with
  | nil => exact List.pairwise_singleton _ _
  | cons b l ih =>
    obtain ⟨hb, hl'⟩ := List.pairwise_cons.mp hl
    have hamem : a ∈ a :: b :: l := List.mem_cons_self
    have hbmem : b ∈ a :: b :: l := List.mem_cons_of_mem _ List.mem_cons_self
    have hsub : ∀ c ∈ a :: l, c ∈ a :: b :: l := fun c hc =>
      (List.mem_cons.mp hc).elim (fun heq => heq ▸ hamem)
        fun hin => List.mem_cons_of_mem _ (List.mem_cons_of_mem _ hin)
    rw [insertWith]
    by_cases hless : less b a = true
    · rw [if_pos hless]
      refine List.pairwise_cons.mpr ⟨fun c hc => ?_, ih (h.mono hsub) hl'⟩
      rcases List.mem_cons.mp ((perm_insertWith less a l).mem_iff.mp hc) with rfl | hc
      · exact h.asymm b hbmem c hamem hless
      · exact hb c hc
    · rw [if_neg hless]
      rw [Bool.not_eq_true] at hless
      refine List.pairwise_cons.mpr ⟨fun c hc => ?_, hl⟩
      rcases List.mem_cons.mp hc with rfl | hc'
      · exact hless
      · exact h.trans a hamem b hbmem c (List.mem_cons_of_mem _ hc) hless (hb c hc')

theorem sorts_insertionSortWith : Sorts insertionSortWith := by
  intro α less l
  induction l with
  | nil => exact fun _ => ⟨List.Perm.refl _, List.Pairwise.nil⟩
  | cons a l ih =>
    intro h
    obtain ⟨hperm, hsorted⟩ := ih (h.mono fun _ hx => List.mem_cons_of_mem _ hx)
    have hmem : ∀ x ∈ a :: insertionSortWith less l, x ∈ a :: l := fun x hx =>
      (hperm.cons a).mem_iff.mp hx
    exact ⟨(perm_insertWith less a _).trans (hperm.cons a),
      pairwise_insertWith (h.mono hmem) hsorted⟩

end Lib
