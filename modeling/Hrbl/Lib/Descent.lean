import Mathlib.Data.List.Chain
import Mathlib.Data.List.Duplicate
import Mathlib.Data.Finset.Card
import Mathlib.Data.Finset.Dedup

/-!
# Descents

Chains of a relation that start at roots: a relation that is left from few places has long ones only
where a place is below itself, and then it has chains of any length.
-/

namespace Lib

open Relation

variable {α : Type} {R : α → α → Prop} {root : α → Prop}

/-- A chain from a root on, with the places behind the root. -/
def Descent (R : α → α → Prop) (root : α → Prop) (a : α) (below : List α) : Prop :=
  root a ∧ (a :: below).IsChain R

/-- Some place that is reached from a root is below itself. -/
def Cyclic (R : α → α → Prop) (root : α → Prop) : Prop :=
  ∃ a b, root a ∧ ReflTransGen R a b ∧ TransGen R b b

/-- Where the steps from the roots on climb, none of them leads back. -/
theorem not_cyclic_of_climbs (P : α → Prop) (height : α → Nat) (hroot : ∀ a, root a → P a)
    (hstep : ∀ a b, P a → R a b → P b ∧ height a < height b) : ¬Cyclic R root := by
  rintro ⟨a, b, ha, hreach, hcycle⟩
  have hplace : P b := by
    clear hcycle
    induction hreach with
    | refl => exact hroot a ha
    | tail _ hlast ih => exact (hstep _ _ ih hlast).1
  have hclimbs : ∀ c, TransGen R b c → P c ∧ height b < height c := by
    intro c hc
    induction hc with
    | single hfirst => exact hstep _ _ hplace hfirst
    | tail _ hlast ih =>
      obtain ⟨hc, hlt⟩ := ih
      obtain ⟨hd, hlt'⟩ := hstep _ _ hc hlast
      exact ⟨hd, Nat.lt_trans hlt hlt'⟩
  exact Nat.lt_irrefl _ (hclimbs b hcycle).2

/-- A chain with a place twice goes around. -/
theorem exists_cycle_of_not_nodup {l : List α} (hchain : l.IsChain R) (hdup : ¬l.Nodup) :
    ∃ b ∈ l, TransGen R b b := by
  obtain ⟨b, hb⟩ := List.exists_duplicate_iff_not_nodup.mpr hdup
  refine ⟨b, hb.mem, ?_⟩
  have htrans : l.IsChain (TransGen R) := hchain.imp fun _ _ h => TransGen.single h
  exact List.isChain_pair.mp (htrans.sublist (List.duplicate_iff_sublist.mp hb))

theorem reflTransGen_of_mem {a b : α} {below : List α} (hchain : (a :: below).IsChain R)
    (hb : b ∈ a :: below) : ReflTransGen R a b := by
  induction below generalizing a with
  | nil =>
    rw [List.mem_singleton.mp hb]
  | cons c below ih =>
    obtain ⟨hstep, hrest⟩ := List.isChain_cons_cons.mp hchain
    rcases List.mem_cons.mp hb with rfl | hb
    · exact .refl
    · exact .head hstep (ih hrest hb)

/-- With no more places that have one below them than the chain is long, it goes around. -/
theorem Descent.cyclic {a : α} {below : List α} (h : Descent R root a below) {inner : Finset α}
    (hinner : ∀ b c, R b c → b ∈ inner) (hlong : inner.card < below.length) :
    Cyclic R root := by
  classical
  obtain ⟨hroot, hchain⟩ := h
  -- every place but the last has one below it
  have hmem : ∀ b ∈ (a :: below).dropLast, b ∈ inner := by
    intro b hb
    obtain ⟨before, after, hsplit⟩ := List.append_of_mem hb
    have hlast := List.dropLast_append_getLast (List.cons_ne_nil a below)
    rw [hsplit, List.append_assoc, List.cons_append] at hlast
    rw [← hlast] at hchain
    obtain ⟨hstep, -⟩ := List.isChain_cons.mp hchain.right_of_append
    cases after with
    | nil => exact hinner b _ (hstep _ rfl)
    | cons c after => exact hinner b c (hstep c rfl)
  have hdup : ¬(a :: below).dropLast.Nodup := by
    intro hnodup
    have hle := Finset.card_le_card (s := (a :: below).dropLast.toFinset) (t := inner) fun b hb =>
      hmem b (List.mem_toFinset.mp hb)
    rw [List.toFinset_card_of_nodup hnodup, List.length_dropLast, List.length_cons] at hle
    omega
  obtain ⟨b, hb, hcycle⟩ := exists_cycle_of_not_nodup hchain.dropLast hdup
  exact ⟨a, b, hroot, reflTransGen_of_mem hchain (List.dropLast_subset _ hb), hcycle⟩

/-- From a place that is below itself, chains of any length. -/
theorem exists_chain_of_cycle {b : α} (h : TransGen R b b) (n : Nat) :
    ∃ below : List α, (b :: below).IsChain R ∧ below.length = n := by
  -- the first step of the way around leads to a place that is below itself as well
  induction n generalizing b with
  | zero => exact ⟨[], List.isChain_singleton b, rfl⟩
  | succ n ih =>
    obtain ⟨c, hstep, hback⟩ := TransGen.head'_iff.mp h
    obtain ⟨below, hchain, hlength⟩ := ih (TransGen.tail' hback hstep)
    exact ⟨c :: below, List.isChain_cons_cons.mpr ⟨hstep, hchain⟩, by
      rw [List.length_cons, hlength]⟩

theorem Cyclic.exists_descent (h : Cyclic R root) (n : Nat) :
    ∃ a below, Descent R root a below ∧ n ≤ below.length := by
  obtain ⟨a, b, hroot, hreach, hcycle⟩ := h
  obtain ⟨below, hchain, hle⟩ : ∃ below : List α, (a :: below).IsChain R ∧ n ≤ below.length := by
    clear hroot
    induction hreach using ReflTransGen.head_induction_on with
    | refl =>
      obtain ⟨below, hchain, hlength⟩ := exists_chain_of_cycle hcycle n
      exact ⟨below, hchain, hlength.ge⟩
    | head hstep hreach ih =>
      obtain ⟨below, hchain, hle⟩ := ih
      exact ⟨_ :: below, List.isChain_cons_cons.mpr ⟨hstep, hchain⟩, by
        rw [List.length_cons]
        omega⟩
  exact ⟨a, below, ⟨hroot, hchain⟩, hle⟩

end Lib
