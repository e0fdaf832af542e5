import Mathlib

/-!
# Open addressing

A table of slots searched by linear probing: from the home place of a hash one slot
after the other, around the end, up to a free one. `Reachable` is the invariant that
lets a search stop at a free slot: nothing is stored behind a gap. A search that never
ends is a result of its own (`Probe.endless`), and `probe_ne_endless` rules it out
while a slot is free.
-/

namespace Lib

variable {σ : Type}

/-- How a search ends: at a slot that is looked for, at a free place, or never. -/
inductive Probe (σ : Type) where
  | hit (slot : σ)
  | vacant (place : Nat)
  | endless
deriving Repr, DecidableEq

section

variable (live : σ → Bool)

/-- The search from `place` on. When no slot of the table ends it, it goes around for
ever; `turns` is the number of slots it may still look at. -/
def probe (hit : σ → Bool) (slots : List σ) : Nat → Nat → Probe σ
  | 0, _ => .endless
  | turns + 1, place =>
    match slots[place]? with
    | some slot =>
      if live slot then
        if hit slot then .hit slot else probe hit slots turns ((place + 1) % slots.length)
      else .vacant place
    | none => .vacant place

/-- What is stored in the table. -/
def stored (slots : List σ) : List σ := slots.filter live

/-- From the home place of every stored slot to its own there is no free one. -/
def Reachable (home : σ → Nat) (slots : List σ) : Prop :=
  ∀ (place : Nat) (slot : σ), slots[place]? = some slot → live slot = true →
    ∃ n < slots.length, place = (home slot + n) % slots.length ∧
      ∀ i < n, ∃ other, slots[(home slot + i) % slots.length]? = some other ∧ live other = true

end

variable {live : σ → Bool}

theorem exists_offset (start : Nat) {place size : Nat} (hplace : place < size) :
    ∃ n < size, place = (start + n) % size := by
  have hpos : 0 < size := by omega
  have hstart := Nat.mod_lt start hpos
  refine ⟨(place + size - start % size) % size, Nat.mod_lt _ hpos, ?_⟩
  rw [Nat.add_mod_mod, ← Nat.mod_add_mod,
    show start % size + (place + size - start % size) = place + size by omega,
    Nat.add_mod_right, Nat.mod_eq_of_lt hplace]

/-- The course of a search: the slots it passes are taken and not looked for. -/
theorem probe_cases (live hit : σ → Bool) {slots : List σ} (hpos : 0 < slots.length)
    (start turns : Nat) :
    ∃ n ≤ turns, (∀ i < n, ∃ other, slots[(start + i) % slots.length]? = some other ∧
        live other = true ∧ hit other = false) ∧
      ((n < turns ∧ ∃ slot, slots[(start + n) % slots.length]? = some slot ∧ live slot = true ∧
          hit slot = true ∧
          probe live hit slots turns (start % slots.length) = .hit slot) ∨
        (n < turns ∧ (∃ slot, slots[(start + n) % slots.length]? = some slot ∧
          live slot = false) ∧
          probe live hit slots turns (start % slots.length)
            = .vacant ((start + n) % slots.length)) ∨
        (n = turns ∧ probe live hit slots turns (start % slots.length) = .endless)) := by
  induction turns generalizing start with
  | zero =>
    exact ⟨0, Nat.le_refl 0, fun i hi => absurd hi (Nat.not_lt_zero i), .inr (.inr ⟨rfl, rfl⟩)⟩
  | succ turns ih =>
    obtain ⟨slot, hslot⟩ : ∃ slot, slots[start % slots.length]? = some slot :=
      ⟨_, List.getElem?_eq_getElem (Nat.mod_lt _ hpos)⟩
    rw [probe, hslot]
    simp only
    cases hlive : live slot with
    | false =>
      refine ⟨0, Nat.zero_le _, fun i hi => absurd hi (Nat.not_lt_zero i), .inr (.inl
        ⟨Nat.succ_pos _, ⟨slot, hslot, hlive⟩, ?_⟩)⟩
      rw [if_neg (by simp), Nat.add_zero]
    | true =>
      rw [if_pos rfl]
      cases hhit : hit slot with
      | true =>
        refine ⟨0, Nat.zero_le _, fun i hi => absurd hi (Nat.not_lt_zero i), .inl
          ⟨Nat.succ_pos _, slot, hslot, hlive, hhit, if_pos rfl⟩⟩
      | false =>
        rw [if_neg (by simp), Nat.mod_add_mod]
        obtain ⟨n, hn, hpassed, hend⟩ := ih (start + 1)
        have hshift : ∀ i, start + 1 + i = start + (i + 1) := fun i => by omega
        refine ⟨n + 1, Nat.succ_le_succ hn, fun i hi => ?_, ?_⟩
        · cases i with
          | zero => exact ⟨slot, hslot, hlive, hhit⟩
          | succ i =>
            rw [← hshift]
            exact hpassed i (Nat.lt_of_succ_lt_succ hi)
        · rw [← hshift]
          rcases hend with ⟨hlt, hfound⟩ | ⟨hlt, hfree⟩ | ⟨heq, hendless⟩
          · exact .inl ⟨Nat.succ_lt_succ hlt, hfound⟩
          · exact .inr (.inl ⟨Nat.succ_lt_succ hlt, hfree⟩)
          · exact .inr (.inr ⟨congrArg Nat.succ heq, hendless⟩)

/-- A table that stores less than it has slots has a free one. -/
theorem exists_vacant {slots : List σ} (h : (stored live slots).length < slots.length) :
    ∃ (place : Nat) (slot : σ), slots[place]? = some slot ∧ live slot = false := by
  by_contra hnone
  refine absurd h (Nat.not_lt.mpr (Nat.le_of_eq ?_))
  rw [stored, List.filter_eq_self.mpr]
  intro slot hslot
  obtain ⟨place, hplace⟩ := List.mem_iff_getElem?.mp hslot
  by_contra hlive
  exact hnone ⟨place, slot, hplace, Bool.eq_false_iff.mpr hlive⟩

/-- A search over the whole table ends while a slot is free. -/
theorem probe_ne_endless {hit : σ → Bool} {slots : List σ}
    (h : (stored live slots).length < slots.length) (start : Nat) :
    probe live hit slots slots.length (start % slots.length) ≠ .endless := by
  intro hendless
  have hpos : 0 < slots.length := by omega
  obtain ⟨place, slot, hplace, hfree⟩ := exists_vacant h
  obtain ⟨n, hn, heq⟩ := exists_offset start (List.getElem?_eq_some_iff.mp hplace).1
  obtain ⟨m, -, hpassed, hend⟩ := probe_cases live hit hpos start slots.length
  rcases hend with ⟨-, slot', -, -, -, hfound⟩ | ⟨-, -, hvacant⟩ | ⟨rfl, -⟩
  · rw [hendless] at hfound
    cases hfound
  · rw [hendless] at hvacant
    cases hvacant
  · obtain ⟨other, hother, hlive, -⟩ := hpassed n hn
    rw [← heq, hplace] at hother
    cases hother
    rw [hfree] at hlive
    cases hlive

/-- A search that stops at a free place has not missed anything of that home. -/
theorem probe_vacant_complete {home : σ → Nat} {hit : σ → Bool} {slots : List σ}
    (hreach : Reachable live home slots) {start place : Nat}
    (h : probe live hit slots slots.length (start % slots.length) = .vacant place) {slot : σ}
    (hslot : slot ∈ stored live slots) (hhome : home slot = start) : hit slot = false := by
  obtain ⟨hmem, hlive⟩ := List.mem_filter.mp hslot
  obtain ⟨q, hq⟩ := List.mem_iff_getElem?.mp hmem
  have hpos : 0 < slots.length := List.length_pos_of_mem hmem
  obtain ⟨n, hn, hqeq, htaken⟩ := hreach q slot hq hlive
  obtain ⟨m, -, hpassed, hend⟩ := probe_cases live hit hpos start slots.length
  rw [hhome] at hqeq htaken
  by_cases hnm : n < m
  · obtain ⟨other, hother, -, hnot⟩ := hpassed n hnm
    rw [← hqeq, hq] at hother
    cases hother
    exact hnot
  · rcases hend with ⟨-, slot', -, -, -, hfound⟩ | ⟨-, ⟨free, hfree, hdead⟩, -⟩ | ⟨rfl, -⟩
    · rw [h] at hfound
      cases hfound
    · -- the free place lies at or before the slot, which has no gap before it
      rcases Nat.lt_or_ge m n with hmn | hmn
      · obtain ⟨other, hother, hlive'⟩ := htaken m hmn
        rw [hfree] at hother
        cases hother
        rw [hdead] at hlive'
        cases hlive'
      · obtain rfl : m = n := by omega
        rw [← hqeq, hq] at hfree
        cases hfree
        rw [hdead] at hlive
        cases hlive
    · omega

/-- A search that is ended by a slot has found what it looked for, in the table. -/
theorem probe_hit_mem {hit : σ → Bool} {slots : List σ} {start : Nat} {slot : σ}
    (hpos : 0 < slots.length)
    (h : probe live hit slots slots.length (start % slots.length) = .hit slot) :
    slot ∈ stored live slots ∧ hit slot = true := by
  obtain ⟨n, -, -, hend⟩ := probe_cases live hit hpos start slots.length
  rcases hend with ⟨-, slot', hslot, hlive, hhit, hfound⟩ | ⟨-, -, hvacant⟩ | ⟨-, hendless⟩
  · rw [h] at hfound
    cases hfound
    exact ⟨List.mem_filter.mpr ⟨List.mem_iff_getElem?.mpr ⟨_, hslot⟩, hlive⟩, hhit⟩
  · rw [h] at hvacant
    cases hvacant
  · rw [h] at hendless
    cases hendless

theorem stored_set_perm {slots : List σ} {place : Nat} {slot new : σ}
    (hslot : slots[place]? = some slot) (hfree : live slot = false) (hnew : live new = true) :
    (stored live (slots.set place new)).Perm (new :: stored live slots) := by
  obtain ⟨hlt, hget⟩ := List.getElem?_eq_some_iff.mp hslot
  have hsplit : slots = slots.take place ++ slot :: slots.drop (place + 1) := by
    rw [← hget, List.getElem_cons_drop, List.take_append_drop]
  have hset : slots.set place new = slots.take place ++ new :: slots.drop (place + 1) :=
    List.set_eq_take_append_cons_drop.trans (if_pos hlt)
  rw [hset, stored, stored]
  conv => rhs; rw [hsplit]
  rw [List.filter_append, List.filter_append, List.filter_cons_of_pos hnew,
    List.filter_cons_of_neg (by simp [hfree])]
  exact List.perm_middle

/-- What is put where its search stops is found again, and so is everything else. -/
theorem Reachable.set {home : σ → Nat} {hit : σ → Bool} {slots : List σ}
    (hreach : Reachable live home slots) (hpos : 0 < slots.length) {place : Nat} {new : σ}
    (hnew : live new = true)
    (h : probe live hit slots slots.length (home new % slots.length) = .vacant place) :
    Reachable live home (slots.set place new) ∧
      (stored live (slots.set place new)).Perm (new :: stored live slots) := by
  obtain ⟨n, -, hpassed, hend⟩ := probe_cases live hit hpos (home new) slots.length
  rcases hend with ⟨-, slot', -, -, -, hfound⟩ | ⟨hn, ⟨free, hfree, hdead⟩, hvacant⟩ | ⟨-, hendless⟩
  · rw [h] at hfound
    cases hfound
  · rw [h] at hvacant
    obtain rfl : place = (home new + n) % slots.length := by cases hvacant; rfl
    refine ⟨?_, stored_set_perm hfree hdead hnew⟩
    have hkeep : ∀ (q : Nat) (other : σ), slots[q]? = some other → live other = true →
        ∃ other', (slots.set ((home new + n) % slots.length) new)[q]? = some other' ∧
          live other' = true := by
      intro q other hother hlive
      by_cases hq : (home new + n) % slots.length = q
      · exact ⟨new, by rw [← hq, List.getElem?_set_self (List.getElem?_eq_some_iff.mp hfree).1],
          hnew⟩
      · exact ⟨other, by rw [List.getElem?_set_ne hq, hother], hlive⟩
    intro q slot hslot hlive
    rw [List.length_set]
    by_cases hq : (home new + n) % slots.length = q
    · subst hq
      rw [List.getElem?_set_self (List.getElem?_eq_some_iff.mp hfree).1] at hslot
      cases hslot
      refine ⟨n, hn, rfl, fun i hi => ?_⟩
      obtain ⟨other, hother, hlive', -⟩ := hpassed i hi
      exact hkeep _ _ hother hlive'
    · rw [List.getElem?_set_ne hq] at hslot
      obtain ⟨k, hk, hqeq, htaken⟩ := hreach q slot hslot hlive
      refine ⟨k, hk, hqeq, fun i hi => ?_⟩
      obtain ⟨other, hother, hlive'⟩ := htaken i hi
      exact hkeep _ _ hother hlive'
  · rw [h] at hendless
    cases hendless

/-- An empty table. -/
theorem reachable_replicate (live : σ → Bool) (home : σ → Nat) (free : σ)
    (hfree : live free = false) (n : Nat) : Reachable live home (List.replicate n free) ∧
      stored live (List.replicate n free) = [] := by
  refine ⟨fun place slot hslot hlive => ?_, ?_⟩
  · rw [(List.mem_replicate.mp (List.mem_of_getElem? hslot)).2, hfree] at hlive
    cases hlive
  · rw [stored, List.filter_eq_nil_iff]
    intro slot hslot
    rw [(List.mem_replicate.mp hslot).2, hfree]
    exact Bool.false_ne_true

end Lib
