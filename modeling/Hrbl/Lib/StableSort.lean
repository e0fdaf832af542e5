import Mathlib

/-!
# Stable sorting

A stable sort keeps, for every key, the elements with that key in their order. That
and being sorted determine the result (`IsStableSort.unique`), so that two algorithms
are compared by showing each of them stable. `bucketSort` sorts by one digit, and
sorting by every digit from the lowest up sorts by the number (`isStableSort_digit`).
-/

namespace Lib

variable {α : Type}

/-! ## Stable sorts -/

/-- `output` is `input` in the order of the keys, and elements of one key keep their
order. -/
structure IsStableSort (key : α → Nat) (input output : List α) : Prop where
  sorted : output.Pairwise fun a b => key a ≤ key b
  stable : ∀ k, output.filter (fun a => key a = k) = input.filter fun a => key a = k

theorem IsStableSort.mem_iff {key : α → Nat} {input output : List α}
    (h : IsStableSort key input output) (a : α) : a ∈ output ↔ a ∈ input := by
  have hfilter := congrArg (fun l => a ∈ l) (h.stable (key a))
  simpa using hfilter

/-- Sorted lists that agree on the elements of every key are equal. -/
theorem eq_of_sorted_of_filter_eq {key : α → Nat} {as bs : List α}
    (ha : as.Pairwise fun a b => key a ≤ key b) (hb : bs.Pairwise fun a b => key a ≤ key b)
    (h : ∀ k, as.filter (fun a => key a = k) = bs.filter fun a => key a = k) : as = bs := by
  have hmem : ∀ a, a ∈ as ↔ a ∈ bs := by
    intro a
    have hfilter := congrArg (fun l => a ∈ l) (h (key a))
    simpa using hfilter
  induction as generalizing bs with
  | nil =>
    cases bs with
    | nil => rfl
    | cons b bs => exact absurd ((hmem b).mpr List.mem_cons_self) List.not_mem_nil
  | cons a as ih =>
    cases bs with
    | nil => exact absurd ((hmem a).mp List.mem_cons_self) List.not_mem_nil
    | cons b bs =>
      obtain ⟨hamin, hsorted⟩ := List.pairwise_cons.mp ha
      obtain ⟨hbmin, hsorted'⟩ := List.pairwise_cons.mp hb
      -- both heads have the least key
      have hle : key a ≤ key b := by
        rcases List.mem_cons.mp ((hmem b).mpr List.mem_cons_self) with heq | hin
        · rw [heq]
        · exact hamin b hin
      have hge : key b ≤ key a := by
        rcases List.mem_cons.mp ((hmem a).mp List.mem_cons_self) with heq | hin
        · rw [heq]
        · exact hbmin a hin
      have hkey : key b = key a := Nat.le_antisymm hge hle
      have hhead := h (key a)
      rw [List.filter_cons_of_pos (by simp), List.filter_cons_of_pos (by simp [hkey])] at hhead
      obtain ⟨rfl, htail⟩ := List.cons.inj hhead
      have hrest : ∀ k, as.filter (fun a => key a = k) = bs.filter fun a => key a = k := by
        intro k
        by_cases hk : key a = k
        · rw [← hk]
          exact htail
        · have hfilter := h k
          rwa [List.filter_cons_of_neg (by simp [hk]), List.filter_cons_of_neg (by simp [hk])]
            at hfilter
      refine congrArg (a :: ·) (ih hsorted hsorted' hrest fun c => ?_)
      have hfilter := congrArg (fun l => c ∈ l) (hrest (key c))
      simpa using hfilter

/-- There is one stable sort. -/
theorem IsStableSort.unique {key : α → Nat} {input output output' : List α}
    (h : IsStableSort key input output) (h' : IsStableSort key input output') :
    output = output' :=
  eq_of_sorted_of_filter_eq h.sorted h'.sorted fun k => (h.stable k).trans (h'.stable k).symm

theorem IsStableSort.congr {key key' : α → Nat} {input output : List α}
    (h : IsStableSort key input output) (hkey : ∀ a, key a = key' a) :
    IsStableSort key' input output := by
  obtain rfl : key = key' := funext hkey
  exact h

/-- The stable sort, computed by insertion from the right. -/
def stableSort (key : α → Nat) (l : List α) : List α :=
  l.insertionSort fun a b => key a ≤ key b

theorem filter_orderedInsert (key : α → Nat) (k : Nat) (a : α) (l : List α) :
    (l.orderedInsert (fun a b => key a ≤ key b) a).filter (fun b => key b = k)
      = (a :: l).filter fun b => key b = k := by
  induction l with
  | nil => rfl
  | cons b l ih =>
    rw [List.orderedInsert_cons]
    by_cases hle : key a ≤ key b
    · rw [if_pos hle]
    · rw [if_neg hle, List.filter_cons, ih]
      by_cases ha : key a = k
      · have hb : key b ≠ k := fun heq => hle (ha.trans heq.symm).le
        simp [ha, hb]
      · simp [List.filter_cons, ha]

theorem isStableSort_stableSort (key : α → Nat) (l : List α) :
    IsStableSort key l (stableSort key l) where
  sorted := by
    have : Std.Total fun a b : α => key a ≤ key b := ⟨fun a b => Nat.le_total _ _⟩
    have : IsTrans α fun a b => key a ≤ key b := ⟨fun _ _ _ => Nat.le_trans⟩
    exact List.pairwise_insertionSort _ l
  stable k := by
    induction l with
    | nil => rfl
    | cons a l ih =>
      rw [stableSort, List.insertionSort_cons, filter_orderedInsert, List.filter_cons,
        List.filter_cons, show (l.insertionSort fun a b => key a ≤ key b).filter _ = _ from ih]

/-- Sorting commutes with a map that keeps the keys. -/
theorem stableSort_map {β : Type} (key : β → Nat) (f : α → β) (l : List α) :
    stableSort key (l.map f) = (stableSort (fun a => key (f a)) l).map f :=
  (List.map_insertionSort (fun a b => key (f a) ≤ key (f b)) (fun a b => key a ≤ key b) f l
    fun _ _ _ _ => Iff.rfl).symm

theorem stableSort_perm (key : α → Nat) (l : List α) : (stableSort key l).Perm l :=
  List.perm_insertionSort _ l

@[simp] theorem length_stableSort (key : α → Nat) (l : List α) :
    (stableSort key l).length = l.length := (stableSort_perm key l).length_eq

theorem forall₂_orderedInsert {β : Type} {R : α → β → Prop} {key : α → Nat} {key' : β → Nat}
    (hkey : ∀ a b, R a b → key a = key' b) {a : α} {b : β} (hab : R a b) {l : List α}
    {l' : List β} (h : List.Forall₂ R l l') :
    List.Forall₂ R (l.orderedInsert (fun a b => key a ≤ key b) a)
      (l'.orderedInsert (fun a b => key' a ≤ key' b) b) := by
  induction h with
  | nil => exact .cons hab .nil
  | cons hcd hrest ih =>
    rename_i c d l l'
    rw [List.orderedInsert_cons, List.orderedInsert_cons, hkey a b hab, hkey c d hcd]
    split
    · exact .cons hab (.cons hcd hrest)
    · exact .cons hcd ih

/-- Lists that are related element by element, with the same keys, are so when sorted. -/
theorem forall₂_stableSort {β : Type} {R : α → β → Prop} {key : α → Nat} {key' : β → Nat}
    (hkey : ∀ a b, R a b → key a = key' b) {l : List α} {l' : List β}
    (h : List.Forall₂ R l l') : List.Forall₂ R (stableSort key l) (stableSort key' l') := by
  induction h with
  | nil => exact .nil
  | cons hab _ ih => exact forall₂_orderedInsert hkey hab ih

/-! ## Buckets -/

/-- The elements of digit `0`, then those of digit `1`, up to `m`. -/
def bucketSort (digit : α → Nat) (m : Nat) (l : List α) : List α :=
  (List.range m).flatMap fun d => l.filter fun a => digit a = d

theorem bucketSort_succ (digit : α → Nat) (m : Nat) (l : List α) :
    bucketSort digit (m + 1) l = bucketSort digit m l ++ l.filter fun a => digit a = m := by
  rw [bucketSort, bucketSort, List.range_succ, List.flatMap_append, List.flatMap_singleton]

/-- A filter that fixes the digit looks into one bucket. -/
theorem filter_bucketSort {digit : α → Nat} {m d : Nat} {q : α → Bool} (hd : d < m)
    (hq : ∀ a, q a = true → digit a = d) (l : List α) :
    (bucketSort digit m l).filter q = l.filter q := by
  have hbucket : ∀ k, (l.filter fun a => digit a = k).filter q
      = if k = d then l.filter q else [] := by
    intro k
    rw [List.filter_filter]
    split
    · rename_i heq
      refine List.filter_congr fun a _ => ?_
      cases hqa : q a with
      | false => rfl
      | true => simp [hq a hqa, heq]
    · rename_i hne
      refine List.filter_eq_nil_iff.mpr fun a _ hboth => hne ?_
      obtain ⟨hqa, hdigit⟩ := Bool.and_eq_true_iff.mp hboth
      rw [← hq a hqa, of_decide_eq_true hdigit]
  induction m with
  | zero => omega
  | succ m ih =>
    rw [bucketSort_succ, List.filter_append, hbucket]
    by_cases hdm : d < m
    · rw [ih hdm, if_neg (by omega), List.append_nil]
    · -- the last bucket, and those before it have nothing
      obtain rfl : d = m := by omega
      rw [if_pos rfl]
      have hnil : (bucketSort digit d l).filter q = [] := by
        refine List.filter_eq_nil_iff.mpr fun a ha hqa => ?_
        obtain ⟨k, hk, hin⟩ := List.mem_flatMap.mp ha
        have hdigit := (List.mem_filter.mp hin).2
        rw [decide_eq_true_eq, hq a hqa] at hdigit
        rw [List.mem_range] at hk
        omega
      rw [hnil, List.nil_append]

theorem length_bucketSort {digit : α → Nat} {m : Nat} {l : List α} (h : ∀ a, digit a < m) :
    (bucketSort digit m l).length = l.length := by
  have hcount : ∀ k, (bucketSort digit k l).length = (l.filter fun a => digit a < k).length := by
    intro k
    induction k with
    | zero => simp [bucketSort]
    | succ k ih =>
      rw [bucketSort_succ, List.length_append, ih]
      clear ih
      induction l with
      | nil => rfl
      | cons a l ih =>
        simp only [List.filter_cons]
        rcases Nat.lt_trichotomy (digit a) k with hlt | heq | hgt
        · simp only [hlt, Nat.lt_succ_of_lt hlt, Nat.ne_of_lt hlt, decide_true, decide_false,
            if_true, Bool.false_eq_true, if_false, List.length_cons]
          omega
        · simp only [heq, Nat.lt_irrefl, Nat.lt_succ_self, decide_true, decide_false, if_true,
            Bool.false_eq_true, if_false, List.length_cons]
          omega
        · have hnot : ¬ digit a < k + 1 := by omega
          simp only [hnot, Nat.not_lt_of_gt hgt, Nat.ne_of_gt hgt, decide_false,
            Bool.false_eq_true, if_false]
          exact ih
  rw [hcount, List.filter_eq_self.mpr fun a _ => decide_eq_true (h a)]

/-- One more digit: a list that is stably sorted by the digits below `base` is stably
sorted with the next digit as well after a bucket sort by it. -/
theorem isStableSort_digit {key : α → Nat} {input mid : List α} {base m : Nat} (hbase : 0 < base)
    (hm : 0 < m) (h : IsStableSort (fun a => key a % base) input mid) :
    IsStableSort (fun a => key a % (base * m)) input
      (bucketSort (fun a => key a / base % m) m mid) := by
  have hsplit : ∀ a, key a % (base * m) = key a % base + base * (key a / base % m) :=
    fun a => Nat.mod_mul
  refine ⟨?_, fun k => ?_⟩
  · rw [bucketSort, List.pairwise_flatMap]
    refine ⟨fun d _ => ?_, ?_⟩
    · -- within a bucket, by the digits below
      rw [List.pairwise_filter]
      refine h.sorted.imp fun {a b} hab ha hb => ?_
      rw [decide_eq_true_eq] at ha hb
      rw [hsplit, hsplit, ha, hb]
      omega
    · -- between buckets, by the digit
      refine List.Pairwise.imp (fun {d e} hde a ha b hb => ?_) List.pairwise_lt_range
      have ha' := of_decide_eq_true (List.mem_filter.mp ha).2
      have hb' := of_decide_eq_true (List.mem_filter.mp hb).2
      rw [hsplit, hsplit, ha', hb']
      have hlow := Nat.mod_lt (key a) hbase
      have hle : base * (d + 1) ≤ base * e := Nat.mul_le_mul_left base hde
      rw [Nat.mul_succ] at hle
      omega
  · by_cases hk : k < base * m
    · have hdigit : ∀ a, decide (key a % (base * m) = k) = true → key a / base % m = k / base := by
        intro a ha
        rw [decide_eq_true_eq, hsplit] at ha
        have hlow := Nat.mod_lt (key a) hbase
        rw [← ha, Nat.add_mul_div_left _ _ hbase, Nat.div_eq_of_lt hlow, Nat.zero_add]
      have hlt : k / base < m := Nat.div_lt_of_lt_mul hk
      rw [filter_bucketSort hlt hdigit]
      -- the elements with the digits of `k` are among those with its digits below
      have hnarrow : ∀ l : List α, l.filter (fun a => key a % (base * m) = k)
          = (l.filter fun a => key a % base = k % base).filter
              fun a => key a / base % m = k / base := by
        intro l
        rw [List.filter_filter]
        refine List.filter_congr fun a _ => ?_
        rw [← Bool.decide_and, decide_eq_decide]
        have hlow := Nat.mod_lt (key a) hbase
        have hk' := Nat.div_add_mod k base
        constructor
        · intro heq
          refine ⟨hdigit a (decide_eq_true heq), ?_⟩
          rw [← heq, Nat.mod_mul_right_mod]
        · rintro ⟨hhigh, hlow'⟩
          rw [hsplit, hhigh, hlow']
          omega
      rw [hnarrow, hnarrow, h.stable]
    · have hnone : ∀ l : List α, l.filter (fun a => key a % (base * m) = k) = [] := by
        intro l
        refine List.filter_eq_nil_iff.mpr fun a _ heq => hk ?_
        rw [← of_decide_eq_true heq]
        exact Nat.mod_lt _ (Nat.mul_pos hbase hm)
      rw [hnone, hnone]

/-! ## Scattering

The buckets filled by stores to computed positions: bucket `d` starts at the number of
elements with a smaller digit, and every element goes behind those of its digit that
came before it. -/

/-- Where the next element of digit `d` goes, when the elements of `before` are placed. -/
def slotOf (digit : α → Nat) (all before : List α) (d : Nat) : Nat :=
  (bucketSort digit d all).length + (before.filter fun a => digit a = d).length

/-- The slot of an element holds it in the sorted list. -/
theorem bucketSort_getElem?_slotOf {digit : α → Nat} {m : Nat} (before after : List α) (a : α)
    (ha : digit a < m) :
    (bucketSort digit m (before ++ a :: after))[slotOf digit (before ++ a :: after) before
      (digit a)]? = some a := by
  induction m with
  | zero => omega
  | succ m ih =>
    have hslot : slotOf digit (before ++ a :: after) before (digit a)
        < (bucketSort digit (digit a + 1) (before ++ a :: after)).length := by
      rw [bucketSort_succ, slotOf, List.length_append, List.filter_append, List.length_append,
        List.filter_cons_of_pos (by simp), List.length_cons]
      omega
    rw [bucketSort_succ]
    by_cases hlt : digit a < m
    · have hin := (List.getElem?_eq_some_iff.mp (ih hlt)).1
      rw [List.getElem?_append_left hin]
      exact ih hlt
    · obtain heq : digit a = m := by omega
      rw [slotOf, heq, List.getElem?_append_right (Nat.le_add_right _ _), Nat.add_sub_cancel_left,
        List.filter_append, List.getElem?_append_right (Nat.le_refl _), Nat.sub_self,
        List.filter_cons_of_pos (by simp [heq])]
      rfl

/-- An element at a place among those of a kind has the others of its kind before it. -/
theorem exists_split_of_lt_length_filter {q : α → Bool} {l : List α} {i : Nat}
    (h : i < (l.filter q).length) :
    ∃ before a after, l = before ++ a :: after ∧ q a = true ∧ (before.filter q).length = i := by
  induction l generalizing i with
  | nil => exact absurd h (Nat.not_lt_zero i)
  | cons b l ih =>
    cases hq : q b with
    | false =>
      rw [List.filter_cons_of_neg (by simp [hq])] at h
      obtain ⟨before, a, after, rfl, ha, hlen⟩ := ih h
      exact ⟨b :: before, a, after, rfl, ha, by rwa [List.filter_cons_of_neg (by simp [hq])]⟩
    | true =>
      rw [List.filter_cons_of_pos hq, List.length_cons] at h
      cases i with
      | zero => exact ⟨[], b, l, rfl, hq, rfl⟩
      | succ i =>
        obtain ⟨before, a, after, rfl, ha, hlen⟩ := ih (Nat.lt_of_succ_lt_succ h)
        exact ⟨b :: before, a, after, rfl, ha, by rw [List.filter_cons_of_pos hq,
          List.length_cons, hlen]⟩

/-- Every place of the sorted list is the slot of an element. -/
theorem exists_slotOf_eq {digit : α → Nat} {m i : Nat} {l : List α}
    (h : i < (bucketSort digit m l).length) :
    ∃ before a after, l = before ++ a :: after ∧ slotOf digit l before (digit a) = i := by
  induction m with
  | zero => exact absurd h (Nat.not_lt_zero i)
  | succ m ih =>
    by_cases hlt : i < (bucketSort digit m l).length
    · exact ih hlt
    · rw [bucketSort_succ, List.length_append] at h
      obtain ⟨before, a, after, heq, ha, hlen⟩ := exists_split_of_lt_length_filter
        (show i - (bucketSort digit m l).length < (l.filter fun a => digit a = m).length by omega)
      refine ⟨before, a, after, heq, ?_⟩
      rw [of_decide_eq_true ha, slotOf, hlen]
      omega

/-- Stores, each to its place, in the order of the list. -/
def applyStores (target : List α) (stores : List (Nat × α)) : List α :=
  stores.foldl (fun target s => target.set s.1 s.2) target

@[simp] theorem length_applyStores (target : List α) (stores : List (Nat × α)) :
    (applyStores target stores).length = target.length := by
  induction stores generalizing target with
  | nil => rfl
  | cons s stores ih => rw [applyStores, List.foldl_cons, ← applyStores, ih, List.length_set]

/-- Stores that all put in place what `result` has there, and leave no place out, make
`result` of whatever was there before, in any order. -/
theorem applyStores_eq {target result : List α} {stores : List (Nat × α)}
    (hlen : target.length = result.length) (hright : ∀ s ∈ stores, result[s.1]? = some s.2)
    (hall : ∀ i < result.length, ∃ a, (i, a) ∈ stores) : applyStores target stores = result := by
  have hget : ∀ (stores : List (Nat × α)) (target : List α) (i : Nat),
      (∀ s ∈ stores, result[s.1]? = some s.2) → target.length = result.length →
      ((∃ a, (i, a) ∈ stores) ∨ target[i]? = result[i]?) →
      (applyStores target stores)[i]? = result[i]? := by
    intro stores
    induction stores with
    | nil =>
      intro target i _ _ hi
      rcases hi with ⟨a, ha⟩ | hi
      · exact absurd ha List.not_mem_nil
      · exact hi
    | cons s stores ih =>
      intro target i hright hlen hi
      rw [applyStores, List.foldl_cons, ← applyStores]
      refine ih _ i (fun t ht => hright t (List.mem_cons_of_mem _ ht))
        ((List.length_set).trans hlen) ?_
      by_cases hs : s.1 = i
      · -- this store puts it right
        right
        subst hs
        have hin := (List.getElem?_eq_some_iff.mp (hright s List.mem_cons_self)).1
        rw [List.getElem?_set_self (hlen ▸ hin), hright s List.mem_cons_self]
      · rcases hi with ⟨a, ha⟩ | hi
        · rcases List.mem_cons.mp ha with heq | ha
          · exact absurd (congrArg Prod.fst heq).symm hs
          · exact .inl ⟨a, ha⟩
        · exact .inr (by rw [List.getElem?_set_ne hs, hi])
  refine List.ext_getElem? fun i => hget stores target i hright hlen ?_
  by_cases hi : i < result.length
  · exact .inl (hall i hi)
  · exact .inr (by rw [List.getElem?_eq_none (by omega), List.getElem?_eq_none (by omega)])

end Lib
