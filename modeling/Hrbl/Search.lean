import Hrbl.Reader

/-!
# Lookup by hash

The binary search of the reader, on entries whose stored hashes do not decrease. Hashes may
collide: from a hit with another key the search looks to its left and to its right as far as
the hash goes, so it finds a key if and only if some entry has its hash and equals it.
-/

namespace Hrbl

open Lib Lib.Outcome

/-- The entries from `start` on, in the order of their hashes. -/
structure Indexed (r : Reader) (start : UInt64) (entries : List Entry) : Prop where
  read : ∀ i entry, entries[i]? = some entry →
    readEntry r (start + UInt64.ofNat i * rootEntrySize) = .ok entry
  sorted : entries.Pairwise fun a b => a.keyHash64 ≤ b.keyHash64
  length_lt : entries.length < 2 ^ 63

/-- What a search may answer: an entry with the hash that equals the key, or that there is
none. -/
def Answers (r : Reader) (entries : List Entry) (targetHash : UInt64) (key : List UInt8) :
    Outcome Entry → Prop
  | .ok entry => entry ∈ entries ∧ entry.keyHash64 = targetHash ∧ keyEquals r entry key = .ok true
  | .no => ∀ entry ∈ entries, entry.keyHash64 = targetHash → keyEquals r entry key = .ok false
  | .fault => False

section

variable {r : Reader} {start : UInt64} {entries : List Entry} {targetHash : UInt64}
  {key : List UInt8}

theorem Indexed.hash_le {i j : Nat} {a b : Entry} (h : Indexed r start entries) (hij : i ≤ j)
    (ha : entries[i]? = some a) (hb : entries[j]? = some b) : a.keyHash64 ≤ b.keyHash64 := by
  rcases Nat.eq_or_lt_of_le hij with rfl | hlt
  · rw [ha] at hb
    cases hb
    exact UInt64.le_refl _
  · obtain ⟨hi, rfl⟩ := List.getElem?_eq_some_iff.mp ha
    obtain ⟨hj, rfl⟩ := List.getElem?_eq_some_iff.mp hb
    exact List.pairwise_iff_getElem.mp h.sorted i j hi hj hlt

/-- The walk to the left, over entries that are not behind the hash. -/
theorem probeLeft_spec (h : Indexed r start entries)
    (hequal : ∀ entry ∈ entries, ∃ b, keyEquals r entry key = .ok b) {n : Nat}
    (hn : n ≤ entries.length)
    (hbefore : ∀ i entry, i < n → entries[i]? = some entry → entry.keyHash64 ≤ targetHash) :
    (∃ entry ∈ entries, entry.keyHash64 = targetHash ∧ keyEquals r entry key = .ok true ∧
      probeLeft r start targetHash key n = .ok (some entry)) ∨
    ((∀ i entry, i < n → entries[i]? = some entry → entry.keyHash64 = targetHash →
      keyEquals r entry key = .ok false) ∧ probeLeft r start targetHash key n = .ok none) := by
  induction n with
  | zero => exact .inr ⟨fun i _ hi => absurd hi (Nat.not_lt_zero i), rfl⟩
  | succ n ih =>
    obtain ⟨candidate, hget⟩ : ∃ found, entries[n]? = some found :=
      ⟨_, List.getElem?_eq_getElem hn⟩
    have hread := h.read n candidate hget
    have hmem := List.mem_of_getElem? hget
    rw [probeLeft, hread, ok_bind]
    by_cases hhash : candidate.keyHash64 = targetHash
    · rw [if_neg (not_not.mpr hhash)]
      obtain ⟨b, hb⟩ := hequal candidate hmem
      rw [hb, ok_bind]
      cases b with
      | true => exact .inl ⟨candidate, hmem, hhash, hb, rfl⟩
      | false =>
        rcases ih (Nat.le_of_succ_le hn) (fun i entry hi => hbefore i entry (Nat.lt_succ_of_lt hi))
          with hfound | ⟨hnone, heq⟩
        · exact .inl hfound
        · refine .inr ⟨fun i entry hi hentry hsame => ?_, heq⟩
          rcases Nat.eq_or_lt_of_le (Nat.le_of_lt_succ hi) with rfl | hlt
          · rw [hget] at hentry
            cases hentry
            exact hb
          · exact hnone i entry hlt hentry hsame
    · rw [if_pos hhash]
      refine .inr ⟨fun i entry hi hentry hsame => absurd ?_ hhash, rfl⟩
      -- a smaller hash here, so no equal one further left
      have hle := h.hash_le (Nat.le_of_lt_succ hi) hentry hget
      rw [hsame] at hle
      exact UInt64.le_antisymm (hbefore n candidate (Nat.lt_succ_self n) hget) hle

/-- The walk to the right, over entries that are not in front of the hash. -/
theorem probeRight_spec (h : Indexed r start entries)
    (hequal : ∀ entry ∈ entries, ∃ b, keyEquals r entry key = .ok b)
    {entryCount right : UInt64} (hcount : entryCount.toNat = entries.length)
    (hright : right.toNat ≤ entries.length)
    (hafter : ∀ i entry, right.toNat ≤ i → entries[i]? = some entry →
      targetHash ≤ entry.keyHash64) :
    (∃ entry ∈ entries, entry.keyHash64 = targetHash ∧ keyEquals r entry key = .ok true ∧
      probeRight r start entryCount targetHash key right = .ok entry) ∨
    ((∀ i entry, right.toNat ≤ i → entries[i]? = some entry → entry.keyHash64 = targetHash →
      keyEquals r entry key = .ok false) ∧
      probeRight r start entryCount targetHash key right = .no) := by
  have hlength := h.length_lt
  have hone : (1 : UInt64).toNat = 1 := rfl
  -- by induction on what is left to the right of the probe
  induction hleft : entries.length - right.toNat generalizing right with
  | zero =>
    refine .inr ⟨fun i entry hi hentry => ?_, ?_⟩
    · obtain ⟨hlt, -⟩ := List.getElem?_eq_some_iff.mp hentry
      omega
    · rw [probeRight, if_neg]
      rw [UInt64.lt_iff_toNat_lt]
      omega
  | succ left ih =>
    have hlt : right.toNat < entries.length := by omega
    obtain ⟨candidate, hget⟩ : ∃ found, entries[right.toNat]? = some found :=
      ⟨_, List.getElem?_eq_getElem hlt⟩
    have hread := h.read _ candidate hget
    rw [UInt64.ofNat_toNat] at hread
    have hmem := List.mem_of_getElem? hget
    have hnext : (right + 1).toNat = right.toNat + 1 := by
      rw [UInt64.toNat_add, hone]
      omega
    rw [probeRight, if_pos (by rw [UInt64.lt_iff_toNat_lt]; omega), hread]
    simp only
    by_cases hhash : candidate.keyHash64 = targetHash
    · rw [if_neg (not_not.mpr hhash)]
      obtain ⟨b, hb⟩ := hequal candidate hmem
      rw [hb]
      cases b with
      | true => exact .inl ⟨candidate, hmem, hhash, hb, rfl⟩
      | false =>
        rcases ih (show (right + 1).toNat ≤ entries.length by omega)
          (fun i entry hi => hafter i entry (by omega)) (by omega) with hfound | ⟨hnone, heq⟩
        · exact .inl hfound
        · refine .inr ⟨fun i entry hi hentry hsame => ?_, heq⟩
          rcases Nat.eq_or_lt_of_le hi with rfl | hlt
          · rw [hget] at hentry
            cases hentry
            exact hb
          · exact hnone i entry (by omega) hentry hsame
    · rw [if_pos hhash]
      refine .inr ⟨fun i entry hi hentry hsame => absurd ?_ hhash, rfl⟩
      -- behind an entry with another hash no entry has the hash, since they are in order
      have hle := h.hash_le hi hget hentry
      rw [hsame] at hle
      exact UInt64.le_antisymm hle (hafter _ candidate (Nat.le_refl _) hget)

/-- From a hit, the search looks at all entries with the hash. -/
theorem linearProbeRange_spec (h : Indexed r start entries)
    (hequal : ∀ entry ∈ entries, ∃ b, keyEquals r entry key = .ok b)
    {entryCount index : UInt64} (hcount : entryCount.toNat = entries.length) {hit : Entry}
    (hhit : entries[index.toNat]? = some hit) (hhash : hit.keyHash64 = targetHash) :
    Answers r entries targetHash key
      (linearProbeRange r start entryCount index targetHash key) := by
  have hlength := h.length_lt
  have hone : (1 : UInt64).toNat = 1 := rfl
  obtain ⟨hindex, -⟩ := List.getElem?_eq_some_iff.mp hhit
  have hnext : (index + 1).toNat = index.toNat + 1 := by
    rw [UInt64.toNat_add, hone]
    omega
  rw [linearProbeRange, if_pos (by omega)]
  rcases probeLeft_spec h hequal (n := index.toNat + 1) (by omega)
      fun i entry hi hentry => hhash ▸ h.hash_le (by omega) hentry hhit with
    ⟨entry, hmem, hsame, hkey, heq⟩ | ⟨hleft, heq⟩
  · rw [heq]
    exact ⟨hmem, hsame, hkey⟩
  · rw [heq, ok_bind]
    simp only
    rcases probeRight_spec h hequal hcount
        (show (index + 1).toNat ≤ entries.length by omega)
        fun i entry hi hentry => hhash ▸ h.hash_le (by omega) hhit hentry with
      ⟨entry, hmem, hsame, hkey, heq'⟩ | ⟨hright, heq'⟩
    · rw [heq']
      exact ⟨hmem, hsame, hkey⟩
    · rw [heq']
      intro entry hmem hsame
      obtain ⟨i, hi⟩ := List.mem_iff_getElem?.mp hmem
      rcases Nat.lt_or_ge i (index.toNat + 1) with hlt | hge
      · exact hleft i entry hlt hi hsame
      · exact hright i entry (by omega) hi hsame

/-- The loop keeps every entry with the hash between its bounds. -/
theorem binarySearchLoop_spec (h : Indexed r start entries)
    (hequal : ∀ entry ∈ entries, ∃ b, keyEquals r entry key = .ok b)
    {entryCount low high : UInt64} (hcount : entryCount.toNat = entries.length)
    (hhigh : high.toNat ≤ entries.length)
    (hbelow : ∀ i entry, i < low.toNat → entries[i]? = some entry →
      entry.keyHash64 < targetHash)
    (habove : ∀ i entry, high.toNat ≤ i → entries[i]? = some entry →
      targetHash < entry.keyHash64) :
    Answers r entries targetHash key
      (binarySearchLoop r start entryCount targetHash key low high) := by
  have hlength := h.length_lt
  have hone : (1 : UInt64).toNat = 1 := rfl
  have htwo : (2 : UInt64).toNat = 2 := rfl
  -- by induction on the width, with all entries below smaller and all above greater
  induction hwidth : high.toNat - low.toNat using Nat.strong_induction_on generalizing low high with
  | _ width ih =>
    rw [binarySearchLoop]
    by_cases hlt : low < high
    · rw [UInt64.lt_iff_toNat_lt] at hlt
      -- the sum of the middle does not wrap
      have hmiddle : (low + (high - low) / 2).toNat =
          low.toNat + (high.toNat - low.toNat) / 2 := by
        rw [UInt64.toNat_add, UInt64.toNat_div, UInt64.toNat_sub_of_le _ _
          (UInt64.le_iff_toNat_le.mpr hlt.le), htwo]
        omega
      have hmiddle' : (low + (high - low) / 2 + 1).toNat =
          low.toNat + (high.toNat - low.toNat) / 2 + 1 := by
        rw [UInt64.toNat_add, hmiddle, hone]
        omega
      generalize low + (high - low) / 2 = middle at *
      have hinside : middle.toNat < entries.length := by omega
      obtain ⟨candidate, hget⟩ : ∃ found, entries[middle.toNat]? = some found :=
        ⟨_, List.getElem?_eq_getElem hinside⟩
      have hread := h.read _ candidate hget
      rw [UInt64.ofNat_toNat] at hread
      rw [if_pos (UInt64.lt_iff_toNat_lt.mpr hlt), hread]
      simp only
      by_cases hless : candidate.keyHash64 < targetHash
      · rw [if_pos hless]
        refine ih _ ?_ hhigh (fun i entry hi hentry => ?_) habove rfl
        · omega
        · exact UInt64.lt_of_le_of_lt (h.hash_le (by omega) hentry hget) hless
      · rw [if_neg hless]
        by_cases hmore : candidate.keyHash64 > targetHash
        · rw [if_pos hmore]
          refine ih _ ?_ (by omega) hbelow (fun i entry hi hentry => ?_) rfl
          · omega
          · exact UInt64.lt_of_lt_of_le hmore (h.hash_le hi hget hentry)
        · rw [if_neg hmore]
          -- a hash that is equal may be that of another key, to either side
          have hhash : candidate.keyHash64 = targetHash :=
            UInt64.le_antisymm (UInt64.not_lt.mp hmore) (UInt64.not_lt.mp hless)
          have hmem := List.mem_of_getElem? hget
          obtain ⟨b, hb⟩ := hequal candidate hmem
          rw [hb]
          cases b with
          | true => exact ⟨hmem, hhash, hb⟩
          | false => exact linearProbeRange_spec h hequal hcount hget hhash
    · rw [if_neg hlt]
      rw [UInt64.lt_iff_toNat_lt] at hlt
      -- an empty range leaves no entry with the hash
      intro entry hmem hsame
      obtain ⟨i, hi⟩ := List.mem_iff_getElem?.mp hmem
      rcases Nat.lt_or_ge i low.toNat with hbefore | hafter
      · exact absurd (hsame ▸ hbelow i entry hbefore hi) (UInt64.lt_irrefl _)
      · exact absurd (hsame ▸ habove i entry (by omega) hi) (UInt64.lt_irrefl _)

/-- The search answers truly. -/
theorem binarySearchEntries_spec (h : Indexed r start entries)
    (hequal : ∀ entry ∈ entries, ∃ b, keyEquals r entry key = .ok b) {entryCount : UInt64}
    (hcount : entryCount.toNat = entries.length) (targetHash : UInt64) :
    Answers r entries targetHash key
      (binarySearchEntries r start entryCount targetHash key) := by
  have hzero : (0 : UInt64).toNat = 0 := rfl
  rw [binarySearchEntries]
  by_cases hempty : entryCount = 0
  · rw [if_pos hempty]
    intro entry hmem
    rw [hempty, hzero] at hcount
    rw [List.length_eq_zero_iff.mp hcount.symm] at hmem
    exact absurd hmem List.not_mem_nil
  · rw [if_neg hempty]
    refine binarySearchLoop_spec h hequal hcount hcount.le
      (fun i entry hi => absurd hi (Nat.not_lt_zero i)) fun i entry hi hentry => ?_
    obtain ⟨hlt, -⟩ := List.getElem?_eq_some_iff.mp hentry
    omega

/-- Among entries of different hashes there is one answer. -/
theorem Answers.eq_of_mem {x : Outcome Entry} (h : Answers r entries targetHash key x)
    (hsorted : entries.Pairwise fun a b => a.keyHash64 < b.keyHash64) {entry : Entry}
    (hmem : entry ∈ entries) (hhash : entry.keyHash64 = targetHash)
    (hkey : keyEquals r entry key = .ok true) : x = .ok entry := by
  cases x with
  | fault => exact h.elim
  | no =>
    have hnone := h entry hmem hhash
    rw [hkey] at hnone
    cases hnone
  | ok found =>
    obtain ⟨hfound, hsame, -⟩ := h
    congr 1
    obtain ⟨i, hi, rfl⟩ := List.mem_iff_getElem.mp hfound
    obtain ⟨j, hj, rfl⟩ := List.mem_iff_getElem.mp hmem
    have hpairs := List.pairwise_iff_getElem.mp hsorted
    rcases Nat.lt_trichotomy i j with hlt | rfl | hgt
    · have hless := hpairs i j hi hj hlt
      rw [hsame, hhash] at hless
      exact absurd hless (UInt64.lt_irrefl _)
    · rfl
    · have hless := hpairs j i hj hi hgt
      rw [hsame, hhash] at hless
      exact absurd hless (UInt64.lt_irrefl _)

end

/-! ## What a search returns, sorted or not -/

/-- An entry that the search has read at a place of the run, with the hash and the key. -/
def Hit (r : Reader) (start entryCount targetHash : UInt64) (key : List UInt8) (entry : Entry) :
    Prop :=
  ∃ i : UInt64, i < entryCount ∧ readEntry r (start + i * rootEntrySize) = .ok entry ∧
    entry.keyHash64 = targetHash ∧ keyEquals r entry key = .ok true

section

variable {r : Reader} {start entryCount targetHash : UInt64} {key : List UInt8} {entry : Entry}

theorem probeLeft_hit {n : Nat} (hn : n ≤ entryCount.toNat)
    (h : probeLeft r start targetHash key n = .ok (some entry)) :
    Hit r start entryCount targetHash key entry := by
  have hlt := entryCount.toNat_lt
  induction n with
  | zero => cases h
  | succ n ih =>
    rw [probeLeft] at h
    obtain ⟨candidate, hread, h⟩ := bind_eq_ok.mp h
    split at h
    · cases h
    · rename_i hhash
      obtain ⟨equal, hequal, h⟩ := bind_eq_ok.mp h
      split at h
      · rename_i htrue
        cases h
        rw [htrue] at hequal
        refine ⟨UInt64.ofNat n, ?_, hread, not_not.mp hhash, hequal⟩
        rw [UInt64.lt_iff_toNat_lt, UInt64.toNat_ofNat']
        omega
      · exact ih (Nat.le_of_succ_le hn) h

theorem probeRight_hit {right : UInt64}
    (h : probeRight r start entryCount targetHash key right = .ok entry) :
    Hit r start entryCount targetHash key entry := by
  fun_induction probeRight r start entryCount targetHash key right with
  | case1 => cases h
  | case2 right hlt candidate hread hhash hequal =>
    cases h
    exact ⟨right, hlt, hread, not_not.mp hhash, hequal⟩
  | case3 _ _ _ _ _ _ ih => exact ih h
  | case4 => cases h
  | case5 => cases h
  | case6 => cases h
  | case7 => cases h
  | case8 => cases h

theorem linearProbeRange_hit {index : UInt64} (hindex : index < entryCount)
    (h : linearProbeRange r start entryCount index targetHash key = .ok entry) :
    Hit r start entryCount targetHash key entry := by
  rw [UInt64.lt_iff_toNat_lt] at hindex
  rw [linearProbeRange] at h
  obtain ⟨hit, hleft, h⟩ := bind_eq_ok.mp h
  cases hit with
  | some found =>
    cases h
    refine probeLeft_hit ?_ hleft
    split <;> omega
  | none => exact probeRight_hit h

theorem binarySearchLoop_hit {low high : UInt64} (hhigh : high ≤ entryCount)
    (h : binarySearchLoop r start entryCount targetHash key low high = .ok entry) :
    Hit r start entryCount targetHash key entry := by
  have hmiddle : ∀ {low high : UInt64}, low < high → high ≤ entryCount →
      low + (high - low) / 2 < high ∧ low + (high - low) / 2 < entryCount := by
    intro low high hlt hle
    have htwo : (2 : UInt64).toNat = 2 := rfl
    have hbound := high.toNat_lt
    rw [UInt64.lt_iff_toNat_lt] at hlt
    rw [UInt64.le_iff_toNat_le] at hle
    rw [UInt64.lt_iff_toNat_lt, UInt64.lt_iff_toNat_lt, UInt64.toNat_add, UInt64.toNat_div,
      UInt64.toNat_sub_of_le _ _ (UInt64.le_iff_toNat_le.mpr hlt.le), htwo]
    omega
  fun_induction binarySearchLoop r start entryCount targetHash key low high with
  | case1 _ _ _ _ _ _ ih => exact ih hhigh h
  | case2 low high hlt _ _ _ _ ih =>
    exact ih (UInt64.le_of_lt (hmiddle hlt hhigh).2) h
  | case3 low high hlt candidate hread hless hmore hequal =>
    cases h
    refine ⟨_, (hmiddle hlt hhigh).2, hread, ?_, hequal⟩
    exact UInt64.le_antisymm (UInt64.not_lt.mp hmore) (UInt64.not_lt.mp hless)
  | case4 low high hlt => exact linearProbeRange_hit (hmiddle hlt hhigh).2 h
  | case5 => cases h
  | case6 => cases h
  | case7 => cases h
  | case8 => cases h
  | case9 => cases h

/-- Whatever the order of the entries, the search returns one of them. -/
theorem binarySearchEntries_hit
    (h : binarySearchEntries r start entryCount targetHash key = .ok entry) :
    Hit r start entryCount targetHash key entry := by
  rw [binarySearchEntries] at h
  split at h
  · cases h
  · exact binarySearchLoop_hit (UInt64.le_refl _) h

end

/-- Comparing a key reads what the entry announces, when that is inside the file. -/
theorem keyEquals_ok (r : Reader) (entry : Entry) {key : List UInt8}
    (hkey : key.length < 2 ^ 64) : ∃ b, keyEquals r entry key = .ok b := by
  have hlength : (UInt64.ofNat key.length).toNat = key.length := by
    rw [UInt64.toNat_ofNat']
    exact Nat.mod_eq_of_lt hkey
  have hsize := r.base.toNat_size
  have hfour : (4 : UInt64).toNat = 4 := rfl
  have hpool := entry.keyPoolOffset.toNat_lt
  have hlen := entry.keyLength.toNat_lt
  rw [keyEquals]
  by_cases hsame : entry.keyLength.toUInt64 = UInt64.ofNat key.length
  · have hsame' := congrArg UInt64.toNat hsame
    rw [UInt32.toNat_toUInt64, hlength] at hsame'
    dsimp only
    rw [if_neg (not_not.mpr hsame)]
    split
    · exact ⟨_, rfl⟩
    · split
      · exact ⟨_, rfl⟩
      · rename_i hinside
        rw [gt_iff_lt, UInt64.lt_iff_toNat_lt, not_lt, hsize, UInt64.toNat_add, UInt64.toNat_add,
          UInt32.toNat_toUInt64, hfour, hlength] at hinside
        have hsafe : Safe (load r.base (entry.keyPoolOffset.toUInt64 + 4) key.length) := by
          rw [load_safe, UInt64.toNat_add, UInt32.toNat_toUInt64, hfour]
          omega
        cases hload : load r.base (entry.keyPoolOffset.toUInt64 + 4) key.length with
        | ok raw => exact ⟨_, rfl⟩
        | no => exact absurd hload load_ne_no
        | fault => exact absurd hload hsafe
  · rw [if_pos hsame]
    exact ⟨_, rfl⟩

/-! ## Reads of a search -/

section

variable {r : Reader} {start entryCount targetHash : UInt64} {key : List UInt8}

/-- Every entry of the table can be asked for. -/
def TableSafe (r : Reader) (start entryCount : UInt64) : Prop :=
  ∀ i : UInt64, i < entryCount → Safe (readEntry r (start + i * rootEntrySize))

theorem keyEquals_safe (entry : Entry) (hkey : key.length < 2 ^ 64) :
    Safe (keyEquals r entry key) := by
  obtain ⟨equal, hequal⟩ := keyEquals_ok r entry hkey
  rw [hequal]
  exact safe_ok _

theorem probeLeft_safe (htable : TableSafe r start entryCount) (hkey : key.length < 2 ^ 64)
    {n : Nat} (hn : n ≤ entryCount.toNat) : Safe (probeLeft r start targetHash key n) := by
  have hlt := entryCount.toNat_lt
  induction n with
  | zero => exact safe_ok _
  | succ n ih =>
    have hindex : UInt64.ofNat n < entryCount := by
      rw [UInt64.lt_iff_toNat_lt, UInt64.toNat_ofNat', Nat.mod_eq_of_lt (by omega)]
      omega
    rw [probeLeft]
    refine Safe.bind (htable _ hindex) ?_
    intro candidate _
    split
    · exact safe_ok _
    · refine Safe.bind (keyEquals_safe _ hkey) ?_
      intro equal _
      split
      · exact safe_ok _
      · exact ih (by omega)

theorem probeRight_safe (htable : TableSafe r start entryCount) (hkey : key.length < 2 ^ 64)
    (right : UInt64) : Safe (probeRight r start entryCount targetHash key right) := by
  fun_induction probeRight r start entryCount targetHash key right with
  | case1 => exact safe_no
  | case2 => exact safe_ok _
  | case3 _ _ _ _ _ _ ih => exact ih
  | case4 => exact safe_no
  | case5 _ _ candidate _ _ hequal =>
    have hsafe := keyEquals_safe (r := r) candidate hkey
    rw [hequal] at hsafe
    exact absurd hsafe not_safe_fault
  | case6 => exact safe_no
  | case7 right hlt hread =>
    have hsafe := htable right hlt
    rw [hread] at hsafe
    exact absurd hsafe not_safe_fault
  | case8 => exact safe_no

theorem linearProbeRange_safe (htable : TableSafe r start entryCount) (hkey : key.length < 2 ^ 64)
    {index : UInt64} (hindex : index < entryCount) :
    Safe (linearProbeRange r start entryCount index targetHash key) := by
  rw [UInt64.lt_iff_toNat_lt] at hindex
  rw [linearProbeRange]
  refine Safe.bind (probeLeft_safe htable hkey ?_) ?_
  · split
    · omega
    · omega
  · intro hit _
    cases hit with
    | some entry => exact safe_ok _
    | none => exact probeRight_safe htable hkey _

/-- The middle of a range is in it. -/
theorem middle_lt {low high : UInt64} (hlt : low < high) : low + (high - low) / 2 < high := by
  have htwo : (2 : UInt64).toNat = 2 := rfl
  have hbound := high.toNat_lt
  rw [UInt64.lt_iff_toNat_lt] at hlt
  rw [UInt64.lt_iff_toNat_lt, UInt64.toNat_add, UInt64.toNat_div,
    UInt64.toNat_sub_of_le _ _ (UInt64.le_iff_toNat_le.mpr hlt.le), htwo]
  omega

theorem binarySearchLoop_safe (htable : TableSafe r start entryCount) (hkey : key.length < 2 ^ 64)
    {low high : UInt64} (hhigh : high ≤ entryCount) :
    Safe (binarySearchLoop r start entryCount targetHash key low high) := by
  fun_induction binarySearchLoop r start entryCount targetHash key low high with
  | case1 low high hlt candidate hread hless ih => exact ih hhigh
  | case2 low high hlt candidate hread hless hmore ih =>
    exact ih (UInt64.le_trans (UInt64.le_of_lt (middle_lt hlt)) hhigh)
  | case3 => exact safe_ok _
  | case4 low high hlt candidate hread hless hmore hequal =>
    exact linearProbeRange_safe htable hkey (UInt64.lt_of_lt_of_le (middle_lt hlt) hhigh)
  | case5 => exact safe_no
  | case6 low high hlt candidate hread hless hmore hequal =>
    have hsafe := keyEquals_safe (r := r) candidate hkey
    rw [hequal] at hsafe
    exact absurd hsafe not_safe_fault
  | case7 => exact safe_no
  | case8 low high hlt hread =>
    have hsafe := htable _ (UInt64.lt_of_lt_of_le (middle_lt hlt) hhigh)
    rw [hread] at hsafe
    exact absurd hsafe not_safe_fault
  | case9 => exact safe_no

theorem binarySearchEntries_safe (htable : TableSafe r start entryCount)
    (hkey : key.length < 2 ^ 64) : Safe (binarySearchEntries r start entryCount targetHash key) := by
  unfold binarySearchEntries
  split
  · exact safe_no
  · exact binarySearchLoop_safe htable hkey (UInt64.le_refl _)

end

end Hrbl
